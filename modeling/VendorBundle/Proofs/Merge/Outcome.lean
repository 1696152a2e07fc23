import VendorBundle.Proofs.Merge.Unchanged

/-!
# What a successful build does

A build removes what is gone, puts what arrives and then makes the targets anew that are left. It
succeeds only when each of these acts can be carried out after those before it.
-/

namespace VendorBundle

open Entry Memory Effect

/-- Only a file is put by a change. -/
theorem Patch.kind_of_arrival? {olds : List Entry} {e : Entry} {op : PatchOp}
    (h : arrival? olds e = some op) (hp : op.puts = true) : e.kind = .file := by
  rcases op_of_arrival? h with rfl | ⟨-, hk⟩
  · rw [PatchOp.addition] at hp
    cases hk : e.kind with
    | file => rfl
    | directory => simp [hk, PatchOp.puts] at hp
  · exact hk

/-- A sequence of acts is carried out part by part. -/
theorem Runs.of_append {u w : View} {acts acts' : List Act} (h : Runs u (acts ++ acts') w) :
    ∃ v, Runs u acts v ∧ Runs v acts' w := by
  induction acts generalizing u with
  | nil => exact ⟨u, .done u, h⟩
  | cons a acts ih =>
      cases h with
      | step hp h =>
          obtain ⟨v, hv, hw⟩ := ih h
          exact ⟨v, .step hp hv, hw⟩

/-! ## The acts of a build -/

/-- The act that removes an entry. -/
def Act.leaving (e : Entry) : Act :=
  match e.kind with
  | .file => .drop (Text.split '/' e.path)
  | .directory => .clear (Text.split '/' e.path)

@[simp] theorem Act.place_leaving (e : Entry) : (leaving e).place = Text.split '/' e.path := by
  rw [leaving]
  cases e.kind <;> rfl

@[simp] theorem Act.isRemoval_leaving (e : Entry) : (leaving e).isRemoval = true := by
  rw [leaving]
  cases e.kind <;> rfl

theorem Act.leaving_eq_leaving_iff {e e' : Entry} :
    leaving e = leaving e' ↔ e.path = e'.path ∧ e.kind = e'.kind := by
  rw [leaving, leaving]
  cases e.kind <;> cases e'.kind <;> simp [Text.split_injective.eq_iff]

namespace MergeOptions

variable (o : MergeOptions) (old new : Memory)

/-- The acts that remove what is gone. -/
def removing : List Act :=
  (((o.merged old).filter (Patch.isGone (o.merged new))).map Act.leaving).reverse

/-- The act that puts an entry, if its content is there. -/
def entering? (e : Entry) : Option Act :=
  match e.kind with
  | .file => (o.content? new (o.overlay new) e.path).map (.write (Text.split '/' e.path))
  | .directory => some (.make (Text.split '/' e.path))

/-- The acts that put what is new. -/
def arriving : List Act :=
  (o.merged new).filterMap fun e =>
    (Patch.arrival? (o.merged old) e).bind fun _ => o.entering? new e

/-- The acts that make the targets anew that are left. -/
def renewing : List Act := (o.left old new).filterMap (o.renewal? new (o.overlay new))

/-- A build between two states of the input trees leads from one tree of the result to another. -/
structure Carries (v w : View) : Prop where
  puts : ∀ e ∈ o.merged new, (Patch.arrival? (o.merged old) e).isSome → (o.entering? new e).isSome
  renews : ∀ target ∈ o.left old new, (o.renewal? new (o.overlay new) target).isSome
  runs : ∃ v₁ v₂, Runs v (o.removing old new) v₁ ∧ Runs v₁ (o.arriving old new) v₂ ∧
    Runs v₂ (o.renewing old new) w

variable {o old new}

theorem act?_removal (overlay : Overlay) (e : Entry) :
    o.act? new overlay (.removal e) = some (Act.leaving e) := by
  rw [PatchOp.removal, Act.leaving]
  cases e.kind <;> rfl

theorem act?_arrival {olds : List Entry} {e : Entry} {op : PatchOp}
    (h : Patch.arrival? olds e = some op) :
    o.act? new (o.overlay new) op = o.entering? new e := by
  rcases Patch.op_of_arrival? h with rfl | ⟨rfl, hk⟩
  · rw [PatchOp.addition, entering?]
    cases e.kind <;> rfl
  · rw [entering?, hk]
    rfl

theorem filterMap_act?_builtPatch :
    (o.builtPatch old new).filterMap (o.act? new (o.overlay new)) =
      o.removing old new ++ o.arriving old new := by
  rw [builtPatch, Patch.between_eq ascending_merged ascending_merged, List.filterMap_append,
    List.filterMap_reverse, List.filterMap_map, removing, arriving, List.filterMap_filterMap]
  congr 1
  · rw [← List.filterMap_eq_map]
    exact congrArg _ (List.filterMap_congr fun e _ => act?_removal _ e)
  · refine List.filterMap_congr fun e _ => ?_
    cases h : Patch.arrival? (o.merged old) e with
    | none => rfl
    | some op => exact act?_arrival h

/-- All changes can be carried over when the contents of the files that arrive are there. -/
theorem mapM_builtPatch (hputs : ∀ e ∈ o.merged new, (Patch.arrival? (o.merged old) e).isSome →
    (o.entering? new e).isSome) : (o.builtPatch old new).mapM (o.act? new (o.overlay new)) =
      some (o.removing old new ++ o.arriving old new) := by
  refine mapM_eq_some_iff.mpr ⟨fun op hop => ?_, filterMap_act?_builtPatch.symm⟩
  rcases (Patch.mem_between ascending_merged ascending_merged).mp hop with
    ⟨e, -, -, rfl⟩ | ⟨e, he, ha⟩
  · rw [act?_removal]
    rfl
  · rw [act?_arrival ha]
    exact hputs e he (by rw [ha]; rfl)

theorem carries_iff {v w : View} : o.Carries old new v w ↔
    ∃ acts renewals v', (o.builtPatch old new).mapM (o.act? new (o.overlay new)) = some acts ∧
      (o.left old new).mapM (o.renewal? new (o.overlay new)) = some renewals ∧
      Runs v acts v' ∧ Runs v' renewals w := by
  constructor
  · rintro ⟨hputs, hrenews, v₁, v₂, h₁, h₂, h₃⟩
    exact ⟨_, _, v₂, mapM_builtPatch hputs, mapM_eq_some_iff.mpr ⟨hrenews, rfl⟩, h₁.append h₂, h₃⟩
  · rintro ⟨acts, renewals, v', hacts, hrenewals, hruns, hruns'⟩
    obtain ⟨hall, rfl⟩ := mapM_eq_some_iff.mp hacts
    obtain ⟨hall', rfl⟩ := mapM_eq_some_iff.mp hrenewals
    rw [filterMap_act?_builtPatch] at hruns
    obtain ⟨v₁, h₁, h₂⟩ := hruns.of_append
    refine ⟨fun e he ha => ?_, hall', v₁, v', h₁, h₂, hruns'⟩
    obtain ⟨op, hop⟩ := Option.isSome_iff_exists.mp ha
    rw [← act?_arrival hop]
    exact hall op ((Patch.mem_between ascending_merged ascending_merged).mpr (.inr ⟨e, he, hop⟩))

end MergeOptions

/-! ## The outcome of a build -/

namespace Merger

open MergeOptions

/-- The merger of the options that has taken over the input trees of a state. -/
def after (o : MergeOptions) (old : Memory) : Merger :=
  { create o with
    built := ⟨o.merged old⟩
    generated := ⟨o.generatedListing old⟩ }

variable {o : MergeOptions} {old m m' : Memory}

theorem made_after : (after o old).Made := ⟨rfl, rfl⟩

theorem outcome_listing (hm : m.Named) (dir : Path) (options : ListOptions) :
    outcome (listing dir options) m = (.ok (m.listing dir options), m) := by
  rw [listing, outcome_adapt, outcome_look, listTree_eq_listing hm]
  rfl

/-- A build carries over the patch between the input trees that were taken over and those that are
there, and makes anew what is left. -/
theorem outcome_build (hm : m.Named) : outcome (after o old).build m =
    outcome (do
      let changes ← summed ((after o old).apply (o.overlay m)) (o.builtPatch old m)
      let more ← summed (after o old).regenerate (o.left old m)
      pure (changes + more, after o m)) (m.addDir o.outputDir) := by
  have hmake : ∀ dir : Path, outcome (tried .createDir dir (Files.createDir true dir)) m =
      (.ok (), m.addDir dir) := fun dir => by
    rw [outcome_tried, Memory.outcome_createDir]
    rfl
  have hgenerated : Entry.normalize (o.generatedListing m) = o.generatedListing m :=
    normalize_of_ascending (ascending_listing hm _ _)
  rw [build, outcome_bind_of_ok (outcome_listing hm _ _),
    outcome_bind_of_ok (outcome_listing hm _ _), outcome_bind_of_ok (hmake _)]
  simp only [Snapshot.prepare, Snapshot.commit]
  change outcome (do
    let changes ← summed ((after o old).apply (o.overlay m)) (o.builtPatch old m)
    let more ← summed (after o old).regenerate ((after o old).remaining ((after o old).affected
      (Patch.between (o.generatedListing old) (Entry.normalize (o.generatedListing m))))
      (o.builtPatch old m))
    pure (changes + more, ({ create o with
      built := ⟨o.merged m⟩
      generated := ⟨Entry.normalize (o.generatedListing m)⟩ } : Merger))) _ = _
  rw [hgenerated]
  rfl

/-- A build succeeds when both passes do. -/
theorem build_of_passes (hm : m.Named) {s₁ s₂ : MergeSummary} {m₁ : Memory}
    (h₁ : outcome (summed ((after o old).apply (o.overlay m)) (o.builtPatch old m))
      (m.addDir o.outputDir) = (.ok s₁, m₁))
    (h₂ : outcome (summed (after o old).regenerate (o.left old m)) m₁ = (.ok s₂, m')) :
    outcome (after o old).build m = (.ok (s₁ + s₂, after o m), m') := by
  rw [outcome_build hm, outcome_bind_of_ok h₁, outcome_bind_of_ok h₂]
  rfl

/-- And only then. -/
theorem passes_of_build (hm : m.Named) {s : MergeSummary} {g : Merger}
    (ho : outcome (after o old).build m = (.ok (s, g), m')) : g = after o m ∧ ∃ s₁ m₁ s₂,
      outcome (summed ((after o old).apply (o.overlay m)) (o.builtPatch old m))
        (m.addDir o.outputDir) = (.ok s₁, m₁) ∧
      outcome (summed (after o old).regenerate (o.left old m)) m₁ = (.ok s₂, m') ∧
      s = s₁ + s₂ := by
  rw [outcome_build hm] at ho
  obtain ⟨s₁, m₁, hfirst, hrest⟩ := outcome_bind_eq_ok_iff.mp ho
  obtain ⟨s₂, m₂, hsecond, hpure⟩ := outcome_bind_eq_ok_iff.mp hrest
  obtain ⟨hg, rfl⟩ := Prod.mk.inj hpure
  obtain ⟨rfl, rfl⟩ := Prod.mk.inj (Except.ok.inj hg)
  exact ⟨rfl, s₁, m₁, s₂, hfirst, hsecond, rfl⟩

theorem canonical_of_mem_changes
    (hp : ∀ e ∈ o.passthrough.entries, Overlay.IsPlace (trimSlashes e.2)) (hold : old.Named)
    (hm : m.Named) {op : PatchOp} (hop : op ∈ o.builtPatch old m) : Canonical op.path := by
  rcases Patch.path_of_mem_between ascending_merged ascending_merged hop with
    ⟨e, he, hpath⟩ | ⟨e, he, hpath⟩
  · exact hpath ▸ canonical_of_mem_merged hp hold he
  · exact hpath ▸ canonical_of_mem_merged hp hm he

section

variable (hr : o.Regular) (hold : old.Named) (hm : m.Named)

include hr hold hm

theorem canonical_of_mem_builtPatch {op : PatchOp} (hop : op ∈ o.builtPatch old m) :
    Canonical op.path := canonical_of_mem_changes hr.places hold hm hop

/-- Carrying over a change does what its act does. -/
theorem enacts_builtPatch (h : o.Mergeable m) {op : PatchOp} (hop : op ∈ o.builtPatch old m)
    {m₁ : Memory} (hw : Within o.outputDir.resolved m m₁) :
    Enacts o.outputDir.resolved (o.act? m (o.overlay m) op)
      ((after o old).apply (o.overlay m) op) m₁ := by
  refine enacts_apply (g := after o old) made_after hr hm hw
    (canonical_of_mem_builtPatch hr hold hm hop)
    (fun path source => canonical_sources hm) fun hputs ht => ?_
  rcases (Patch.mem_between ascending_merged ascending_merged).mp hop with
    ⟨e, -, -, rfl⟩ | ⟨e, he, ha⟩
  · simp at hputs
  · rw [Patch.path_of_arrival? ha] at ht ⊢
    exact bytes?_of_target hm h ht
      (ascending_merged.entryAt?_eq_some_iff.mpr ⟨he, rfl⟩) (Patch.kind_of_arrival? ha hputs)

omit hold in
theorem enacts_left {target : String} (ht : target ∈ o.left old m) {m₁ : Memory}
    (hw : Within o.outputDir.resolved m m₁) :
    Enacts o.outputDir.resolved (o.renewal? m (o.overlay m) target)
      ((after o old).regenerate target) m₁ :=
  enacts_regenerate (g := after o old) made_after hr hm hw (contains_of_mem_left ht)

theorem keeps_builtPatch : ∀ op ∈ o.builtPatch old m,
    Keeps (Within o.outputDir.resolved) ((after o old).apply (o.overlay m) op) := fun _ hop =>
  (after o old).keeps_apply (o.overlay m) (canonical_of_mem_builtPatch hr hold hm hop)

omit hold hm in
theorem keeps_left : ∀ target ∈ o.left old m, Keeps (Within o.outputDir.resolved)
    ((after o old).regenerate target : MergeEffect Memory MergeSummary) := fun _ ht =>
  (after o old).keeps_regenerate (hr.canonical (contains_of_mem_left ht))

/-- A build changes nothing but the result. -/
theorem keeps_build : Within o.outputDir.resolved m (outcome (after o old).build m).2 := by
  rw [outcome_build hm]
  refine (Within.addDir_root o.outputDir m).trans ?_
  exact keeps_bind (keeps_summed (fun _ => .refl) .trans (keeps_builtPatch hr hold hm)) (fun _ =>
    keeps_bind (keeps_summed (fun _ => .refl) .trans (keeps_left hr)) fun _ => keeps_pure _) _

end

/-- Creating the directory of the result changes nothing when it is there. -/
theorem view_addDir_root {dir : Path} (hd : m.node? dir.resolved = some .dir) :
    (m.addDir dir).view dir.resolved = m.view dir.resolved := by
  rw [m.view_addDir dir.resolved [] (by simp)]
  funext q
  cases q with
  | nil => simp [View.fill, Memory.view, hd, Node.item]
  | cons n q => simp [View.fill]

/-- A build that succeeds carries all changes over and takes the input trees over. -/
theorem build_ok (hr : o.Regular) (hold : old.Named) (hm : m.Named) (h : o.Mergeable m)
    (hd : m.node? o.outputDir.resolved = some .dir) {s : MergeSummary} {g : Merger}
    (ho : outcome (after o old).build m = (.ok (s, g), m')) :
    g = after o m ∧
      o.Carries old m (m.view o.outputDir.resolved) (m'.view o.outputDir.resolved) ∧
      Within o.outputDir.resolved m m' := by
  obtain ⟨hg, s₁, m₁, s₂, hfirst, hsecond, -⟩ := passes_of_build hm ho
  obtain ⟨acts, hacts, hruns, hw₁⟩ := summed_runs (keeps_builtPatch hr hold hm)
    (fun op hop m₁ => enacts_builtPatch hr hold hm h hop)
    (.addDir_root o.outputDir m) hfirst
  obtain ⟨renewals, hrenewals, hruns', hw₂⟩ := summed_runs (keeps_left hr)
    (fun target ht m₁ => enacts_left hr hm ht) hw₁ hsecond
  rw [view_addDir_root hd] at hruns
  exact ⟨hg,
    carries_iff.mpr ⟨acts, renewals, _, hacts, hrenewals, hruns, hruns'⟩, hw₂⟩

/-- A build succeeds when its acts can be carried out. -/
theorem build_of_carries (hr : o.Regular) (hold : old.Named) (hm : m.Named) (h : o.Mergeable m)
    (hd : m.node? o.outputDir.resolved = some .dir) {w : View}
    (hc : o.Carries old m (m.view o.outputDir.resolved) w) :
    ∃ s m', outcome (after o old).build m = (.ok (s, after o m), m') := by
  obtain ⟨acts, renewals, v, hacts, hrenewals, hruns, hruns'⟩ := carries_iff.mp hc
  rw [← view_addDir_root hd] at hruns
  obtain ⟨s₁, m₁, hfirst, rfl, hw₁⟩ := summed_succeeds (keeps_builtPatch hr hold hm)
    (fun op hop m₁ => enacts_builtPatch hr hold hm h hop)
    (.addDir_root o.outputDir m) hacts hruns
  obtain ⟨s₂, m₂, hsecond, -⟩ := summed_succeeds (keeps_left hr)
    (fun target ht m₁ => enacts_left hr hm ht) hw₁ hrenewals hruns'
  exact ⟨s₁ + s₂, m₂, build_of_passes hm hfirst hsecond⟩

end Merger

end VendorBundle

import VendorBundle.Proofs.Merge.Restored

/-!
# A build from scratch

A new merger that builds into an empty directory puts the whole tree of its inputs there. Targets
that are left afterwards are no files of the tree, so making them anew changes nothing.
-/

namespace VendorBundle

open Entry Memory Effect

/-! ## A merger that has taken nothing over -/

namespace MergeOptions

variable {o : MergeOptions}

theorem generatedListing_nothing : o.generatedListing nothing = [] := listing_nothing _ _

theorem laidOver_nothing : o.laidOver nothing = [] := by
  have hoverlay : (o.overlay nothing).entries = [] := by
    rw [overlay, generatedListing_nothing, Overlay.ofListing_entries, List.flatMap_eq_nil_iff]
    rintro ⟨source, target⟩ -
    rfl
  rw [laidOver, hoverlay, builtListing, listing_nothing]
  rfl

theorem merged_nothing : o.merged nothing = [] := by
  rw [merged, laidOver_nothing]
  exact normalize_of_ascending .nil

theorem kindAt?_merged_nothing (path : String) : kindAt? (o.merged nothing) path = none := by
  rw [merged_nothing]
  rfl

theorem mergeable_nothing : o.Mergeable nothing where
  built := fun place name node _ hn => by simp [node?_nothing] at hn
  generated := fun place name node _ hn => by simp [node?_nothing] at hn
  oneKind := by
    rw [laidOver_nothing]
    exact fun _ he => absurd he List.not_mem_nil
  targets := fun path hp => by
    have ht := Overlay.traced_ofListing o.passthrough (o.generatedListing nothing) path
    obtain ⟨source, hs⟩ := Option.isSome_iff_exists.mp hp
    rw [overlay] at hs
    rw [hs, generatedListing_nothing] at ht
    obtain ⟨g, hg, -⟩ := ht
    exact absurd hg List.not_mem_nil
  fragments := fun target source name _ hb => by simp [bytes?, node?_nothing] at hb
  subdirs := fun target source _ => by simp [bytes?, node?_nothing]

end MergeOptions

theorem Merger.after_nothing (o : MergeOptions) : after o nothing = create o := by
  rw [after, MergeOptions.merged_nothing, MergeOptions.generatedListing_nothing]
  rfl

/-! ## The first build -/

namespace MergeOptions

variable {o : MergeOptions} {m : Memory}

/-- Every file of the tree can be made: all that goes into it is there, and text where it is to be
text. -/
def Whole (o : MergeOptions) (m : Memory) : Prop :=
  ∀ path, kindAt? (o.merged m) path = some .file → (o.content? m (o.overlay m) path).isSome

/-- The result is there and empty. -/
structure Vacant (o : MergeOptions) (m : Memory) : Prop where
  root : m.node? o.outputDir.resolved = some .dir
  inside : ∀ place, place ≠ [] → m.view o.outputDir.resolved place = none

theorem arrives_from_nothing {path : String} {kind : EntryKind}
    (hk : kindAt? (o.merged m) path = some kind) : o.Arrives nothing m path :=
  arrives_of_kind_ne hk (by simp [kindAt?_merged_nothing])

theorem entering?_isSome (hw : o.Whole m) : ∀ e ∈ o.merged m, (o.entering? m e).isSome := by
  intro e he
  have hat := ascending_merged.entryAt?_eq_some_iff.mpr ⟨he, rfl⟩
  cases hk : e.kind with
  | file => simpa [entering?, hk] using hw e.path (kindAt?_eq_some_iff.mpr ⟨e, hat, hk⟩)
  | directory => simp [entering?, hk]

theorem removing_nothing : o.removing nothing m = [] := by
  rw [removing, merged_nothing]
  rfl

/-- No file of the tree is left after everything was put. -/
theorem kindAt?_ne_of_mem_left {target : String} (ht : target ∈ o.left nothing m) :
    kindAt? (o.merged m) target ≠ some .file := by
  intro hk
  obtain ⟨e, he, harrives⟩ := arrives_from_nothing hk
  obtain ⟨op, hop⟩ := Option.isSome_iff_exists.mp harrives
  have hf : e.kind = .file := by
    rw [kindAt?, he] at hk
    exact Option.some.inj hk
  have hmem : op ∈ o.builtPatch nothing m :=
    (Patch.mem_between ascending_merged ascending_merged).mpr (.inr ⟨e, entryAt?_mem he, hop⟩)
  refine (mem_left.mp ht).2 op hmem ?_
  have hcontains : (Merger.create o).targets.contains target = true := contains_of_mem_left ht
  rcases Patch.op_of_arrival? hop with rfl | ⟨rfl, -⟩
  · simp [PatchOp.addition, hf, Merger.settles, entryAt?_path he, hcontains]
  · simp [Merger.settles, entryAt?_path he, hcontains]

/-- What is written when something arrives is a file of the tree. -/
theorem file_of_write_mem_arriving {old : Memory} {q : Place} {content : ByteArray}
    (hq : .write q content ∈ o.arriving old m) : ∃ path, q = Text.split '/' path ∧
      kindAt? (o.merged m) path = some .file := by
  obtain ⟨path, e, he, -, hentering⟩ := mem_arriving.mp hq
  refine ⟨e.path, entering?_place hentering,
    kindAt?_eq_some_iff.mpr ⟨e, entryAt?_path he ▸ he, ?_⟩⟩
  rcases entering?_cases hentering with ⟨hk, -⟩ | ⟨-, hact⟩
  · exact hk
  · cases hact

/-- No file of the tree stands right above another one. -/
theorem split_ne_dropLast (hr : o.Regular) (hm : m.Named) (h : o.Mergeable m)
    {above path : String} (ha : kindAt? (o.merged m) above = some .file)
    (hk : kindAt? (o.merged m) path = some .file) :
    (Text.split '/' path).dropLast ≠ Text.split '/' above := by
  intro habove
  have hb : Below above path := below_iff_prefix_dropLast.mpr (habove ▸ List.prefix_refl _)
  rw [directory_of_below hr hm h hb hk] at ha
  simp at ha

/-- Putting what is new does not fail where no file stands right above a file of the tree. -/
theorem runs_arriving {old : Memory} (hr : o.Regular) (hm : m.Named) (h : o.Mergeable m) {v : View}
    (hv : ∀ path, kindAt? (o.merged m) path = some .file →
      ∀ content, v (Text.split '/' path).dropLast ≠ some (.file content)) :
    ∃ w, Runs v (o.arriving old m) w := by
  refine Unhindered.exists_runs ⟨fun a ha hremoval => ?_, fun q content hq content' => ?_⟩
  · obtain ⟨path, e, -, -, hentering⟩ := mem_arriving.mp ha
    exact absurd hremoval (by simp [entering?_isRemoval hentering])
  · obtain ⟨path, rfl, hk⟩ := file_of_write_mem_arriving hq
    refine ⟨hv path hk content', fun hq' => ?_⟩
    obtain ⟨above, habove, hk'⟩ := file_of_write_mem_arriving hq'
    exact split_ne_dropLast hr hm h hk' hk habove

/-- Putting everything leads to the tree. -/
theorem arriving_from_nothing (hr : o.Regular) (hm : m.Named) (h : o.Mergeable m)
    (hw : o.Whole m) {v w : View} (hv : ∀ q, q ≠ [] → v q = none)
    (hruns : Runs v (o.arriving nothing m) w) (path : String) :
    w (Text.split '/' path) = o.tree m (Text.split '/' path) := by
  have hnone := hv _ (Text.split_ne_nil '/' path)
  have hputs : ∀ e ∈ o.merged m, (Patch.arrival? (o.merged nothing) e).isSome →
      (o.entering? m e).isSome := fun e he _ => entering?_isSome hw e he
  cases hk : kindAt? (o.merged m) path with
  | none =>
      rw [arriving_at hruns (fun hf => by simp [hk] at hf), hnone,
        opened_arriving_of_ne hr hm h (by simp [hk]), tree_of_none hk]
      rfl
  | some kind =>
      cases kind with
      | file =>
          obtain ⟨content, hcontent, hat⟩ :=
            arriving_at_file hruns hputs hk (arrives_from_nothing hk)
          rw [hat, tree_of_file hk, hcontent]
          rfl
      | directory =>
          rw [arriving_at hruns (fun hf => by simp [hk] at hf), hnone, tree_of_directory hk]
          exact (opened_arriving hputs).mpr ⟨path, arrives_from_nothing hk, .inl ⟨rfl, hk⟩⟩

end MergeOptions

namespace Merger

open MergeOptions

/-- A state that has come from `m` with a tree in the result is followed by one that has, too. -/
def Rests (root : Place) (m : Memory) (v : View) (a b : Memory) : Prop :=
  Within root m a ∧ a.view root = v → Within root m b ∧ b.view root = v

variable {o : MergeOptions} {m : Memory} (hr : o.Regular) (hm : m.Named) (h : o.Mergeable m)

include hr hm h

/-- A target that is no file of the tree changes nothing when it is made anew, whether that fails
or not. -/
theorem keeps_view_of_left {v : View} {target : String} (ht : target ∈ o.left nothing m)
    (hv : ∀ content, v (Text.split '/' target) ≠ some (.file content)) :
    Keeps (Rests o.outputDir.resolved m v) ((after o nothing).regenerate target) := by
  rintro m₁ ⟨hw, hview⟩
  have hcontains := contains_of_mem_left ht
  have hc := hr.canonical hcontains
  refine ⟨hw.trans (keeps_left hr target ht m₁), ?_⟩
  have hgone : m₁.bytes? (o.builtDir.resolved ++ Text.split '/' target) = none := by
    rw [bytes?_congr (inputs_of_within hr hw _ (.inl (List.prefix_append _ _)))]
    by_contra hne
    obtain ⟨content, hb⟩ := Option.ne_none_iff_exists'.mp hne
    obtain ⟨e, he, hf⟩ := file_of_target hr hm h hcontains hb
    exact kindAt?_ne_of_mem_left ht (kindAt?_eq_some_iff.mpr ⟨e, he, hf⟩)
  have hremove := performs_drop (Path.resolved_join o.outputDir hc) m₁
  rw [(after o nothing).outcome_regenerate_of_not_file hc hgone, outcome_bind]
  cases ho : outcome (remove ((after o nothing).options.outputDir.join ⟨target⟩) false) m₁ with
  | mk result m₂ =>
      cases result with
      | error e => rw [remove_error ho, hview]
      | ok u =>
          have hpossible := hremove.possible u m₂ ho
          change m₂.view o.outputDir.resolved = v
          rw [hremove.result u m₂ ho, hview, Act.result]
          rw [hview] at hpossible
          funext q
          by_cases hq : Text.split '/' target = q
          · rw [← hq, View.put_self]
            exact (Item.eq_none_of_ne hpossible hv).symm
          · exact View.put_of_ne _ _ hq

/-- Carrying over all changes puts the tree. -/
theorem carry_from_nothing (hw : o.Whole m) (hv : o.Vacant m) : ∃ s m₁,
    outcome (summed ((after o nothing).apply (o.overlay m)) (o.builtPatch nothing m))
      (m.addDir o.outputDir) = (.ok s, m₁) ∧ Within o.outputDir.resolved m m₁ ∧
      ∀ path, m₁.view o.outputDir.resolved (Text.split '/' path) =
        o.tree m (Text.split '/' path) := by
  have hfree : ∀ q content, m.view o.outputDir.resolved q ≠ some (.file content) := by
    intro q content
    by_cases hq : q = []
    · simp [hq, Memory.view, hv.root, Node.item]
    · simp [hv.inside q hq]
  obtain ⟨v, hruns⟩ : ∃ w, Runs _ (o.arriving nothing m) w :=
    runs_arriving hr hm h fun _ _ => hfree _
  have hacts : (o.builtPatch nothing m).mapM (o.act? m (o.overlay m)) =
      some (o.arriving nothing m) := by
    rw [mapM_builtPatch fun e he _ => entering?_isSome hw e he, removing_nothing, List.nil_append]
  have hfrom := hruns
  rw [← view_addDir_root hv.root] at hfrom
  obtain ⟨s, m₁, hfirst, hview, hwithin⟩ := summed_succeeds
    (keeps_builtPatch hr named_nothing hm)
    (fun op hop m₁ => enacts_builtPatch hr named_nothing hm h hop)
    (.addDir_root o.outputDir m) hacts hfrom
  exact ⟨s, m₁, hfirst, hwithin, hview ▸ arriving_from_nothing hr hm h hw hv.inside hruns⟩

/-- A new merger that builds into an empty directory puts the tree of its inputs there. -/
theorem build_from_nothing (hw : o.Whole m) (hv : o.Vacant m) (path : String) :
    (outcome (create o).build m).2.view o.outputDir.resolved (Text.split '/' path) =
      o.tree m (Text.split '/' path) := by
  obtain ⟨s, m₁, hfirst, hwithin, htree⟩ := carry_from_nothing hr hm h hw hv
  rw [← after_nothing, outcome_build hm, outcome_bind_of_ok hfirst]
  have hleft : Keeps (Rests o.outputDir.resolved m (m₁.view o.outputDir.resolved))
      (summed (after o nothing).regenerate (o.left nothing m)) := by
    refine keeps_summed (r := Rests o.outputDir.resolved m _) (fun _ => id)
      (fun hab hbc => hbc ∘ hab) fun target ht => ?_
    refine keeps_view_of_left hr hm h ht fun content hfile => ?_
    exact tree_ne_file (kindAt?_ne_of_mem_left ht) content (htree target ▸ hfile)
  have hend := (hleft m₁ ⟨hwithin, rfl⟩).2
  rw [← htree path, outcome_bind]
  cases ho : outcome (summed (after o nothing).regenerate (o.left nothing m)) m₁ with
  | mk result m₂ =>
      rw [ho] at hend
      cases result with
      | ok more => exact congrFun hend _
      | error e => exact congrFun hend _

/-- It succeeds unless a target is a directory of the tree. -/
theorem build_from_nothing_succeeds (hw : o.Whole m) (hv : o.Vacant m)
    (hdirs : ∀ target, o.targets.contains target = true →
      o.tree m (Text.split '/' target) ≠ some .dir) :
    ∃ s m', outcome (create o).build m = (.ok (s, after o m), m') := by
  obtain ⟨s, m₁, hfirst, hwithin, htree⟩ := carry_from_nothing hr hm h hw hv
  have hdrops : ∀ a ∈ o.renewing nothing m,
      ∃ q, a = .drop q ∧ m₁.view o.outputDir.resolved q = none := by
    intro a ha
    obtain ⟨target, ht, hact⟩ := mem_renewing.mp ha
    rw [renewal?_of_not_file hr hm h ht (kindAt?_ne_of_mem_left ht), Option.some.injEq] at hact
    refine ⟨_, hact.symm, ?_⟩
    have hfile := tree_ne_file (kindAt?_ne_of_mem_left ht)
    have hdir := hdirs target (contains_of_mem_left ht)
    rw [htree target]
    exact Item.eq_none_of_ne hdir hfile
  have hacts : (o.left nothing m).mapM (o.renewal? m (o.overlay m)) =
      some (o.renewing nothing m) := by
    refine mapM_eq_some_iff.mpr ⟨fun target ht => ?_, rfl⟩
    rw [renewal?_of_not_file hr hm h ht (kindAt?_ne_of_mem_left ht)]
    rfl
  obtain ⟨more, m₂, hsecond, -⟩ := summed_succeeds (keeps_left hr)
    (fun target ht m₁ => enacts_left hr hm ht) hwithin hacts (Runs.of_drops hdrops)
  refine ⟨s + more, m₂, ?_⟩
  rw [← after_nothing, build_of_passes hm hfirst hsecond]

end Merger

/-! ## A cleared result -/

/-- The same file system with an empty directory in the place of a path. -/
def Memory.cleared (m : Memory) (path : Path) : Memory := (m.remove path).addDir path

namespace Memory

variable {m : Memory} {path : Path}

theorem node?_cleared (place : Place) : (m.cleared path).node? place =
    if place <+: path.resolved then
      some ((if path.resolved <+: place then none else m.node? place).getD .dir)
    else if path.resolved <+: place then none else m.node? place := by
  rw [cleared, node?_addDir, node?_remove]

theorem named_cleared (hm : m.Named) : (m.cleared path).Named :=
  (hm.follows (follows_remove m path) fun _ => Path.isName_of_mem_resolved).follows
    (follows_addDir _ path) fun _ => Path.isName_of_mem_resolved

theorem node?_cleared_of_apart {place : Place} (h : Apart path.resolved place) :
    (m.cleared path).node? place = m.node? place := by
  rw [node?_cleared, if_neg h.2, if_neg h.1]

/-- Trees that agree at all paths agree at all places. -/
theorem view_ext {m₁ m₂ : Memory} (h₁ : m₁.Named) (h₂ : m₂.Named) {root : Place}
    (h : ∀ path, m₁.view root (Text.split '/' path) = m₂.view root (Text.split '/' path))
    {place : Place} (hne : place ≠ []) : m₁.view root place = m₂.view root place := by
  by_cases hp : ∀ n ∈ place, IsName n
  · rw [← split_pathText hne hp, h]
  · have hnone : ∀ {m : Memory}, m.Named → m.view root place = none := by
      intro m hm
      rw [view, Option.map_eq_none_iff]
      by_contra hsome
      obtain ⟨node, hn⟩ := Option.ne_none_iff_exists'.mp hsome
      exact hp fun n hn' => hm _ node hn n (List.mem_append_right _ hn')
    rw [hnone h₁, hnone h₂]

end Memory

namespace MergeOptions

variable (o : MergeOptions) {m : Memory}

/-- What a new merger makes of the input trees of a state in an empty directory. -/
def fresh (m : Memory) : View :=
  (outcome (Merger.create o).build (m.cleared o.outputDir)).2.view o.outputDir.resolved

theorem vacant_cleared (m : Memory) : o.Vacant (m.cleared o.outputDir) where
  root := by simp [node?_cleared]
  inside := fun place hne => by
    rw [view, node?_cleared, if_neg (not_prefix_append_self hne), if_pos (List.prefix_append _ _)]
    rfl

variable {o} (hr : o.Regular) (hm : m.Named) (h : o.Mergeable m) (hw : o.Whole m)

include hr

theorem inputs_cleared {place : Place} (hp : o.IsInput place) :
    (m.cleared o.outputDir).node? place = m.node? place :=
  node?_cleared_of_apart (hp.elim
    (fun hp => hr.apartBuilt.below (List.prefix_refl _) hp)
    (fun hp => hr.apartGenerated.below (List.prefix_refl _) hp))

theorem named_fresh (hm : m.Named) :
    (outcome (Merger.create o).build (m.cleared o.outputDir)).2.Named := by
  have hcleared : (m.cleared o.outputDir).Named := named_cleared hm
  have hw := Merger.keeps_build hr named_nothing hcleared
  rw [Merger.after_nothing] at hw
  exact hw.named hcleared

omit hr in
theorem whole_congr {m' : Memory} (hm : m.Named) (hm' : m'.Named) (hw : o.Whole m)
    (hs : ∀ place, o.IsInput place → m'.node? place = m.node? place) : o.Whole m' := by
  intro path hk
  rw [merged_congr hm hm' hs] at hk
  rw [overlay_congr hm hm' hs, o.content?_congr hs]
  exact hw path hk

include hm h hw

/-- A new merger makes the tree of the inputs. -/
theorem fresh_eq_tree (path : String) :
    o.fresh m (Text.split '/' path) = o.tree m (Text.split '/' path) := by
  have hcleared : (m.cleared o.outputDir).Named := named_cleared hm
  have hs := fun place (hp : o.IsInput place) => inputs_cleared (m := m) hr hp
  rw [fresh, Merger.build_from_nothing hr hcleared (h.congr hm hcleared hs)
    (whole_congr hm hcleared hw hs) (o.vacant_cleared m),
    tree_congr hm hcleared hs]

/-- It fails at most when a target is a directory of the tree. -/
theorem fresh_succeeds (hdirs : ∀ target, o.targets.contains target = true →
      o.tree m (Text.split '/' target) ≠ some .dir) :
    ∃ s g m', outcome (Merger.create o).build (m.cleared o.outputDir) = (.ok (s, g), m') := by
  have hcleared : (m.cleared o.outputDir).Named := named_cleared hm
  have hs := fun place (hp : o.IsInput place) => inputs_cleared (m := m) hr hp
  obtain ⟨s, m', ho⟩ := Merger.build_from_nothing_succeeds hr hcleared
    (h.congr hm hcleared hs) (whole_congr hm hcleared hw hs) (o.vacant_cleared m)
    fun target ht => tree_congr hm hcleared hs ▸ hdirs target ht
  exact ⟨s, _, m', ho⟩

end MergeOptions

end VendorBundle

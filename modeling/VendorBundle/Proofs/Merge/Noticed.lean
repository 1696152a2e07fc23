import VendorBundle.Proofs.Merge.Twice

/-!
# Which changes of a target are noticed

Two ways lead to the files that a target is made of. Making it anew joins paths and reads
directories, whatever names are ignored. Whether it is made anew is decided on listings, which hold
plain paths and no ignored names and are compared with the mapped paths as texts. After a build the
output file of a target is what it should be exactly when the build made it anew, or when it has
been that before. And it is made anew whenever what it is made of has changed, if listings show all
of that.
-/

namespace VendorBundle

open Entry Memory Effect

namespace MergeOptions

variable (o : MergeOptions)

/-- A build makes a target anew: its file arrives or has changed, or it is left after that. -/
def Makes (old new : Memory) (target : String) : Prop :=
  (∃ op ∈ o.builtPatch old new, op.puts = true ∧ op.path = target) ∨ target ∈ o.left old new

/-- What a target is made of stands in the input trees. -/
structure Reads (target : String) (source : FragmentSource) : Prop where
  built : o.IsInput (o.builtDir.join ⟨target⟩).resolved
  generated : o.IsInput (o.generatedDir.join ⟨source.subdir⟩).resolved

/-- No change of another path and no other target leads to the output file of a target. -/
structure Sole (old new : Memory) (target : String) : Prop where
  changes : ∀ op ∈ o.builtPatch old new, o.spot op.path = o.spot target → op.path = target
  targets : ∀ other, o.targets.contains other = true → o.spot other = o.spot target →
    other = target

/-- Listings show all that a target is made of, and nothing is laid over it. -/
structure Visible (m : Memory) (target : String) (source : FragmentSource) : Prop
    extends Shows o m source where
  builtTree : m.IsTreeAt o.builtDir.resolved
  named : Canonical target
  listed : ∀ n ∈ Text.split '/' target, n ∉ o.listOptions.ignore
  uncovered : ∀ e ∈ (o.overlay m).entries, e.path ≠ target

variable {o} {old m m' : Memory} {target : String} {source : FragmentSource}

theorem made?_congr (hr : o.Reads target source)
    (hs : ∀ place, o.IsInput place → m'.node? place = m.node? place) :
    o.made? m' target source = o.made? m target source := by
  have hbuilt := bytes?_congr (hs _ hr.built)
  have hinside : ∀ name, o.IsInput ((o.generatedDir.join ⟨source.subdir⟩).resolved ++ [name]) :=
    fun name => hr.generated.imp (·.trans (List.prefix_append _ _))
      (·.trans (List.prefix_append _ _))
  rw [made?, made?, fragments?_congr (by rw [hs _ hr.generated])
    fun name _ => bytes?_congr (hs _ (hinside name))]
  simp only [hbuilt, text?_congr hbuilt]

/-- A target is only made of a file of the build output. -/
theorem bytes?_of_made? {bytes : ByteArray} (hb : o.made? m target source = some bytes) :
    ∃ content, m.bytes? (o.builtDir.join ⟨target⟩).resolved = some content := by
  obtain ⟨fragments, -, hmade⟩ := Option.bind_eq_some_iff.mp hb
  split at hmade
  · exact ⟨bytes, hmade⟩
  · obtain ⟨text, htext, -⟩ := Option.map_eq_some_iff.mp hmade
    obtain ⟨content, hcontent, -⟩ := Option.bind_eq_some_iff.mp htext
    exact ⟨content, hcontent⟩

/-- A target that listings show is carried over as the build output lists it. -/
theorem Visible.entryAt?_merged (hm : m.Named) (h : o.Visible m target source) :
    entryAt? (o.merged m) target = m.listed? o.listOptions o.builtDir.resolved target := by
  rw [MergeOptions.entryAt?_merged, laidOver, entryAt?_append,
    entryAt?_eq_none_iff.mpr h.uncovered, Option.none_or, builtListing,
    entryAt?_listing hm h.builtTree]

/-- A file that is listed with the token it had stands with the content it had. -/
theorem Visible.bytes?_built (hold : old.Named) (h : o.Visible old target source)
    (ht : o.Tells old m) {content : ByteArray} {time : UInt64}
    (hn : m.node? (o.builtDir.resolved ++ Text.split '/' target) = some (.file content time))
    {e : Entry} (he : entryAt? (o.merged old) target = some e) (hk : e.kind = .file)
    (htoken : e.token = o.listOptions.tokenMode.token content time) :
    m.bytes? (o.builtDir.resolved ++ Text.split '/' target) =
      old.bytes? (o.builtDir.resolved ++ Text.split '/' target) := by
  rw [h.entryAt?_merged hold, listed?_eq_some_iff] at he
  obtain ⟨-, node, hnode, rfl⟩ := he
  cases node with
  | dir => exact absurd hk nofun
  | file content' time' =>
      have heq := ht _ _ _ _ _ _ (.inl (List.prefix_append _ _)) (.inl (List.prefix_append _ _))
        hnode hn htoken
      rw [bytes?_eq_some_iff.mpr ⟨time, hn⟩, bytes?_eq_some_iff.mpr ⟨time', hnode⟩, heq]

/-- What a target is made of has stayed the same, if a build does not make it anew and listings
show all of that. -/
theorem made?_unchanged (hold : old.Named) (hm : m.Named)
    (hs : o.targets.get? target = some source) (h : o.Visible old target source)
    (h' : o.Visible m target source) (ht : o.Tells old m) (hnot : ¬ o.Makes old m target)
    {bytes : ByteArray} (hb : o.made? m target source = some bytes) :
    o.made? old target source = some bytes := by
  obtain ⟨content, hc⟩ := bytes?_of_made? hb
  rw [Path.resolved_join o.builtDir h'.named] at hc
  obtain ⟨time, hn⟩ := bytes?_eq_some_iff.mp hc
  have hnew : entryAt? (o.merged m) target =
      some (.file target (o.listOptions.tokenMode.token content time)) := by
    rw [h'.entryAt?_merged hm, listed?_eq_some_iff]
    exact ⟨h'.listed, _, hn, rfl⟩
  have hstays : Patch.arrival? (o.merged old)
      (.file target (o.listOptions.tokenMode.token content time)) = none := by
    by_contra hne
    obtain ⟨op, hop⟩ := Option.ne_none_iff_exists'.mp hne
    refine hnot (.inl ⟨op, (Patch.mem_between ascending_merged ascending_merged).mpr
      (.inr ⟨_, entryAt?_mem hnew, hop⟩), ?_, Patch.path_of_arrival? hop⟩)
    rcases Patch.op_of_arrival? hop with rfl | ⟨rfl, -⟩
    · rfl
    · rfl
  obtain ⟨e, he, hkind, htoken⟩ := Patch.arrival?_eq_none_iff.mp hstays
  have hu : ∀ op ∈ o.generatedPatch old m,
      target ∉ (Feeds.ofTargets o.targets).targetsOf op.path := by
    intro op hop hmem
    refine hnot (.inr (mem_left.mpr ⟨⟨op, hop, hmem⟩, fun op' hop' hsettles => ?_⟩))
    exact path_ne_of_same he hnew hkind htoken hop' (path_of_settles hsettles)
  have hfragments := fragments?_unchanged hold hm hs h.toShows h'.toShows ht hu
  have hbuilt : m.bytes? (o.builtDir.resolved ++ Text.split '/' target) =
      old.bytes? (o.builtDir.resolved ++ Text.split '/' target) :=
    h.bytes?_built hold ht hn he hkind (htoken hkind)
  rw [made?_of_canonical _ _ h'.named h'.plain] at hb
  rw [made?_of_canonical _ _ h.named h.plain, ← hb]
  simp only [mergedBytes?, hfragments, hbuilt, text?_congr hbuilt]

/-- With plain names no other path leads to the output file of a target. -/
theorem Regular.sole (hr : o.Regular) (hold : old.Named) (hm : m.Named)
    (ht : o.targets.contains target = true) : o.Sole old m target where
  changes := fun _ hop =>
    eq_of_spot_eq (Merger.canonical_of_mem_builtPatch hr hold hm hop) (hr.canonical ht)
  targets := fun _ hother => eq_of_spot_eq (hr.canonical hother) (hr.canonical ht)

end MergeOptions

/-! ## What steps leave at the output file of a target -/

theorem Memory.Alters.bytes?_eq {own way : Place → Prop} {m m' : Memory} (h : Alters own way m m')
    {place : Place} (ho : ¬ own place) : m'.bytes? place = m.bytes? place := by
  rcases h place with hk | hown | ⟨-, hn, hd⟩
  · exact bytes?_congr hk
  · exact absurd hown ho
  · rw [bytes?, bytes?, hn, hd]

namespace Merger

open MergeOptions

variable {m m' : Memory}

theorem bytes?_of_writeFile {path : Path} {content : ByteArray} {u : Unit}
    (ho : outcome (writeFile path content) m = (.ok u, m')) :
    m'.bytes? path.resolved = some content := by
  have hwrite : ∀ {m₁ : Memory},
      outcome (tried .write path (Files.write path content)) m₁ = (.ok u, m') →
      m'.bytes? path.resolved = some content := by
    intro m₁ hw
    rw [outcome_tried, outcome_write] at hw
    cases h : m₁.write path content with
    | error e =>
        rw [h] at hw
        cases (Prod.mk.inj hw).1
    | ok m₂ =>
        rw [h] at hw
        obtain ⟨-, rfl⟩ := Prod.mk.inj hw
        rw [write] at h
        split at h
        · obtain rfl := Except.ok.inj h
          rw [settle, bytes?, node?_put, if_pos rfl]
        · cases h
  rw [writeFile] at ho
  split at ho
  · obtain ⟨_, m₁, -, hw⟩ := outcome_bind_eq_ok_iff.mp ho
    exact hwrite hw
  · exact hwrite ho

/-- An output file that was removed is gone. -/
theorem bytes?_of_remove {path : Path} {u : Unit}
    (ho : outcome (remove path false) m = (.ok u, m')) : m'.bytes? path.resolved = none := by
  rw [outcome_remove, if_neg Bool.false_ne_true] at ho
  cases hn : m.node? path.resolved with
  | none =>
      rw [removeFile_of_none hn] at ho
      obtain ⟨-, rfl⟩ := Prod.mk.inj ho
      rw [bytes?, hn]
  | some node =>
      cases node with
      | dir =>
          rw [removeFile_of_dir hn] at ho
          cases (Prod.mk.inj ho).1
      | file content time =>
          rw [removeFile_of_file hn] at ho
          obtain ⟨-, rfl⟩ := Prod.mk.inj ho
          rw [bytes?, node?_without, if_pos rfl]

/-- Removing a directory removes no file. -/
theorem bytes?_of_removeDir {path : Path} {u : Unit}
    (ho : outcome (remove path true) m = (.ok u, m')) (place : Place) :
    m'.bytes? place = m.bytes? place := by
  rw [outcome_remove, if_pos rfl] at ho
  by_cases hd : m.node? path.resolved = some .dir
  · rw [removeDir_of_dir hd] at ho
    split at ho
    · rename_i m₁ h
      obtain ⟨-, rfl⟩ := Prod.mk.inj ho
      split at h
      · obtain rfl := Except.ok.inj h
        rw [bytes?, bytes?, node?_without]
        by_cases hp : path.resolved = place
        · rw [if_pos hp, ← hp, hd]
        · rw [if_neg hp]
      · cases h
    · rw [← (Prod.mk.inj ho).2]
  · rw [removeDir_of_not_dir hd] at ho
    rw [← (Prod.mk.inj ho).2]

variable {o : MergeOptions} {old : Memory} {target : String} {source : FragmentSource}
  {bytes : ByteArray}

/-- A target that is made anew is what the files it reads make. -/
theorem bytes?_of_regenerate (hm : m.Named) (ht : o.targets.get? target = some source)
    (hb : o.made? m target source = some bytes) {s : MergeSummary}
    (ho : outcome ((after o old).regenerate target) m = (.ok s, m')) :
    m'.bytes? (o.spot target) = some bytes := by
  obtain ⟨content, hcontent⟩ := bytes?_of_made? hb
  rcases (after o old).outcome_regenerate hm ht hcontent with ⟨made, s', hmade, hout⟩ | ⟨hnone, -⟩
  · obtain rfl := Option.some.inj (hb.symm.trans hmade)
    obtain ⟨u, m₁, hwrite, hpure⟩ := outcome_bind_eq_ok_iff.mp (hout.symm.trans ho)
    obtain ⟨-, rfl⟩ := Prod.mk.inj hpure
    exact bytes?_of_writeFile hwrite
  · exact absurd (hb.symm.trans hnone) nofun

/-! ## Sequences of steps -/

/-- What a step does to something that may hold: it brings it about, ends it or leaves it alone. -/
inductive Turns (makes ends before after : Prop) : Prop where
  | made (hm : makes) (h : after)
  | ended (he : ends) (h : ¬ after)
  | kept (hm : ¬ makes) (he : ¬ ends) (h : after ↔ before)

/-- What a first step and those after it do, told by all of them. -/
theorem Turns.cons_iff {α : Type} {makes ends : α → Prop} {a : α} {items : List α}
    {before after : Prop} (h : Turns (makes a) (ends a) before after)
    (hone : ∀ b ∈ a :: items, ∀ c ∈ a :: items, makes b → ¬ ends c) :
    ((∃ b ∈ items, makes b) ∨ after ∧ ∀ b ∈ items, ¬ ends b) ↔
      (∃ b ∈ a :: items, makes b) ∨ before ∧ ∀ b ∈ a :: items, ¬ ends b := by
  cases h with
  | made hm hh =>
      have hno : ∀ b ∈ items, ¬ ends b := fun b hb =>
        hone a List.mem_cons_self b (List.mem_cons_of_mem _ hb) hm
      exact ⟨fun _ => .inl ⟨a, List.mem_cons_self, hm⟩, fun _ => .inr ⟨hh, hno⟩⟩
  | ended he hh =>
      constructor
      · rintro (⟨b, hb, hm⟩ | ⟨hp, -⟩)
        · exact .inl ⟨b, List.mem_cons_of_mem _ hb, hm⟩
        · exact absurd hp hh
      · rintro (⟨b, hb, hm⟩ | ⟨-, hno⟩)
        · exact absurd he (hone b hb a List.mem_cons_self hm)
        · exact absurd he (hno a List.mem_cons_self)
  | kept hm he hh =>
      simp only [List.exists_mem_cons_iff, List.forall_mem_cons, hm, he, hh, false_or,
        not_false_eq_true, true_and]

/-- Something holds after a sequence if a step brings it about, or if it held and no step ends it,
provided that steps of both sorts do not occur together. -/
theorem holds_after_summed {α : Type} {step : α → MergeEffect Memory MergeSummary}
    (inv holds : Memory → Prop) {makes ends : α → Prop} {items : List α}
    (hinv : ∀ a ∈ items, ∀ m r m', inv m → outcome (step a) m = (.ok r, m') → inv m')
    (hstep : ∀ a ∈ items, ∀ m r m', inv m → outcome (step a) m = (.ok r, m') →
      Turns (makes a) (ends a) (holds m) (holds m'))
    (hone : ∀ a ∈ items, ∀ b ∈ items, makes a → ¬ ends b) (hi : inv m) {s : MergeSummary}
    (ho : outcome (summed step items) m = (.ok s, m')) : inv m' ∧
      (holds m' ↔ (∃ a ∈ items, makes a) ∨ holds m ∧ ∀ a ∈ items, ¬ ends a) := by
  have hfold : ∀ s₀ : MergeSummary, ∀ m, inv m →
      outcome (items.foldlM (fun s a => do pure (s + (← step a))) s₀) m = (.ok s, m') →
      inv m' ∧ (holds m' ↔ (∃ a ∈ items, makes a) ∨ holds m ∧ ∀ a ∈ items, ¬ ends a) := by
    clear hi ho
    induction items with
    | nil =>
        rintro s₀ m hi ho
        obtain ⟨-, rfl⟩ := Prod.mk.inj ho
        exact ⟨hi, by simp⟩
    | cons a items ih =>
        intro s₀ m hi ho
        rw [List.foldlM_cons] at ho
        obtain ⟨s₁, m₁, hnext, hrest⟩ := outcome_bind_eq_ok_iff.mp ho
        obtain ⟨r, m₂, hfirst, hpure⟩ := outcome_bind_eq_ok_iff.mp hnext
        obtain ⟨-, rfl⟩ := Prod.mk.inj hpure
        obtain ⟨hi', hiff⟩ := ih (fun b hb => hinv b (List.mem_cons_of_mem _ hb))
          (fun b hb => hstep b (List.mem_cons_of_mem _ hb))
          (fun b hb c hc => hone b (List.mem_cons_of_mem _ hb) c (List.mem_cons_of_mem _ hc))
          s₁ _ (hinv a List.mem_cons_self _ _ _ hi hfirst) hrest
        exact ⟨hi', hiff.trans ((hstep a List.mem_cons_self _ _ _ hi hfirst).cons_iff hone)⟩
  exact hfold {} m hi ho

/-! ## What a build leaves at the output file of a target -/

section

variable (hd : o.Detached) (hold : old.Named) (hm : m.Named)
  (ht : o.targets.get? target = some source) (hr : o.Reads target source)
  (hs : o.Sole old m target) (hb : o.made? m target source = some bytes)

include hd hold hm ht hr hb

/-- Partway through a build a target is still made of what it was made of at the start. -/
theorem bytes?_of_regenerate_partway {m₁ m₂ : Memory}
    (ha : Alters (o.Touches old m) (o.Opens old m) m m₁) {s : MergeSummary}
    (ho : outcome ((after o old).regenerate target) m₁ = (.ok s, m₂)) :
    m₂.bytes? (o.spot target) = some bytes :=
  bytes?_of_regenerate (named_of_alters hm ha) ht
    ((made?_congr hr fun _ => inputs_of_alters hd hold hm ha).trans hb) ho

include hs

/-- What making a target anew leaves: its own file is what the files it reads make, and no other
target has that file. -/
theorem bytes?_of_left {m₁ m₂ : Memory} {other : String} (hother : other ∈ o.left old m)
    (ha : Alters (o.Touches old m) (o.Opens old m) m m₁) {s : MergeSummary}
    (ho : outcome ((after o old).regenerate other) m₁ = (.ok s, m₂)) :
    Turns (other = target) False (m₁.bytes? (o.spot target) = some bytes)
      (m₂.bytes? (o.spot target) = some bytes) := by
  by_cases he : other = target
  · subst he
    exact .made rfl (bytes?_of_regenerate_partway hd hold hm ht hr hb ha ho)
  · have halters := ((after o old).alters_regenerate other).related ho
    refine .kept he id ?_
    rw [halters.bytes?_eq fun h => he (hs.targets other (contains_of_mem_left hother) h)]

/-- What carrying a change over leaves: a change that puts a target makes it anew, one that unlinks
it takes its file away, and all other changes leave that alone. -/
theorem bytes?_of_change {m₁ m₂ : Memory} {op : PatchOp} (hop : op ∈ o.builtPatch old m)
    (ha : Alters (o.Touches old m) (o.Opens old m) m m₁) {s : MergeSummary}
    (ho : outcome ((after o old).apply (o.overlay m) op) m₁ = (.ok s, m₂)) :
    Turns (op.puts = true ∧ op.path = target) (op = .unlink target)
      (m₁.bytes? (o.spot target) = some bytes) (m₂.bytes? (o.spot target) = some bytes) := by
  by_cases he : op.path = target
  · have hcontains : o.targets.contains target = true := Option.isSome_iff_exists.mpr ⟨source, ht⟩
    cases op with
    | unlink path =>
        obtain rfl : path = target := he
        obtain ⟨_, m₃, hremove, hpure⟩ := outcome_bind_eq_ok_iff.mp ho
        obtain ⟨-, rfl⟩ := Prod.mk.inj hpure
        have hnone : m₃.bytes? (o.spot path) = none := bytes?_of_remove hremove
        exact .ended rfl (by rw [hnone]; nofun)
    | rmdir path =>
        obtain ⟨_, m₃, hremove, hpure⟩ := outcome_bind_eq_ok_iff.mp ho
        obtain ⟨-, rfl⟩ := Prod.mk.inj hpure
        exact .kept (fun h => absurd h.1 nofun) nofun (by rw [bytes?_of_removeDir hremove])
    | mkdir path =>
        obtain ⟨_, m₃, hmake, hpure⟩ := outcome_bind_eq_ok_iff.mp ho
        obtain ⟨-, rfl⟩ := Prod.mk.inj hpure
        rw [outcome_tried, outcome_createDir] at hmake
        obtain ⟨-, rfl⟩ := Prod.mk.inj hmake
        refine .kept (fun h => absurd h.1 nofun) nofun ?_
        rw [(alters_addDir (fun _ => False) m₁ _).bytes?_eq id]
    | change path entry | create path entry =>
        obtain rfl : path = target := he
        change outcome (if o.targets.contains path then (after o old).regenerate path else _) m₁ = _
          at ho
        rw [if_pos hcontains] at ho
        exact .made ⟨rfl, rfl⟩ (bytes?_of_regenerate_partway hd hold hm ht hr hb ha ho)
  · have halters := ((after o old).alters_apply (o.overlay m) op).related ho
    refine .kept (fun h => he h.2) (fun h => he (h ▸ rfl)) ?_
    rw [halters.bytes?_eq fun h => he (hs.changes op hop h)]

omit hd hold hm ht hr hs hb in
/-- A file that is unlinked is not put as well. -/
theorem not_puts_of_unlink (h : .unlink target ∈ o.builtPatch old m) {op : PatchOp}
    (hop : op ∈ o.builtPatch old m) (hp : op.path = target) : op.puts = false := by
  by_contra hne
  have hputs : op.puts = true := by simpa using hne
  rcases (Patch.mem_between ascending_merged ascending_merged).mp h with
    ⟨old', hmem, hgone, hrem⟩ | ⟨e, -, harrives⟩
  · rcases (Patch.mem_between ascending_merged ascending_merged).mp hop with
      ⟨e, -, -, rfl⟩ | ⟨e, he, ha⟩
    · simp at hputs
    · have hfile := Patch.kind_of_arrival? ha hputs
      have hpath : e.path = old'.path := by
        rw [← Patch.path_of_arrival? ha, hp, ← PatchOp.path_removal old', ← hrem]
        rfl
      have hat := ascending_merged.entryAt?_eq_some_iff.mpr ⟨he, hpath⟩
      rw [PatchOp.removal] at hrem
      cases hk : old'.kind <;> simp [hk] at hrem
      simp [Patch.isGone, hat, hk, hfile] at hgone
  · rcases Patch.op_of_arrival? harrives with he | ⟨he, -⟩
    · rw [PatchOp.addition] at he
      cases hk : e.kind <;> simp [hk] at he
    · cases he

/-- After a build that succeeds the output file of a target is what it should be exactly when the
build made it anew, or when it was that before and is not unlinked. -/
theorem bytes?_of_build {s : MergeSummary} {g : Merger}
    (ho : outcome (after o old).build m = (.ok (s, g), m')) :
    m'.bytes? (o.spot target) = some bytes ↔ o.Makes old m target ∨
      m.bytes? (o.spot target) = some bytes ∧ .unlink target ∉ o.builtPatch old m := by
  obtain ⟨-, s₁, m₁, s₂, hfirst, hsecond, -⟩ := passes_of_build hm ho
  have hroot : (m.addDir o.outputDir).bytes? (o.spot target) = m.bytes? (o.spot target) :=
    (alters_addDir (fun _ => False) m o.outputDir).bytes?_eq id
  obtain ⟨ha, hchanges⟩ := holds_after_summed (Alters (o.Touches old m) (o.Opens old m) m)
    (fun m => m.bytes? (o.spot target) = some bytes)
    (fun op hop m₁ r m₂ ha hstep => ha.trans ((alters_change hop).related hstep))
    (fun op hop m₁ r m₂ ha hstep => bytes?_of_change hd hold hm ht hr hs hb hop ha hstep)
    (fun op hop op' hop' hmakes hends => by
      have hputs := not_puts_of_unlink (hends ▸ hop') hop hmakes.2
      exact absurd (hputs.symm.trans hmakes.1) nofun)
    ((alters_addDir _ m o.outputDir).mono (fun _ => id) fun _ => .inl) hfirst
  obtain ⟨-, hleft⟩ := holds_after_summed (Alters (o.Touches old m) (o.Opens old m) m)
    (fun m => m.bytes? (o.spot target) = some bytes)
    (fun other hother m₁ r m₂ ha hstep => ha.trans ((alters_left hother).related hstep))
    (fun other hother m₁ r m₂ ha hstep => bytes?_of_left hd hold hm ht hr hs hb hother ha hstep)
    (fun _ _ _ _ _ => id) ha hsecond
  rw [hleft, hchanges, hroot, Makes]
  simp only [exists_eq_right, not_false_eq_true, implies_true, and_true]
  grind

end

end Merger

/-! ## From build to build -/

/-- The input trees hold known contents only. -/
def MergeOptions.Holds (o : MergeOptions) (contents : ByteArray → Prop) (m : Memory) : Prop :=
  ∀ place content time, o.IsInput place → m.node? place = some (.file content time) →
    contents content

namespace Merger

open MergeOptions

/-- What one merger and the file system go through, with the state in which the last build began:
anything may be done to the file system between builds. -/
inductive Course (o : MergeOptions) (contents : ByteArray → Prop) :
    Merger → Memory → Memory → Prop where
  | start {m} (hm : m.Reachable) : Course o contents (create o) nothing m
  | edit {g old m} (op : Operation) (h : Course o contents g old m)
      (hc : m.clock ≤ (op.run m).clock) : Course o contents g old (op.run m)
  | build {g g' old m m' s} (h : Course o contents g old m) (hk : o.Holds contents m)
      (ho : outcome g.build m = (.ok (s, g'), m')) (hc : m.clock ≤ m'.clock) :
      Course o contents g' m m'

/-- What holds between the state in which the last build began and the present one. -/
structure Recalls (o : MergeOptions) (contents : ByteArray → Prop) (g : Merger) (old m : Memory) :
    Prop where
  merger : g = after o old
  namedOld : old.Named
  named : m.Named
  holdsOld : o.Holds contents old
  datedOld : Dated o.IsInput old
  dated : Dated o.IsInput m
  since : Since o.IsInput old m

variable {o : MergeOptions} {contents : ByteArray → Prop} {g g' : Merger} {old m m' : Memory}

theorem Recalls.start (hm : m.Reachable) : Recalls o contents (create o) nothing m where
  merger := (after_nothing o).symm
  namedOld := named_nothing
  named := hm.named
  holdsOld := fun place content time _ hn => by simp [node?_nothing] at hn
  datedOld := dated_nothing _
  dated := hm.dated.mono fun _ _ => trivial
  since := since_nothing _ m

theorem Recalls.edit (h : Recalls o contents g old m) (op : Operation)
    (hc : m.clock ≤ (op.run m).clock) : Recalls o contents g old (op.run m) :=
  { h with
    named := h.named.follows (op.follows m) fun _ => Path.isName_of_mem_resolved
    dated := h.dated.follows (op.follows m) hc
    since := h.since.follows (op.follows m) hc }

theorem Recalls.build (hd : o.Detached) (h : Recalls o contents g old m) (hk : o.Holds contents m)
    {s : MergeSummary} (ho : outcome g.build m = (.ok (s, g'), m')) (hc : m.clock ≤ m'.clock) :
    Recalls o contents g' m m' := by
  obtain rfl := h.merger
  have halters := alters_of_build h.named ho
  have hsame : ∀ place, o.IsInput place → m'.node? place = m.node? place := fun _ =>
    inputs_of_alters hd h.namedOld h.named halters
  exact {
    merger := (passes_of_build h.named ho).1
    namedOld := h.named
    named := named_of_alters h.named halters
    holdsOld := hk
    datedOld := h.dated
    dated := h.dated.congr hsame hc
    since := (Since.refl _ m).congr hsame hc }

theorem Course.recalls (hd : o.Detached) (h : Course o contents g old m) :
    Recalls o contents g old m := by
  induction h with
  | start hm => exact .start hm
  | edit op _ hc ih => exact ih.edit op hc
  | build _ hk ho hc ih => exact ih.build hd hk ho hc

/-- Tokens tell the contents before and after apart. -/
theorem Recalls.tells (h : Recalls o contents g old m) (hh : o.Hashes contents)
    (hk : o.Holds contents m) : o.Tells old m := by
  cases hmode : o.listOptions.tokenMode with
  | stat => exact tells_of_stat hmode h.datedOld h.since
  | content => exact tells_of_content hmode (hh hmode) h.holdsOld hk

/-- Among builds that succeed, the next one leaves a target as what the files it reads make exactly
when it makes the target anew, or when it was that before and is not unlinked. Where listings show
what the target is made of, and that has changed since the last build, it is made anew. -/
theorem Course.build_notices (hd : o.Detached) (hh : o.Hashes contents)
    (h : Course o contents g old m) (hk : o.Holds contents m) {s : MergeSummary}
    (ho : outcome g.build m = (.ok (s, g'), m')) {target : String} {source : FragmentSource}
    (ht : o.targets.get? target = some source) (hr : o.Reads target source)
    (hs : o.Sole old m target) {bytes : ByteArray} (hb : o.made? m target source = some bytes) :
    (m'.bytes? (o.spot target) = some bytes ↔ o.Makes old m target ∨
      m.bytes? (o.spot target) = some bytes ∧ .unlink target ∉ o.builtPatch old m) ∧
    (o.Visible old target source → o.Visible m target source →
      o.made? old target source ≠ some bytes → o.Makes old m target ∧
        m'.bytes? (o.spot target) = some bytes) := by
  have hrec := h.recalls hd
  obtain rfl := hrec.merger
  have hiff := bytes?_of_build hd hrec.namedOld hrec.named ht hr hs hb ho
  refine ⟨hiff, fun hold hnew hchanged => ?_⟩
  have hmakes : o.Makes old m target := by
    by_contra hnot
    exact hchanged
      (made?_unchanged hrec.namedOld hrec.named ht hold hnew (hrec.tells hh hk) hnot hb)
  exact ⟨hmakes, hiff.mpr (.inl hmakes)⟩

end Merger

namespace OneTarget

open MergeOptions Merger

theorem course_edited :
    Course options (fun _ => True) (after options started) started edited :=
  .edit (.addFile ⟨"/gen/app/b.js"⟩ "b".toUTF8)
    (.build (.start reachable_started) (fun _ _ _ _ _ => trivial) build_started (by decide +kernel))
    (by decide +kernel)

theorem reads : options.Reads "t.js" ⟨"app", "js"⟩ :=
  ⟨.inl (by decide +kernel), .inr (by decide +kernel)⟩

theorem get?_target : options.targets.get? "t.js" = some ⟨"app", "js"⟩ := by decide +kernel

theorem visible {m : Memory} (h : options.Mergeable m) :
    options.Visible m "t.js" ⟨"app", "js"⟩ where
  toShows := h.shows regular get?_target
  builtTree := h.built
  named := (regular.targets _ _ get?_target).1
  listed := (regular.targets _ _ get?_target).2
  uncovered := by
    rw [overlay_of_empty rfl]
    exact fun _ he => absurd he List.not_mem_nil

theorem build_edited_notices :
    (options.Visible started "t.js" ⟨"app", "js"⟩ ∧ options.Visible edited "t.js" ⟨"app", "js"⟩ ∧
      options.made? started "t.js" ⟨"app", "js"⟩ = some "v;\na".toUTF8) ∧
    (rebuilt.bytes? (options.spot "t.js") = some "v;\na;\nb".toUTF8 ↔
      options.Makes started edited "t.js" ∨
        edited.bytes? (options.spot "t.js") = some "v;\na;\nb".toUTF8 ∧
          .unlink "t.js" ∉ options.builtPatch started edited) ∧
    (options.Visible started "t.js" ⟨"app", "js"⟩ → options.Visible edited "t.js" ⟨"app", "js"⟩ →
      options.made? started "t.js" ⟨"app", "js"⟩ ≠ some "v;\na;\nb".toUTF8 →
      options.Makes started edited "t.js" ∧
        rebuilt.bytes? (options.spot "t.js") = some "v;\na;\nb".toUTF8) := by
  refine ⟨⟨visible ?_, visible ?_, by decide +kernel⟩, Course.build_notices regular.detached nofun
    course_edited (fun _ _ _ _ _ => trivial) build_edited get?_target reads
    (regular.sole (by decide +kernel) (by decide +kernel) (by decide +kernel)) (by decide +kernel)⟩
  · exact { consistent (by decide +kernel) (by decide +kernel) (by decide +kernel) with
      built := by decide +kernel
      generated := by decide +kernel }
  · exact { consistent (by decide +kernel) (by decide +kernel) (by decide +kernel) with
      built := by decide +kernel
      generated := by decide +kernel }

end OneTarget

namespace Dotted

open MergeOptions Merger OneTarget

/-- A configuration whose mapped directory is written with a dot. -/
def config : Config where
  merge := some {
    builtDir := ⟨"/up"⟩
    generatedDir := ⟨"/gen"⟩
    outputDir := ⟨"/out"⟩
    mappings := .ofList [("t.js", .ofList [("js", "./app")])] }

def options : MergeOptions where
  builtDir := ⟨"/up"⟩
  generatedDir := ⟨"/gen"⟩
  outputDir := ⟨"/out"⟩
  mappings := .ofList [("t.js", .ofList [("js", "./app")])]

/-- The fragment is rewritten after a build. -/
def edited : Memory := OneTarget.built.addFile ⟨"/gen/app/a.js"⟩ "b".toUTF8

theorem build_started :
    outcome (create options).build started =
      (.ok (.merged, after options started), OneTarget.built) := by
  rw [← after_nothing]
  exact build_of_carry rfl (by decide +kernel) (by decide +kernel) (by decide +kernel)

/-- The configuration passes all checks, and the second build does not notice that the fragment it
reads has changed. -/
theorem build_edited_misses : config.check = .ok () ∧ config.mergeOptions = some options ∧
    Apart options.builtDir.resolved options.generatedDir.resolved ∧
    Apart options.builtDir.resolved options.outputDir.resolved ∧
    Apart options.generatedDir.resolved options.outputDir.resolved ∧
    Course options (fun _ => True) (after options started) started edited ∧
    outcome (after options started).build edited = (.ok ({}, after options edited), edited) ∧
    options.targets.get? "t.js" = some ⟨"./app", "js"⟩ ∧
    options.made? started "t.js" ⟨"./app", "js"⟩ = some "v;\na".toUTF8 ∧
    options.made? edited "t.js" ⟨"./app", "js"⟩ = some "v;\nb".toUTF8 ∧
    edited.bytes? (options.spot "t.js") = some "v;\na".toUTF8 := by
  refine ⟨by decide +kernel, by decide +kernel, by decide +kernel, by decide +kernel,
    by decide +kernel, ?_, ?_, by decide +kernel, by decide +kernel, by decide +kernel,
    by decide +kernel⟩
  · exact .edit (.addFile ⟨"/gen/app/a.js"⟩ "b".toUTF8) (.build (.start reachable_started)
      (fun _ _ _ _ _ => trivial) build_started (by decide +kernel)) (by decide +kernel)
  · exact build_of_carry rfl (by decide +kernel) (by decide +kernel) (by decide +kernel)

end Dotted

end VendorBundle

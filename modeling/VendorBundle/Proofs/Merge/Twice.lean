import VendorBundle.Proofs.Merge.Reach

/-!
# Building twice

A build compares the input trees with what it saw when it began last. So a second build has nothing
to do exactly when the first one has left no trace in them and the result still stands. This is so
wherever the result and what leads out of it are kept away from the input trees; a result inside an
input tree becomes part of what the next build copies.
-/

namespace VendorBundle

open Entry Memory Effect

/-! ## Counting what was done -/

namespace MergeSummary

/-- The number of steps that a summary tells of. -/
def total (s : MergeSummary) : Nat := s.written + s.removed + s.regenerated + s.directoriesCreated

theorem total_add (a b : MergeSummary) : (a + b).total = a.total + b.total := by
  change (MergeSummary.add a b).total = _
  simp only [total, add]
  omega

end MergeSummary

namespace Effect

variable {σ ε α β : Type}

/-- What the effect returns, if it succeeds, has a property. -/
def Returns (p : α → Prop) (e : Effect σ ε α) : Prop :=
  ∀ s a s', outcome e s = (.ok a, s') → p a

theorem Returns.pure {p : α → Prop} {a : α} (h : p a) :
    Returns p (pure a : Effect σ ε α) := by
  intro s b s' ho
  rw [outcome_pure, Prod.mk.injEq, Except.ok.injEq] at ho
  exact ho.1 ▸ h

theorem Returns.bind {p : β → Prop} {x : Effect σ ε α} {f : α → Effect σ ε β}
    (h : ∀ a, Returns p (f a)) : Returns p (x >>= f) := by
  intro s b s' ho
  obtain ⟨a, t, -, hf⟩ := outcome_bind_eq_ok_iff.mp ho
  exact h a t b s' hf

end Effect

namespace Merger

variable {o : MergeOptions} {old m m' : Memory}

/-- Making a target anew counts as one step. -/
theorem returns_regenerate (g : Merger) (target : String) : Returns (·.total = 1)
    (g.regenerate target : MergeEffect Memory MergeSummary) := by
  refine .bind fun m => ?_
  split
  · exact .bind fun _ => .pure rfl
  · split
    · exact .bind fun _ => .pure rfl
    · refine .bind fun texts => ?_
      split
      · exact .bind fun _ => .pure rfl
      · exact .bind fun _ => .bind fun _ => .pure rfl

theorem returns_putFile (g : Merger) (overlay : Overlay) (path : String) :
    Returns (·.total = 1) (g.putFile overlay path) := by
  rw [putFile]
  split
  · exact g.returns_regenerate path
  · split
    · exact .bind fun _ => .pure rfl
    · exact .bind fun _ => .pure rfl

/-- So does carrying over a change. -/
theorem returns_apply (g : Merger) (overlay : Overlay) (op : PatchOp) : Returns (·.total = 1)
    (g.apply overlay op : MergeEffect Memory MergeSummary) := by
  cases op with
  | unlink path | rmdir path | mkdir path => exact .bind fun _ => .pure rfl
  | change path entry | create path entry => exact g.returns_putFile overlay path

/-- A sequence of steps counts its items. -/
theorem returns_summed {α : Type} {step : α → MergeEffect Memory MergeSummary} {items : List α}
    (h : ∀ a ∈ items, Returns (·.total = 1) (step a)) :
    Returns (·.total = items.length) (summed step items) := by
  have hfold : ∀ s : MergeSummary, Returns (·.total = s.total + items.length)
      (items.foldlM (fun s a => do pure (s + (← step a))) s) := by
    induction items with
    | nil => exact fun s => .pure rfl
    | cons a items ih =>
        intro s m r m' ho
        rw [List.foldlM_cons] at ho
        obtain ⟨s₁, m₁, hfirst, hrest⟩ := outcome_bind_eq_ok_iff.mp ho
        obtain ⟨r₁, m₂, hstep, hpure⟩ := outcome_bind_eq_ok_iff.mp hfirst
        obtain ⟨hs, -⟩ := Prod.mk.inj hpure
        obtain rfl := Except.ok.inj hs
        have hone : r₁.total = 1 := h a List.mem_cons_self _ _ _ hstep
        have hmore : r.total = (s + r₁).total + items.length :=
          ih (fun b hb => h b (List.mem_cons_of_mem _ hb)) _ _ _ _ hrest
        rw [hmore, MergeSummary.total_add, hone, List.length_cons]
        omega
  intro m r m' ho
  have := hfold {} m r m' ho
  simpa [MergeSummary.total] using this

/-- The summary of a build counts its changes and the targets that were left. -/
theorem total_of_build (hm : m.Named) {s : MergeSummary} {g : Merger}
    (ho : outcome (after o old).build m = (.ok (s, g), m')) :
    s.total = (o.builtPatch old m).length + (o.left old m).length := by
  obtain ⟨-, s₁, m₁, s₂, hfirst, hsecond, rfl⟩ := passes_of_build hm ho
  rw [MergeSummary.total_add,
    returns_summed (fun op _ => (after o old).returns_apply (o.overlay m) op) _ _ _ hfirst,
    returns_summed (fun target _ => (after o old).returns_regenerate target) _ _ _ hsecond]

end Merger

/-! ## A second build -/

/-- Making a directory changes nothing exactly when something stands there and all the way up. -/
theorem Memory.addDir_eq_self_iff {m : Memory} {path : Path} :
    m.addDir path = m ↔ ∀ place, place <+: path.resolved → (m.node? place).isSome := by
  constructor
  · intro h place hp
    rw [← h, node?_addDir, if_pos hp]
    rfl
  · intro h
    have hnodes : (m.addDir path).nodes = m.nodes := Table.ext_get? fun place => by
      change (m.addDir path).node? place = m.node? place
      rw [node?_addDir]
      split
      · rename_i hp
        obtain ⟨node, hn⟩ := Option.isSome_iff_exists.mp (h place hp)
        rw [hn]
        rfl
      · rfl
    change ({ m with nodes := (m.addDir path).nodes } : Memory) = m
    rw [hnodes]

namespace Merger

open MergeOptions

variable {o : MergeOptions} {old m m' : Memory}

/-- The second build has nothing to do and changes nothing exactly when the first one left no trace
in the listings of the input trees and the result stands. -/
theorem build_again_iff (hm : m.Named) :
    outcome (after o old).build m = (.ok ({}, after o m), m) ↔
      o.builtPatch old m = [] ∧ o.left old m = [] ∧
        ∀ place, place <+: o.outputDir.resolved → (m.node? place).isSome := by
  constructor
  · intro ho
    have htotal := total_of_build hm ho
    have hzero : (o.builtPatch old m).length = 0 ∧ (o.left old m).length = 0 := by
      have : (MergeSummary.total {}) = 0 := rfl
      omega
    have hpatch := List.length_eq_zero_iff.mp hzero.1
    have hleft := List.length_eq_zero_iff.mp hzero.2
    obtain ⟨-, s₁, m₁, s₂, hfirst, hsecond, -⟩ := passes_of_build hm ho
    rw [hpatch] at hfirst
    rw [hleft] at hsecond
    obtain ⟨-, rfl⟩ := Prod.mk.inj hfirst
    obtain ⟨-, hsame⟩ := Prod.mk.inj hsecond
    exact ⟨hpatch, hleft, addDir_eq_self_iff.mp hsame⟩
  · rintro ⟨hpatch, hleft, hstands⟩
    rw [outcome_build hm, hpatch, hleft, addDir_eq_self_iff.mpr hstands]
    rfl

/-- Without a difference between the listings nothing is left to do. -/
theorem nothing_to_do (hm : m.Named) (hm' : m'.Named)
    (hs : ∀ place, o.IsInput place → m'.node? place = m.node? place) :
    o.builtPatch m m' = [] ∧ o.left m m' = [] := by
  have hgenerated : o.generatedPatch m m' = [] := by
    rw [generatedPatch, generatedListing_congr hm hm' hs]
    exact Patch.between_self (ascending_listing hm _ _)
  refine ⟨?_, List.eq_nil_iff_forall_not_mem.mpr fun target ht => ?_⟩
  · rw [builtPatch, merged_congr hm hm' hs]
    exact Patch.between_self ascending_merged
  · obtain ⟨⟨op, hop, -⟩, -⟩ := mem_left.mp ht
    rw [hgenerated] at hop
    exact absurd hop List.not_mem_nil

/-- After a build the result and all above it stand, if the build removes nothing of it. -/
theorem stands_of_build (hd : o.Detached) (hold : old.Named) (hm : m.Named) {place : Place}
    (hp : place <+: o.outputDir.resolved) :
    ((outcome (after o old).build m).2.node? place).isSome := by
  have hroot : (m.addDir o.outputDir).node? place = some ((m.node? place).getD .dir) := by
    rw [node?_addDir, if_pos hp]
  rw [(alters_passes hm).node?_of_some
    (fun ht => (hd.owned _ (owns_of_touches hold hm ht)).1 hp) hroot]
  rfl

/-- Whatever a merger has built before, after a build that succeeds another one does nothing exactly
when the first one left no trace in the listings of the input trees and the result stands. This is
always so where what is written is kept away from the input trees. -/
theorem Used.build_twice {g g' : Merger} {s : MergeSummary} (hg : Used o g) (hm : m.Named)
    (ho : outcome g.build m = (.ok (s, g'), m')) :
    (outcome g'.build m' = (.ok ({}, after o m'), m') ↔
      o.builtPatch m m' = [] ∧ o.left m m' = [] ∧
        ∀ place, place <+: o.outputDir.resolved → (m'.node? place).isSome) ∧
    (o.Detached → outcome g'.build m' = (.ok ({}, after o m'), m')) := by
  obtain ⟨old, hold, rfl⟩ := hg.exists_after
  obtain ⟨rfl, -⟩ := passes_of_build hm ho
  have hend : (outcome (after o old).build m).2 = m' := by rw [ho]
  have hm' : m'.Named := hend ▸ named_of_alters hm (alters_build hm)
  refine ⟨build_again_iff hm', fun hd => (build_again_iff hm').mpr ?_⟩
  obtain ⟨hpatch, hleft⟩ := nothing_to_do (o := o) hm hm' fun place hp =>
    hend ▸ inputs_of_alters hd hold hm (alters_build hm) hp
  exact ⟨hpatch, hleft, fun place hp => hend ▸ stands_of_build hd hold hm hp⟩

end Merger

namespace OneTarget

open MergeOptions Merger

theorem build_built : options.Detached ∧
    (outcome (after options started).build built = (.ok ({}, after options built), built) ↔
      options.builtPatch started built = [] ∧ options.left started built = [] ∧
        ∀ place, place <+: options.outputDir.resolved → (built.node? place).isSome) ∧
    (options.Detached →
      outcome (after options started).build built = (.ok ({}, after options built), built)) :=
  ⟨regular.detached, Used.build_twice .new (by decide +kernel) build_started⟩

end OneTarget

namespace Inward

open MergeOptions Merger

/-- A configuration whose result lies inside the build output. -/
def config : Config where
  merge := some { builtDir := ⟨"/up"⟩, generatedDir := ⟨"/gen"⟩, outputDir := ⟨"/up/out"⟩ }

def options : MergeOptions where
  builtDir := ⟨"/up"⟩
  generatedDir := ⟨"/gen"⟩
  outputDir := ⟨"/up/out"⟩

def started : Memory := (Memory.empty ⟨"/"⟩).addFile ⟨"/up/a.txt"⟩ "A".toUTF8

def copied : Memory := started.addFile ⟨"/up/out/a.txt"⟩ "A".toUTF8

/-- The result has been copied into itself. -/
def nested : Memory := copied.addFile ⟨"/up/out/out/a.txt"⟩ "A".toUTF8

/-- The configuration passes all checks, and every build of it copies what the last one made. -/
theorem build_copied : config.check = .ok () ∧ config.mergeOptions = some options ∧
    outcome (create options).build started = (.ok (.copied, after options started), copied) ∧
    outcome (after options started).build copied =
      (.ok (.created + .copied, after options copied), nested) ∧
    MergeSummary.created + MergeSummary.copied ≠ {} ∧ nested ≠ copied := by
  refine ⟨by decide +kernel, by decide +kernel, ?_, ?_, by decide +kernel, by decide +kernel⟩
  · rw [← after_nothing]
    exact build_of_carry rfl (by decide +kernel) (by decide +kernel) (by decide +kernel)
  · exact build_of_carry rfl (by decide +kernel) (by decide +kernel) (by decide +kernel)

end Inward

end VendorBundle

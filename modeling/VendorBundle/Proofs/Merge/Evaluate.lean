import VendorBundle.Proofs.Merge.Outcome

/-!
# Evaluating a build

Sorting does not reduce in the kernel. Where walks find the entries of both input trees in order and
no generated directory is passed through, what a build does can be computed without it.
-/

namespace VendorBundle

open Entry Memory Effect

/-- A state whose listings can be found without sorting. -/
def MergeOptions.Walked (o : MergeOptions) (m : Memory) : Prop :=
  m.Named ∧ Ascending (m.walked o.builtDir o.listOptions) ∧
    Ascending (m.walked o.generatedDir o.listOptions)

instance (o : MergeOptions) (m : Memory) : Decidable (o.Walked m) :=
  inferInstanceAs (Decidable (_ ∧ _))

theorem MergeOptions.merged_eq_walked {o : MergeOptions} (hp : o.passthrough = ∅) {m : Memory}
    (hm : o.Walked m) : o.merged m = m.walked o.builtDir o.listOptions := by
  rw [merged_of_empty hp hm.1, builtListing, listing_eq_walked hm.1 hm.2.1]

namespace Merger

open MergeOptions

/-- What a build does to the result, computed from what walks find. -/
def carry (o : MergeOptions) (old m : Memory) : MergeEffect Memory MergeSummary := do
  let patch := Patch.between (old.walked o.builtDir o.listOptions)
    (m.walked o.builtDir o.listOptions)
  let fragments := Patch.between (old.walked o.generatedDir o.listOptions)
    (m.walked o.generatedDir o.listOptions)
  let changes ← summed ((create o).apply {}) patch
  let more ← summed (create o).regenerate
    ((create o).remaining ((create o).affected fragments) patch)
  pure (changes + more)

variable {o : MergeOptions} (hp : o.passthrough = ∅) {old m m' : Memory} (hold : o.Walked old)
  (hm : o.Walked m)

include hp hold hm

theorem outcome_build_eq_carry : outcome (after o old).build m =
    outcome (do return (← carry o old m, after o m)) (m.addDir o.outputDir) := by
  have hpatch : o.builtPatch old m =
      Patch.between (old.walked o.builtDir o.listOptions) (m.walked o.builtDir o.listOptions) := by
    rw [builtPatch, merged_eq_walked hp hold, merged_eq_walked hp hm]
  have hfragments : o.generatedPatch old m = Patch.between
      (old.walked o.generatedDir o.listOptions) (m.walked o.generatedDir o.listOptions) := by
    rw [generatedPatch, generatedListing, generatedListing, listing_eq_walked hold.1 hold.2.2,
      listing_eq_walked hm.1 hm.2.2]
  rw [outcome_build hm.1, overlay_of_empty hp, left, hfragments, hpatch]
  simp only [carry, bind_assoc, pure_bind]
  rfl

theorem build_of_carry {s : MergeSummary}
    (h : outcome (carry o old m) (m.addDir o.outputDir) = (.ok s, m')) :
    outcome (after o old).build m = (.ok (s, after o m), m') := by
  rw [outcome_build_eq_carry hp hold hm, outcome_bind_of_ok h]
  rfl

theorem fails_of_carry
    (h : (outcome (carry o old m) (m.addDir o.outputDir)).1.toBool = false)
    (hm' : (outcome (carry o old m) (m.addDir o.outputDir)).2 = m') :
    ∃ e, outcome (after o old).build m = (.error e, m') := by
  rw [outcome_build_eq_carry hp hold hm, outcome_bind]
  cases ho : outcome (carry o old m) (m.addDir o.outputDir) with
  | mk result after =>
      rw [ho] at h hm'
      cases result with
      | ok s => exact absurd h nofun
      | error e => exact ⟨e, by rw [← hm']⟩

end Merger

end VendorBundle

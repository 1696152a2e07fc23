import VendorBundle.Pipeline
import VendorBundle.Proofs.Bundle.Repeat
import VendorBundle.Proofs.Index.Collect

/-!
# What a build consists of

A build that succeeds has updated the index of every tree and has either found the lists of imports
unchanged and given out the last plan, or made a plan and kept it.
-/

namespace VendorBundle

open Effect
open List (Forall₂)

/-! ## Splitting -/

namespace Splitter

variable {σ : Type} [Files σ] {files : σ} {lists : List (Shared (List Import))}

theorem outcome_plan_of_known {s : Splitter} {plan : Shared BundlePlan}
    (h : s.known? lists = some plan) : outcome (Splitter.plan files lists) s = (.ok plan, s) := by
  rw [Splitter.plan, outcome_bind_of_ok (outcome_get s), h]
  rfl

/-- The splitter after it has made a plan. -/
def made (s : Splitter) (lists : List (Shared (List Import))) (plan : BundlePlan)
    (r : Resolver) : Splitter :=
  { s with
    resolver := r
    last := some ⟨lists, s.recomputations + 1, plan⟩
    recomputations := s.recomputations + 1 }

theorem outcome_plan_of_unknown {s : Splitter} (h : s.known? lists = none) :
    outcome (Splitter.plan files lists) s =
      match outcome (Split.plan files s.policy (lists.flatMap (·.value))) s.resolver with
      | (.ok plan, r) => (.ok ⟨s.recomputations + 1, plan⟩, s.made lists plan r)
      | (.error e, r) => (.error e, { s with resolver := r }) := by
  have hrun : (Split.plan files s.policy (lists.flatMap (·.value))).run.run s.resolver =
      outcome (Split.plan files s.policy (lists.flatMap (·.value))) s.resolver := rfl
  rw [Splitter.plan, outcome_bind_of_ok (outcome_get s), h]
  simp only [recompute]
  rw [outcome_bind_of_ok (outcome_get s), hrun]
  generalize outcome (Split.plan files s.policy (lists.flatMap (·.value))) s.resolver = made
  obtain ⟨result, r⟩ := made
  cases result <;> rfl

theorem known?_eq_none_iff {s : Splitter} : s.known? lists = none ↔
    ∀ last, s.last = some last → sameLists last.inputs lists = false := by
  rw [known?]
  cases s.last with
  | none => simp
  | some last => simp

theorem known?_eq_some_iff {s : Splitter} {plan : Shared BundlePlan} :
    s.known? lists = some plan ↔
      ∃ last, s.last = some last ∧ last.plan = plan ∧ sameLists last.inputs lists := by
  rw [known?]
  cases s.last with
  | none => simp
  | some last => simp [and_comm]

/-- Either the last plan was made from the same lists and is given out again, or a plan is made. -/
theorem plan_cases {s s' : Splitter} {plan : Shared BundlePlan}
    (h : outcome (Splitter.plan files lists) s = (.ok plan, s')) :
    (s' = s ∧ ∃ last, s.last = some last ∧ last.plan = plan ∧ sameLists last.inputs lists) ∨
      (∀ last, s.last = some last → sameLists last.inputs lists = false) ∧ ∃ r,
        outcome (Split.plan files s.policy (lists.flatMap (·.value))) s.resolver =
          (.ok plan.value, r) ∧ plan.stamp = s.recomputations + 1 ∧
        s' = s.made lists plan.value r := by
  cases hk : s.known? lists with
  | some known =>
      rw [outcome_plan_of_known hk] at h
      obtain ⟨hp, rfl⟩ := Prod.mk.inj h
      obtain rfl := Except.ok.inj hp
      exact .inl ⟨rfl, known?_eq_some_iff.mp hk⟩
  | none =>
      refine .inr ⟨known?_eq_none_iff.mp hk, ?_⟩
      rw [outcome_plan_of_unknown hk] at h
      split at h
      · rename_i made r hmade
        obtain ⟨hp, rfl⟩ := Prod.mk.inj h
        obtain rfl := Except.ok.inj hp
        exact ⟨r, hmade, rfl, rfl⟩
      · exact absurd (Prod.mk.inj h).1 nofun

/-- A failure is one of making a plan, and only the resolver has learnt something. -/
theorem plan_failed {s s' : Splitter} {e : SplitError}
    (h : outcome (Splitter.plan files lists) s = (.error e, s')) :
    (∀ last, s.last = some last → sameLists last.inputs lists = false) ∧ ∃ r,
      outcome (Split.plan files s.policy (lists.flatMap (·.value))) s.resolver = (.error e, r) ∧
        s' = { s with resolver := r } := by
  cases hk : s.known? lists with
  | some known =>
      rw [outcome_plan_of_known hk] at h
      cases h
  | none =>
      refine ⟨known?_eq_none_iff.mp hk, ?_⟩
      rw [outcome_plan_of_unknown hk] at h
      split at h
      · cases h
      · rename_i e' r hfailed
        obtain ⟨he, rfl⟩ := Prod.mk.inj h
        obtain rfl := Except.error.inj he
        exact ⟨r, hfailed, rfl⟩

theorem plan_of_new {s : Splitter} (hs : s.last = none) {plan : BundlePlan} {r : Resolver}
    (h : outcome (Split.plan files s.policy (lists.flatMap (·.value))) s.resolver =
      (.ok plan, r)) : outcome (Splitter.plan files lists) s =
        (.ok ⟨s.recomputations + 1, plan⟩, s.made lists plan r) := by
  have hk : s.known? lists = none := by rw [known?, hs]
  rw [outcome_plan_of_unknown hk, h]

end Splitter

namespace Pipeline

variable {σ : Type} [Files σ] {files : σ}

/-! ## Updating the indexes -/

section

variable {index index' : ImportIndex} {listing : List Entry}
  (rest : List (ImportIndex × Except FileError (List Entry)))

theorem updateIndexes_of_ok
    (h : outcome (ImportIndex.update files listing) index = (.ok (), index')) :
    updateIndexes files ((index, .ok listing) :: rest) =
      ((updateIndexes files rest).1, index' :: (updateIndexes files rest).2) := by
  have hrun : (ImportIndex.update files listing).run.run index = (.ok (), index') := h
  rw [updateIndexes, hrun]

theorem updateIndexes_of_error {e : AnalysisError}
    (h : outcome (ImportIndex.update files listing) index = (.error e, index')) :
    updateIndexes files ((index, .ok listing) :: rest) =
      (.error (.analysis e), index' :: rest.map Prod.fst) := by
  have hrun : (ImportIndex.update files listing).run.run index = (.error e, index') := h
  rw [updateIndexes, hrun]

end

theorem updateIndexes_eq_ok_iff {pairs : List (ImportIndex × Except FileError (List Entry))}
    {indexes : List ImportIndex} : updateIndexes files pairs = (.ok (), indexes) ↔
      Forall₂ (fun pair index => ∃ listing, pair.2 = .ok listing ∧
        outcome (ImportIndex.update files listing) pair.1 = (.ok (), index)) pairs indexes := by
  induction pairs generalizing indexes with
  | nil =>
      rw [updateIndexes, List.forall₂_nil_left_iff, Prod.mk.injEq]
      exact ⟨fun h => h.2.symm, fun h => ⟨rfl, h.symm⟩⟩
  | cons pair pairs ih =>
      obtain ⟨index, listing⟩ := pair
      rw [List.forall₂_cons_left_iff]
      cases listing with
      | error e => simp [updateIndexes]
      | ok listing =>
          simp only [Except.ok.injEq, exists_eq_left']
          rcases hu : outcome (ImportIndex.update files listing) index with ⟨e | _, index'⟩
          · simp [updateIndexes_of_error pairs hu]
          · simp only [updateIndexes_of_ok pairs hu, Prod.mk.injEq, true_and]
            constructor
            · rintro ⟨hr, rfl⟩
              exact ⟨index', _, rfl, ih.mp (Prod.ext hr rfl), rfl⟩
            · rintro ⟨_, rest, rfl, hrest, rfl⟩
              rw [ih.mpr hrest]
              exact ⟨rfl, rfl⟩

/-- The indexes of a pipeline with the listings of their trees. -/
def listed (files : σ) (p : Pipeline) : List (ImportIndex × Except FileError (List Entry)) :=
  p.indexes.map fun index => (index, listTree files index.tree.root p.listOptions)

theorem outcome_updateTrees (p : Pipeline) : outcome (updateTrees files) p =
    ((updateIndexes files (p.listed files)).1,
      { p with indexes := (updateIndexes files (p.listed files)).2 }) := by
  rw [updateTrees, outcome_bind_of_ok (outcome_get p), listed]
  dsimp only
  generalize updateIndexes files _ = updated
  obtain ⟨result, indexes⟩ := updated
  cases result <;> rfl

/-- A build ends where an index cannot be updated. -/
theorem outcome_build_of_failed {p : Pipeline} {e : BuildError} {indexes : List ImportIndex}
    (h : updateIndexes files (p.listed files) = (.error e, indexes)) :
    outcome (build files) p = (.error e, { p with indexes }) := by
  have hupdate : outcome (updateTrees files) p = (.error e, { p with indexes }) := by
    rw [outcome_updateTrees, h]
  exact outcome_bind_of_error hupdate _

/-- What a build gives once the indexes are updated. -/
theorem outcome_build_of_updated {p : Pipeline} {indexes : List ImportIndex}
    (h : updateIndexes files (p.listed files) = (.ok (), indexes)) : outcome (build files) p =
      match outcome (Splitter.plan files (indexes.map (·.imports.1))) p.splitter with
      | (.error e, splitter) => (.error (.split e), { p with
          indexes := indexes.map (·.imports.2), splitter })
      | (.ok plan, splitter) =>
          (.ok ⟨plan, splitter.recomputations != p.splitter.recomputations⟩, { p with
            indexes := indexes.map (·.imports.2), splitter, last := some plan }) := by
  have hupdate : outcome (updateTrees files) p = (.ok (), { p with indexes }) := by
    rw [outcome_updateTrees, h]
  have hrun : ∀ (s : Splitter) lists, (Splitter.plan files lists).run.run s =
      outcome (Splitter.plan files lists) s := fun _ _ => rfl
  rw [build, outcome_bind_of_ok hupdate, outcome_bind_of_ok (outcome_get _)]
  simp only [imports, List.map_map, Function.comp_def, hrun]
  generalize outcome (Splitter.plan files (indexes.map (·.imports.1))) p.splitter = planned
  obtain ⟨result, splitter⟩ := planned
  cases result <;> rfl

/-- A build succeeds when all indexes can be updated and their lists can be split. -/
theorem outcome_build_eq_ok_iff {p p' : Pipeline} {o : BuildOutcome} :
    outcome (build files) p = (.ok o, p') ↔
      ∃ indexes splitter, updateIndexes files (p.listed files) = (.ok (), indexes) ∧
        outcome (Splitter.plan files (indexes.map (·.imports.1))) p.splitter =
          (.ok o.plan, splitter) ∧
        p' = { p with
          indexes := indexes.map (·.imports.2), splitter, last := some o.plan } ∧
        o.recomputed = (splitter.recomputations != p.splitter.recomputations) := by
  obtain ⟨plan, recomputed⟩ := o
  constructor
  · intro h
    obtain ⟨⟨⟩, q, hu, -⟩ := outcome_bind_eq_ok_iff.mp h
    rw [outcome_updateTrees, Prod.mk.injEq] at hu
    have hupdated : updateIndexes files (p.listed files) =
        (.ok (), (updateIndexes files (p.listed files)).2) := Prod.ext hu.1 rfl
    rw [outcome_build_of_updated hupdated] at h
    generalize hplan : outcome (Splitter.plan files _) p.splitter = planned at h
    obtain ⟨result, splitter⟩ := planned
    cases result with
    | error e => exact absurd (Prod.mk.inj h).1 nofun
    | ok made =>
        simp only [Prod.mk.injEq, Except.ok.injEq, BuildOutcome.mk.injEq] at h
        obtain ⟨⟨rfl, hr⟩, hp⟩ := h
        exact ⟨_, splitter, hupdated, hplan, hp.symm, hr.symm⟩
  · rintro ⟨indexes, splitter, hupdated, hplan, rfl, rfl⟩
    rw [outcome_build_of_updated hupdated, hplan]

end Pipeline

end VendorBundle

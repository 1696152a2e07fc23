import VendorBundle.Proofs.Bundle.Concordant

/-!
# Asking a splitter again

A splitter keeps the last plan that it gave, with the lists of imports that it gave it for. It gives
this plan out again exactly when the next call is for the same lists, and makes a plan otherwise. A
call that fails leaves what is kept as it was. As long as the files stay, all of this makes no
difference to the plans: each call comes to what a new splitter with a new resolver comes to.
-/

namespace VendorBundle

open Effect
open Resolver (AnswersByPlace Consulted Echoes VersionsByPlace VersionsMatch)

/-! ## Errors that tell of the same -/

theorem FileError.Same.symm {e e' : FileError} (h : e.Same e') : e'.Same e := by
  cases h with
  | notFound h => exact .notFound h.symm
  | notText h fault => exact .notText h.symm fault
  | refused action h reason => exact .refused action h.symm reason

theorem FileError.Same.trans {e e' e'' : FileError} (h : e.Same e') (h' : e'.Same e'') :
    e.Same e'' := by
  cases h with
  | notFound h =>
      cases h' with
      | notFound h' => exact .notFound (h.trans h')
  | notText h fault =>
      cases h' with
      | notText h' => exact .notText (h.trans h') fault
  | refused action h reason =>
      cases h' with
      | refused _ h' => exact .refused action (h.trans h') reason

theorem ResolveError.Same.symm {e e' : ResolveError} (h : e.Same e') : e'.Same e := by
  cases h with
  | entryNotFound specifier hd hs => exact .entryNotFound specifier hd.symm hs.symm
  | manifestTooLarge h => exact .manifestTooLarge h.symm
  | manifestMalformed h => exact .manifestMalformed h.symm
  | file h => exact .file h.symm

theorem ResolveError.Same.trans {e e' e'' : ResolveError} (h : e.Same e') (h' : e'.Same e'') :
    e.Same e'' := by
  cases h with
  | entryNotFound specifier hd hs =>
      cases h' with
      | entryNotFound _ hd' hs' => exact .entryNotFound specifier (hd.trans hd') (hs.trans hs')
  | manifestTooLarge h =>
      cases h' with
      | manifestTooLarge h' => exact .manifestTooLarge (h.trans h')
  | manifestMalformed h =>
      cases h' with
      | manifestMalformed h' => exact .manifestMalformed (h.trans h')
  | file h =>
      cases h' with
      | file h' => exact .file (h.trans h')

theorem Sighting.Same.symm {a b : Sighting} (h : a.Same b) : b.Same a :=
  ⟨h.file.symm, h.entrypoint.symm, h.version.symm⟩

theorem Sighting.Same.trans {a b c : Sighting} (h : a.Same b) (h' : b.Same c) : a.Same c :=
  ⟨h.file.trans h'.file, h.entrypoint.trans h'.entrypoint, h.version.trans h'.version⟩

theorem SplitError.Same.symm {e e' : SplitError} (h : e.Same e') : e'.Same e := by
  cases h with
  | refl => exact .refl _
  | versionConflict specifier ha hb => exact .versionConflict specifier ha.symm hb.symm
  | resolve h => exact .resolve h.symm

theorem SplitError.Same.trans {e e' e'' : SplitError} (h : e.Same e') (h' : e'.Same e'') :
    e.Same e'' := by
  cases h with
  | refl => exact h'
  | versionConflict specifier ha hb =>
      cases h' with
      | refl => exact .versionConflict specifier ha hb
      | versionConflict _ ha' hb' =>
          exact .versionConflict specifier (ha.trans ha') (hb.trans hb')
  | resolve h =>
      cases h' with
      | refl => exact .resolve h
      | resolve h' => exact .resolve (h.trans h')

/-! ## A memory of one state of the files -/

section

variable {σ : Type} [Files σ] {files : σ} {options : ResolveOptions}

/-- A resolver that has only seen these files answers as a new one. -/
theorem Resolver.Consulted.echoes (ha : AnswersByPlace files options)
    (hv : VersionsByPlace files) {r : Resolver} (h : Consulted files options r) :
    Echoes files { options } r := by
  induction h with
  | new => exact .refl files _
  | resolve root specifier template _ ih =>
      exact ih.trans (echoes_resolve (ih.options ▸ ha) ⟨root, specifier, template⟩)
  | versionOf path _ ih => exact ih.trans (echoes_versionOf hv _ path)

/-- Resolvers of the same answers make the same plan, or fail in the same way. -/
theorem Split.matches_plan (ha : AnswersByPlace files options) (hv : VersionsMatch files)
    {r r' : Resolver} (hr : Echoes files { options } r) (hr' : Echoes files { options } r')
    (policy : BundlePolicy) (imports : List Import) :
    Matches SplitError.Same BundlePlan.Same (outcome (Split.plan files policy imports) r).1
      (outcome (Split.plan files policy imports) r').1 :=
  (matches_planBy hr ha hv policy imports).1.trans (fun h h' => h.trans h') (fun h h' => h.trans h')
    ((matches_planBy hr' ha hv policy imports).1.symm (fun h => h.symm) fun h => h.symm)

end

namespace Splitter

/-! ## Calls -/

/-- A call with its result. -/
structure Call where
  lists : List (Shared (List Import))
  result : Except SplitError (Shared BundlePlan)

/-- What a call gives to be kept, if it succeeds. -/
def Call.kept? (c : Call) : Option Last :=
  match c.result with
  | .ok plan => some ⟨c.lists, plan⟩
  | .error _ => none

/-- The last plan that was given, of calls that are listed from the latest on. -/
def lastGiven? (calls : List Call) : Option Last := calls.findSome? Call.kept?

/-- No plan was given yet, or the last one was for other lists. -/
def isOpen (calls : List Call) (lists : List (Shared (List Import))) : Bool :=
  (lastGiven? calls).all fun last => !sameLists last.inputs lists

/-- How many of the calls had to make the plan that they gave. -/
def plansMade : List Call → Nat
  | [] => 0
  | c :: calls =>
      if c.kept?.isSome && isOpen calls c.lists then plansMade calls + 1 else plansMade calls

section

variable {calls : List Call} {lists : List (Shared (List Import))}

theorem Call.kept?_eq_some_iff {c : Call} {last : Last} :
    c.kept? = some last ↔ c.lists = last.inputs ∧ c.result = .ok last.plan := by
  obtain ⟨lists, result⟩ := c
  obtain ⟨inputs, plan⟩ := last
  cases result with
  | ok made => simp [kept?]
  | error e => simp [kept?]

theorem mem_of_lastGiven? {last : Last} (h : lastGiven? calls = some last) :
    (⟨last.inputs, .ok last.plan⟩ : Call) ∈ calls := by
  obtain ⟨c, hc, hkept⟩ := List.exists_of_findSome?_eq_some h
  obtain ⟨hl, hr⟩ := Call.kept?_eq_some_iff.mp hkept
  rwa [← hl, ← hr]

theorem isOpen_iff : isOpen calls lists ↔
    ∀ last, lastGiven? calls = some last → ¬ sameLists last.inputs lists := by
  rw [isOpen]
  cases lastGiven? calls with
  | none => simp
  | some last => simp

theorem lastGiven?_ok (plan : Shared BundlePlan) :
    lastGiven? (⟨lists, .ok plan⟩ :: calls) = some ⟨lists, plan⟩ := rfl

theorem lastGiven?_error (e : SplitError) :
    lastGiven? (⟨lists, .error e⟩ :: calls) = lastGiven? calls := rfl

theorem plansMade_ok (plan : Shared BundlePlan) : plansMade (⟨lists, .ok plan⟩ :: calls) =
    if isOpen calls lists then plansMade calls + 1 else plansMade calls := by
  rw [plansMade, Call.kept?, Option.isSome_some, Bool.true_and]

theorem plansMade_error (e : SplitError) :
    plansMade (⟨lists, .error e⟩ :: calls) = plansMade calls := by
  rw [plansMade, Call.kept?, Option.isSome_none, Bool.false_and]
  rfl

end

section

variable {σ : Type} [Files σ] {files : σ} {options : ResolveOptions} {policy : BundlePolicy}
  {content : Nat → List Import} {calls : List Call} {s : Splitter}
  {lists : List (Shared (List Import))}

/-- A splitter with its calls so far, the latest first, while the files stay. Lists of one stamp are
one list, and so have one content; whether two empty lists are one is up to who makes them. Others
may ask the resolver in between. -/
inductive Session (files : σ) (options : ResolveOptions) (policy : BundlePolicy)
    (content : Nat → List Import) : List Call → Splitter → Prop where
  | new {r : Resolver} (hr : Consulted files options r) :
      Session files options policy content [] { policy, resolver := r }
  | share {calls : List Call} {s : Splitter} {r : Resolver}
      (h : Session files options policy content calls s) (hr : Consulted files options r) :
      Session files options policy content calls { s with resolver := r }
  | plan {calls : List Call} {s : Splitter} {lists : List (Shared (List Import))}
      (h : Session files options policy content calls s) (hl : Known content lists) :
      Session files options policy content
        (⟨lists, (outcome (Splitter.plan files lists) s).1⟩ :: calls)
        (outcome (Splitter.plan files lists) s).2

/-- A call comes to what a new splitter with a new resolver comes to. -/
def Fresh (files : σ) (options : ResolveOptions) (policy : BundlePolicy) (c : Call) : Prop :=
  Matches SplitError.Same BundlePlan.Same (c.result.map (·.value))
    ((outcome (Splitter.plan files c.lists) { policy, resolver := { options } }).1.map (·.value))

/-- What a splitter keeps of its calls. -/
structure Keeping (files : σ) (options : ResolveOptions) (policy : BundlePolicy)
    (content : Nat → List Import) (calls : List Call) (s : Splitter) : Prop where
  uses : s.policy = policy
  echoes : Echoes files { options } s.resolver
  last : s.last = lastGiven? calls
  count : s.recomputations = plansMade calls
  known : ∀ c ∈ calls, Known content c.lists
  fresh : ∀ c ∈ calls, Fresh files options policy c
  /-- The stamps of plans are not above the number of plans that were made. -/
  stamps : ∀ c ∈ calls, ∀ plan, c.result = .ok plan → plan.stamp ≤ s.recomputations

/-- Lists that keep their stamps are told apart by these. -/
theorem eq_of_sameLists {inputs : List (Shared (List Import))} (hi : Known content inputs)
    (hl : Known content lists) (h : sameLists inputs lists) : inputs = lists := by
  have hstamped {ls : List (Shared (List Import))} (hk : Known content ls) :
      ls.map (fun l => ⟨l.stamp, content l.stamp⟩) = ls :=
    (List.map_congr_left fun l hl => by rw [← hk l hl]; rfl).trans (List.map_id ls)
  have hstamps : inputs.map (·.stamp) = lists.map (·.stamp) := eq_of_beq h
  rw [← hstamped hi, ← hstamped hl]
  have hmap := congrArg (List.map fun n => (⟨n, content n⟩ : Shared (List Import))) hstamps
  rwa [List.map_map, List.map_map] at hmap

namespace Keeping

/-- Either the last plan is given out again, or a plan is made and kept, or making it fails. -/
theorem plan_cases (h : Keeping files options policy content calls s)
    (lists : List (Shared (List Import))) :
    (∃ last, lastGiven? calls = some last ∧ sameLists last.inputs lists ∧
      outcome (Splitter.plan files lists) s = (.ok last.plan, s)) ∨
    isOpen calls lists ∧
      ((∃ plan r, outcome (Split.plan files policy (lists.flatMap (·.value))) s.resolver =
          (.ok plan, r) ∧
        outcome (Splitter.plan files lists) s =
          (.ok ⟨s.recomputations + 1, plan⟩, s.made lists plan r)) ∨
      ∃ e r, outcome (Split.plan files policy (lists.flatMap (·.value))) s.resolver =
          (.error e, r) ∧
        outcome (Splitter.plan files lists) s = (.error e, { s with resolver := r })) := by
  have hopen (hother : ∀ last, s.last = some last → sameLists last.inputs lists = false) :
      isOpen calls lists := isOpen_iff.mpr fun last hlast => by
    rw [hother last (h.last.trans hlast)]
    exact Bool.false_ne_true
  obtain rfl := h.uses
  cases ho : outcome (Splitter.plan files lists) s with
  | mk result s' =>
      cases result with
      | ok shared =>
          obtain ⟨rfl, last, hlast, rfl, hsame⟩ | ⟨hother, r, hmade, hstamp, rfl⟩ :=
            Splitter.plan_cases ho
          · exact .inl ⟨last, h.last.symm.trans hlast, hsame, rfl⟩
          · exact .inr ⟨hopen hother, .inl ⟨shared.value, r, hmade, by rw [← hstamp]⟩⟩
      | error e =>
          obtain ⟨hother, r, hfailed, rfl⟩ := plan_failed ho
          exact .inr ⟨hopen hother, .inr ⟨e, r, hfailed, rfl⟩⟩

/-- What a call comes to does not depend on the calls before. -/
theorem fresh_plan (ha : AnswersByPlace files options) (hv : VersionsMatch files)
    (h : Keeping files options policy content calls s) (hl : Known content lists) :
    Fresh files options policy ⟨lists, (outcome (Splitter.plan files lists) s).1⟩ := by
  have hmatches := Split.matches_plan ha hv h.echoes (.refl files _) policy
    (lists.flatMap (·.value))
  obtain ⟨last, hlast, hsame, ho⟩ | ⟨-, ⟨plan, r, hmade, ho⟩ | ⟨e, r, hmade, ho⟩⟩ :=
    h.plan_cases lists
  · have hmem := mem_of_lastGiven? hlast
    obtain rfl := eq_of_sameLists (h.known _ hmem) hl hsame
    rw [ho]
    exact h.fresh _ hmem
  all_goals
    rw [hmade] at hmatches
    rwa [Fresh, outcome_plan_of_new, ho]

/-- A splitter keeps of one more call what it has to. -/
theorem plan (ha : AnswersByPlace files options) (hv : VersionsMatch files)
    (h : Keeping files options policy content calls s) (hl : Known content lists) :
    Keeping files options policy content
      (⟨lists, (outcome (Splitter.plan files lists) s).1⟩ :: calls)
      (outcome (Splitter.plan files lists) s).2 := by
  have hknown : ∀ result, ∀ c ∈ (⟨lists, result⟩ : Call) :: calls, Known content c.lists :=
    fun _ => List.forall_mem_cons.mpr ⟨hl, h.known⟩
  have hfresh := List.forall_mem_cons.mpr ⟨h.fresh_plan ha hv hl, h.fresh⟩
  have hechoes : Echoes files { options }
      (outcome (Split.plan files policy (lists.flatMap (·.value))) s.resolver).2 :=
    (Split.matches_planBy h.echoes ha hv policy _).2
  obtain ⟨last, hlast, hsame, ho⟩ | ⟨hopen, ⟨plan, r, hmade, ho⟩ | ⟨e, r, hmade, ho⟩⟩ :=
    h.plan_cases lists
  · have hmem := mem_of_lastGiven? hlast
    obtain rfl := eq_of_sameLists (h.known _ hmem) hl hsame
    rw [ho] at hfresh ⊢
    refine ⟨h.uses, h.echoes, h.last.trans hlast, ?_, hknown _, hfresh,
      List.forall_mem_cons.mpr ⟨h.stamps _ hmem, h.stamps⟩⟩
    have hclosed : isOpen calls last.inputs = false := by
      rw [isOpen, hlast, Option.all_some, hsame, Bool.not_true]
    rw [plansMade_ok, hclosed, if_neg Bool.false_ne_true]
    exact h.count
  · rw [ho] at hfresh ⊢
    rw [hmade] at hechoes
    refine ⟨h.uses, hechoes, rfl, ?_, hknown _, hfresh, List.forall_mem_cons.mpr ⟨?_, ?_⟩⟩
    · rw [plansMade_ok, if_pos hopen, ← h.count]
      rfl
    · rintro _ ⟨⟩
      exact le_rfl
    · exact fun c hc plan hp => (h.stamps c hc plan hp).trans (Nat.le_succ _)
  · rw [ho] at hfresh ⊢
    rw [hmade] at hechoes
    refine ⟨h.uses, hechoes, h.last, ?_, hknown _, hfresh, List.forall_mem_cons.mpr ⟨?_, ?_⟩⟩
    · rw [plansMade_error]
      exact h.count
    · rintro _ ⟨⟩
    · exact h.stamps

end Keeping

theorem Session.keeping (ha : AnswersByPlace files options) (hv : VersionsMatch files)
    (h : Session files options policy content calls s) :
    Keeping files options policy content calls s := by
  induction h with
  | new hr => exact ⟨rfl, hr.echoes ha hv.byPlace, rfl, rfl, nofun, nofun, nofun⟩
  | share _ hr ih =>
      exact ⟨ih.uses, hr.echoes ha hv.byPlace, ih.last, ih.count, ih.known, ih.fresh, ih.stamps⟩
  | plan _ hl ih => exact ih.plan ha hv hl

/-- How a splitter with some calls answers one more, after which it is `s'`. -/
structure Answers (files : σ) (options : ResolveOptions) (policy : BundlePolicy)
    (calls : List Call) (s : Splitter) (c : Call) (s' : Splitter) : Prop where
  fresh : Fresh files options policy c
  /-- The last plan is what is given exactly for the lists that it was given for. -/
  again_iff : ∀ last, lastGiven? calls = some last →
    ((∃ plan, c.result = .ok plan ∧ plan.same last.plan) ↔ sameLists last.inputs c.lists)
  /-- For these, nothing is made. -/
  again : ∀ last, lastGiven? calls = some last → sameLists last.inputs c.lists →
    c.result = .ok last.plan ∧ s' = s
  /-- For others a plan is made, which is none of those before. -/
  anew : isOpen calls c.lists → ∀ plan, c.result = .ok plan →
    s'.recomputations = s.recomputations + 1 ∧
    ∀ c' ∈ calls, ∀ plan', c'.result = .ok plan' → ¬ plan.same plan'
  /-- A failure leaves all that is kept, except for what the resolver has learnt. -/
  failed : ∀ e, c.result = .error e → s' = { s with resolver := s'.resolver }
  /-- What a call came to, also a failing one, is what it comes to when it is repeated. -/
  repeats : ∀ c' ∈ calls, sameLists c'.lists c.lists →
    Matches SplitError.Same BundlePlan.Same (c'.result.map (·.value)) (c.result.map (·.value))

theorem Fresh.repeats {c c' : Call} (hc : Fresh files options policy c)
    (hc' : Fresh files options policy c') (h : c'.lists = c.lists) :
    Matches SplitError.Same BundlePlan.Same (c'.result.map (·.value)) (c.result.map (·.value)) := by
  rw [Fresh, h] at hc'
  exact hc'.trans (fun h h' => h.trans h') (fun h h' => h.trans h')
    (hc.symm (fun h => h.symm) fun h => h.symm)

theorem Keeping.answers (ha : AnswersByPlace files options) (hv : VersionsMatch files)
    (h : Keeping files options policy content calls s) (hl : Known content lists) :
    Answers files options policy calls s ⟨lists, (outcome (Splitter.plan files lists) s).1⟩
      (outcome (Splitter.plan files lists) s).2 := by
  have hfresh := h.fresh_plan ha hv hl
  have hrepeats : ∀ c' ∈ calls, sameLists c'.lists lists → _ := fun c' hc' hsame =>
    hfresh.repeats (h.fresh c' hc') (eq_of_sameLists (h.known c' hc') hl hsame)
  obtain ⟨last, hlast, hsame, ho⟩ | ⟨hopen, ⟨plan, r, hmade, ho⟩ | ⟨e, r, hmade, ho⟩⟩ :=
    h.plan_cases lists
  all_goals rw [ho] at hfresh hrepeats ⊢
  · have hlast' : ∀ last', lastGiven? calls = some last' → last = last' := fun _ h' =>
      Option.some.inj (hlast.symm.trans h')
    refine ⟨hfresh, fun last' h' => ?_, fun last' h' _ => ?_, fun hopen => ?_, nofun, hrepeats⟩
    · obtain rfl := hlast' last' h'
      exact ⟨fun _ => hsame, fun _ => ⟨last.plan, rfl, beq_self_eq_true _⟩⟩
    · obtain rfl := hlast' last' h'
      exact ⟨rfl, rfl⟩
    · exact absurd hsame (isOpen_iff.mp hopen last hlast)
  · have hnew : ∀ c' ∈ calls, ∀ plan', c'.result = .ok plan' →
        ¬ (⟨s.recomputations + 1, plan⟩ : Shared BundlePlan).same plan' := by
      intro c' hc' plan' hp hsame
      have hstamp : s.recomputations + 1 = plan'.stamp := eq_of_beq hsame
      exact absurd (h.stamps c' hc' plan' hp) (by omega)
    refine ⟨hfresh, fun last hlast => ⟨?_, ?_⟩, fun last hlast hsame => ?_, ?_, nofun, hrepeats⟩
    · rintro ⟨_, ⟨⟩, hsame⟩
      exact absurd hsame (hnew _ (mem_of_lastGiven? hlast) _ rfl)
    · exact fun hsame => absurd hsame (isOpen_iff.mp hopen last hlast)
    · exact absurd hsame (isOpen_iff.mp hopen last hlast)
    · rintro - _ ⟨⟩
      exact ⟨rfl, hnew⟩
  · refine ⟨hfresh, fun last hlast => ⟨?_, ?_⟩, fun last hlast hsame => ?_, nofun,
      fun _ _ => rfl, hrepeats⟩
    · rintro ⟨_, ⟨⟩, -⟩
    · exact fun hsame => absurd hsame (isOpen_iff.mp hopen last hlast)
    · exact absurd hsame (isOpen_iff.mp hopen last hlast)

/-- A splitter makes as many plans as it has to. Each call comes to what a new splitter with a new
resolver comes to, gives the last plan again exactly for the lists of the last call that succeeded,
and changes nothing of what is kept when it fails. -/
theorem Session.remembers (ha : AnswersByPlace files options) (hv : VersionsMatch files)
    (h : Session files options policy content calls s) :
    s.recomputations = plansMade calls ∧ ∀ lists, Known content lists →
      Answers files options policy calls s ⟨lists, (outcome (Splitter.plan files lists) s).1⟩
        (outcome (Splitter.plan files lists) s).2 :=
  ⟨(h.keeping ha hv).count, fun _ hl => (h.keeping ha hv).answers ha hv hl⟩

end

/-! ## A conflict between two plans -/

namespace TwoVersions

/-- The imports of each of the packages, as the index of its tree gives them out. -/
def listed (stamp : Nat) : List Import := [.literal (literal (if stamp = 1 then "a" else "b"))]

def one : List (Shared (List Import)) := [⟨1, listed 1⟩]

def both : List (Shared (List Import)) := [⟨1, listed 1⟩, ⟨2, listed 2⟩]

theorem known_listed : Known listed one ∧ Known listed both := by
  simp [Known, one, both]

theorem exists_planned :
    ∃ plan s, outcome (Splitter.plan installed one) started = (.ok plan, s) := by
  have hok : (outcome (Splitter.plan installed one) started).1.toOption.isSome := by
    decide +kernel
  generalize outcome (Splitter.plan installed one) started = planned at hok ⊢
  obtain ⟨result, s⟩ := planned
  cases result with
  | error e => cases hok
  | ok plan => exact ⟨plan, s, rfl⟩

/-- The versions of both are in conflict for a new splitter, and so for any. -/
theorem error_of_fresh {result : Except SplitError (Shared BundlePlan)}
    (h : Fresh installed {} .standard ⟨both, result⟩) : ∃ e, result = .error e := by
  have hconflict := plan_fails.1
  rw [started, outcome_plan_of_new] at hconflict
  have hlists : both.flatMap (·.value) = lists.flatMap (·.value) := rfl
  rw [Fresh, outcome_plan_of_new, hlists, hconflict] at h
  cases result with
  | ok plan => cases h
  | error e => exact ⟨e, rfl⟩

/-- After a plan for one package and a conflict of both, the plan from before the conflict is given
out again, and the conflict is found again. -/
theorem refused_remembers :
    Resolver.AnswersByPlace installed {} ∧ VersionsMatch installed ∧ ∃ plan e s,
      Session installed {} .standard listed [⟨both, .error e⟩, ⟨one, .ok plan⟩] s ∧
        s.recomputations = 1 ∧ outcome (Splitter.plan installed one) s = (.ok plan, s) ∧
        ∃ e', (outcome (Splitter.plan installed both) s).1 = .error e' := by
  have ha := Resolver.answersByPlace installed {}
  have hv := Resolver.versionsMatch installed
  obtain ⟨plan, planned, hplanned⟩ := exists_planned
  have hone : Session installed {} .standard listed [⟨one, .ok plan⟩] planned := by
    have hnew : Session installed {} .standard listed [] started := .new .new
    have hcall := hnew.plan known_listed.1
    rw [hplanned] at hcall
    exact hcall
  have hboth := hone.plan known_listed.2
  obtain ⟨e, he⟩ := error_of_fresh ((hone.remembers ha hv).2 both known_listed.2).fresh
  rw [he] at hboth
  generalize (outcome (Splitter.plan installed both) planned).2 = s at hboth
  obtain ⟨hcount, hanswers⟩ := hboth.remembers ha hv
  have hlast : lastGiven? [⟨both, .error e⟩, ⟨one, .ok plan⟩] = some ⟨one, plan⟩ := by
    rw [lastGiven?_error, lastGiven?_ok]
  obtain ⟨hresult, hstate⟩ := (hanswers one known_listed.1).again _ hlast (beq_self_eq_true _)
  exact ⟨ha, hv, plan, e, s, hboth, hcount, Prod.ext hresult hstate,
    error_of_fresh (hanswers both known_listed.2).fresh⟩

end TwoVersions

end Splitter

end VendorBundle

import Mathlib.Algebra.GroupWithZero.Nat
import Mathlib.Data.List.Forall2
import Mathlib.Logic.Relation
import VendorBundle.Bundle.Split
import VendorBundle.Proofs.Resolver.Answers

/-!
# Tasks that share a resolver

Imports are resolved by tasks, of which only some run at a time. A task looks its key up, searches
the files if there is nothing, remembers what it found unless another task was faster, and gives
what is remembered now. Between any two of these steps other tasks may run, and so two of them may
search for the same. Their results are joined in the order in which they end, and come back in the
order of the imports.

Whatever the schedule, each task gives what the resolver gave in the beginning, and the resolver
learns what it learns when it is asked for one import after the other.
-/

namespace VendorBundle

open Relation
open List (Forall₂)

namespace Resolver

variable {σ : Type} [Files σ] {files : σ} {r r' r₀ : Resolver} {q : Question}

/-! ## The steps of a task -/

/-- How far a task has come. -/
inductive Phase where
  /-- It waits for a permit. -/
  | waiting
  | started
  /-- Nothing is remembered, and a package has to be searched for. -/
  | missed (name : String) (subpath : Option String)
  /-- A target was found and has to be remembered. -/
  | found (target : Target)
  | done (result : Except ResolveError Target)
  /-- Its result was collected. -/
  | joined
  deriving DecidableEq

namespace Phase

/-- The task holds a permit. -/
def isRunning : Phase → Bool
  | started | missed .. | found _ => true
  | waiting | done _ | joined => false

/-- How many steps the task has before it at most. -/
def remaining : Phase → Nat
  | waiting => 5
  | started => 4
  | missed .. => 3
  | found _ => 2
  | done _ => 1
  | joined => 0

/-- What comes of looking a question up. -/
def lookUp (r : Resolver) (q : Question) : Phase :=
  match Specifier.ofText q.specifier with
  | .url => done (.ok .url)
  | .localPath => done (.ok (.localPath ⟨q.specifier⟩))
  | .package name subpath =>
      if q.template && !Specifier.isPrecise q.specifier then done (.ok .imprecise)
      else match r.targets.lookup q.key with
        | some target => done (.ok target)
        | none => missed name subpath

/-- The next step of a task that runs, with what it leaves of the resolver. -/
def advance (files : σ) (q : Question) : Phase → Resolver → Phase × Resolver
  | started, r => (lookUp r q, r)
  | missed name subpath, r =>
      (match search files r.options q.root q.specifier name subpath q.template with
        | .error e => done (.error e)
        | .ok .notInstalled => done (.ok .notInstalled)
        | .ok target => found target, r)
  | found target, r =>
      match r.targets.lookup q.key with
      | some kept => (done (.ok kept), r)
      | none => (done (.ok target), r.remember q.key target)
  | phase, r => (phase, r)

theorem lookUp_of_not_searched (hs : ¬ Searched q.specifier q.template) (files : σ)
    (r r₀ : Resolver) : lookUp r q = done (r₀.gives files q) ∧
      ∀ path, r₀.gives files q ≠ .ok (.external path) := by
  refine ⟨?_, fun path h => hs (gives_eq_external h).1⟩
  rw [gives, lookUp, resolve]
  cases hs' : Specifier.ofText q.specifier with
  | package name subpath =>
      cases hp : q.template && !Specifier.isPrecise q.specifier with
      | false => exact absurd ⟨⟨name, subpath, hs'⟩, hp⟩ hs
      | true => simp only [if_true]
  | url => rfl
  | localPath => rfl

theorem lookUp_of_package {name : String} {subpath : Option String}
    (hs : Specifier.ofText q.specifier = .package name subpath)
    (hp : (q.template && !Specifier.isPrecise q.specifier) = false) (r : Resolver) :
    lookUp r q = match r.targets.lookup q.key with
      | some target => done (.ok target)
      | none => missed name subpath := by
  rw [lookUp, hs]
  exact if_neg (by rw [hp]; exact Bool.false_ne_true)

/-- A task that runs comes closer to its end, but is not joined by itself. -/
theorem remaining_advance {phase : Phase} (h : phase.isRunning) (files : σ) (q : Question)
    (r : Resolver) : 0 < (phase.advance files q r).1.remaining ∧
      (phase.advance files q r).1.remaining < phase.remaining := by
  cases phase with
  | waiting | done | joined => exact absurd h nofun
  | started =>
      simp only [advance, lookUp]
      repeat' split
      all_goals simp only [remaining]; omega
  | missed name subpath =>
      simp only [advance]
      split <;> simp only [remaining] <;> omega
  | found target =>
      simp only [advance]
      split <;> simp only [remaining] <;> omega

/-- A task that nothing comes between does what a call of the resolver does. -/
theorem advance_thrice (files : σ) (q : Question) (r : Resolver) :
    (let (phase, r₁) := advance files q started r
     let (phase, r₂) := advance files q phase r₁
     advance files q phase r₂) =
      (done (r.gives files q), (r.resolve files q.root q.specifier q.template).2) := by
  by_cases hs : Searched q.specifier q.template
  · obtain ⟨⟨name, subpath, hs⟩, hp⟩ := hs
    have hstarted : advance files q started r = (lookUp r q, r) := rfl
    simp only [hstarted, lookUp_of_package hs hp, gives, resolve_of_package hs hp, Question.key]
    cases hl : r.targets.lookup (q.root.components, q.specifier, q.template) with
    | some target => rfl
    | none =>
        cases hf : search files r.options q.root q.specifier name subpath q.template with
        | error e => simp only [advance, hf]
        | ok target => cases target <;> simp only [advance, hf, Question.key, hl, remember]
  · simp only [advance, (lookUp_of_not_searched hs files r r).1,
      (resolve_of_not_searched hs r r.options files q.root).1]

end Phase

/-! ## What the resolver learns -/

/-- What a resolver gives for a question is what it gave in the beginning, and if that is a path,
something is remembered for it. -/
structure Answered (files : σ) (r₀ r : Resolver) (q : Question)
    (result : Except ResolveError Target) : Prop where
  result : Matches Eq Target.Same result (r₀.gives files q)
  known : ∀ path, r₀.gives files q = .ok (.external path) →
    ∃ target, r.targets.lookup q.key = some target

/-- A resolver that has learnt from some questions, and from nothing else. -/
structure Learnt (files : σ) (r₀ : Resolver) (qs : List Question) (r : Resolver) : Prop where
  options : r.options = r₀.options
  versions : r.versions = r₀.versions
  kept : ∀ key target, r₀.targets.lookup key = some target → r.targets.lookup key = some target
  learnt : ∀ key target, r.targets.lookup key = some target →
    r₀.targets.lookup key = some target ∨ r₀.targets.lookup key = none ∧
      ∃ q ∈ qs, key = q.key ∧ r₀.gives files q = .ok target ∧ ∃ path, target = .external path

/-- What holds of a task after each of its steps. -/
def Phase.Backed (files : σ) (r₀ r : Resolver) (q : Question) : Phase → Prop
  | waiting | started | joined => True
  | missed name subpath => Specifier.ofText q.specifier = .package name subpath ∧
      (q.template && !Specifier.isPrecise q.specifier) = false ∧ r₀.targets.lookup q.key = none
  | found target => r₀.gives files q = .ok target ∧ r₀.targets.lookup q.key = none ∧
      ∃ path, target = .external path
  | done result => Answered files r₀ r q result

theorem Learnt.refl (files : σ) (r : Resolver) (qs : List Question) : Learnt files r qs r :=
  ⟨rfl, rfl, fun _ _ h => h, fun _ _ h => .inl h⟩

/-- What is not remembered now was not remembered in the beginning. -/
theorem Learnt.lookup_eq_none {qs : List Question} (h : Learnt files r₀ qs r)
    (hl : r.targets.lookup q.key = none) : r₀.targets.lookup q.key = none :=
  Option.eq_none_iff_forall_ne_some.mpr fun target ht =>
    absurd (hl.symm.trans (h.kept q.key target ht)) nofun

theorem Answered.grows {result : Except ResolveError Target}
    (h : Answered files r₀ r q result) (hg : Grows r r') : Answered files r₀ r' q result :=
  ⟨h.result, fun path hp => (h.known path hp).imp fun target => hg.target q.key target⟩

theorem Phase.Backed.grows {phase : Phase} (h : phase.Backed files r₀ r q) (hg : Grows r r') :
    phase.Backed files r₀ r' q := by
  cases phase with
  | done result => exact Answered.grows h hg
  | _ => exact h

section

variable {qs : List Question} (ha : AnswersByPlace files r₀.options)

include ha

/-- What is remembered for a question is what the resolver gave for it in the beginning. -/
theorem Learnt.answered (h : Learnt files r₀ qs r) (hs : Searched q.specifier q.template)
    {target : Target} (hl : r.targets.lookup q.key = some target) :
    Answered files r₀ r q (.ok target) := by
  refine ⟨?_, fun _ _ => ⟨target, hl⟩⟩
  obtain hold | ⟨hnone, q', -, hkey, hgiven, path, rfl⟩ := h.learnt q.key target hl
  · rw [gives_of_searched hs, hold]
    exact .ok (.refl target)
  · -- Another task has found it, from a root with the same components.
    obtain ⟨-, hknown | ⟨-, hfound⟩⟩ := gives_eq_external hgiven
    · rw [← hkey, hnone] at hknown
      exact absurd hknown nofun
    · obtain ⟨hroot, hspecifier, htemplate⟩ : _ ∧ _ ∧ _ := by
        simpa only [Question.key, Prod.mk.injEq] using hkey
      obtain ⟨found, hfound', hsame⟩ :=
        (ha q'.root q.root hroot.symm q'.specifier q'.template).of_ok hfound
      rw [gives_of_searched hs, hnone, hspecifier, htemplate]
      simp only
      rw [hfound']
      exact .ok hsame

theorem Learnt.echoes (h : Learnt files r₀ qs r) : Echoes files r₀ r := by
  refine ⟨h.options, fun q => ?_, tells_of_versions h.versions⟩
  by_cases hs : Searched q.specifier q.template
  · cases hl : r.targets.lookup q.key with
    | some target =>
        rw [gives_of_searched hs files r, hl]
        exact (h.answered ha hs hl).result
    | none =>
        rw [gives_of_searched hs, gives_of_searched hs, hl, h.lookup_eq_none hl, h.options]
        exact .refl (fun _ => rfl) .refl _
  · rw [gives_of_not_searched hs files r r₀.options, gives_of_not_searched hs files r₀ r₀.options]
    exact .refl (fun _ => rfl) .refl _

/-- What comes of looking a question up is backed. -/
theorem Learnt.backed_lookUp (h : Learnt files r₀ qs r) (q : Question) :
    (Phase.lookUp r q).Backed files r₀ r q := by
  by_cases hs : Searched q.specifier q.template
  · obtain ⟨⟨name, subpath, hs'⟩, hp⟩ := hs
    rw [Phase.lookUp_of_package hs' hp]
    cases hl : r.targets.lookup q.key with
    | some target => exact h.answered ha ⟨⟨name, subpath, hs'⟩, hp⟩ hl
    | none => exact ⟨hs', hp, h.lookup_eq_none hl⟩
  · obtain ⟨hdone, hne⟩ := Phase.lookUp_of_not_searched hs files r r₀
    rw [hdone]
    exact ⟨.refl (fun _ => rfl) .refl _, fun path hp => absurd hp (hne path)⟩

omit ha in
/-- So is what comes of a search for a package. -/
theorem Learnt.backed_search (h : Learnt files r₀ qs r) {name : String} {subpath : Option String}
    (hphase : (Phase.missed name subpath).Backed files r₀ r q) :
    ((Phase.missed name subpath).advance files q r).1.Backed files r₀ r q := by
  obtain ⟨hs, hp, hnone⟩ := hphase
  have hgives : r₀.gives files q =
      search files r.options q.root q.specifier name subpath q.template := by
    rw [gives_of_searched ⟨⟨name, subpath, hs⟩, hp⟩, hnone, h.options]
    exact answer_of_package hs hp q.root
  simp only [Phase.advance]
  cases hf : search files r.options q.root q.specifier name subpath q.template with
  | error e => exact ⟨by rw [hgives, hf]; exact .error rfl, by rw [hgives, hf]; exact nofun⟩
  | ok target =>
      obtain rfl | ⟨path, rfl⟩ := search_eq_ok_cases hf
      · exact ⟨by rw [hgives, hf]; exact .ok (.refl _), by rw [hgives, hf]; exact nofun⟩
      · exact ⟨hgives.trans hf, hnone, path, rfl⟩

omit ha in
/-- What was found may be remembered where nothing is. -/
theorem Learnt.remember (h : Learnt files r₀ qs r) (hq : q ∈ qs) {target : Target}
    (hphase : (Phase.found target).Backed files r₀ r q) (hl : r.targets.lookup q.key = none) :
    Learnt files r₀ qs (r.remember q.key target) := by
  obtain ⟨hgives, hnone, path, rfl⟩ := hphase
  refine ⟨h.options, h.versions, fun key target' hk => ?_, fun key target' hk => ?_⟩
  · exact (grows_remember hl _).target key target' (h.kept key target' hk)
  · rcases lookup_remember hk with ⟨rfl, rfl⟩ | hk
    · exact .inr ⟨hnone, q, hq, rfl, hgives, path, rfl⟩
    · exact h.learnt key target' hk

/-- A step of a task keeps what is known of it and of the resolver. -/
theorem Learnt.advance (h : Learnt files r₀ qs r) (hq : q ∈ qs) {phase : Phase}
    (hphase : phase.Backed files r₀ r q) :
    Learnt files r₀ qs (phase.advance files q r).2 ∧
      (phase.advance files q r).1.Backed files r₀ (phase.advance files q r).2 q ∧
      Grows r (phase.advance files q r).2 := by
  cases phase with
  | waiting | done | joined => exact ⟨h, hphase, .refl r⟩
  | started => exact ⟨h, h.backed_lookUp ha q, .refl r⟩
  | missed name subpath => exact ⟨h, h.backed_search hphase, .refl r⟩
  | found target =>
      obtain ⟨path, rfl⟩ := hphase.2.2
      have hgives : r₀.gives files q = .ok (.external path) := hphase.1
      cases hl : r.targets.lookup q.key with
      | some kept =>
          simp only [Phase.advance, hl]
          exact ⟨h, h.answered ha (gives_eq_external hgives).1 hl, .refl r⟩
      | none =>
          simp only [Phase.advance, hl]
          refine ⟨h.remember hq hphase hl, ⟨by rw [hgives]; exact .ok (.refl _), fun _ _ => ?_⟩,
            grows_remember hl _⟩
          exact ⟨.external path, List.lookup_cons_self⟩

/-- So does a call. -/
theorem Learnt.resolve (h : Learnt files r₀ qs r) (hq : q ∈ qs) :
    Learnt files r₀ qs (r.resolve files q.root q.specifier q.template).2 ∧
      Answered files r₀ (r.resolve files q.root q.specifier q.template).2 q (r.gives files q) ∧
      Grows r (r.resolve files q.root q.specifier q.template).2 := by
  have hstarted : Phase.started.Backed files r₀ r q := trivial
  obtain ⟨h₁, hb₁, hg₁⟩ := h.advance ha hq hstarted
  obtain ⟨h₂, hb₂, hg₂⟩ := h₁.advance ha hq hb₁
  obtain ⟨h₃, hb₃, hg₃⟩ := h₂.advance ha hq hb₂
  have hthrice := Phase.advance_thrice files q r
  simp only at hthrice
  rw [hthrice] at h₃ hb₃ hg₃
  exact ⟨h₃, hb₃, (hg₁.trans hg₂).trans hg₃⟩

end

/-- Resolvers that remember the same, up to how paths are written. -/
structure Same (r r' : Resolver) : Prop where
  options : r.options = r'.options
  versions : ∀ place, r.versions.lookup place = r'.versions.lookup place
  targets : ∀ key, Option.Rel Target.Same (r.targets.lookup key) (r'.targets.lookup key)

/-- Two resolvers that have learnt all there is to learn from some questions remember the same. -/
theorem Learnt.same (ha : AnswersByPlace files r₀.options) {qs : List Question}
    (h : Learnt files r₀ qs r) (h' : Learnt files r₀ qs r')
    (hall : ∀ q ∈ qs, ∃ result, Answered files r₀ r q result)
    (hall' : ∀ q ∈ qs, ∃ result, Answered files r₀ r' q result) : Same r r' := by
  -- What one of them has learnt, the other one remembers too.
  have hknown : ∀ {r r' : Resolver}, Learnt files r₀ qs r → Learnt files r₀ qs r' →
      (∀ q ∈ qs, ∃ result, Answered files r₀ r' q result) → ∀ key target,
      r.targets.lookup key = some target →
        ∃ target', r'.targets.lookup key = some target' ∧ target.Same target' := by
    intro r r' h h' hall' key target hl
    obtain hold | ⟨-, q, hq, rfl, hgiven, path, rfl⟩ := h.learnt key target hl
    · exact ⟨target, h'.kept key target hold, .refl target⟩
    · obtain ⟨result, hanswered⟩ := hall' q hq
      obtain ⟨target', hl'⟩ := hanswered.known path hgiven
      have hsame := (h'.answered ha (gives_eq_external hgiven).1 hl').result
      rw [hgiven] at hsame
      cases hsame with
      | ok hsame => exact ⟨target', hl', hsame.symm⟩
  refine ⟨h.options.trans h'.options.symm, fun place => by rw [h.versions, h'.versions],
    fun key => ?_⟩
  cases hl : r.targets.lookup key with
  | some target =>
      obtain ⟨target', hl', hsame⟩ := hknown h h' hall' key target hl
      rw [hl']
      exact .some hsame
  | none =>
      cases hl' : r'.targets.lookup key with
      | none => exact .none
      | some target' =>
          obtain ⟨target, hl'', -⟩ := hknown h' h hall key target' hl'
          exact absurd (hl.symm.trans hl'') nofun

end Resolver

/-! ## Schedules -/

open Resolver (Answered Grows Learnt Phase Question)
open Split (Resolved)

/-- Tasks for some imports, the slots for their results, and the resolver that they share. -/
structure Schedule (α : Type) where
  tasks : List (α × Phase)
  slots : List (Option (Resolved α))
  resolver : Resolver

namespace Schedule

variable {σ α : Type} [Files σ] {files : σ} {ask : α → Question} {limit : Nat} {r₀ : Resolver}
  {imports : List α} {s s' : Schedule α}

/-- No task has a permit yet, and all slots are empty. -/
def start (imports : List α) (r : Resolver) : Schedule α :=
  ⟨imports.map (·, .waiting), imports.map fun _ => none, r⟩

/-- How many tasks hold a permit. -/
def running (s : Schedule α) : Nat := s.tasks.countP (·.2.isRunning)

/-- Task `n` comes to another phase. -/
def move (s : Schedule α) (n : Nat) (i : α) (phase : Phase) : Schedule α :=
  { s with tasks := s.tasks.set n (i, phase) }

/-- A task gets a permit, goes on, or is joined. There are `limit` permits, but at least one. -/
inductive Step (files : σ) (ask : α → Question) (limit : Nat) :
    Schedule α → Schedule α → Prop where
  | permit {s : Schedule α} {n : Nat} {i : α} (h : s.tasks[n]? = some (i, .waiting))
      (hl : s.running < max limit 1) : Step files ask limit s (s.move n i .started)
  | advance {s : Schedule α} {n : Nat} {i : α} {phase : Phase}
      (h : s.tasks[n]? = some (i, phase)) (hr : phase.isRunning) :
      Step files ask limit s { s.move n i (phase.advance files (ask i) s.resolver).1 with
        resolver := (phase.advance files (ask i) s.resolver).2 }
  | join {s : Schedule α} {n : Nat} {i : α} {result : Except ResolveError Target}
      (h : s.tasks[n]? = some (i, .done result)) :
      Step files ask limit s
        { s.move n i .joined with slots := s.slots.set n (some ⟨i, result⟩) }

/-- The step of task `n`, if it can move. -/
def next? (files : σ) (ask : α → Question) (limit : Nat) (s : Schedule α) (n : Nat) :
    Option (Schedule α) :=
  match s.tasks[n]? with
  | none | some (_, .joined) => none
  | some (i, .waiting) => if s.running < max limit 1 then some (s.move n i .started) else none
  | some (i, .done result) =>
      some { s.move n i .joined with slots := s.slots.set n (some ⟨i, result⟩) }
  | some (i, phase) =>
      some { s.move n i (phase.advance files (ask i) s.resolver).1 with
        resolver := (phase.advance files (ask i) s.resolver).2 }

theorem step_of_next? {n : Nat} (h : s.next? files ask limit n = some s') :
    Step files ask limit s s' := by
  unfold next? at h
  cases hn : s.tasks[n]? with
  | none =>
      rw [hn] at h
      exact absurd h nofun
  | some task =>
      obtain ⟨i, phase⟩ := task
      rw [hn] at h
      cases phase with
      | waiting =>
          obtain ⟨hl, h⟩ := Option.ite_none_right_eq_some.mp h
          exact Option.some.inj h ▸ .permit hn hl
      | started => exact Option.some.inj h ▸ .advance hn rfl
      | missed => exact Option.some.inj h ▸ .advance hn rfl
      | found => exact Option.some.inj h ▸ .advance hn rfl
      | done => exact Option.some.inj h ▸ .join hn
      | joined => exact absurd h nofun

/-- The tasks move in some order. -/
theorem steps_of_order {order : List Nat} (h : order.foldlM (next? files ask limit) s = some s') :
    ReflTransGen (Step files ask limit) s s' := by
  induction order generalizing s with
  | nil =>
      obtain rfl := Option.some.inj h
      exact .refl
  | cons n order ih =>
      rw [List.foldlM_cons] at h
      obtain ⟨s₁, hfirst, hrest⟩ := Option.bind_eq_some_iff.mp h
      exact .head (step_of_next? hfirst) (ih hrest)

/-- All results were collected. -/
def Finished (s : Schedule α) : Prop := ∀ task ∈ s.tasks, task.2 = .joined

/-- What is in the slots, in their order. -/
def results (s : Schedule α) : List (Resolved α) := s.slots.filterMap id

/-! ## What every schedule keeps -/

/-- What holds of a schedule after each step. -/
structure Sound (files : σ) (ask : α → Question) (limit : Nat) (r₀ : Resolver) (imports : List α)
    (s : Schedule α) : Prop where
  items : s.tasks.map (·.1) = imports
  slots : s.slots.length = s.tasks.length
  learnt : Learnt files r₀ (imports.map ask) s.resolver
  backed : ∀ (n : Nat) i (phase : Phase), s.tasks[n]? = some (i, phase) → phase.Backed files r₀ s.resolver (ask i)
  joined : ∀ (n : Nat) i, s.tasks[n]? = some (i, .joined) → ∃ result,
    s.slots[n]? = some (some ⟨i, result⟩) ∧ Answered files r₀ s.resolver (ask i) result
  permits : s.running ≤ max limit 1

theorem sound_start (files : σ) (ask : α → Question) (limit : Nat) (r₀ : Resolver)
    (imports : List α) : Sound files ask limit r₀ imports (start imports r₀) := by
  have hwaiting : ∀ (n : Nat) i (phase : Phase),
      (start imports r₀).tasks[n]? = some (i, phase) → phase = .waiting := by
    intro n i phase h
    simp only [start, List.getElem?_map, Option.map_eq_some_iff] at h
    obtain ⟨_, -, h⟩ := h
    exact (Prod.mk.inj h).2.symm
  refine ⟨?_, by simp [start], .refl files r₀ _, fun n i phase h => ?_, fun n i h => ?_, ?_⟩
  · simp [start, Function.comp_def]
  · rw [hwaiting n i phase h]
    trivial
  · exact absurd (hwaiting n i _ h) nofun
  · have hnone : (start imports r₀).running = 0 := by
      simp [running, start, List.countP_map, Function.comp_def, Phase.isRunning]
    rw [hnone]
    exact Nat.zero_le _

theorem map_fst_move {n : Nat} {i : α} {phase : Phase} (h : s.tasks[n]? = some (i, phase))
    (phase' : Phase) : (s.move n i phase').tasks.map (·.1) = s.tasks.map (·.1) := by
  obtain ⟨hn, hget⟩ := List.getElem?_eq_some_iff.mp h
  have hn' : n < (s.tasks.map (·.1)).length := by simpa using hn
  have hi : i = (s.tasks.map (·.1))[n] := by simp [hget]
  rw [move, List.map_set]
  conv_lhs => rw [hi]
  exact List.set_getElem_self hn'

theorem running_move {n : Nat} {i : α} {phase : Phase} (h : s.tasks[n]? = some (i, phase))
    (phase' : Phase) : (s.move n i phase').running + (if phase.isRunning then 1 else 0) =
      s.running + if phase'.isRunning then 1 else 0 := by
  obtain ⟨hn, hget⟩ := List.getElem?_eq_some_iff.mp h
  have hcount : (if phase.isRunning then 1 else 0) ≤ s.running := by
    split
    · rename_i hrun
      exact List.countP_pos_iff.mpr ⟨(i, phase), hget ▸ List.getElem_mem hn, hrun⟩
    · exact Nat.zero_le _
  have hset : (s.move n i phase').running = s.running - (if phase.isRunning then 1 else 0) +
      if phase'.isRunning then 1 else 0 := by
    rw [running, move, List.countP_set hn, hget, running]
  omega

theorem getElem?_move {n k : Nat} {i j : α} {phase phase' : Phase} (hn : n < s.tasks.length)
    (h : (s.move n i phase').tasks[k]? = some (j, phase)) :
    k = n ∧ j = i ∧ phase = phase' ∨ k ≠ n ∧ s.tasks[k]? = some (j, phase) := by
  by_cases heq : n = k
  · subst heq
    rw [move, List.getElem?_set_self hn, Option.some.injEq, Prod.mk.injEq] at h
    exact .inl ⟨rfl, h.1.symm, h.2.symm⟩
  · rw [move, List.getElem?_set_ne heq] at h
    exact .inr ⟨Ne.symm heq, h⟩

namespace Sound

/-- A task that goes on keeps what holds, as long as nothing is forgotten. -/
theorem move (h : Sound files ask limit r₀ imports s) {n : Nat} {i : α} {phase phase' : Phase}
    (hn : s.tasks[n]? = some (i, phase)) {r : Resolver}
    (hl : Learnt files r₀ (imports.map ask) r) (hg : Grows s.resolver r)
    (hb : phase'.Backed files r₀ r (ask i)) (hj : phase' ≠ .joined)
    (hp : (s.move n i phase').running ≤ max limit 1) :
    Sound files ask limit r₀ imports { s.move n i phase' with resolver := r } := by
  have hlen : n < s.tasks.length := (List.getElem?_eq_some_iff.mp hn).1
  refine ⟨(map_fst_move hn phase').trans h.items, by simpa [Schedule.move] using h.slots, hl,
    fun k j phase'' hk => ?_, fun k j hk => ?_, hp⟩
  · obtain ⟨-, rfl, rfl⟩ | ⟨-, hk⟩ := getElem?_move hlen hk
    · exact hb
    · exact (h.backed k j phase'' hk).grows hg
  · obtain ⟨-, -, hjoined⟩ | ⟨-, hk⟩ := getElem?_move hlen hk
    · exact absurd hjoined.symm hj
    · exact (h.joined k j hk).imp fun result hr => ⟨hr.1, hr.2.grows hg⟩

/-- The result of a task that has ended goes to its own slot. -/
theorem join (h : Sound files ask limit r₀ imports s) {n : Nat} {i : α}
    {result : Except ResolveError Target} (hn : s.tasks[n]? = some (i, .done result)) :
    Sound files ask limit r₀ imports
      { s.move n i .joined with slots := s.slots.set n (some ⟨i, result⟩) } := by
  have hlen : n < s.tasks.length := (List.getElem?_eq_some_iff.mp hn).1
  refine ⟨(map_fst_move hn .joined).trans h.items, by simpa [Schedule.move] using h.slots,
    h.learnt, fun k j phase' hk => ?_, fun k j hk => ?_, ?_⟩
  · obtain ⟨-, -, rfl⟩ | ⟨-, hk⟩ := getElem?_move hlen hk
    · trivial
    · exact h.backed k j phase' hk
  · obtain ⟨rfl, rfl, -⟩ | ⟨hne, hk⟩ := getElem?_move hlen hk
    · exact ⟨result, List.getElem?_set_self (h.slots.symm ▸ hlen), h.backed k j _ hn⟩
    · obtain ⟨result', hslot, hanswered⟩ := h.joined k j hk
      exact ⟨result', (List.getElem?_set_ne hne.symm).trans hslot, hanswered⟩
  · have hrun := running_move hn .joined
    exact (show (s.move n i .joined).running = s.running from hrun).trans_le h.permits

theorem mem_imports (h : Sound files ask limit r₀ imports s) {n : Nat} {i : α} {phase : Phase}
    (hn : s.tasks[n]? = some (i, phase)) : ask i ∈ imports.map ask := by
  rw [← h.items]
  exact List.mem_map.mpr ⟨i, List.mem_map.mpr ⟨_, List.mem_of_getElem? hn, rfl⟩, rfl⟩

theorem step (ha : Resolver.AnswersByPlace files r₀.options)
    (h : Sound files ask limit r₀ imports s) (hs : Step files ask limit s s') :
    Sound files ask limit r₀ imports s' := by
  cases hs with
  | permit hn hl =>
      have hrun := running_move hn .started
      exact h.move hn h.learnt (.refl _) trivial nofun
        ((show _ = _ from hrun).trans_le (Nat.succ_le_of_lt hl))
  | @advance n i phase hn hr =>
      obtain ⟨hl, hb, hg⟩ := h.learnt.advance ha (h.mem_imports hn) (h.backed n i phase hn)
      refine h.move hn hl hg hb ?_ ?_
      · intro hj
        have hpos := (Phase.remaining_advance hr files (ask i) s.resolver).1
        rw [hj] at hpos
        exact absurd hpos (Nat.lt_irrefl 0)
      · have hrun := running_move hn (phase.advance files (ask i) s.resolver).1
        rw [if_pos hr] at hrun
        have hpermits := h.permits
        split at hrun <;> omega
  | join hn => exact h.join hn

theorem steps (ha : Resolver.AnswersByPlace files r₀.options)
    (h : Sound files ask limit r₀ imports s) (hs : ReflTransGen (Step files ask limit) s s') :
    Sound files ask limit r₀ imports s' := by
  induction hs with
  | refl => exact h
  | tail _ hstep ih => exact ih.step ha hstep

end Sound

/-! ## Every schedule comes to an end -/

/-- As long as a result is missing, some task can move. -/
theorem progress (files : σ) (ask : α → Question) (limit : Nat) (hf : ¬ s.Finished) :
    ∃ s', Step files ask limit s s' := by
  obtain ⟨⟨i, phase⟩, hmem, hphase⟩ : ∃ task ∈ s.tasks, task.2 ≠ .joined := by
    simpa only [Finished, not_forall, exists_prop] using hf
  obtain ⟨n, hn⟩ := List.getElem?_of_mem hmem
  cases phase with
  | started => exact ⟨_, .advance hn rfl⟩
  | missed => exact ⟨_, .advance hn rfl⟩
  | found => exact ⟨_, .advance hn rfl⟩
  | done => exact ⟨_, .join hn⟩
  | joined => exact absurd rfl hphase
  | waiting =>
      by_cases hl : s.running < max limit 1
      · exact ⟨_, .permit hn hl⟩
      · -- All permits are taken, and so one of the tasks that hold them goes on.
        have hpos : 0 < s.running := by omega
        obtain ⟨⟨j, phase⟩, hmem', hrun⟩ := List.countP_pos_iff.mp hpos
        obtain ⟨k, hk⟩ := List.getElem?_of_mem hmem'
        exact ⟨_, .advance hk hrun⟩

/-- How many steps all tasks together have before them at most. -/
def remaining (s : Schedule α) : Nat := (s.tasks.map (·.2.remaining)).sum

theorem remaining_move {n : Nat} {i : α} {phase : Phase} (h : s.tasks[n]? = some (i, phase))
    (phase' : Phase) :
    (s.move n i phase').remaining + phase.remaining = s.remaining + phase'.remaining := by
  change ((s.tasks.set n (i, phase')).map (·.2.remaining)).sum + _ =
    (s.tasks.map (·.2.remaining)).sum + _
  generalize s.tasks = tasks at h
  induction tasks generalizing n with
  | nil => exact absurd h (by simp)
  | cons task tasks ih =>
      cases n with
      | zero =>
          obtain rfl : task = (i, phase) := by simpa using h
          simp only [List.set_cons_zero, List.map_cons, List.sum_cons]
          omega
      | succ n =>
          have hrest := ih (by simpa using h)
          simp only [List.set_cons_succ, List.map_cons, List.sum_cons]
          omega

theorem Step.remaining_lt (h : Step files ask limit s s') : s'.remaining < s.remaining := by
  cases h with
  | permit hn _ =>
      have hmove := remaining_move hn .started
      simp only [Phase.remaining] at hmove
      omega
  | @advance n i phase hn hr =>
      have hmove := remaining_move hn (phase.advance files (ask i) s.resolver).1
      have hless := (Phase.remaining_advance hr files (ask i) s.resolver).2
      change (s.move n i _).remaining < _
      omega
  | @join n i result hn =>
      have hmove := remaining_move hn .joined
      simp only [Phase.remaining] at hmove
      change (s.move n i _).remaining < _
      omega

theorem wellFounded_step (files : σ) (ask : α → Question) (limit : Nat) :
    WellFounded (flip (Step files ask limit)) :=
  Subrelation.wf (fun h => Step.remaining_lt h) (measure remaining).wf

/-! ## Results -/

/-- When all is collected, there is one result for each import, in their order. -/
theorem Sound.results (h : Sound files ask limit r₀ imports s) (hf : s.Finished) :
    Forall₂ (fun i (a : Resolved α) => a.i = i ∧
      Answered files r₀ s.resolver (ask i) a.target) imports s.results := by
  have hslot : ∀ (n : Nat) i, imports[n]? = some i → ∃ a, s.slots[n]? = some (some a) ∧
      a.i = i ∧ Answered files r₀ s.resolver (ask i) a.target := by
    intro n i hn
    rw [← h.items, List.getElem?_map, Option.map_eq_some_iff] at hn
    obtain ⟨⟨i, phase⟩, hn, rfl⟩ := hn
    obtain rfl : phase = .joined := hf _ (List.mem_of_getElem? hn)
    obtain ⟨result, hslot, hanswered⟩ := h.joined n i hn
    exact ⟨⟨i, result⟩, hslot, rfl, hanswered⟩
  have hlen : s.slots.length = imports.length := by rw [h.slots, ← h.items, List.length_map]
  rw [Schedule.results]
  generalize s.slots = slots at hslot hlen
  clear h
  induction imports generalizing slots with
  | nil =>
      rw [List.length_eq_zero_iff.mp hlen]
      exact .nil
  | cons i imports ih =>
      cases slots with
      | nil => exact absurd hlen nofun
      | cons slot slots =>
          obtain ⟨a, hslot₀, ha⟩ := hslot 0 i rfl
          obtain rfl : slot = some a := by simpa using hslot₀
          exact .cons ha (ih slots (fun n j hj => by simpa using hslot (n + 1) j hj)
            (by simpa using hlen))

end Schedule

end VendorBundle

import Mathlib.Data.List.Induction
import Mathlib.Tactic.Common
import VendorBundle.Proofs.Registry.Order
import VendorBundle.Registry

/-!
# Who is elected

Calls to a registry come in any order. Until a call for a leader finds a candidate, every candidate
is taken and calls for a leader fail. The call that finds one elects the first of the highest
version and closes the registry: no later call changes it, and all of them name the same leader.
-/

namespace VendorBundle.Registry

/-! ## The first of the highest -/

/-- A candidate that is higher than all that registered before it, and at least as high as all that
registered after it. -/
def Wins (candidates : List Candidate) (leader : Candidate) : Prop :=
  ∃ before later, candidates = before ++ leader :: later ∧
    (∀ c ∈ before, compareVersions c.version leader.version = .lt) ∧
    ∀ c ∈ later, compareVersions c.version leader.version ≠ .gt

theorem Wins.isLE {candidates : List Candidate} {leader : Candidate} (h : Wins candidates leader) :
    ∀ c ∈ candidates, (compareVersions c.version leader.version).isLE := by
  obtain ⟨before, later, rfl, hbefore, hlater⟩ := h
  intro c hc
  rcases List.mem_append.mp hc with hc | hc
  · rw [hbefore c hc]
    rfl
  · rcases List.mem_cons.mp hc with rfl | hc
    · rw [@Std.ReflCmp.compare_self _ compareVersions]
      rfl
    · exact Ordering.ne_gt_iff_isLE.mp (hlater c hc)

/-- The winner stays ahead of a lower candidate, and gives way to a higher one. -/
theorem Wins.ahead {candidates : List Candidate} {best : Candidate} (h : Wins candidates best)
    (next : Candidate) : Wins (candidates ++ [next]) (ahead best next) := by
  rw [Registry.ahead]
  split
  · rename_i hgt
    refine ⟨candidates, [], rfl, fun c hc => ?_, fun c hc => absurd hc List.not_mem_nil⟩
    exact Std.TransCmp.lt_of_isLE_of_lt (h.isLE c hc) (Std.OrientedCmp.gt_iff_lt.mp hgt)
  · rename_i hgt
    obtain ⟨before, later, rfl, hbefore, hlater⟩ := h
    refine ⟨before, later ++ [next], by simp, hbefore, fun c hc => ?_⟩
    rcases List.mem_append.mp hc with hc | hc
    · exact hlater c hc
    · rw [List.mem_singleton.mp hc]
      exact hgt

theorem Wins.foldl_ahead {candidates : List Candidate} {best : Candidate}
    (h : Wins candidates best) (rest : List Candidate) :
    Wins (candidates ++ rest) (rest.foldl Registry.ahead best) := by
  induction rest generalizing candidates best with
  | nil => rwa [List.append_nil]
  | cons next rest ih =>
      rw [List.append_cons]
      exact ih (h.ahead next)

theorem wins_of_elect {candidates : List Candidate} {leader : Candidate}
    (h : elect candidates = some leader) : Wins candidates leader := by
  cases candidates with
  | nil => exact absurd h nofun
  | cons c rest =>
      obtain rfl := Option.some.inj h
      exact Wins.foldl_ahead ⟨[], [], rfl, by simp, by simp⟩ rest

/-! ## Calls -/

inductive Call where
  | register (candidate : Candidate)
  | lead
  deriving DecidableEq, Repr

/-- The candidate that a call registers. -/
def Call.candidate? : Call → Option Candidate
  | register c => some c
  | lead => none

/-- The candidates of all calls, in the order of these. -/
def registered (calls : List Call) : List Candidate := calls.filterMap Call.candidate?

/-- What a call answers, and the registry after it. A call that fails leaves it as it was. -/
def answer (r : Registry) : Call → Except RegistryError (Option Candidate) × Registry
  | .register c =>
      match r.register c with
      | .ok r' => (.ok none, r')
      | .error e => (.error e, r)
  | .lead =>
      match r.lead with
      | .ok (leader, r') => (.ok (some leader), r')
      | .error e => (.error e, r)

/-- The registry after some calls. -/
def after (calls : List Call) : Registry := calls.foldl (fun r call => (r.answer call).2) {}

/-- Some call for a leader came after a candidate. -/
def Closed (calls : List Call) : Prop :=
  ∃ front later, calls = front ++ .lead :: later ∧ registered front ≠ []

variable {r : Registry} {calls : List Call}

theorem after_append (calls later : List Call) :
    after (calls ++ later) = later.foldl (fun r call => (r.answer call).2) (after calls) :=
  List.foldl_append

theorem registered_concat_register (calls : List Call) (c : Candidate) :
    registered (calls ++ [.register c]) = registered calls ++ [c] :=
  List.filterMap_append

theorem registered_concat_lead (calls : List Call) :
    registered (calls ++ [.lead]) = registered calls := by
  rw [registered, List.filterMap_append]
  exact List.append_nil _

theorem registered_eq_nil_iff : registered calls = [] ↔ ∀ c, .register c ∉ calls := by
  rw [registered, List.filterMap_eq_nil_iff]
  constructor
  · exact fun h c hc => absurd (h _ hc) nofun
  · intro h call hcall
    cases call with
    | register c => exact absurd hcall (h c)
    | lead => rfl

theorem not_closed_of_registered (h : registered calls = []) : ¬ Closed calls := by
  rintro ⟨front, later, rfl, hne⟩
  rw [registered, List.filterMap_append, List.append_eq_nil_iff] at h
  exact hne h.1

/-! ## While the registry is open -/

theorem answer_register_of_open (h : r.leader = none) (c : Candidate) :
    r.answer (.register c) = (.ok none, { r with candidates := r.candidates ++ [c] }) := by
  simp [answer, register, isLocked, h]

theorem answer_lead_of_empty (h : r.leader = none) (hc : r.candidates = []) :
    r.answer .lead = (.error .empty, r) := by
  simp [answer, lead, h, hc, elect]

theorem answer_lead_of_open (h : r.leader = none) (hc : r.candidates ≠ []) :
    ∃ leader, Wins r.candidates leader ∧
      r.answer .lead = (.ok (some leader), { r with leader := some leader }) := by
  obtain ⟨c, rest, hcons⟩ := List.exists_cons_of_ne_nil hc
  refine ⟨_, wins_of_elect (congrArg elect hcons), ?_⟩
  simp [answer, lead, h, hcons, elect]

/-- A registry that is open has taken every candidate. -/
theorem after_of_open (h : ¬ Closed calls) :
    after calls = { candidates := registered calls, leader := none } := by
  induction calls using List.reverseRecOn with
  | nil => rfl
  | append_singleton calls call ih =>
      have hopen : ¬ Closed calls := fun ⟨front, later, hcalls, hne⟩ =>
        h ⟨front, later ++ [call], by simp [hcalls], hne⟩
      rw [after_append, ih hopen, List.foldl_cons, List.foldl_nil]
      cases call with
      | register c => rw [answer_register_of_open rfl, registered_concat_register]
      | lead =>
          have hnone : registered calls = [] := by
            by_contra hne
            exact h ⟨calls, [], rfl, hne⟩
          rw [answer_lead_of_empty rfl hnone, registered_concat_lead]

/-! ## From the first leader on -/

/-- A registry that has a leader takes no candidates and names that leader. -/
theorem answer_of_leader {leader : Candidate} (h : r.leader = some leader) :
    (∀ c, r.answer (.register c) = (.error (.locked c), r)) ∧
      r.answer .lead = (.ok (some leader), r) := by
  obtain ⟨candidates, _⟩ := r
  obtain rfl : _ = some leader := h
  exact ⟨fun c => by simp [answer, register, isLocked], by simp [answer, lead]⟩

theorem foldl_of_leader {leader : Candidate} (h : r.leader = some leader) (later : List Call) :
    later.foldl (fun r call => (r.answer call).2) r = r := by
  induction later with
  | nil => rfl
  | cons call later ih =>
      obtain ⟨hregister, hlead⟩ := answer_of_leader h
      rw [List.foldl_cons]
      cases call with
      | register c => rw [hregister c, ih]
      | lead => rw [hlead, ih]

/-- The call for a leader that comes first after a candidate. -/
theorem Closed.first (h : Closed calls) : ∃ front later,
    calls = front ++ .lead :: later ∧ registered front ≠ [] ∧ ¬ Closed front := by
  induction calls using List.reverseRecOn with
  | nil =>
      obtain ⟨front, later, hcalls, -⟩ := h
      exact absurd hcalls.symm (by simp)
  | append_singleton calls call ih =>
      by_cases hclosed : Closed calls
      · obtain ⟨front, later, rfl, hne, hopen⟩ := ih hclosed
        exact ⟨front, later ++ [call], by simp, hne, hopen⟩
      · obtain ⟨front, later, hcalls, hne⟩ := h
        rcases List.eq_nil_or_concat later with rfl | ⟨later, last, rfl⟩
        · obtain ⟨rfl, -⟩ := List.append_inj' hcalls rfl
          exact ⟨calls, [], hcalls, hne, hclosed⟩
        · rw [List.concat_eq_append, ← List.cons_append, ← List.append_assoc] at hcalls
          obtain ⟨rfl, -⟩ := List.append_inj' hcalls rfl
          exact absurd ⟨front, later, rfl, hne⟩ hclosed

/-- The first call for a leader after a candidate elects one for good. -/
theorem elected_of_open (h : ¬ Closed calls) (hne : registered calls ≠ []) :
    ∃ leader, Wins (registered calls) leader ∧
      ((after calls).answer .lead).1 = .ok (some leader) ∧
      ∀ later, (after (calls ++ .lead :: later)).leader = some leader := by
  have hafter := after_of_open h
  obtain ⟨leader, hwins, hanswer⟩ := answer_lead_of_open (r := after calls) (by rw [hafter])
    (by rwa [hafter])
  rw [hafter] at hwins
  refine ⟨leader, hwins, congrArg Prod.fst hanswer, fun later => ?_⟩
  rw [after_append, List.foldl_cons, hanswer, foldl_of_leader rfl]

/-- A registry has a leader exactly after a call for one that came after a candidate. -/
theorem isLocked_iff : (after calls).isLocked = true ↔ Closed calls := by
  constructor
  · intro hlocked
    by_contra hopen
    rw [after_of_open hopen] at hlocked
    exact absurd hlocked nofun
  · intro h
    obtain ⟨front, later, rfl, hne, hopen⟩ := h.first
    obtain ⟨leader, -, -, hleader⟩ := elected_of_open hopen hne
    rw [isLocked, hleader later]
    rfl

/-- Over any calls, a call for a leader fails and leaves the registry open exactly as long as there
has been no candidate. The first one after a candidate elects the first candidate of the highest
version. From then on no candidate is taken, the registry stays as it is and each call for a leader
names the elected one. -/
theorem election (calls : List Call) :
    ((after calls).isLocked = true ↔ Closed calls) ∧
    (((after calls).answer .lead).1 = .error .empty ↔ ∀ c, .register c ∉ calls) ∧
    ((∀ c, .register c ∉ calls) → (after (calls ++ [.lead])).isLocked = false) ∧
    (¬ Closed calls → (∃ c, .register c ∈ calls) → ∃ leader,
      Wins (registered calls) leader ∧
      ((after calls).answer .lead).1 = .ok (some leader) ∧
      ∀ later, let r := after (calls ++ .lead :: later)
        r.isLocked = true ∧ r.answer .lead = (.ok (some leader), r) ∧
          ∀ c, r.answer (.register c) = (.error (.locked c), r)) := by
  refine ⟨isLocked_iff, ?_, fun hnone => ?_, fun hopen ⟨c, hc⟩ => ?_⟩
  · rw [← registered_eq_nil_iff]
    constructor
    · intro hempty
      by_contra hne
      by_cases hclosed : Closed calls
      · obtain ⟨leader, hleader⟩ := Option.isSome_iff_exists.mp (isLocked_iff.mpr hclosed)
        rw [(answer_of_leader hleader).2] at hempty
        cases hempty
      · obtain ⟨leader, -, hanswer, -⟩ := elected_of_open hclosed hne
        rw [hanswer] at hempty
        cases hempty
    · intro hnone
      rw [after_of_open (not_closed_of_registered hnone), answer_lead_of_empty rfl hnone]
  · have hopen : ¬ Closed (calls ++ [.lead]) := by
      apply not_closed_of_registered
      rw [registered_concat_lead, registered_eq_nil_iff.mpr hnone]
    rw [after_of_open hopen]
    rfl
  · have hne : registered calls ≠ [] := fun hnone => registered_eq_nil_iff.mp hnone c hc
    obtain ⟨leader, hwins, hanswer, hleader⟩ := elected_of_open hopen hne
    refine ⟨leader, hwins, hanswer, fun later => ?_⟩
    obtain ⟨hregister, hlead⟩ := answer_of_leader (hleader later)
    exact ⟨by rw [isLocked, hleader later]; rfl, hlead, hregister⟩

example : ((after [.register ⟨"a", "2.0-rc.1"⟩, .register ⟨"b", "2.0+5"⟩, .register ⟨"c", "2.0"⟩,
    .lead, .register ⟨"d", "3.0"⟩]).answer .lead).1 = .ok (some ⟨"b", "2.0+5"⟩) := by
  decide +kernel

end VendorBundle.Registry

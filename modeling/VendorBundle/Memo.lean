/-!
# Values computed on demand

A value is computed when it is first asked for, and again after it was given up. Results that are
handed out more than once carry a stamp, by which a holder knows one it has seen before.
-/

namespace VendorBundle

variable {α : Type}

structure Memo (α : Type) where
  /-- The value was given up, or never computed. -/
  stale : Bool := true
  value : Option α := none
  deriving DecidableEq, Repr

namespace Memo

/-- Gives the value up. -/
def invalidate (m : Memo α) : Memo α := { m with stale := true }

def isStale (m : Memo α) : Bool := m.stale || m.value.isNone

/-- The value, which is computed only if it has to be. -/
def get (m : Memo α) (compute : Unit → α) : α × Memo α :=
  match m with
  | ⟨false, some a⟩ => (a, m)
  | _ =>
      let a := compute ()
      (a, ⟨false, some a⟩)

theorem get_of_not_isStale {m : Memo α} (h : m.isStale = false) (compute : Unit → α) :
    m.value = some (m.get compute).1 ∧ (m.get compute).2 = m := by
  obtain ⟨stale, value⟩ := m
  cases stale <;> cases value <;> simp_all [isStale, get]

theorem get_of_isStale {m : Memo α} (h : m.isStale = true) (compute : Unit → α) :
    m.get compute = (compute (), ⟨false, some (compute ())⟩) := by
  obtain ⟨stale, value⟩ := m
  cases stale <;> cases value <;> simp_all [isStale, get]

theorem isStale_get (m : Memo α) (compute : Unit → α) : (m.get compute).2.isStale = false := by
  obtain ⟨stale, value⟩ := m
  cases stale <;> cases value <;> simp [isStale, get]

end Memo

/-- A result with an identity. -/
structure Shared (α : Type) where
  stamp : Nat
  value : α
  deriving DecidableEq, Repr

namespace Shared

/-- Both are the same result, and not only equal ones. -/
def same {β : Type} (a : Shared α) (b : Shared β) : Bool := a.stamp == b.stamp

end Shared

end VendorBundle

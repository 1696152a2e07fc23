import Mathlib.Computability.Language

/-!
# Patterns of texts

Regular patterns are languages over characters, put together by the operations of a Kleene algebra.
What a pattern matches is told by its parts from the front.
-/

namespace VendorBundle.Text.Pattern

open scoped Computability

/-- One character of a class. -/
def one (p : Char → Prop) : Language Char := {text | ∃ c, text = [c] ∧ p c}

/-- One text. -/
def word (text : List Char) : Language Char := {text}

/-- A pattern or nothing. -/
def opt (l : Language Char) : Language Char := 1 + l

/-- A pattern once or more often. -/
def many (l : Language Char) : Language Char := l * l∗

variable {p : Char → Prop} {l : Language Char} {c : Char} {text : List Char}

theorem mem_one_mul : text ∈ one p * l ↔ ∃ c rest, text = c :: rest ∧ p c ∧ rest ∈ l := by
  rw [Language.mem_mul]
  constructor
  · rintro ⟨_, ⟨c, rfl, hc⟩, rest, hrest, rfl⟩
    exact ⟨c, rest, rfl, hc, hrest⟩
  · rintro ⟨c, rest, rfl, hc, hrest⟩
    exact ⟨[c], ⟨c, rfl, hc⟩, rest, hrest, rfl⟩

theorem nil_notMem_one_mul : [] ∉ one p * l := by
  rw [mem_one_mul]
  exact fun ⟨_, _, h, _⟩ => List.cons_ne_nil _ _ h.symm

theorem cons_mem_one_mul : c :: text ∈ one p * l ↔ p c ∧ text ∈ l := by
  rw [mem_one_mul]
  constructor
  · rintro ⟨c', rest, heq, hc, hrest⟩
    obtain ⟨rfl, rfl⟩ := List.cons.inj heq
    exact ⟨hc, hrest⟩
  · exact fun ⟨hc, hrest⟩ => ⟨c, text, rfl, hc, hrest⟩

theorem mem_word_mul {front : List Char} :
    text ∈ word front * l ↔ ∃ rest ∈ l, text = front ++ rest := by
  rw [Language.mem_mul]
  constructor
  · rintro ⟨_, rfl, rest, hrest, rfl⟩
    exact ⟨rest, hrest, rfl⟩
  · rintro ⟨rest, hrest, rfl⟩
    exact ⟨front, rfl, rest, hrest, rfl⟩

/-- The repetition of a class, character by character. -/
theorem cons_mem_kstar_one_mul :
    c :: text ∈ (one p)∗ * l ↔ (p c ∧ text ∈ (one p)∗ * l) ∨ c :: text ∈ l := by
  have hunfold : (one p)∗ * l = one p * ((one p)∗ * l) + l := by
    rw [← mul_assoc, add_comm]
    nth_rewrite 1 [← one_add_mul_kstar]
    rw [add_mul, one_mul]
  nth_rewrite 1 [hunfold]
  rw [Language.mem_add, cons_mem_one_mul]

theorem nil_mem_kstar_one_mul : [] ∈ (one p)∗ * l ↔ [] ∈ l := by
  constructor
  · intro h
    obtain ⟨a, -, b, hb, hab⟩ := Language.mem_mul.mp h
    rwa [(List.append_eq_nil_iff.mp hab).2] at hb
  · exact fun h => Language.mem_mul.mpr ⟨[], Language.nil_mem_kstar _, [], h, rfl⟩

theorem mem_kstar_one : text ∈ (one p)∗ ↔ ∀ c ∈ text, p c := by
  rw [← mul_one (one p)∗]
  induction text with
  | nil =>
      rw [nil_mem_kstar_one_mul]
      simp
  | cons c text ih =>
      rw [cons_mem_kstar_one_mul, ih, Language.mem_one, List.forall_mem_cons]
      simp

theorem mem_kstar_one_mul : text ∈ (one p)∗ * l ↔
    ∃ front rest, text = front ++ rest ∧ (∀ c ∈ front, p c) ∧ rest ∈ l := by
  rw [Language.mem_mul]
  simp only [mem_kstar_one]
  constructor
  · rintro ⟨front, hfront, rest, hrest, rfl⟩
    exact ⟨front, rest, rfl, hfront, hrest⟩
  · rintro ⟨front, rest, rfl, hfront, hrest⟩
    exact ⟨front, hfront, rest, hrest, rfl⟩

end VendorBundle.Text.Pattern

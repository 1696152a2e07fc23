import VendorBundle.Script.Program

/-!
# Places in a program

A program is read to its end, so every place in its text belongs to a piece or a blank. Where the
text goes on like a comment, a comment of the program begins, or the place is inside a piece: a
literal, another comment or the line that names the interpreter.
-/

namespace VendorBundle.Script

variable {source text back : List Char} {pieces : List Piece} {p q : Piece}

/-! ## Pieces one behind the other -/

theorem Piece.IsGood.suffix (h : p.IsGood) : p.rest <:+ p.start := by
  cases h with
  | interpreter h => exact Lexer.suffix_of_cons h
  | comment h => exact h
  | token hs =>
      obtain ⟨front, rfl, -⟩ := hs
      exact List.suffix_append front _
  | jsxText h => exact h

theorem Reads.isGood (h : Reads source pieces text) (hp : p ∈ pieces) : p.IsGood := by
  induction h with
  | nil => exact absurd hp List.not_mem_nil
  | blank _ _ ih => exact ih hp
  | piece _ hgood ih =>
      rcases List.mem_cons.mp hp with rfl | hp
      · exact hgood
      · exact ih hp

/-- What is left lies behind every piece that was read. -/
theorem Reads.suffix_rest (h : Reads source pieces text) (hp : p ∈ pieces) : text <:+ p.rest := by
  induction h with
  | nil => exact absurd hp List.not_mem_nil
  | blank _ _ ih => exact (List.suffix_cons _ _).trans (ih hp)
  | piece _ hgood ih =>
      rcases List.mem_cons.mp hp with rfl | hp
      · exact List.suffix_rfl
      · exact hgood.suffix.trans (ih hp)

/-- Of two pieces one lies behind the other. -/
theorem Reads.apart (h : Reads source pieces text) (hp : p ∈ pieces) (hq : q ∈ pieces) :
    p = q ∨ p.start <:+ q.rest ∨ q.start <:+ p.rest := by
  induction h with
  | nil => exact absurd hp List.not_mem_nil
  | blank _ _ ih => exact ih hp hq
  | piece hbefore _ ih =>
      rcases List.mem_cons.mp hp with hp | hp <;> rcases List.mem_cons.mp hq with hq | hq
      · exact .inl (hp.trans hq.symm)
      · exact .inr (.inl (hp ▸ hbefore.suffix_rest hq))
      · exact .inr (.inr (hq ▸ hbefore.suffix_rest hp))
      · exact ih hp hq

/-! ## Where a text goes on like a comment -/

/-- A piece that is a literal, a comment or the line that names the interpreter. -/
def Piece.isVerbatim (p : Piece) : Bool :=
  match p.kind with
  | .interpreter | .comment => true
  | .token token => token.isLiteral

/-- The end of the text begins inside the piece: behind its first character, or anywhere in it when
it is the text of an element. -/
structure Piece.Holds (p : Piece) (back : List Char) : Prop where
  kind : p.isVerbatim
  within : back <:+ p.start
  reaches : p.rest.length < back.length
  inside : back ≠ p.start ∨ p.kind = .token .jsxText

instance (p : Piece) (back : List Char) : Decidable (p.Holds back) :=
  decidable_of_iff (p.isVerbatim ∧ back <:+ p.start ∧ p.rest.length < back.length ∧
    (back ≠ p.start ∨ p.kind = .token .jsxText))
    ⟨fun ⟨kind, within, reaches, inside⟩ => ⟨kind, within, reaches, inside⟩,
      fun ⟨kind, within, reaches, inside⟩ => ⟨kind, within, reaches, inside⟩⟩

/-- A comment of the program begins where the end of the text does. -/
def Begins (pieces : List Piece) (back : List Char) : Prop :=
  ∃ p ∈ pieces, p.kind = .comment ∧ p.start = back

theorem exists_of_beginsComment (h : beginsComment back) : ∃ behind, back = '/' :: behind := by
  obtain ⟨behind, rfl | rfl⟩ := beginsComment_iff.mp h
  · exact ⟨_, rfl⟩
  · exact ⟨_, rfl⟩

/-- Only a literal holds the beginning of a comment behind its first character. -/
theorem Spells.isLiteral {token : Token} {start rest : List Char} (h : Spells start token rest)
    (hc : beginsComment back) (hb : back <:+ start) (hreaches : rest.length < back.length)
    (hne : back ≠ start) : token.isLiteral := by
  obtain ⟨front, rfl, hliteral⟩ := h
  rcases hliteral with hliteral | hslash
  · exact hliteral
  · obtain ⟨before, hwhole⟩ := hb
    obtain ⟨behind, rfl⟩ := exists_of_beginsComment hc
    exfalso
    rcases List.append_eq_append_iff.mp hwhole with ⟨mid, hfront, hmid⟩ | ⟨mid, -, hrest⟩
    · cases mid with
      | nil =>
          rw [hmid, List.nil_append] at hreaches
          exact Nat.lt_irrefl _ hreaches
      | cons c mid =>
          obtain ⟨rfl, -⟩ := List.cons.inj hmid
          cases before with
          | nil => exact hne hwhole
          | cons d before =>
              rw [hfront] at hslash
              simp at hslash
    · rw [hrest, List.length_append] at hreaches
      omega

theorem Piece.IsGood.located (h : p.IsGood) (hc : beginsComment back) (hb : back <:+ p.start)
    (hreaches : p.rest.length < back.length) :
    (p.kind = .comment ∧ p.start = back) ∨ p.Holds back := by
  by_cases heq : back = p.start
  · subst heq
    cases h with
    | interpreter => exact absurd hc (by simp [beginsComment])
    | comment => exact .inl ⟨rfl, rfl⟩
    | token _ hn => exact absurd hc hn
    | jsxText => exact .inr ⟨rfl, hb, hreaches, .inr rfl⟩
  right
  cases h with
  | interpreter => exact ⟨rfl, hb, hreaches, .inl heq⟩
  | comment => exact ⟨rfl, hb, hreaches, .inl heq⟩
  | token hs => exact ⟨hs.isLiteral hc hb hreaches heq, hb, hreaches, .inl heq⟩
  | jsxText => exact ⟨rfl, hb, hreaches, .inl heq⟩

/-- What is not left to be read begins a comment of the program, or begins inside a piece. -/
theorem Reads.located (h : Reads source pieces text) (hb : back <:+ source)
    (hc : beginsComment back) :
    back <:+ text ∨ Begins pieces back ∨ ∃ p ∈ pieces, p.Holds back := by
  induction h with
  | nil => exact .inl hb
  | @blank pieces c text _ hblank ih =>
      rcases ih with hback | hfound
      · rcases List.suffix_cons_iff.mp hback with rfl | hback
        · -- A slash is no blank.
          obtain ⟨behind, heq⟩ := exists_of_beginsComment hc
          obtain ⟨rfl, -⟩ := List.cons.inj heq
          exact absurd hblank (by decide)
        · exact .inl hback
      · exact .inr hfound
  | @piece pieces p _ hgood ih =>
      rcases ih with hback | ⟨q, hq, hbegins⟩ | ⟨q, hq, hholds⟩
      · by_cases hreaches : p.rest.length < back.length
        · rcases hgood.located hc hback hreaches with hbegins | hholds
          · exact .inr (.inl ⟨p, List.mem_cons_self, hbegins⟩)
          · exact .inr (.inr ⟨p, List.mem_cons_self, hholds⟩)
        · left
          exact List.suffix_of_suffix_length_le hback hgood.suffix (by omega)
      · exact .inr (.inl ⟨q, List.mem_cons_of_mem _ hq, hbegins⟩)
      · exact .inr (.inr ⟨q, List.mem_cons_of_mem _ hq, hholds⟩)

/-- No comment begins inside a piece. -/
theorem Reads.not_holds_of_begins (h : Reads source pieces text) (hb : Begins pieces back)
    (hp : p ∈ pieces) : ¬ p.Holds back := by
  obtain ⟨q, hq, hkind, rfl⟩ := hb
  intro hholds
  have hlonger : q.rest.length < q.start.length := by
    cases h.isGood hq with
    | comment _ hlt => exact hlt
    | interpreter => cases hkind
    | token => cases hkind
    | jsxText => cases hkind
  rcases h.apart hp hq with rfl | hbehind | hbehind
  · rcases hholds.inside with hne | htext
    · exact hne rfl
    · cases hkind.symm.trans htext
  · -- The comment lies in front of the piece.
    have hlength := (hholds.within.trans hbehind).length_le
    omega
  · have hlength := hbehind.length_le
    have hreaches := hholds.reaches
    omega

/-! ## Programs -/

namespace Parse

variable {α β : Type} {env : Env} {c next : Cursor}

theorem run_bind (s : Step α) (f : α → Step β) (c : Cursor) :
    (s >>= f).run c = (s.run c).bind fun found => (f found.1).run found.2 := by
  simp only [bind, Step.bind]
  cases s.run c <;> rfl

theorem run_bind_eq_some {p : Parse α} {f : α → Parse β} {b : β}
    (h : ((p >>= f) env).run c = some (b, next)) :
    ∃ a mid, (p env).run c = some (a, mid) ∧ (f a env).run mid = some (b, next) := by
  obtain ⟨⟨a, mid⟩, hfirst, hrest⟩ :=
    Option.bind_eq_some_iff.mp ((run_bind (p env) (fun a => f a env) c).symm.trans h)
  exact ⟨a, mid, hfirst, hrest⟩

theorem run_pure_eq_some {a b : α} (h : ((pure a : Parse α) env).run c = some (b, next)) :
    a = b ∧ c = next :=
  Prod.mk.inj (Option.some.inj h)

/-- A step is repeated until it gives nothing. -/
theorem stops_of_repeated {step : Parse (Option α)} {n : Nat} {done items : List α}
    (h : (repeated step n done env).run c = some (items, next)) :
    ∃ last, (step env).run last = some (none, next) := by
  induction n generalizing done c with
  | zero => cases h
  | succ n ih =>
      obtain ⟨found, mid, hstep, hrest⟩ := run_bind_eq_some h
      cases found with
      | some a => exact ih hrest
      | none =>
          obtain ⟨-, rfl⟩ := run_pure_eq_some hrest
          exact ⟨c, hstep⟩

theorem stops_of_many {step : Parse (Option α)} {items : List α}
    (h : (many step env).run c = some (items, next)) :
    ∃ last, (step env).run last = some (none, next) := by
  obtain ⟨env', mid, -, hrest⟩ := run_bind_eq_some h
  exact stops_of_repeated hrest

theorem run_isDone_eq_some {b : Bool} (h : (isDone env).run c = some (b, next)) :
    b = (c.token == .done) ∧ c = next := by
  obtain ⟨token, mid, htoken, hpure⟩ := run_bind_eq_some h
  obtain ⟨place, mid', hcursor, htoken⟩ := run_bind_eq_some htoken
  obtain ⟨rfl, rfl⟩ := Prod.mk.inj (Option.some.inj hcursor)
  obtain ⟨rfl, rfl⟩ := run_pure_eq_some htoken
  obtain ⟨rfl, rfl⟩ := run_pure_eq_some hpure
  exact ⟨rfl, rfl⟩

end Parse

/-- A program ends where its text does. -/
theorem Grammar.done_of_program {env : Env} {c next : Cursor} {outline : Outline}
    (h : (program env).run c = some (outline, next)) : next.token = .done := by
  obtain ⟨items, mid, hmany, hrest⟩ := Parse.run_bind_eq_some h
  obtain ⟨-, rfl⟩ := Parse.run_pure_eq_some hrest
  obtain ⟨last, hlast⟩ := Parse.stops_of_many hmany
  obtain ⟨ends, place, hdone, hitem⟩ := Parse.run_bind_eq_some hlast
  obtain ⟨rfl, rfl⟩ := Parse.run_isDone_eq_some hdone
  split at hitem
  · rename_i hends
    obtain ⟨-, rfl⟩ := Parse.run_pure_eq_some hitem
    exact eq_of_beq hends
  · obtain ⟨item, after, -, hsome⟩ := Parse.run_bind_eq_some hitem
    obtain ⟨hsome, -⟩ := Parse.run_pure_eq_some hsome
    cases hsome

/-- The pieces of a program are all of its text, but for blanks. -/
theorem reads_of_read? {language : Language} {source : String} {reading : Reading}
    (h : read? language source = some reading) : Reads source.toList reading.pieces [] := by
  unfold read? at h
  dsimp only at h
  split at h
  · rename_i outline next hprogram
    split at h
    · cases h
    · obtain rfl := Option.some.inj h
      have hsound := (Grammar.program _).sound (Cursor.sound_ofSource _ _) hprogram
      have hreads := hsound.reads
      rwa [hsound.done (Grammar.done_of_program hprogram)] at hreads
  · cases h

/-- Where the text of a program goes on like a comment, either a comment of the program begins, or
the place is inside a piece. -/
theorem begins_iff_not_holds {language : Language} {source : String} {reading : Reading}
    (h : read? language source = some reading) (hb : back <:+ source.toList)
    (hc : beginsComment back) :
    Begins reading.pieces back ↔ ∀ p ∈ reading.pieces, ¬ p.Holds back := by
  have hreads := reads_of_read? h
  constructor
  · intro hbegins p hp
    exact hreads.not_holds_of_begins hbegins hp
  · intro hnone
    rcases hreads.located hb hc with hnil | hbegins | ⟨p, hp, hholds⟩
    · rw [List.suffix_nil.mp hnil] at hc
      cases hc
    · exact hbegins
    · exact absurd hholds (hnone p hp)

end VendorBundle.Script

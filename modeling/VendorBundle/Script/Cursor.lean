import VendorBundle.Script.Reading

/-!
# Steps of a parse

A cursor stands at a token and knows the pieces that were read before it. Each step of a parse comes
with the proof that it leaves the cursor with a reading of the same source, so that no part of the
grammar has to care for it.
-/

namespace VendorBundle.Script

/-- What a parse keeps in mind apart from its place. -/
structure Notes where
  /-- A fault was found. -/
  flawed : Bool := false
  /-- How many defaults in object literals wait for an assignment to take them up. -/
  openDefaults : Nat := 0
  /-- The names exported so far. -/
  exported : List String := []
  deriving Inhabited

/-- A place in the text, with the token that stands there. -/
structure Cursor extends Notes where
  token : Token
  /-- A line ends between the token and the one before it. -/
  newline : Bool
  /-- The text from the token on. -/
  start : List Char
  /-- The text after the token. -/
  rest : List Char
  /-- What was read before the token, last piece first. -/
  pieces : List Piece := []
  deriving Inhabited

namespace Cursor

/-- The current token as a piece of the text. -/
def piece (c : Cursor) : Piece := ⟨.token c.token, c.start, c.rest⟩

/-- The cursor has a reading of the source, and its token stands where it is. -/
structure Sound (source : List Char) (c : Cursor) : Prop where
  reads : Reads source c.pieces c.start
  spells : Spells c.start c.token c.rest
  starts : ¬ beginsComment c.start
  done : c.token = .done → c.start = []

/-- Moves to the token that begins the text, after blanks. -/
def moveTo (c : Cursor) (script newline : Bool) (pieces : List Piece) (text : List Char) : Cursor :=
  let skipped := Lexer.skip script .between newline pieces text
  if skipped.closed then
    let (token, rest) := Lexer.token skipped.rest
    { c with
      token, newline := skipped.newline, start := skipped.rest, rest, pieces := skipped.pieces }
  else { c with token := .invalid, newline, start := [], rest := [], pieces := skipped.pieces }

/-- Stands in front of the first token of a source. -/
def ofSource (script : Bool) (source : List Char) : Cursor :=
  let (pieces, text) := Lexer.opening source
  moveTo { token := .invalid, newline := true, start := source, rest := source } script true pieces
    text

def advance (c : Cursor) (script : Bool) : Cursor :=
  c.moveTo script false (c.piece :: c.pieces) c.rest

/-- Replaces the current token by another reading of the text at its place. -/
def reread (c : Cursor) (read : List Char → Option (Token × List Char)) : Option Cursor :=
  (read c.start).map fun (token, rest) => { c with token, rest }

/-- Moves past the current token and blanks, to a token that is read in the given way. -/
def advanceTo (c : Cursor) (skipped : Lexer.Skipped)
    (read : List Char → Option (Token × List Char)) : Option Cursor :=
  (read skipped.rest).map fun (token, rest) =>
    { c with token, start := skipped.rest, rest, pieces := skipped.pieces }

/-- Moves past the current token, to the next bracket or brace in the text of an element. -/
def skipText (c : Cursor) : Option Cursor :=
  match c.rest.dropWhile fun c => c != '<' && c != '\x7b' with
  | mark :: rest =>
      some { c with
        token := .punct (String.singleton mark), newline := false, start := mark :: rest, rest
        pieces := ⟨.token .jsxText, c.rest, mark :: rest⟩ :: c.piece :: c.pieces }
  | [] => none

variable {source : List Char} {c next : Cursor}

theorem Sound.reads_rest (h : c.Sound source) : Reads source (c.piece :: c.pieces) c.rest :=
  .piece (p := c.piece) h.reads (.token h.spells h.starts)

theorem sound_moveTo (c : Cursor) (script newline : Bool) {pieces : List Piece} {text : List Char}
    (h : Reads source pieces text) : (c.moveTo script newline pieces text).Sound source := by
  obtain ⟨hreads, hcomment, hopen⟩ := Lexer.reads_skip script .between newline pieces text h
  unfold moveTo
  dsimp only
  split
  · obtain ⟨hspells, hdone⟩ :=
      Lexer.token_spec (Lexer.skip script .between newline pieces text).rest
    exact ⟨hreads, hspells, hcomment, hdone⟩
  · rename_i hclosed
    rw [hopen (by simpa using hclosed)] at hreads
    exact ⟨hreads, ⟨[], rfl, .inr List.not_mem_nil⟩, not_beginsComment_nil, fun _ => rfl⟩

theorem sound_ofSource (script : Bool) (source : List Char) : (ofSource script source).Sound source :=
  sound_moveTo _ _ _ (Lexer.reads_opening source)

theorem Sound.advance (h : c.Sound source) (script : Bool) : (c.advance script).Sound source :=
  sound_moveTo _ _ _ h.reads_rest

/-- A way to read a token that stands at the front of the text. -/
def IsReading (read : List Char → Option (Token × List Char)) : Prop :=
  ∀ {text : List Char} {token : Token} {rest : List Char}, read text = some (token, rest) →
    Spells text token rest ∧ token ≠ .done

theorem Sound.reread (h : c.Sound source) {read : List Char → Option (Token × List Char)}
    (hread : IsReading read) (hn : c.reread read = some next) : next.Sound source := by
  obtain ⟨⟨token, rest⟩, htoken, rfl⟩ := Option.map_eq_some_iff.mp hn
  obtain ⟨hspells, hne⟩ := hread htoken
  exact ⟨h.reads, hspells, h.starts, fun hdone => absurd hdone hne⟩

theorem Sound.advanceTo (h : c.Sound source) {script newline : Bool}
    {read : List Char → Option (Token × List Char)} (hread : IsReading read)
    (hn : c.advanceTo (Lexer.skip script .between newline (c.piece :: c.pieces) c.rest) read =
      some next) : next.Sound source := by
  obtain ⟨⟨token, rest⟩, htoken, rfl⟩ := Option.map_eq_some_iff.mp hn
  obtain ⟨hspells, hne⟩ := hread htoken
  obtain ⟨hreads, hcomment, -⟩ :=
    Lexer.reads_skip script .between newline (c.piece :: c.pieces) c.rest h.reads_rest
  exact ⟨hreads, hspells, hcomment, fun hdone => absurd hdone hne⟩

theorem Sound.skipText (h : c.Sound source) (hn : c.skipText = some next) : next.Sound source := by
  unfold Cursor.skipText at hn
  split at hn
  · rename_i mark rest hmark
    obtain rfl := Option.some.inj hn
    have hsuffix : mark :: rest <:+ c.rest := hmark ▸ List.dropWhile_suffix _
    have hne : mark ≠ '/' := by
      rintro rfl
      have hstops := List.head?_dropWhile_not (fun c => c != '<' && c != '\x7b') c.rest
      rw [hmark] at hstops
      simp at hstops
    refine ⟨.piece (p := ⟨.token .jsxText, c.rest, mark :: rest⟩) h.reads_rest (.jsxText hsuffix),
      ⟨[mark], rfl, .inr List.not_mem_nil⟩, ?_, Token.noConfusion⟩
    rw [beginsComment_iff]
    rintro ⟨behind, heq | heq⟩
    · exact hne (List.cons.inj heq).1
    · exact hne (List.cons.inj heq).1
  · cases hn

end Cursor

/-! ## Steps -/

/-- What a part of the grammar does at a cursor: it gives a value and moves on, or it fails. -/
structure Step (α : Type) where
  run : Cursor → Option (α × Cursor)
  sound {source : List Char} {c next : Cursor} {a : α} :
    c.Sound source → run c = some (a, next) → next.Sound source

namespace Step

variable {α β : Type}

@[inline] protected def pure (a : α) : Step α where
  run c := some (a, c)
  sound h hn := by
    obtain ⟨-, rfl⟩ := Prod.mk.inj (Option.some.inj hn)
    exact h

@[inline] protected def bind (s : Step α) (f : α → Step β) : Step β where
  run c :=
    match s.run c with
    | some (a, next) => (f a).run next
    | none => none
  sound h hn := by
    split at hn
    · rename_i a next hfirst
      exact (f a).sound (s.sound h hfirst) hn
    · cases hn

@[always_inline] instance : Monad Step where
  pure := Step.pure
  bind := Step.bind

@[inline] protected def orElse (s : Step α) (other : Unit → Step α) : Step α where
  run c :=
    match s.run c with
    | some found => some found
    | none => (other ()).run c
  sound h hn := by
    split at hn
    · rename_i found hfirst
      exact s.sound h (hfirst.trans hn)
    · exact (other ()).sound h hn

@[always_inline] instance : Alternative Step where
  failure := ⟨fun _ => none, fun _ hn => by cases hn⟩
  orElse := Step.orElse

/-- The cursor as it is. -/
def cursor : Step Cursor where
  run c := some (c, c)
  sound h hn := by
    obtain ⟨-, rfl⟩ := Prod.mk.inj (Option.some.inj hn)
    exact h

/-- Changes the notes. -/
def note (change : Notes → Notes) : Step Unit where
  run c := some ((), { c with toNotes := change c.toNotes })
  sound h hn := by
    obtain ⟨-, rfl⟩ := Prod.mk.inj (Option.some.inj hn)
    exact ⟨h.reads, h.spells, h.starts, h.done⟩

/-- The outcome of a step, which leaves no trace when it fails. -/
def attempt (s : Step α) : Step (Option α) where
  run c :=
    match s.run c with
    | some (a, next) => some (some a, next)
    | none => some (none, c)
  sound h hn := by
    split at hn
    · rename_i a next hfirst
      obtain ⟨-, rfl⟩ := Prod.mk.inj (Option.some.inj hn)
      exact s.sound h hfirst
    · obtain ⟨-, rfl⟩ := Prod.mk.inj (Option.some.inj hn)
      exact h

/-- The outcome of a step that is taken back. -/
def lookahead (s : Step α) : Step (Option α) where
  run c := some ((s.run c).map Prod.fst, c)
  sound h hn := by
    obtain ⟨-, rfl⟩ := Prod.mk.inj (Option.some.inj hn)
    exact h

/-! ## Moving on -/

/-- Moves to the next token. -/
def advance (script : Bool) : Step Unit where
  run c := some ((), c.advance script)
  sound h hn := by
    obtain ⟨-, rfl⟩ := Prod.mk.inj (Option.some.inj hn)
    exact h.advance script

/-- Replaces the current token by another reading of the text at its place. -/
def reread (read : List Char → Option (Token × List Char)) (hread : Cursor.IsReading read) :
    Step Unit where
  run c := (c.reread read).map ((), ·)
  sound h hn := by
    obtain ⟨next, hnext, hpair⟩ := Option.map_eq_some_iff.mp hn
    obtain ⟨-, rfl⟩ := Prod.mk.inj hpair
    exact h.reread hread hnext

/-- Moves past the current token and blanks, if what follows is a token that is read in the given
way. -/
def advanceTo (read : List Char → Option (Token × List Char)) (hread : Cursor.IsReading read) :
    Step Bool where
  run c :=
    let skipped := Lexer.skip false .between false (c.piece :: c.pieces) c.rest
    if skipped.closed then
      match c.advanceTo skipped read with
      | some next => some (true, next)
      | none => some (false, c)
    else none
  sound h hn := by
    dsimp only at hn
    split at hn
    · split at hn
      · rename_i next hnext
        obtain ⟨-, rfl⟩ := Prod.mk.inj (Option.some.inj hn)
        exact h.advanceTo hread hnext
      · obtain ⟨-, rfl⟩ := Prod.mk.inj (Option.some.inj hn)
        exact h
    · cases hn

/-- Moves past the current token, to the next bracket or brace in the text of an element. -/
def skipText : Step Unit where
  run c := c.skipText.map ((), ·)
  sound h hn := by
    obtain ⟨next, hnext, hpair⟩ := Option.map_eq_some_iff.mp hn
    obtain ⟨-, rfl⟩ := Prod.mk.inj hpair
    exact h.skipText hnext

end Step

end VendorBundle.Script

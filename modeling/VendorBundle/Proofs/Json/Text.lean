import Mathlib.Data.List.TakeDrop
import Mathlib.Tactic.Common
import VendorBundle.Json.Parser
import VendorBundle.Json.Printer

/-!
# Rendered values are parsed back

The text of a value, written on one line, is read as that value. Each part of the text is read
whatever follows it, as long as that cannot go on with a number: behind an item there is a comma or
a bracket, or nothing.
-/

namespace VendorBundle.Json

/-- A value whose numbers are natural and fit in 64 bits, and in which arrays and objects nest at
most `depth` deep. -/
inductive Plain : Nat → Json → Prop where
  | null {depth : Nat} : Plain depth .null
  | bool {depth : Nat} (value : Bool) : Plain depth (.bool value)
  | number {depth n : Nat} (h : n < UInt64.size) : Plain depth (.ofNat n)
  | string {depth : Nat} (value : String) : Plain depth (.string value)
  | array {depth : Nat} {items : List Json} (h : ∀ v ∈ items, Plain depth v) :
      Plain (depth + 1) (.array items)
  | object {depth : Nat} {members : List (String × Json)} (h : ∀ m ∈ members, Plain depth m.2) :
      Plain (depth + 1) (.object members)

namespace Parser

/-- What may stand behind a value. -/
def Stops (rest : List Char) : Prop := ∀ c ∈ rest.head?, c = ',' ∨ c = ']' ∨ c = '\x7d'

/-! ## Strings -/

theorem hexValue?_hexDigit {n : Nat} (h : n < 16) : hexValue? (Digest.hexDigit n) = some n := by
  have hall : ∀ n < 16, hexValue? (Digest.hexDigit n) = some n := by decide
  exact hall n h

theorem unicodeEscape_hexByte {n : Nat} (h : n < 0x20) (rest : List Char) :
    unicodeEscape ('0' :: '0' :: (Digest.hexByte n ++ rest)) = some (Char.ofNat n, rest) := by
  have hzero : hexValue? '0' = some 0 := by decide
  have hunit : codeUnit ('0' :: '0' :: (Digest.hexByte n ++ rest)) = some (n, rest) := by
    simp only [Digest.hexByte, List.cons_append, List.nil_append, codeUnit, hzero,
      hexValue?_hexDigit (Nat.mod_lt _ (by decide : 0 < 16)), Option.bind_eq_bind, Option.bind_some]
    congr 2
    omega
  rw [unicodeEscape, hunit]
  simp only [Option.bind_eq_bind, Option.bind_some]
  rw [if_neg (by omega), if_neg (by omega)]

/-- A character that is escaped, where it has to be, is read as itself. -/
theorem stringTail_escape (fuel : Nat) (done : List Char) (c : Char) (rest : List Char) :
    stringTail (fuel + 1) done (escape c ++ rest) = stringTail fuel (c :: done) rest := by
  unfold escape
  split
  -- All but the last case are escapes of two characters.
  case h_8 _ hquote hslash _ _ _ _ _ =>
    by_cases hc : c.toNat < 0x20
    · rw [if_pos hc]
      change (unicodeEscape ('0' :: '0' :: (Digest.hexByte c.toNat ++ rest))).bind _ = _
      rw [unicodeEscape_hexByte hc, Char.ofNat_toNat]
      rfl
    · rw [if_neg hc, List.singleton_append, stringTail]
      · rw [if_neg (not_or.mpr ⟨hc, hslash⟩)]
      · simp_all
      · simp_all
      · simp_all
  all_goals rfl

theorem stringTail_flatMap_escape {s : List Char} {fuel : Nat} (h : s.length < fuel)
    (done rest : List Char) :
    stringTail fuel done (s.flatMap escape ++ '"' :: rest) =
      some (String.ofList (done.reverse ++ s), rest) := by
  induction s generalizing fuel done with
  | nil =>
      obtain ⟨fuel, rfl⟩ := Nat.exists_eq_add_one_of_ne_zero (Nat.ne_of_gt h)
      simp [stringTail]
  | cons c s ih =>
      obtain ⟨fuel, rfl⟩ := Nat.exists_eq_add_one_of_ne_zero (Nat.ne_zero_of_lt h)
      rw [List.flatMap_cons, List.append_assoc, stringTail_escape,
        ih (Nat.lt_of_succ_lt_succ h)]
      simp

/-! ## Numbers -/

/-- Only zero is written with a zero in front. -/
theorem head?_toDigits_ne_zero {n : Nat} (h : 0 < n) : (Nat.toDigits 10 n).head? ≠ some '0' := by
  induction n using Nat.strongRecOn with
  | ind n ih =>
      by_cases hn : n < 10
      · have hall : ∀ n < 10, 0 < n → n.digitChar ≠ '0' := by decide
        rw [Nat.toDigits_of_lt_base hn]
        simpa using hall n hn h
      · have hfront := ih (n / 10) (by omega) (by omega)
        obtain ⟨c, front, hcons⟩ := List.exists_cons_of_ne_nil
          (Nat.toDigits_ne_nil (n := n / 10) (b := 10))
        rw [hcons] at hfront
        rw [Nat.toDigits_of_base_le (by decide) (Nat.le_of_not_lt hn), hcons]
        exact hfront

theorem ofDigits_toDigits (n : Nat) : ofDigits (Nat.toDigits 10 n) = n := by
  calc (Nat.toDigits 10 n).foldl (fun n c => n * 10 + (c.toNat - 48)) 0
      = Nat.ofDigitChars 10 (Nat.toDigits 10 n) 0 := by
        simp only [Nat.ofDigitChars_eq_foldl, Nat.mul_comm]
        rfl
    _ = n := Nat.ofDigitChars_ten_toDigits

theorem digits_append {ds rest : List Char} (hds : ∀ c ∈ ds, c.isDigit) (h : Stops rest) :
    digits (ds ++ rest) = (ds, rest) := by
  rw [digits, List.span_eq_takeWhile_dropWhile, List.takeWhile_append_of_pos hds,
    List.dropWhile_append_of_pos hds]
  cases rest with
  | nil => simp
  | cons c rest =>
      have hc : c.isDigit = false := by
        rcases h c rfl with rfl | rfl | rfl <;> rfl
      simp [hc]

theorem integerPart_toDigits (n : Nat) {rest : List Char} (h : Stops rest) :
    integerPart (Nat.toDigits 10 n ++ rest) = some (Nat.toDigits 10 n, rest) := by
  have hdigits : digits (Nat.toDigits 10 n ++ rest) = (Nat.toDigits 10 n, rest) :=
    digits_append (fun c => Nat.isDigit_of_mem_toDigits (by decide) (by decide)) h
  rw [integerPart, hdigits]
  split
  · rename_i hnil
    exact absurd (Prod.mk.inj hnil).1 Nat.toDigits_ne_nil
  · rename_i hzero
    have hdigits := (Prod.mk.inj hzero).1
    rcases Nat.eq_zero_or_pos n with rfl | hn
    · cases hdigits
    · exact absurd (by rw [hdigits]; rfl) (head?_toDigits_ne_zero hn)
  · rename_i heq
    obtain ⟨rfl, rfl⟩ := Prod.mk.inj heq
    rfl

theorem number_toDigits {n : Nat} (hn : n < UInt64.size) {rest : List Char} (h : Stops rest) :
    number false (Nat.toDigits 10 n ++ rest) = some (.ofNat n, rest) := by
  have hfraction : fractionPart rest = some ([], rest) := by
    rw [fractionPart]
    rintro rest rfl
    exact absurd (h '.' rfl) (by decide)
  have hexponent : exponentPart rest = some (none, rest) := by
    rw [exponentPart]
    · rintro rest rfl
      exact absurd (h 'e' rfl) (by decide)
    · rintro rest rfl
      exact absurd (h 'E' rfl) (by decide)
  simp only [number, integerPart_toDigits n h, hfraction, hexponent, Option.bind_eq_bind,
    Option.bind_some, List.append_nil, ofDigits_toDigits]
  simp [hn, ofNat]

/-! ## Lists -/

/-- The items of a list behind the first one, and its end. -/
def afterItem {α : Type} (print : α → List Char) (close : Char) (items : List α)
    (rest : List Char) : List Char :=
  items.flatMap (fun a => ',' :: print a) ++ close :: rest

section

variable {α : Type} {loop : Nat → List α → List Char → Option (List α × List Char)}
  {print : α → List Char} {close : Char}

theorem stops_afterItem (hstops : ∀ rest, Stops (close :: rest)) (items : List α)
    (rest : List Char) : Stops (afterItem print close items rest) := by
  cases items with
  | nil => exact hstops rest
  | cons a items =>
      intro c hc
      exact .inl (Option.some.inj hc).symm

/-- The items are read one by one by any loop that stops at the end of the list. -/
theorem loop_afterItem (hstops : ∀ rest, Stops (close :: rest))
    (hclose : ∀ fuel done rest, loop (fuel + 1) done (close :: rest) = some (done.reverse, rest))
    {items : List α}
    (hitem : ∀ a ∈ items, ∀ fuel done rest, Stops rest →
      loop (fuel + 1) done (',' :: (print a ++ rest)) = loop fuel (a :: done) rest)
    {fuel : Nat} (hfuel : items.length < fuel) (done : List α) (rest : List Char) :
    loop fuel done (afterItem print close items rest) = some (done.reverse ++ items, rest) := by
  induction items generalizing fuel done with
  | nil =>
      obtain ⟨fuel, rfl⟩ := Nat.exists_eq_add_one_of_ne_zero (Nat.ne_of_gt hfuel)
      simpa [afterItem] using hclose fuel done rest
  | cons a items ih =>
      obtain ⟨fuel, rfl⟩ := Nat.exists_eq_add_one_of_ne_zero (Nat.ne_zero_of_lt hfuel)
      obtain ⟨ha, hitems⟩ := List.forall_mem_cons.mp hitem
      have hrest : Stops (afterItem print close items rest) := stops_afterItem hstops items rest
      rw [afterItem, List.flatMap_cons, List.cons_append, List.cons_append, List.append_assoc,
        ← afterItem, ha fuel done _ hrest, ih hitems (Nat.lt_of_succ_lt_succ hfuel)]
      simp

end

theorem toList_joinComma_cons (text : String) (texts : List String) :
    (joinComma (text :: texts)).toList =
      text.toList ++ texts.flatMap fun t => ',' :: t.toList := by
  have hcomma : ",".toList = [','] := rfl
  induction texts generalizing text with
  | nil => simp [joinComma]
  | cons next texts ih =>
      have hnext := ih next
      rw [joinComma] at hnext ⊢
      rw [String.intercalate_cons_cons, String.toList_append, String.toList_append, hnext, hcomma]
      simp

/-- No list is longer than its text, and no item is. -/
theorem length_le_joinComma (texts : List String) :
    texts.length ≤ (joinComma texts).toList.length + 1 ∧
      ∀ t ∈ texts, t.toList.length ≤ (joinComma texts).toList.length := by
  have hrest : texts.length ≤ (texts.flatMap fun t => ',' :: t.toList).length ∧
      ∀ t ∈ texts, t.toList.length < (texts.flatMap fun t => ',' :: t.toList).length := by
    induction texts with
    | nil => simp
    | cons text texts ih =>
        obtain ⟨hlength, hmem⟩ := ih
        simp only [List.flatMap_cons, List.length_cons, List.length_append]
        refine ⟨by omega, List.forall_mem_cons.mpr ⟨by omega, fun t ht => ?_⟩⟩
        have := hmem t ht
        omega
  cases texts with
  | nil => simp
  | cons text texts =>
      have htext : (joinComma (text :: texts)).toList.length + 1 =
          ((text :: texts).flatMap fun t => ',' :: t.toList).length := by
        rw [toList_joinComma_cons, List.flatMap_cons]
        simp only [List.length_append, List.length_cons]
        omega
      exact ⟨by omega, fun t ht => by have := hrest.2 t ht; omega⟩

theorem toList_joinComma_map_cons {α : Type} (print : α → String) (close : Char) (a : α)
    (items : List α) (rest : List Char) :
    (joinComma ((a :: items).map print)).toList ++ close :: rest =
      (print a).toList ++ afterItem (fun a => (print a).toList) close items rest := by
  rw [List.map_cons, toList_joinComma_cons, List.flatMap_map, List.append_assoc, ← afterItem]

/-! ## Values -/

theorem renderItems_eq (items : List Json) : renderItems items = items.map render := by
  induction items with
  | nil => rfl
  | cons v items ih => rw [renderItems, ih, List.map_cons]

/-- The text of a member. -/
def renderMember (m : String × Json) : String := quote m.1 ++ ":" ++ render m.2

theorem renderMembers_eq (members : List (String × Json)) :
    renderMembers members = members.map renderMember := by
  induction members with
  | nil => rfl
  | cons m members ih => rw [renderMembers, ih, List.map_cons, renderMember]

theorem toList_render_array (items : List Json) : (render (.array items)).toList =
    '[' :: ((joinComma (items.map render)).toList ++ [']']) := by
  have hopen : "[".toList = ['['] := rfl
  have hclose : "]".toList = [']'] := rfl
  rw [render, renderItems_eq, String.toList_append, String.toList_append, hopen, hclose]
  rfl

theorem toList_render_object (members : List (String × Json)) : (render (.object members)).toList =
    '{' :: ((joinComma (members.map renderMember)).toList ++ ['}']) := by
  have hopen : "\x7b".toList = ['{'] := rfl
  have hclose : "\x7d".toList = ['}'] := rfl
  rw [render, renderMembers_eq, String.toList_append, String.toList_append, hopen, hclose]
  rfl

theorem toList_quote (s : String) :
    (quote s).toList = '"' :: (s.toList.flatMap escape ++ ['"']) := by
  rw [quote, String.toList_ofList]
  rfl

theorem toList_render_number (n : Nat) : (render (.ofNat n)).toList = Nat.toDigits 10 n :=
  Nat.toList_repr

/-- Nothing is skipped in front of a rendered value, and it does not close a list. -/
theorem exists_head_render {depth : Nat} {v : Json} (h : Plain depth v) : ∃ c rest,
    v.render.toList = c :: rest ∧ isSpace c = false ∧ c ≠ ']' := by
  cases h with
  | null => exact ⟨'n', _, rfl, rfl, by decide⟩
  | bool value =>
      cases value
      · exact ⟨'f', _, rfl, rfl, by decide⟩
      · exact ⟨'t', _, rfl, rfl, by decide⟩
  | @number _ n _ =>
      obtain ⟨c, rest, hcons⟩ := List.exists_cons_of_ne_nil (Nat.toDigits_ne_nil (n := n) (b := 10))
      have hdigit : c.isDigit :=
        Nat.isDigit_of_mem_toDigits (by decide) (by decide) (hcons ▸ List.mem_cons_self)
      refine ⟨c, rest, (toList_render_number n).trans hcons, ?_, ?_⟩
      · rw [Bool.eq_false_iff]
        intro hspace
        simp only [isSpace, Bool.or_eq_true, beq_iff_eq] at hspace
        rcases hspace with ((rfl | rfl) | rfl) | rfl <;> simp at hdigit
      · rintro rfl
        simp at hdigit
  | string value => exact ⟨'"', _, toList_quote value, rfl, by decide⟩
  | array _ => exact ⟨'[', _, toList_render_array _, rfl, by decide⟩
  | object _ => exact ⟨'\x7b', _, toList_render_object _, rfl, by decide⟩

theorem skipSpace_render {depth : Nat} {v : Json} (h : Plain depth v) (rest : List Char) :
    skipSpace (v.render.toList ++ rest) = v.render.toList ++ rest := by
  obtain ⟨c, tail, hcons, hc, -⟩ := exists_head_render h
  rw [hcons, skipSpace, List.cons_append, List.dropWhile_cons_of_neg (by simp [hc])]

/-- A value of at most the given depth is read from its text. -/
def Reads (size depth : Nat) (v : Json) : Prop :=
  ∀ rest, Stops rest → value size (depth + 1) (v.render.toList ++ rest) = some (v, rest)

/-- Only numbers start with a digit. -/
theorem value_of_isDigit (size depth : Nat) {c : Char} (h : c.isDigit) (rest : List Char) :
    value size (depth + 1) (c :: rest) = number false (c :: rest) := by
  rw [value]
  all_goals
    rintro _ ⟨⟩
    simp at h

theorem reads_number {size depth n : Nat} (hn : n < UInt64.size) : Reads size depth (.ofNat n) := by
  intro rest hrest
  obtain ⟨c, tail, hcons⟩ := List.exists_cons_of_ne_nil (Nat.toDigits_ne_nil (n := n) (b := 10))
  have hdigit : c.isDigit :=
    Nat.isDigit_of_mem_toDigits (by decide) (by decide) (hcons ▸ List.mem_cons_self)
  rw [toList_render_number, ← number_toDigits hn hrest, hcons, List.cons_append,
    value_of_isDigit size depth hdigit]

theorem length_le_flatMap_escape (s : List Char) : s.length ≤ (s.flatMap escape).length := by
  induction s with
  | nil => simp
  | cons c s ih =>
      have hc : 0 < (escape c).length := by
        unfold escape
        split
        case h_8 => split <;> simp
        all_goals simp
      simp only [List.flatMap_cons, List.length_append, List.length_cons]
      omega

theorem stringTail_quote {size : Nat} {s : String} (hs : (quote s).toList.length < size)
    (rest : List Char) :
    stringTail size [] (s.toList.flatMap escape ++ '"' :: rest) = some (s, rest) := by
  have hlength := length_le_flatMap_escape s.toList
  rw [toList_quote] at hs
  simp only [List.length_cons, List.length_append] at hs
  rw [stringTail_flatMap_escape (by omega)]
  simp

theorem reads_string {size depth : Nat} {s : String} (hs : (quote s).toList.length < size) :
    Reads size depth (.string s) := by
  intro rest _
  rw [render, toList_quote, List.cons_append, List.append_assoc, List.singleton_append]
  change (stringTail size [] (s.toList.flatMap escape ++ '"' :: rest)).map _ = _
  rw [stringTail_quote hs]
  rfl

/-! ### Arrays and objects -/

theorem itemsTail_comma (item : Reader Json) (fuel : Nat) (done : List Json) (text : List Char) :
    itemsTail item (fuel + 1) done (',' :: text) =
      (item (skipSpace text)).bind fun p => itemsTail item fuel (p.1 :: done) p.2 := rfl

theorem membersTail_comma (size : Nat) (item : Reader Json) (fuel : Nat)
    (done : List (String × Json)) (text : List Char) :
    membersTail size item (fuel + 1) done (',' :: text) =
      (member size item (skipSpace text)).bind fun p =>
        membersTail size item fuel (p.1 :: done) p.2 := rfl

theorem reads_array {size depth : Nat} {items : List Json} (hplain : ∀ v ∈ items, Plain depth v)
    (hsize : items.length < size) (hitems : ∀ v ∈ items, Reads size depth v) :
    Reads size (depth + 1) (.array items) := by
  intro rest _
  rw [toList_render_array, List.cons_append, List.append_assoc, List.singleton_append]
  cases items with
  | nil => rfl
  | cons v items =>
      obtain ⟨hv, hplain⟩ := List.forall_mem_cons.mp hplain
      obtain ⟨hread, hitems⟩ := List.forall_mem_cons.mp hitems
      have hstops : ∀ rest, Stops (']' :: rest) :=
        fun rest c hc => .inr (.inl (Option.some.inj hc).symm)
      have hitem : ∀ w ∈ items, ∀ fuel done rest, Stops rest →
          itemsTail (value size (depth + 1)) (fuel + 1) done (',' :: (w.render.toList ++ rest)) =
            itemsTail (value size (depth + 1)) fuel (w :: done) rest := by
        intro w hw fuel done rest hrest
        rw [itemsTail_comma, skipSpace_render (hplain w hw), hitems w hw rest hrest]
        rfl
      have hloop := loop_afterItem hstops (fun _ _ _ => rfl) hitem (Nat.lt_of_succ_lt hsize) [v] rest
      rw [toList_joinComma_map_cons, value, if_neg (Nat.succ_ne_zero depth), skipSpace_render hv]
      split
      · rename_i heq
        obtain ⟨c, tail, hcons, -, hclose⟩ := exists_head_render hv
        rw [hcons] at heq
        exact absurd (List.cons.inj heq).1 hclose
      · simp [hread _ (stops_afterItem hstops items rest), hloop]

theorem toList_renderMember (m : String × Json) (rest : List Char) :
    (renderMember m).toList ++ rest =
      '"' :: (m.1.toList.flatMap escape ++ '"' :: ':' :: (m.2.render.toList ++ rest)) := by
  have hcolon : ":".toList = [':'] := rfl
  simp [renderMember, toList_quote, hcolon]

theorem skipSpace_renderMember (m : String × Json) (rest : List Char) :
    skipSpace ((renderMember m).toList ++ rest) = (renderMember m).toList ++ rest := by
  rw [toList_renderMember]
  rfl

theorem member_renderMember {size depth : Nat} {m : String × Json} (hplain : Plain depth m.2)
    (hkey : (quote m.1).toList.length < size) (hread : Reads size depth m.2) {rest : List Char}
    (hrest : Stops rest) :
    member size (value size (depth + 1)) ((renderMember m).toList ++ rest) = some (m, rest) := by
  rw [toList_renderMember]
  change (stringTail size [] _).bind _ = _
  rw [stringTail_quote hkey]
  change (value size (depth + 1) (skipSpace _)).bind _ = _
  rw [skipSpace_render hplain, hread rest hrest]
  rfl

theorem reads_object {size depth : Nat} {members : List (String × Json)}
    (hplain : ∀ m ∈ members, Plain depth m.2) (hsize : members.length < size)
    (hkeys : ∀ m ∈ members, (quote m.1).toList.length < size)
    (hmembers : ∀ m ∈ members, Reads size depth m.2) :
    Reads size (depth + 1) (.object members) := by
  intro rest _
  have hread : ∀ m ∈ members, ∀ rest, Stops rest →
      member size (value size (depth + 1)) ((renderMember m).toList ++ rest) = some (m, rest) :=
    fun m hm rest hrest => member_renderMember (hplain m hm) (hkeys m hm) (hmembers m hm) hrest
  rw [toList_render_object, List.cons_append, List.append_assoc, List.singleton_append]
  cases members with
  | nil => rfl
  | cons m members =>
      obtain ⟨hfirst, hothers⟩ := List.forall_mem_cons.mp hread
      have hstops : ∀ rest, Stops ('\x7d' :: rest) :=
        fun rest c hc => .inr (.inr (Option.some.inj hc).symm)
      have hmember : ∀ n ∈ members, ∀ fuel done rest, Stops rest →
          membersTail size (value size (depth + 1)) (fuel + 1) done
              (',' :: ((renderMember n).toList ++ rest)) =
            membersTail size (value size (depth + 1)) fuel (n :: done) rest := by
        intro n hn fuel done rest hrest
        rw [membersTail_comma, skipSpace_renderMember, hothers n hn rest hrest]
        rfl
      have hloop := loop_afterItem hstops (fun _ _ _ => rfl) hmember (Nat.lt_of_succ_lt hsize) [m]
        rest
      rw [toList_joinComma_map_cons, value, if_neg (Nat.succ_ne_zero depth), skipSpace_renderMember]
      split
      · rename_i heq
        rw [toList_renderMember] at heq
        exact absurd (List.cons.inj heq).1 (by decide)
      · simp [hfirst _ (stops_afterItem hstops members rest), hloop]

/-- A value is read under any bound above the length of its text, since no list in the text has more
items than the text has characters. -/
theorem reads_of_plain {size depth : Nat} {v : Json} (h : Plain depth v)
    (hsize : v.render.toList.length < size) : Reads size depth v := by
  induction h with
  | null => exact fun rest _ => rfl
  | bool value => cases value <;> exact fun rest _ => rfl
  | number hn => exact reads_number hn
  | string value => exact reads_string hsize
  | @array depth items hplain ih =>
      obtain ⟨hlength, hmem⟩ := length_le_joinComma (items.map render)
      rw [toList_render_array] at hsize
      simp only [List.length_cons, List.length_append, List.length_map] at hsize hlength
      refine reads_array hplain (by omega) fun v hv => ih v hv ?_
      have := hmem _ (List.mem_map_of_mem hv)
      omega
  | @object depth members hplain ih =>
      obtain ⟨hlength, hmem⟩ := length_le_joinComma (members.map renderMember)
      rw [toList_render_object] at hsize
      simp only [List.length_cons, List.length_append, List.length_map] at hsize hlength
      have hmember : ∀ m ∈ members,
          (quote m.1).toList.length < size ∧ m.2.render.toList.length < size := by
        intro m hm
        have := hmem _ (List.mem_map_of_mem hm)
        simp only [renderMember, String.toList_append, List.length_append] at this
        omega
      exact reads_object hplain (by omega) (fun m hm => (hmember m hm).1)
        fun m hm => ih m hm (hmember m hm).2

end Parser

/-- The text of a value holds that value. -/
theorem parse?_render {v : Json} (h : Plain 127 v) : parse? v.render = some v := by
  have hread := Parser.reads_of_plain h (Nat.lt_succ_self _) [] nofun
  have hskip := Parser.skipSpace_render h []
  rw [List.append_nil] at hread hskip
  rw [parse?, hskip, hread]
  rfl

end VendorBundle.Json

/-!
# UTF-8 texts and their faults

A byte sequence that is not UTF-8 has a first fault: either a sequence of one to three bytes that
no continuation can mend, or a sequence that the end of the input cuts short.
-/

namespace VendorBundle.Text.Utf8

/-- What the front of a byte sequence holds. -/
inductive Front where
  | character (c : Char) (width : Nat)
  | invalid (length : Nat)
  | incomplete
  deriving DecidableEq, Repr

def isTail (b : UInt8) : Bool := 0x80 ≤ b && b ≤ 0xBF

/-- The second byte that a leading byte of a three-byte character admits. -/
def secondOfThree (first second : UInt8) : Bool :=
  if first = 0xE0 then 0xA0 ≤ second && second ≤ 0xBF
  else if first = 0xED then 0x80 ≤ second && second ≤ 0x9F
  else isTail second

/-- The second byte that a leading byte of a four-byte character admits. -/
def secondOfFour (first second : UInt8) : Bool :=
  if first = 0xF0 then 0x90 ≤ second && second ≤ 0xBF
  else if first = 0xF4 then 0x80 ≤ second && second ≤ 0x8F
  else isTail second

/-- The low six bits of a byte after the first. -/
def payload (b : UInt8) : Nat := b.toNat % 64

/-- Reads one character, or the fault in its place, from a non-empty sequence. -/
def front (first : UInt8) (rest : List UInt8) : Front :=
  if first < 0x80 then .character (Char.ofNat first.toNat) 1
  else if 0xC2 ≤ first && first ≤ 0xDF then
    match rest with
    | [] => .incomplete
    | b :: _ =>
        if isTail b then .character (Char.ofNat (first.toNat % 32 * 64 + payload b)) 2
        else .invalid 1
  else if 0xE0 ≤ first && first ≤ 0xEF then
    match rest with
    | [] => .incomplete
    | b :: rest =>
        if secondOfThree first b then
          match rest with
          | [] => .incomplete
          | c :: _ =>
              if isTail c then
                .character (Char.ofNat ((first.toNat % 16 * 64 + payload b) * 64 + payload c)) 3
              else .invalid 2
        else .invalid 1
  else if 0xF0 ≤ first && first ≤ 0xF4 then
    match rest with
    | [] => .incomplete
    | b :: rest =>
        if secondOfFour first b then
          match rest with
          | [] => .incomplete
          | c :: rest =>
              if isTail c then
                match rest with
                | [] => .incomplete
                | d :: _ =>
                    if isTail d then
                      .character (Char.ofNat
                        (((first.toNat % 8 * 64 + payload b) * 64 + payload c) * 64 + payload d)) 4
                    else .invalid 3
              else .invalid 2
        else .invalid 1
  else .invalid 1

/-- Why a byte sequence is no text: the index of the first bad sequence, and the length of that
sequence unless the end of the input cuts it short. -/
structure Fault where
  start : Nat
  length : Option Nat
  deriving DecidableEq, Repr

def Fault.message (fault : Fault) : String :=
  match fault.length with
  | some n => s!"invalid utf-8 sequence of {n} bytes from index {fault.start}"
  | none => s!"incomplete utf-8 byte sequence from index {fault.start}"

/-- The first fault at or after `index`, the index of the first of `bytes`. -/
def faultFrom (index : Nat) : List UInt8 → Option Fault
  | [] => none
  | b :: rest =>
      match front b rest with
      | .character _ width => faultFrom (index + (width - 1) + 1) (rest.drop (width - 1))
      | .invalid n => some ⟨index, some n⟩
      | .incomplete => some ⟨index, none⟩
  termination_by bytes => bytes.length
  decreasing_by
    simp only [List.length_drop, List.length_cons]
    omega

/-- The text that the bytes encode, or their first fault. -/
def decode (bytes : ByteArray) : Except Fault String :=
  match String.fromUTF8? bytes with
  | some text => .ok text
  | none => .error ((faultFrom 0 bytes.toList).getD ⟨bytes.size, none⟩)

/-- The characters of the bytes, with one replacement character for each bad sequence. -/
def lossyChars : List UInt8 → List Char
  | [] => []
  | b :: rest =>
      match front b rest with
      | .character c width => c :: lossyChars (rest.drop (width - 1))
      | .invalid n => '\uFFFD' :: lossyChars (rest.drop (n - 1))
      | .incomplete => ['\uFFFD']
  termination_by bytes => bytes.length
  decreasing_by
    all_goals
      simp only [List.length_drop, List.length_cons]
      omega

def decodeLossy (bytes : ByteArray) : String :=
  match String.fromUTF8? bytes with
  | some text => text
  | none => String.ofList (lossyChars bytes.toList)

theorem fromUTF8?_toUTF8 (text : String) : String.fromUTF8? text.toUTF8 = some text := by
  unfold String.fromUTF8?
  rw [String.toUTF8_eq_toByteArray, dif_pos text.isValidUTF8]
  rfl

theorem decode_eq_ok_iff {bytes : ByteArray} {text : String} :
    decode bytes = .ok text ↔ bytes = text.toUTF8 := by
  constructor
  · intro h
    unfold decode String.fromUTF8? at h
    split at h
    · rename_i t ht
      injection h with h
      subst h
      split at ht
      · injection ht with ht
        subst ht
        rfl
      · exact absurd ht (by simp)
    · exact absurd h (by simp)
  · rintro rfl
    rw [decode, fromUTF8?_toUTF8]

end VendorBundle.Text.Utf8

import VendorBundle.Text

/-!
# Numbers in text

Decimal numbers without a sign or with a plus sign, up to a limit. Zeros in front are allowed.
-/

namespace VendorBundle.Text

def digitsValue (digits : List Char) : Nat :=
  digits.foldl (fun n c => n * 10 + (c.toNat - '0'.toNat)) 0

/-- The value of some digits, when it is below the limit. -/
def digitsBelow? (limit : Nat) (digits : List Char) : Option Nat :=
  if digits.isEmpty || !digits.all Char.isDigit then none
  else
    let n := digitsValue digits
    if n < limit then some n else none

/-- A number that fits in 64 bits: digits with an optional plus sign in front. -/
def word? : List Char → Option Nat
  | '+' :: digits | digits => digitsBelow? UInt64.size digits

end VendorBundle.Text

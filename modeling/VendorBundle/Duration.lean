/-!
# Durations

Short durations are shown in milliseconds and longer ones in seconds with two places. The seconds
are a double, and its exact value is rounded; halves go to the even neighbour.
-/

namespace VendorBundle

structure Duration where
  milliseconds : Nat
  deriving DecidableEq, Repr

namespace Duration

/-- The nearest integer to a quotient, the even one of two. -/
def divideEven (a b : Nat) : Nat :=
  let q := a / b
  let r := a % b
  if 2 * r > b || (2 * r == b && q % 2 == 1) then q + 1 else q

/-- The seconds as a double: the whole ones and the nanoseconds are rounded on their own. -/
def seconds (d : Duration) : Float :=
  Float.ofNat (d.milliseconds / 1000)
    + Float.ofNat (d.milliseconds % 1000 * 1000000) / Float.ofNat 1000000000

/-- A double that is not negative, in hundredths. -/
def hundredths (x : Float) : Nat :=
  let bits := x.toBits.toNat
  let exponent := bits / (1 <<< 52) % (1 <<< 11)
  let fraction := bits % (1 <<< 52)
  let mantissa := if exponent = 0 then fraction else (1 <<< 52) + fraction
  let power := max exponent 1
  if power ≥ 1075 then (mantissa <<< (power - 1075)) * 100
  else divideEven (mantissa * 100) (1 <<< (1075 - power))

def render (d : Duration) : String :=
  if d.milliseconds < 1000 then s!"{d.milliseconds}ms"
  else
    let n := hundredths d.seconds
    let places := n % 100
    s!"{n / 100}.{places / 10}{places % 10}s"

end Duration

end VendorBundle

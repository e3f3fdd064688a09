/-
Hexadecimal digits in lower case, as digests and escapes write them.
-/
import Provenance.Text.Basic

set_option autoImplicit false

namespace Provenance

/-- The digit for a number below sixteen. -/
def hexDigit (n : Nat) : Char := Nat.digitChar n

/-- The number of a hexadecimal digit of either case. -/
def hexValue? (c : Char) : Option Nat :=
  if '0' ≤ c ∧ c ≤ '9' then some (c.toNat - '0'.toNat)
  else if 'a' ≤ c ∧ c ≤ 'f' then some (c.toNat - 'a'.toNat + 10)
  else if 'A' ≤ c ∧ c ≤ 'F' then some (c.toNat - 'A'.toNat + 10)
  else none

/-- The last `width` hexadecimal digits of a number, most significant first. -/
def hexText : Nat → Nat → Text
  | 0, _ => []
  | width + 1, n => hexText width (n / 16) ++ [hexDigit (n % 16)]

/-- The number a sequence of hexadecimal digits stands for. -/
def hexNumber? (t : Text) : Option Nat :=
  t.foldl (fun acc c => do return (← acc) * 16 + (← hexValue? c)) (some 0)

end Provenance

/-!
# Numerals

Digits in a base between two and sixteen, read (`Numeral.read?`) and written with leading zeros
(`Numeral.padded`). A numeral holds at least one digit; hexadecimal digits go in either case.
-/

namespace ChipLogic.Numeral

/-- The value of a digit character, up to fifteen. -/
def digit? (c : Char) : Option Nat :=
  if '0' ≤ c ∧ c ≤ '9' then some (c.toNat - '0'.toNat)
  else if 'a' ≤ c ∧ c ≤ 'f' then some (c.toNat - 'a'.toNat + 10)
  else if 'A' ≤ c ∧ c ≤ 'F' then some (c.toNat - 'A'.toNat + 10)
  else none

/-- The value of a digit character of the given base. -/
def digitIn? (base : Nat) (c : Char) : Option Nat :=
  (digit? c).filter (· < base)

/-- Reads digits, the most significant first, onto the value of those before them. -/
def readOnto (base : Nat) : Nat → List Char → Option Nat
  | value, [] => some value
  | value, c :: cs => (digitIn? base c).bind fun d => readOnto base (value * base + d) cs

/-- The value of a nonempty run of digits. -/
def read? (base : Nat) : List Char → Option Nat
  | [] => none
  | cs => readOnto base 0 cs

/-- The digits of a value, filled up with zeros on the left to the given width. -/
def padded (base width value : Nat) : List Char :=
  let digits := Nat.toDigits base value
  List.replicate (width - digits.length) '0' ++ digits

end ChipLogic.Numeral

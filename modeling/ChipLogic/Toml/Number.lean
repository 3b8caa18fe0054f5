import ChipLogic.Text.Numeral
import ChipLogic.Toml.Scan

/-!
# TOML numbers

Integers are decimal, or hexadecimal, octal or binary after `0x`, `0o` or `0b`, and fit in 64 bits
with a sign. Floats have a fraction, an exponent or both. Single underscores may stand between
digits, and a decimal number does not start with a zero unless it is one.
-/

namespace ChipLogic.Toml

def isDigit (c : Char) : Bool := (Numeral.digitIn? 10 c).isSome

/-- Digits with single underscores between them, which are left out. -/
def digits (isDigit : Char → Bool) : Reader (List Char) := do
  let first ← satisfy isDigit
  let more ← many (satisfy isDigit <|> (char '_' *> satisfy isDigit))
  return first :: more

/-- A sign, if any; whether it is a minus. -/
def sign : Reader Bool := do
  let c ← perhaps (char '+' <|> char '-')
  return c == some '-'

/-- The digits of a decimal number, which has no leading zero. -/
def wholePart : Reader (List Char) :=
  (char '0' *> pure ['0']) <|> digits isDigit

/-- An integer after the mark of its base. -/
def basedInteger (mark : Char) (base : Nat) : Reader Int := do
  word ['0', mark]
  let ds ← digits fun c => (Numeral.digitIn? base c).isSome
  let n ← given (Numeral.read? base ds)
  return n

def decimalInteger : Reader Int := do
  let negative ← sign
  let n ← given (Numeral.read? 10 (← wholePart))
  return if negative then -(n : Int) else n

/-- An integer of 64 bits. -/
def integer : Reader Int := do
  let n ← basedInteger 'x' 16 <|> basedInteger 'o' 8 <|> basedInteger 'b' 2 <|> decimalInteger
  require (decide (Int64.minValue.toInt ≤ n ∧ n ≤ Int64.maxValue.toInt))
  return n

/-- The number `digits · 10 ^ exponent` is too large for a double, to which it would have to be
rounded. The number of digits before the point decides most cases. -/
def exceedsDouble (digits : Nat) (exponent : Int) : Bool :=
  let places : Int := (Nat.toDigits 10 digits).length + exponent
  if digits = 0 ∨ places < 300 then false
  else if 310 < places then true
  else if 0 ≤ exponent then Nat.pow 2 1024 - Nat.pow 2 970 ≤ digits * Nat.pow 10 exponent.toNat
  else (Nat.pow 2 1024 - Nat.pow 2 970) * Nat.pow 10 (-exponent).toNat ≤ digits

/-- The digits after a point. -/
def fraction : Reader (List Char) := char '.' *> digits isDigit

/-- The number after an `e`. -/
def exponent : Reader Int := do
  let _ ← char 'e' <|> char 'E'
  let negative ← sign
  let n ← given (Numeral.read? 10 (← digits isDigit))
  return if negative then -(n : Int) else n

/-- A float in digits. A positive one must not be too large for a double. -/
def finiteFloat : Reader Unit := do
  let negative ← sign
  let whole ← wholePart
  let after ← perhaps fraction
  let power ← perhaps exponent
  require (after.isSome || power.isSome)
  let places := after.getD []
  let n ← given (Numeral.read? 10 (whole ++ places))
  require (negative || !exceedsDouble n (power.getD 0 - places.length))

/-- The floats that are no numbers. -/
def specialFloat : Reader Unit := do
  let _ ← sign
  word ['i', 'n', 'f'] <|> word ['n', 'a', 'n']

/-- A float as it is written. -/
def float : Reader String := spelling (finiteFloat <|> specialFloat)

end ChipLogic.Toml

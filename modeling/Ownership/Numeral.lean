/-!
# Numerals

A numeral is a list of digits, leading zeros included. A decimal numeral has a value only if it is
not too long; numerals in other bases always have one.
-/

namespace Ownership.Numeral

def digit? (c : Char) : Option Nat :=
  if c.isDigit then some (c.toNat - '0'.toNat)
  else if 'a' ≤ c && c ≤ 'f' then some (c.toNat - 'a'.toNat + 10)
  else if 'A' ≤ c && c ≤ 'F' then some (c.toNat - 'A'.toNat + 10)
  else none

def value (base : Nat) (digits : List Char) : Nat :=
  digits.foldl (fun n c => base * n + (digit? c).getD 0) 0

def maxDigits : Nat := 4300

/-- A decimal numeral with too many digits, and how many it has. -/
structure TooLong where
  count : Nat
deriving DecidableEq, Inhabited

def TooLong.message (e : TooLong) : String :=
  "Exceeds the limit (" ++ toString maxDigits ++
    " digits) for integer string conversion: value has "
    ++ toString e.count ++ " digits; use sys.set_int_max_str_digits() to increase the limit"

def decimal (digits : List Char) : Except TooLong Nat :=
  if digits.length ≤ maxDigits then .ok (value 10 digits) else .error ⟨digits.length⟩

theorem decimal_eq_error_iff {digits : List Char} {e : TooLong} :
    decimal digits = .error e ↔ maxDigits < digits.length ∧ e.count = digits.length := by
  unfold decimal
  split
  · next h => simp [Nat.not_lt.mpr h]
  · next h =>
    cases e
    simp [Nat.lt_of_not_le h, eq_comm]

end Ownership.Numeral

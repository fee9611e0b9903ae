/-!
# Decimal numbers of sixty-four bits

Counts and bounds are written in decimal digits and must stay below `2 ^ 64`. A leading plus sign
and leading zeros are allowed, nothing else is.
-/

namespace Ili

def numberLimit : Nat := Nat.pow 2 64

def digitsValue (digits : List Char) : Nat :=
  digits.foldl (fun value c => value * 10 + (c.toNat - '0'.toNat)) 0

def dropPlus : List Char → List Char
  | '+' :: rest => rest
  | chars => chars

/-- Reads a number; `none` when it is not one or does not fit. -/
def parseNumber? (text : String) : Option Nat :=
  let digits := dropPlus text.toList
  if digits ≠ [] ∧ digits.all Char.isDigit ∧ digitsValue digits < numberLimit then
    some (digitsValue digits)
  else none

theorem lt_of_parseNumber? {text : String} {n : Nat} (h : parseNumber? text = some n) :
    n < numberLimit := by
  simp only [parseNumber?] at h
  split at h
  · next hdigits => exact Option.some.inj h ▸ hdigits.2.2
  · exact absurd h (by simp)

end Ili

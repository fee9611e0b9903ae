import Ili.Text.Position

/-!
# From byte offsets to positions

A text is cut into lines once; a byte offset is then placed by passing over whole lines and, inside
the line it falls into, by counting UTF-16 code units. An offset beyond the end counts as the end,
and an offset inside a character counts as the first column of its line.
-/

namespace Ili

def utf8Length : List Char → Nat
  | [] => 0
  | c :: cs => c.utf8Size + utf8Length cs

theorem utf8Length_append (left right : List Char) :
    utf8Length (left ++ right) = utf8Length left + utf8Length right := by
  induction left with
  | nil => simp [utf8Length]
  | cons c cs ih => simp [utf8Length, ih, Nat.add_assoc]

/-- Characters outside the basic plane take two UTF-16 code units. -/
def utf16Width (c : Char) : Nat :=
  if c.toNat < 0x10000 then 1 else 2

/-- The lines of a text, each with its line feed; the last one has none and may be empty. -/
def splitLines : List Char → List (List Char)
  | [] => [[]]
  | c :: cs =>
    if c = '\n' then [c] :: splitLines cs
    else
      match splitLines cs with
      | [] => [[c]]
      | line :: lines => (c :: line) :: lines

theorem splitLines_ne_nil (chars : List Char) : splitLines chars ≠ [] := by
  cases chars with
  | nil => simp [splitLines]
  | cons c cs =>
    rw [splitLines]
    split
    · simp
    · split <;> simp

theorem flatten_splitLines (chars : List Char) : (splitLines chars).flatten = chars := by
  induction chars with
  | nil => rfl
  | cons c cs ih =>
    rw [splitLines]
    split
    · simp [ih]
    · split
      · next h => exact absurd h (splitLines_ne_nil cs)
      · next line lines h =>
        rw [h] at ih
        simpa using ih

/-- UTF-16 code units of the first `offset` bytes of a line, if the offset is between characters. -/
def columnAt? : List Char → Nat → Option Nat
  | _, 0 => some 0
  | [], _ + 1 => some 0
  | c :: cs, offset + 1 =>
    if c.utf8Size ≤ offset + 1 then
      (columnAt? cs (offset + 1 - c.utf8Size)).map (utf16Width c + ·)
    else none

structure LineIndex where
  lines : List (Nat × List Char)
  deriving Repr

namespace LineIndex

def ofText (text : String) : LineIndex :=
  ⟨(splitLines text.toList).map fun line => (utf8Length line, line)⟩

def lineCount (index : LineIndex) : Nat :=
  index.lines.length

def positionFrom (line : Nat) : List (Nat × List Char) → Nat → Position
  | [], _ => ⟨line, 0⟩
  | [(_, text)], offset => ⟨line, (columnAt? text offset).getD 0⟩
  | (size, text) :: next :: rest, offset =>
    if offset < size then ⟨line, (columnAt? text offset).getD 0⟩
    else positionFrom (line + 1) (next :: rest) (offset - size)

def position (index : LineIndex) (offset : Nat) : Position :=
  positionFrom 0 index.lines offset

def span (index : LineIndex) (start stop : Nat) : Span :=
  ⟨index.position start, index.position stop⟩

end LineIndex

end Ili

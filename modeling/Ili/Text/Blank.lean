/-!
# Blanks, words and cuts

White space is the Unicode property of that name. Trimming and splitting into words use it; the
other cuts are at a single character.
-/

namespace Ili

/-- The Unicode property `White_Space`. -/
def isWhiteSpace (c : Char) : Bool :=
  let n := c.toNat
  (0x9 ≤ n && n ≤ 0xd) || n == 0x20 || n == 0x85 || n == 0xa0 || n == 0x1680 ||
    (0x2000 ≤ n && n ≤ 0x200a) || n == 0x2028 || n == 0x2029 || n == 0x202f || n == 0x205f ||
    n == 0x3000

def trim (chars : List Char) : List Char :=
  ((chars.dropWhile isWhiteSpace).reverse.dropWhile isWhiteSpace).reverse

/-- The pieces of a text between characters that satisfy `p`; always one more than those. -/
def splitWhere (p : Char → Bool) : List Char → List (List Char)
  | [] => [[]]
  | c :: cs =>
    if p c then [] :: splitWhere p cs
    else
      match splitWhere p cs with
      | [] => [[c]]
      | piece :: pieces => (c :: piece) :: pieces

theorem not_of_mem_splitWhere {p : Char → Bool} {chars piece : List Char} {c : Char}
    (hpiece : piece ∈ splitWhere p chars) (hc : c ∈ piece) : p c = false := by
  induction chars generalizing piece with
  | nil => simp_all [splitWhere]
  | cons d cs ih =>
    unfold splitWhere at hpiece
    split at hpiece
    · rcases List.mem_cons.1 hpiece with rfl | hpiece
      · simp at hc
      · exact ih hpiece hc
    · split at hpiece <;> grind

def wordsOf (chars : List Char) : List (List Char) :=
  (splitWhere isWhiteSpace chars).filter fun piece => !piece.isEmpty

def collapseBlanks (text : String) : String :=
  " ".intercalate ((wordsOf text.toList).map String.ofList)

def splitAtFirst? (separator : Char) : List Char → Option (List Char × List Char)
  | [] => none
  | c :: cs =>
    if c = separator then some ([], cs)
    else (splitAtFirst? separator cs).map fun (before, after) => (c :: before, after)

/-- The inside of a text that begins and ends with a double quote of its own; else the text. -/
def unquote (chars : List Char) : List Char :=
  match chars with
  | '"' :: rest => if rest.getLast? = some '"' then rest.dropLast else chars
  | _ => chars

end Ili

import Ili.Token.Kind
import Ili.Text.LineIndex

/-!
# Tokens

A text is cut into tokens from the left, each as long as it can be. `munch` decides what starts at a
character and how far it reaches; since a token always holds at least that character, cutting ends,
and since the characters it reaches over are copied, the tokens of a text spell the text.
-/

namespace Ili

structure Token where
  kind : Kind
  text : String
  deriving DecidableEq, Repr, Inhabited

def Token.size (token : Token) : Nat :=
  utf8Length token.text.toList

namespace Lexer

/-- Space, tab, carriage return, line feed and form feed. -/
def isBlank (c : Char) : Bool :=
  c == ' ' || c == '\t' || c == '\r' || c == '\n' || c == '\x0c'

def isWordChar (c : Char) : Bool :=
  c.isAlphanum || c == '_'

def count (p : Char → Bool) (chars : List Char) : Nat :=
  (chars.takeWhile p).length

/-- Length of an exponent at the front; zero when there is no digit in it. -/
def exponent : List Char → Nat
  | [] => 0
  | e :: cs =>
    if e = 'e' ∨ e = 'E' then
      let sign := if cs.head? = some '+' ∨ cs.head? = some '-' then 1 else 0
      match count Char.isDigit (cs.drop sign) with
      | 0 => 0
      | digits => 1 + sign + digits
    else 0

/-- A number after its first digit. A point counts only with a digit behind it. -/
def number (cs : List Char) : Kind × Nat :=
  let whole := count Char.isDigit cs
  match cs.drop whole with
  | '.' :: rest =>
    match count Char.isDigit rest with
    | 0 => (.integer, whole)
    | fraction => (.decimal, whole + 1 + fraction + exponent (rest.drop fraction))
  | _ => (.integer, whole)

/-- Length of the inside of a string: a backslash takes the next character with it, and neither may
reach the end of the line. -/
def stringBody : List Char → Nat
  | [] => 0
  | '\\' :: c :: cs => if c = '\n' then 0 else 2 + stringBody cs
  | c :: cs => if c = '"' ∨ c = '\\' ∨ c = '\n' then 0 else 1 + stringBody cs

/-- A string after its opening quote; without a closing quote it is an error. -/
def quoted (cs : List Char) : Kind × Nat :=
  let body := stringBody cs
  if (cs.drop body).head? = some '"' then (.string, body + 1) else (.error, body)

def close? : List Char → Option Nat
  | '*' :: '/' :: _ => some 2
  | _ :: cs => (close? cs).map (· + 1)
  | [] => none

/-- All stars of the text stand next to each other. -/
def hasOneStarRun (cs : List Char) : Bool :=
  ((cs.dropWhile (· != '*')).dropWhile (· == '*')).all (· != '*')

/-- What starts with a slash, after the slash. A comment that is never closed takes the rest of the
text; it is an error, except that one opened like a documentation comment with at most one run of
further stars reads as a single slash. An opening at the very end is no comment at all. -/
def slash (cs : List Char) : Kind × Nat :=
  match cs with
  | ['*'] | ['*', '*'] => (.slash, 0)
  | ['*', '*', '/'] => (.blockComment, 3)
  | '*' :: '*' :: '/' :: body =>
    match close? body with
    | some n => (.docComment, 3 + n)
    | none => (.error, cs.length)
  | '*' :: '*' :: body =>
    match close? body with
    | some n => (.docComment, 2 + n)
    | none => (if hasOneStarRun body then .slash else .error, cs.length)
  | '*' :: body =>
    match close? body with
    | some n => (.blockComment, 1 + n)
    | none => (.error, cs.length)
  | _ => (.slash, 0)

def bang (cs : List Char) : Kind × Nat :=
  match cs with
  | '!' :: '@' :: rest => (.metaComment, 2 + count (· != '\n') rest)
  | '!' :: rest => (.lineComment, 1 + count (· != '\n') rest)
  | '=' :: _ => (.bangEq, 1)
  | _ => (.error, 0)

/-- Punctuation that starts with `c`, the longest one that `cs` continues. -/
def punctuation (c : Char) (cs : List Char) : Kind × Nat :=
  match c, cs with
  | '-', '<' :: '#' :: '>' :: _ => (.compositionRole, 3)
  | '-', '<' :: '>' :: _ => (.aggregationRole, 2)
  | '-', '-' :: _ => (.assocRole, 1)
  | '-', '>' :: _ => (.arrow, 1)
  | '-', _ => (.minus, 0)
  | '.', '.' :: _ => (.dotDot, 1)
  | '.', _ => (.dot, 0)
  | '=', '=' :: _ => (.eqEq, 1)
  | '=', _ => (.eq, 0)
  | '<', '>' :: _ => (.ltGt, 1)
  | '<', '=' :: _ => (.ltEq, 1)
  | '<', _ => (.lt, 0)
  | '>', '=' :: _ => (.gtEq, 1)
  | '>', _ => (.gt, 0)
  | ':', '=' :: _ => (.colonEq, 1)
  | ':', _ => (.colon, 0)
  | '(', _ => (.lParen, 0)
  | ')', _ => (.rParen, 0)
  | '[', _ => (.lBracket, 0)
  | ']', _ => (.rBracket, 0)
  | '{', _ => (.lBrace, 0)
  | '}', _ => (.rBrace, 0)
  | ';', _ => (.semicolon, 0)
  | ',', _ => (.comma, 0)
  | '*', _ => (.star, 0)
  | '+', _ => (.plus, 0)
  | '%', _ => (.percent, 0)
  | '#', _ => (.hash, 0)
  | '~', _ => (.tilde, 0)
  | '@', _ => (.atSign, 0)
  | '\\', _ => (.backslash, 0)
  | _, _ => (.error, 0)

/-- What starts at `c` when `cs` follows: its kind and how many characters of `cs` belong to it. A
character that starts nothing is an error on its own. -/
def munch (c : Char) (cs : List Char) : Kind × Nat :=
  if isBlank c then (.whitespace, count isBlank cs)
  else if c.isAlpha then
    let word := cs.takeWhile isWordChar
    (Kind.ofWord (String.ofList (c :: word)), word.length)
  else if c.isDigit then number cs
  else if c = '"' then quoted cs
  else if c = '/' then slash cs
  else if c = '!' then bang cs
  else punctuation c cs

/-- The tokens of a text whose first `skip` characters belong to a token already cut. -/
def tokensAfter (skip : Nat) : List Char → List Token
  | [] => []
  | c :: cs =>
    match skip with
    | skip + 1 => tokensAfter skip cs
    | 0 =>
      let (kind, length) := munch c cs
      ⟨kind, String.ofList (c :: cs.take length)⟩ :: tokensAfter length cs

theorem tokensAfter_eq_drop (skip : Nat) (chars : List Char) :
    tokensAfter skip chars = tokensAfter 0 (chars.drop skip) := by
  induction chars generalizing skip with
  | nil => simp [tokensAfter]
  | cons c cs ih =>
    cases skip with
    | zero => rfl
    | succ skip => simpa [tokensAfter] using ih skip

theorem tokensAfter_zero_cons (c : Char) (cs : List Char) :
    tokensAfter 0 (c :: cs) =
      ⟨(munch c cs).1, String.ofList (c :: cs.take (munch c cs).2)⟩ ::
        tokensAfter 0 (cs.drop (munch c cs).2) :=
  congrArg (List.cons _) (tokensAfter_eq_drop (munch c cs).2 cs)

end Lexer

def tokenize (text : String) : List Token :=
  Lexer.tokensAfter 0 text.toList

def withOffsets (start : Nat) : List Token → List (Nat × Token)
  | [] => []
  | token :: rest => (start, token) :: withOffsets (start + token.size) rest

def spelling (tokens : List Token) : List Char :=
  tokens.flatMap fun token => token.text.toList

theorem Lexer.spelling_tokensAfter (skip : Nat) (chars : List Char) :
    spelling (tokensAfter skip chars) = chars.drop skip := by
  induction chars generalizing skip with
  | nil => simp [tokensAfter, spelling]
  | cons c cs ih =>
    cases skip with
    | zero =>
      have htail : spelling (tokensAfter (munch c cs).2 cs) = cs.drop (munch c cs).2 := ih _
      rw [tokensAfter]
      simp only [spelling, List.flatMap_cons, String.toList_ofList, List.drop_zero] at htail ⊢
      rw [htail, List.cons_append, List.take_append_drop]
    | succ skip => simpa [tokensAfter] using ih skip

/-- The tokens of a text spell the text. -/
theorem spelling_tokenize (text : String) : spelling (tokenize text) = text.toList :=
  Lexer.spelling_tokensAfter 0 text.toList

end Ili

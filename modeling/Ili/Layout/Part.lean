import Ili.Layout.Rules
import Ili.Layout.Options

/-!
# Printed tokens and the space between them

Layout decides, for every token to be printed, what stands in front of it: nothing, a space, or one
or two line feeds with an indentation. Parts are runs of printed tokens. Comments in front of a part
wait until it is joined to what comes before it, since their place depends on that.
-/

namespace Ili.Layout

/-- What stands between two printed tokens. Blank lines carry no indentation of their own. -/
inductive Separator where
  | tight
  | space
  | newline (level : Nat)
  | blankLine (level : Nat)
  deriving DecidableEq, Repr

def Separator.text (options : LayoutOptions) : Separator → String
  | tight => ""
  | space => " "
  | newline level => "\n" ++ options.indent level
  | blankLine level => "\n\n" ++ options.indent level

structure Slot where
  separator : Separator
  token : Token
  deriving DecidableEq, Repr

def isClosing : Kind → Bool
  | .rParen | .rBracket | .rBrace | .dot | .semicolon | .comma | .colon | .arrow => true
  | _ => false

def isOpening : Kind → Bool
  | .lParen | .lBracket | .lBrace | .dot | .hash | .arrow => true
  | _ => false

def endsLine : Kind → Bool
  | .lineComment | .metaComment | .docComment => true
  | _ => false

/-- The most line breaks that are kept behind a token. -/
def maxKeptBreaks : Nat := 2

/-- The line breaks kept behind a token: those of the source up to a blank line, and one in any case
behind a comment that must end its line. -/
def keptBreaks (mark : Mark) : Nat :=
  max (min mark.breaksBehind maxKeptBreaks) (if endsLine mark.token.kind then 1 else 0)

def lineBreaks (level : Nat) : Nat → Separator
  | 0 => .space
  | 1 => .newline level
  | _ => .blankLine level

/-- Written without a space, two tokens would not be read as the two tokens they are. -/
def wouldFuse (left right : Token) : Bool :=
  match tokenize (left.text ++ right.text) with
  | [a, b] => a.kind != left.kind || b.kind != right.kind
  | _ => true

def tightest (left right : Token) : Separator :=
  if wouldFuse left right then .space else .tight

/-- The separator between two tokens that follow each other. Next to a comment the line breaks of
the source stay; elsewhere a rule decides, or else the kinds of the two. -/
def separatorBetween (left : Mark) (right : Token) (insert : Option Insert) (level : Nat) :
    Separator :=
  if left.token.kind.isComment || right.kind.isComment then lineBreaks level (keptBreaks left)
  else
    match insert with
    | some .space => .space
    | some .nothing => tightest left.token right
    | some .newline => .newline level
    | some .blankLine => .blankLine level
    | none =>
      if isOpening left.token.kind || isClosing right.kind then tightest left.token right
      else .space

def breaksOf : Option Insert → Nat
  | some .newline => 1
  | some .blankLine => 2
  | _ => 0

/-- A run of printed tokens. What stands in front of `first` is not decided yet; `leading` holds the
comments that go there. -/
structure Part where
  leading : List Mark
  first : Mark
  rest : List Slot
  last : Mark
  deriving Repr

namespace Part

def ofWord (word : Word) : Part :=
  ⟨word.comments, word.mark, [], word.mark⟩

def ofComment (comment : Mark) : Part :=
  ⟨[], comment, [], comment⟩

/-- Comments behind a token, each with the line breaks kept from the source. -/
def commentSlots (level : Nat) (previous : Mark) : List Mark → List Slot
  | [] => []
  | comment :: rest =>
    ⟨lineBreaks level (keptBreaks previous), comment.token⟩ :: commentSlots level comment rest

/-- Puts a part behind another one. A comment that began on the line of the token before it stays
there, and the rule then applies behind the run of comments. -/
def join (left right : Part) (insert : Option Insert) (level : Nat) : Part :=
  let previous := right.leading.getLastD left.last
  let separator :=
    if right.leading.isEmpty then separatorBetween previous right.first.token insert level
    else if keptBreaks left.last = 0 then
      match max (keptBreaks previous) (breaksOf insert) with
      | 0 => separatorBetween previous right.first.token insert level
      | count => lineBreaks level count
    else lineBreaks level (keptBreaks previous)
  { left with
    rest := left.rest ++ commentSlots level left.last right.leading ++
      ⟨separator, right.first.token⟩ :: right.rest
    last := right.last }

def joinTo (left : Option Part) (right : Part) (insert : Option Insert) (level : Nat) : Part :=
  match left with
  | none => right
  | some left => left.join right insert level

def slots (part : Part) : List Slot :=
  match part.leading with
  | [] => ⟨.tight, part.first.token⟩ :: part.rest
  | comment :: others =>
    ⟨.tight, comment.token⟩ :: commentSlots 0 comment others ++
      ⟨lineBreaks 0 (keptBreaks (others.getLastD comment)), part.first.token⟩ :: part.rest

end Part

end Ili.Layout

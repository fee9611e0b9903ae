import Ili.Layout.Part
import Ili.Parse

/-!
# Layout of a file

A skeleton is printed node by node. Inside a node the level of indentation is a counter that its
rules shift from join to join; a child is printed at the level reached when its turn comes. The
slots that come out do not depend on the options, which only say how wide a level is and how the
text ends.
-/

namespace Ili

namespace Layout

structure Progress where
  level : Nat
  part : Option Part
  previous : Option Neighbour
  passed : List Kind

/-- What the rules say about the next child. Punctuation that was set aside stays attached to what
precedes it. -/
def Progress.ruling (progress : Progress) (rules : List Rule) (child : Skeleton) : Ruling :=
  let ruling := rulingOf rules progress.previous ⟨child.kind, progress.passed.count child.kind⟩
  if child.kind == .error && child.firstToken?.any fun token => isClosing token.kind then
    { ruling with insert := none }
  else ruling

def Progress.step (progress : Progress) (insert : Option Insert) (level : Nat) (child : Skeleton)
    (printed : Option Part) : Progress where
  level := level
  part :=
    match printed with
    | none => progress.part
    | some printed => some (Part.joinTo progress.part printed insert level)
  previous := some ⟨child.kind, progress.passed.count child.kind⟩
  passed := child.kind :: progress.passed

mutual

def print (level : Nat) : Skeleton → Option Part
  | .word word => some (.ofWord word)
  | .node kind children =>
    (printAll (rulesFor kind children) ⟨level, none, none, []⟩ children).part

def printAll (rules : List Rule) (progress : Progress) : List Skeleton → Progress
  | [] => progress
  | child :: rest =>
    let ruling := progress.ruling rules child
    let level := ruling.shifts.foldl Shift.apply progress.level
    printAll rules (progress.step ruling.insert level child (print level child)) rest

end

def slotsOf (tree : Tree) : List Slot :=
  let body := tree.skeleton?.bind (print 0)
  let whole := tree.trailingComments.foldl
    (fun part comment => some (Part.joinTo part (.ofComment comment) none 0)) body
  match whole with
  | none => []
  | some part => part.slots

def textOf (options : LayoutOptions) (slots : List Slot) : String :=
  String.join (slots.map fun slot => slot.separator.text options ++ slot.token.text)

/-- Ends a text as the options say. A text without tokens stays empty. -/
def finish (options : LayoutOptions) (text : String) : String :=
  let text :=
    if options.trimFinalNewlines then
      String.ofList ((text.toList.reverse.dropWhile (· == '\n')).reverse)
    else text
  if options.insertFinalNewline && !(text.toList.getLast? == some '\n') then text ++ "\n" else text

end Layout

def Tree.format (tree : Tree) (options : LayoutOptions) : String :=
  match Layout.slotsOf tree with
  | [] => ""
  | slots => Layout.finish options (Layout.textOf options slots)

def formatText (text : String) (options : LayoutOptions) : String :=
  (parse text).tree.format options

/-- The layout of a text, unless it was called off. -/
def formatText? (text : String) (options : LayoutOptions) (cancelled : Bool) : Option String :=
  if cancelled then none else some (formatText text options)

end Ili

import Ili.Tree.Basic

/-!
# Skeletons

What layout looks at in a tree: the visible tokens in their nodes, the comments attached to each,
and the line breaks that follow every one of them. All other blanks are forgotten.

A comment belongs to the visible token behind it. Attachment looks from a token to its neighbours
along the leaves and does not reach across a gap.
-/

namespace Ili

/-- A token that will be printed, with the line feeds in the blanks directly behind it. -/
structure Mark where
  token : Token
  breaksBehind : Nat
  deriving DecidableEq, Repr

structure Word where
  comments : List Mark
  mark : Mark
  deriving DecidableEq, Repr

inductive Skeleton where
  | word (word : Word)
  | node (kind : Kind) (children : List Skeleton)
  deriving Repr

namespace Leaf

def isToken (p : Kind → Bool) : Leaf → Bool
  | token t => p t.kind
  | gap => false

end Leaf

def breaksAhead : List Leaf → Nat
  | .token t :: rest =>
    if t.kind = .whitespace then t.text.toList.count '\n' + breaksAhead rest else 0
  | _ => 0

/-- The visible tokens of a row of leaves with their comments. `pending` holds the comments met
since the last visible token or gap. -/
def attachedWords (pending : List Mark) : List Leaf → List Word
  | [] => []
  | .gap :: rest => attachedWords [] rest
  | .token t :: rest =>
    if t.kind.isComment then attachedWords (pending ++ [⟨t, breaksAhead rest⟩]) rest
    else if t.kind.isTrivia then attachedWords pending rest
    else ⟨pending, ⟨t, breaksAhead rest⟩⟩ :: attachedWords [] rest

/-- The comments of a row of leaves up to its first gap. -/
def commentsBeforeGap : List Leaf → List Mark
  | .token t :: rest =>
    if t.kind.isComment then ⟨t, breaksAhead rest⟩ :: commentsBeforeGap rest
    else commentsBeforeGap rest
  | _ => []

def behindLastWord (leaves : List Leaf) : List Leaf :=
  (leaves.reverse.takeWhile fun leaf => !leaf.isToken fun kind => !kind.isTrivia).reverse

namespace Tree

mutual

/-- The tree with its visible tokens replaced by the words at the front, and the words left over.
Nodes without a visible token disappear. -/
def dress : Tree → List Word → Option Skeleton × List Word
  | token t, words =>
    if t.kind.isTrivia then (none, words)
    else
      match words with
      | [] => (none, [])
      | word :: rest => (some (.word word), rest)
  | node kind children, words =>
    match dressAll children words with
    | ([], rest) => (none, rest)
    | (dressed, rest) => (some (.node kind dressed), rest)

def dressAll : List Tree → List Word → List Skeleton × List Word
  | [], words => ([], words)
  | tree :: rest, words =>
    let (first, words) := tree.dress words
    let (others, words) := dressAll rest words
    (first.toList ++ others, words)

end

/-- The skeleton of a tree; a tree without a visible token has none. -/
def skeleton? (tree : Tree) : Option Skeleton :=
  (tree.dress (attachedWords [] tree.leaves)).1

def trailingComments (tree : Tree) : List Mark :=
  commentsBeforeGap (behindLastWord tree.leaves)

end Tree

namespace Skeleton

def kind : Skeleton → Kind
  | word w => w.mark.token.kind
  | node kind _ => kind

def children : Skeleton → List Skeleton
  | word _ => []
  | node _ children => children

def firstToken? : Skeleton → Option Token
  | word w => some w.mark.token
  | node _ [] => none
  | node _ (child :: _) => child.firstToken?

end Skeleton

end Ili

import Ili.Token.Lexer

/-!
# Trees

A tree keeps every token of its text, blanks and comments included, so the text can be read off its
leaves. Two trees are equal when they have the same kinds in the same places and the same token
texts; offsets are not stored, they follow from the texts.

The frontier of a tree is the row of its leaves. A node without children is a leaf too, a gap: it
takes no text, but nothing is seen across it when one looks from a token to its neighbours.
-/

namespace Ili

inductive Tree where
  | token (token : Token)
  | node (kind : Kind) (children : List Tree)
  deriving Repr, Inhabited

inductive Leaf where
  | token (token : Token)
  | gap
  deriving DecidableEq, Repr

/-- A line of a dump of a tree: how deep an element stands, what it is, the bytes it covers, and
its text if it is a token. -/
structure TreeEntry where
  depth : Nat
  kind : Kind
  start : Nat
  stop : Nat
  text : Option String
  deriving DecidableEq, Repr

namespace Tree

mutual

/-- Equality of trees is decided kind by kind and token by token. -/
protected def decEq : (a b : Tree) → Decidable (a = b)
  | token s, token t => decidable_of_iff (s = t) (by simp)
  | token _, node _ _ => isFalse (by simp)
  | node _ _, token _ => isFalse (by simp)
  | node k cs, node l ds =>
    match instDecidableEqKind k l, Tree.decEqRow cs ds with
    | isTrue hk, isTrue hc => isTrue (by rw [hk, hc])
    | isFalse hk, _ => isFalse fun h => hk (node.inj h).1
    | _, isFalse hc => isFalse fun h => hc (node.inj h).2

protected def decEqRow : (a b : List Tree) → Decidable (a = b)
  | [], [] => isTrue rfl
  | [], _ :: _ => isFalse (by simp)
  | _ :: _, [] => isFalse (by simp)
  | a :: as, b :: bs =>
    match Tree.decEq a b, Tree.decEqRow as bs with
    | isTrue ha, isTrue has => isTrue (by rw [ha, has])
    | isFalse ha, _ => isFalse fun h => ha (List.cons.inj h).1
    | _, isFalse has => isFalse fun h => has (List.cons.inj h).2

end

instance : DecidableEq Tree := Tree.decEq

def kind : Tree → Kind
  | token t => t.kind
  | node kind _ => kind

def children : Tree → List Tree
  | token _ => []
  | node _ children => children

mutual

def leaves : Tree → List Leaf
  | token t => [.token t]
  | node _ [] => [.gap]
  | node _ (child :: rest) => child.leaves ++ leavesOf rest

def leavesOf : List Tree → List Leaf
  | [] => []
  | tree :: rest => tree.leaves ++ leavesOf rest

end

mutual

def tokens : Tree → List Token
  | token t => [t]
  | node _ children => tokensOf children

def tokensOf : List Tree → List Token
  | [] => []
  | tree :: rest => tree.tokens ++ tokensOf rest

end

mutual

def size : Tree → Nat
  | token t => t.size
  | node _ children => sizeOfAll children

def sizeOfAll : List Tree → Nat
  | [] => 0
  | tree :: rest => tree.size + sizeOfAll rest

end

mutual

/-- All elements of a tree that starts at byte `start`, parents before children. -/
def entries (depth start : Nat) : Tree → List TreeEntry
  | token t => [⟨depth, t.kind, start, start + t.size, some t.text⟩]
  | node kind children =>
    ⟨depth, kind, start, start + sizeOfAll children, none⟩ ::
      entriesOf (depth + 1) start children

def entriesOf (depth start : Nat) : List Tree → List TreeEntry
  | [] => []
  | tree :: rest => entries depth start tree ++ entriesOf depth (start + tree.size) rest

end

mutual

def nodes : Tree → List Tree
  | token _ => []
  | node kind children => node kind children :: nodesOf children

def nodesOf : List Tree → List Tree
  | [] => []
  | tree :: rest => tree.nodes ++ nodesOf rest

end

def text : Tree → String
  | token t => t.text
  | node _ children => String.join ((tokensOf children).map Token.text)

theorem tokensOf_append (left right : List Tree) :
    tokensOf (left ++ right) = tokensOf left ++ tokensOf right := by
  induction left with
  | nil => rfl
  | cons tree rest ih => simp [tokensOf, ih]

theorem tokensOf_map_token (row : List Token) : tokensOf (row.map token) = row := by
  induction row with
  | nil => rfl
  | cons t rest ih => simp [tokensOf, tokens, ih]

theorem nodesOf_append (left right : List Tree) :
    nodesOf (left ++ right) = nodesOf left ++ nodesOf right := by
  induction left with
  | nil => rfl
  | cons tree rest ih => rw [List.cons_append, nodesOf, nodesOf, ih, List.append_assoc]

theorem nodesOf_map_token (row : List Token) : nodesOf (row.map token) = [] := by
  induction row with
  | nil => rfl
  | cons t rest ih => rw [List.map_cons, nodesOf, nodes, ih]; rfl

end Tree

end Ili

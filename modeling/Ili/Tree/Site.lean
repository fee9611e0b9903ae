import Ili.Tree.Basic

/-!
# Sites

A site is a tree at its place in a text: with the byte offset it starts at and the blanks and
comments directly in front of it. Sites are made from the root downwards, each node handing its
place on to its children.
-/

namespace Ili

/-- A tree at its place. `before` holds the blanks and comments in front of its first leaf, nearest
first; it reaches back to the nearest visible token, gap, or the start of the text. -/
structure Site where
  tree : Tree
  start : Nat
  before : List Token
  deriving DecidableEq, Repr, Inhabited

namespace Site

/-- The blanks and comments in front of what follows these leaves, nearest first. -/
def beforeNext (before : List Token) : List Leaf → List Token
  | [] => before
  | .gap :: rest => beforeNext [] rest
  | .token t :: rest =>
    if t.kind.isTrivia then beforeNext (t :: before) rest else beforeNext [] rest

def sitesOf (start : Nat) (before : List Token) : List Tree → List Site
  | [] => []
  | tree :: rest =>
    ⟨tree, start, before⟩ :: sitesOf (start + tree.size) (beforeNext before tree.leaves) rest

def root (tree : Tree) : Site :=
  ⟨tree, 0, []⟩

def kind (site : Site) : Kind :=
  site.tree.kind

def stop (site : Site) : Nat :=
  site.start + site.tree.size

def text (site : Site) : String :=
  site.tree.text

def children (site : Site) : List Site :=
  sitesOf site.start site.before site.tree.children

def child? (site : Site) (kind : Kind) : Option Site :=
  site.children.find? fun c => c.kind == kind

def childrenOf (site : Site) (kind : Kind) : List Site :=
  site.children.filter fun c => c.kind == kind

def has (site : Site) (kind : Kind) : Bool :=
  site.children.any fun c => c.kind == kind

def visibleTokens (site : Site) : List Site :=
  site.children.filter fun c => !c.kind.isTrivia && c.tree matches .token _

/-- The visible token directly behind the first one of a kind, if it is of the kind wanted. -/
def tokenBehind? (site : Site) (kind wanted : Kind) : Option Site :=
  ((site.visibleTokens.dropWhile fun c => c.kind != kind).drop 1).head?.filter
    fun c => c.kind == wanted

theorem tree_mem_of_mem_sitesOf {start : Nat} {before : List Token} {trees : List Tree}
    {site : Site} (h : site ∈ sitesOf start before trees) : site.tree ∈ trees := by
  induction trees generalizing start before with
  | nil => simp [sitesOf] at h
  | cons tree rest ih =>
    rcases List.mem_cons.mp h with rfl | hrest
    · exact List.mem_cons_self
    · exact List.mem_cons_of_mem _ (ih hrest)

theorem sizeOf_children_lt {site child : Site} (h : child ∈ site.children) :
    sizeOf child.tree < sizeOf site.tree := by
  have hmem := tree_mem_of_mem_sitesOf h
  cases htree : site.tree with
  | token t => simp [htree, Tree.children] at hmem
  | node kind children =>
    rw [htree] at hmem
    have := List.sizeOf_lt_of_mem hmem
    simp only [Tree.node.sizeOf_spec, Tree.children] at this ⊢
    omega

theorem sizeOf_lt_of_child? {site child : Site} {kind : Kind} (h : site.child? kind = some child) :
    sizeOf child.tree < sizeOf site.tree :=
  sizeOf_children_lt (List.mem_of_find?_eq_some h)

theorem sizeOf_lt_of_mem_childrenOf {site child : Site} {kind : Kind}
    (h : child ∈ site.childrenOf kind) : sizeOf child.tree < sizeOf site.tree :=
  sizeOf_children_lt (List.mem_filter.mp h).1

end Site

end Ili

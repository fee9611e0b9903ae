import Ili.Proofs.Layout.Words

/-!
# What is asked for in front of a word

Rules look at the kinds of children and at nothing else. So what is asked for in front of each word
stays the same when the words are replaced by others of the same kinds.
-/

namespace Ili

namespace Skeleton

variable {g : Word → Word}

theorem kind_mapWords (hg : ∀ w, (g w).mark.token.kind = w.mark.token.kind) (skeleton : Skeleton) :
    (skeleton.mapWords g).kind = skeleton.kind := by
  cases skeleton with
  | word w => exact hg w
  | node kind children => rfl

theorem children_mapWords (skeleton : Skeleton) :
    (skeleton.mapWords g).children = skeleton.children.map (mapWords g) := by
  cases skeleton with
  | word w => rfl
  | node kind children => exact mapWordsOf_eq_map g children

theorem firstToken?_mapWords (hg : ∀ w, (g w).mark.token.kind = w.mark.token.kind)
    (skeleton : Skeleton) :
    (skeleton.mapWords g).firstToken?.map Token.kind = skeleton.firstToken?.map Token.kind := by
  match skeleton with
  | word w => exact congrArg some (hg w)
  | node kind [] => rfl
  | node kind (child :: rest) => exact firstToken?_mapWords hg child

end Skeleton

namespace Layout

variable {g : Word → Word}

theorem breaksElements_map (hg : ∀ w, (g w).mark.token.kind = w.mark.token.kind)
    (children : List Skeleton) :
    breaksElements (children.map (Skeleton.mapWords g)) = breaksElements children := by
  have hkind := Skeleton.kind_mapWords hg
  have hcomp : (fun c : Skeleton => (c.mapWords g).kind == .enumElement) =
      fun c => c.kind == .enumElement := by
    funext c
    rw [hkind]
  have hfilter : (children.map (Skeleton.mapWords g)).filter (fun c => c.kind == .enumElement) =
      (children.filter fun c => c.kind == .enumElement).map (Skeleton.mapWords g) := by
    rw [List.filter_map]
    exact congrArg (fun p => (children.filter p).map _) hcomp
  simp only [breaksElements, hfilter, List.length_map, List.any_map]
  congr 2
  funext c
  simp only [Function.comp_apply, Skeleton.children_mapWords, List.any_map]
  congr 1
  funext d
  simp only [Function.comp_apply, hkind]

theorem rulesFor_map (hg : ∀ w, (g w).mark.token.kind = w.mark.token.kind) (kind : Kind)
    (children : List Skeleton) :
    rulesFor kind (children.map (Skeleton.mapWords g)) = rulesFor kind children := by
  have hbreaks := breaksElements_map hg children
  have hany : (children.map (Skeleton.mapWords g)).any (fun c => c.kind == .eq) =
      children.any fun c => c.kind == .eq := by
    rw [List.any_map]
    congr 1
    funext c
    simp only [Function.comp_apply, Skeleton.kind_mapWords hg]
  unfold rulesFor
  rw [hbreaks, hany]

theorem ruling_mapWords (hg : ∀ w, (g w).mark.token.kind = w.mark.token.kind) (rules : List Rule)
    (progress : Progress) (child : Skeleton) :
    progress.ruling rules (child.mapWords g) = progress.ruling rules child := by
  have hfirst : (child.mapWords g).firstToken?.any (fun token => isClosing token.kind) =
      child.firstToken?.any fun token => isClosing token.kind := by
    have hkinds := congrArg (Option.any isClosing) (Skeleton.firstToken?_mapWords hg child)
    rwa [Option.any_map, Option.any_map] at hkinds
  simp only [Progress.ruling, Skeleton.kind_mapWords hg, hfirst]

def JoinedWord.map (g : Word → Word) (next : JoinedWord) : JoinedWord :=
  { next with word := g next.word }

theorem reopen_map (insert : Option Insert) (level : Nat) (words : List JoinedWord) :
    reopen insert level (words.map (JoinedWord.map g)) =
      (reopen insert level words).map (JoinedWord.map g) := by
  cases words <;> rfl

mutual

theorem joined_mapWords (hg : ∀ w, (g w).mark.token.kind = w.mark.token.kind) (level : Nat)
    (skeleton : Skeleton) :
    joined level (skeleton.mapWords g) = (joined level skeleton).map (JoinedWord.map g) := by
  match skeleton with
  | .word w => rfl
  | .node kind children =>
    rw [Skeleton.mapWords, joined, joined, Skeleton.mapWordsOf_eq_map, rulesFor_map hg,
      ← Skeleton.mapWordsOf_eq_map]
    exact joinedAll_mapWords hg _ _ children

theorem joinedAll_mapWords (hg : ∀ w, (g w).mark.token.kind = w.mark.token.kind)
    (rules : List Rule) (progress : Progress) (children : List Skeleton) :
    joinedAll rules progress (Skeleton.mapWordsOf g children) =
      (joinedAll rules progress children).map (JoinedWord.map g) := by
  match children with
  | [] => rfl
  | child :: rest =>
    have hstep (insert : Option Insert) (level : Nat) :
        progress.step insert level (child.mapWords g) none =
          progress.step insert level child none := by
      simp only [Progress.step, Skeleton.kind_mapWords hg]
    simp only [Skeleton.mapWordsOf, joinedAll, ruling_mapWords hg, joined_mapWords hg _ child,
      reopen_map, hstep, joinedAll_mapWords hg rules _ rest, List.map_append]

end

def kindOnly (word : Word) : Word :=
  ⟨[], ⟨⟨word.mark.token.kind, ""⟩, 0⟩⟩

def JoinedWord.asked (next : JoinedWord) : Option Insert × Nat :=
  (next.insert, next.level)

theorem map_kindOnly_attachedWords (tree : Tree) :
    (attachedWords [] tree.leaves).map kindOnly =
      (visible tree.tokens).map fun token => ⟨[], ⟨⟨token.kind, ""⟩, 0⟩⟩ := by
  rw [← Tree.tokensOf_leaves, ← map_token_attachedWords [], List.map_map]
  rfl

theorem map_asked_trailing (comments : List Mark) :
    (comments.map fun comment => (⟨none, 0, ⟨[], comment⟩⟩ : JoinedWord)).map JoinedWord.asked =
      List.replicate comments.length (none, 0) := by
  induction comments with
  | nil => rfl
  | cons comment rest ih => exact congrArg (List.cons _) ih

/-- Trees whose words are distributed alike ask for the same in front of each. -/
theorem asked_joined_congr {skeleton other : Skeleton}
    (h : skeleton.mapWords kindOnly = other.mapWords kindOnly) (level : Nat) :
    (joined level skeleton).map JoinedWord.asked = (joined level other).map JoinedWord.asked := by
  have hmap (words : List JoinedWord) : (words.map (JoinedWord.map kindOnly)).map JoinedWord.asked =
      words.map JoinedWord.asked := by
    rw [List.map_map]
    rfl
  have hkind : ∀ w, (kindOnly w).mark.token.kind = w.mark.token.kind := fun _ => rfl
  rw [← hmap, ← hmap (joined level other), ← joined_mapWords hkind, ← joined_mapWords hkind, h]

end Layout

end Ili

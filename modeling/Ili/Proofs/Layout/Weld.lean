import Ili.Layout.Render

/-!
# Layout as one pass over the words

Printing goes down the skeleton and joins parts on the way up. Joining is associative, since what
stands between two parts depends only on the last token of the left one and on the first word of the
right one. So the printed tokens are also those of a single pass over the words in order, once every
word has been told what the nodes above it ask for in front of it. What they ask for depends on the
kinds in the skeleton and not on comments or line breaks; the proofs about layout rest on that.
-/

namespace Ili.Layout

/-- A word with the separator that is asked for in front of it and the level it is printed at. -/
structure JoinedWord where
  insert : Option Insert
  level : Nat
  word : Word

def reopen (insert : Option Insert) (level : Nat) : List JoinedWord → List JoinedWord
  | [] => []
  | first :: rest => ⟨insert, level, first.word⟩ :: rest

mutual

/-- The words of a skeleton whose first line is at `level`, with what is asked for in front of each.
Nothing is asked for in front of the first. -/
def joined (level : Nat) : Skeleton → List JoinedWord
  | .word word => [⟨none, level, word⟩]
  | .node kind children => joinedAll (rulesFor kind children) ⟨level, none, none, []⟩ children

def joinedAll (rules : List Rule) (progress : Progress) : List Skeleton → List JoinedWord
  | [] => []
  | child :: rest =>
    let ruling := progress.ruling rules child
    let level := ruling.shifts.foldl Shift.apply progress.level
    reopen ruling.insert level (joined level child) ++
      joinedAll rules (progress.step ruling.insert level child none) rest

end

def separatorBefore (left : Mark) (next : JoinedWord) : Separator :=
  let previous := next.word.comments.getLastD left
  if next.word.comments.isEmpty then
    separatorBetween previous next.word.mark.token next.insert next.level
  else if keptBreaks left = 0 then
    match max (keptBreaks previous) (breaksOf next.insert) with
    | 0 => separatorBetween previous next.word.mark.token next.insert next.level
    | count => lineBreaks next.level count
  else lineBreaks next.level (keptBreaks previous)

def slotsBehind (left : Mark) : List JoinedWord → List Slot
  | [] => []
  | next :: rest =>
    Part.commentSlots next.level left next.word.comments ++
      ⟨separatorBefore left next, next.word.mark.token⟩ :: slotsBehind next.word.mark rest

def lastMark (left : Mark) : List JoinedWord → Mark
  | [] => left
  | next :: rest => lastMark next.word.mark rest

/-- Joins words one after another to what there is. -/
def weld (left : Option Part) (words : List JoinedWord) : Option Part :=
  words.foldl (fun part next => some (Part.joinTo part (.ofWord next.word) next.insert next.level))
    left

theorem weld_append (left : Option Part) (words others : List JoinedWord) :
    weld left (words ++ others) = weld (weld left words) others :=
  List.foldl_append

theorem slotsBehind_append (left : Mark) (words others : List JoinedWord) :
    slotsBehind left (words ++ others) =
      slotsBehind left words ++ slotsBehind (lastMark left words) others := by
  induction words generalizing left with
  | nil => rfl
  | cons next rest ih => simp [slotsBehind, lastMark, ih]

theorem join_eq (left right : Part) (insert : Option Insert) (level : Nat) :
    left.join right insert level =
      { left with
        rest := left.rest ++ Part.commentSlots level left.last right.leading ++
          ⟨separatorBefore left.last ⟨insert, level, ⟨right.leading, right.first⟩⟩,
            right.first.token⟩ :: right.rest
        last := right.last } :=
  rfl

theorem weld_some (part : Part) (words : List JoinedWord) :
    weld (some part) words =
      some { part with
        rest := part.rest ++ slotsBehind part.last words
        last := lastMark part.last words } := by
  induction words generalizing part with
  | nil => simp [weld, slotsBehind, lastMark]
  | cons next rest ih =>
    have hstep : weld (some part) (next :: rest) =
        weld (some (part.join (.ofWord next.word) next.insert next.level)) rest := rfl
    rw [hstep, ih, join_eq]
    simp [Part.ofWord, slotsBehind, lastMark]

/-- Joining a part made of words is joining the words, the first of them as the part was to be
joined. -/
theorem joinTo_weld (left : Option Part) (insert : Option Insert) (level : Nat)
    (words : List JoinedWord) {part : Part} (hpart : weld none words = some part) :
    some (Part.joinTo left part insert level) = weld left (reopen insert level words) := by
  cases words with
  | nil => simp [weld] at hpart
  | cons next rest =>
    have hpart' : weld (some (.ofWord next.word)) rest = some part := hpart
    rw [weld_some] at hpart'
    obtain rfl := (Option.some.inj hpart').symm
    cases left with
    | none => exact (weld_some (.ofWord next.word) rest).symm
    | some left =>
      have hstep : weld (some left) (reopen insert level (next :: rest)) =
          weld (some (left.join (.ofWord next.word) insert level)) rest := rfl
      rw [hstep, weld_some]
      simp [Part.joinTo, join_eq, Part.ofWord, List.append_assoc]

theorem joinedAll_congr (rules : List Rule) {progress other : Progress}
    (hlevel : progress.level = other.level) (hprevious : progress.previous = other.previous)
    (hpassed : progress.passed = other.passed) (children : List Skeleton) :
    joinedAll rules progress children = joinedAll rules other children := by
  induction children generalizing progress other with
  | nil => rfl
  | cons child rest ih =>
    have hruling : progress.ruling rules child = other.ruling rules child := by
      simp only [Progress.ruling, hprevious, hpassed]
    simp only [joinedAll, hruling, hlevel]
    congr 1
    apply ih <;> simp [Progress.step, hpassed]

mutual

/-- Printing a skeleton is joining its words one after another. -/
theorem print_eq_weld (level : Nat) (skeleton : Skeleton) :
    print level skeleton = weld none (joined level skeleton) := by
  cases skeleton with
  | word word => rfl
  | node kind children =>
    simp only [print, joined]
    exact part_printAll _ _ children

theorem part_printAll (rules : List Rule) (progress : Progress) (children : List Skeleton) :
    (printAll rules progress children).part =
      weld progress.part (joinedAll rules progress children) := by
  cases children with
  | nil => rfl
  | cons child rest =>
    have hprint := print_eq_weld
      ((progress.ruling rules child).shifts.foldl Shift.apply progress.level) child
    simp only [printAll, joinedAll, weld_append]
    rw [part_printAll rules _ rest]
    congr 1
    · cases hchild : joined
        ((progress.ruling rules child).shifts.foldl Shift.apply progress.level) child with
      | nil => simp [hprint, hchild, weld, Progress.step, reopen]
      | cons first others =>
        rw [hchild] at hprint
        obtain ⟨part, hpart⟩ : ∃ part, weld none (first :: others) = some part :=
          ⟨_, weld_some (.ofWord first.word) others⟩
        rw [hprint, hpart]
        exact joinTo_weld progress.part _ _ _ hpart
    · apply joinedAll_congr <;> rfl

end

def joinedBody (tree : Tree) : List JoinedWord :=
  (tree.skeleton?.map (joined 0)).getD []

def joinedTree (tree : Tree) : List JoinedWord :=
  joinedBody tree ++ tree.trailingComments.map fun comment => ⟨none, 0, ⟨[], comment⟩⟩

def slotsOfWords : List JoinedWord → List Slot
  | [] => []
  | first :: rest =>
    (match first.word.comments with
      | [] => [⟨.tight, first.word.mark.token⟩]
      | comment :: others =>
        ⟨.tight, comment.token⟩ :: Part.commentSlots 0 comment others ++
          [⟨lineBreaks 0 (keptBreaks (others.getLastD comment)), first.word.mark.token⟩]) ++
      slotsBehind first.word.mark rest

theorem slots_weld (words : List JoinedWord) :
    (match weld none words with
      | none => []
      | some part => part.slots) = slotsOfWords words := by
  cases words with
  | nil => rfl
  | cons first rest =>
    have hstep : weld none (first :: rest) = weld (some (.ofWord first.word)) rest := rfl
    rw [hstep, weld_some]
    cases hcomments : first.word.comments <;>
      simp [Part.slots, Part.ofWord, slotsOfWords, hcomments]

/-- The layout of a tree is one pass over its words. -/
theorem slotsOf_eq (tree : Tree) : slotsOf tree = slotsOfWords (joinedTree tree) := by
  have htrailing (part : Option Part) (comments : List Mark) :
      comments.foldl (fun part comment => some
        (Part.joinTo part (.ofComment comment) none 0)) part =
        weld part (comments.map fun comment => ⟨none, 0, ⟨[], comment⟩⟩) := by
    rw [weld, List.foldl_map]
    rfl
  have hbody : tree.skeleton?.bind (print 0) = weld none (joinedBody tree) := by
    rw [joinedBody]
    cases tree.skeleton? with
    | none => rfl
    | some skeleton => exact print_eq_weld 0 skeleton
  rw [slotsOf, htrailing, hbody, ← weld_append, ← joinedTree]
  exact slots_weld _

end Ili.Layout

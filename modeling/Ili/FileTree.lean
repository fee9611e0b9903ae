import Ili.Text.Blank

/-!
# File trees

A tree of files as a plain value: the files by path, and the directories that were made. Paths are
relative to the root of the tree and written with slashes. A path is walked piece by piece, and
every place on the way must be a directory of the tree, also where two dots lead back out of it.
No file lies outside the tree, so absolute paths and paths that climb above the root lead nowhere.
-/

namespace Ili

namespace Path

def pieces (path : String) : List String :=
  (splitWhere (· == '/') path.toList).map String.ofList

def isAbsolute (path : String) : Bool :=
  path.toList.head? == some '/'

def isSilent (piece : String) : Bool :=
  piece.isEmpty || piece == "."

def IsName (piece : String) : Prop :=
  isSilent piece = false ∧ piece ≠ ".." ∧ '/' ∉ piece.toList

/-- Where a piece leads from a place: two dots lead back, a name leads on. `none` above the
root. -/
def step? (place : List String) (piece : String) : Option (List String) :=
  if isSilent piece then some place
  else if piece = ".." then if place.isEmpty then none else some place.dropLast
  else some (place ++ [piece])

def trail? (place : List String) (passed : List (List String)) :
    List String → Option (List String × List (List String))
  | [] => some (place, passed)
  | piece :: rest => (step? place piece).bind fun next => trail? next (place :: passed) rest

/-- Where a path leads from the root, and the places passed on the way. The empty path and absolute
paths lead nowhere. -/
def trailOf? (path : String) : Option (List String × List (List String)) :=
  if path.isEmpty || isAbsolute path then none else trail? [] [] (pieces path)

theorem slash_not_mem_of_mem_pieces {path piece : String} (h : piece ∈ pieces path) :
    '/' ∉ piece.toList := by
  obtain ⟨chars, hchars, rfl⟩ := List.mem_map.1 h
  intro hmem
  have := not_of_mem_splitWhere hchars (by simpa using hmem)
  simp at this

theorem isName_of_step? {place next : List String} {piece : String}
    (hplace : ∀ name ∈ place, IsName name) (hpiece : '/' ∉ piece.toList)
    (h : step? place piece = some next) : ∀ name ∈ next, IsName name := by
  unfold step? at h
  split at h
  · grind
  · split at h
    · split at h
      · simp at h
      · cases h
        exact fun name hname => hplace name ((List.dropLast_sublist _).mem hname)
    · cases h
      intro name hname
      rcases List.mem_append.1 hname with hname | hname
      · exact hplace name hname
      · rw [List.mem_singleton.1 hname]
        exact ⟨by simp_all, by assumption, hpiece⟩

theorem isName_of_trail? {rest : List String} {place target : List String}
    {passed trail : List (List String)} (hplace : ∀ name ∈ place, IsName name)
    (hrest : ∀ piece ∈ rest, '/' ∉ piece.toList)
    (h : trail? place passed rest = some (target, trail)) : ∀ name ∈ target, IsName name := by
  induction rest generalizing place passed with
  | nil => simp_all [trail?]
  | cons piece rest ih =>
    obtain ⟨next, hnext, htail⟩ := Option.bind_eq_some_iff.1 h
    exact ih (isName_of_step? hplace (hrest piece (by simp)) hnext)
      (fun piece hpiece => hrest piece (by simp [hpiece])) htail

theorem isName_of_trailOf? {path : String} {target : List String} {trail : List (List String)}
    (h : trailOf? path = some (target, trail)) : ∀ name ∈ target, IsName name := by
  unfold trailOf? at h
  split at h
  · simp at h
  · exact isName_of_trail? (by simp) (fun _ => slash_not_mem_of_mem_pieces) h

def join (directory name : String) : String :=
  if directory.isEmpty || directory.toList.getLast? == some '/' then directory ++ name
  else directory ++ "/" ++ name

/-- Drops what names nothing at the end of a path, except for a dot that begins it. -/
def dropSilent (reversed : List String) : List String :=
  match reversed with
  | [] => []
  | [piece] => if piece.isEmpty then [] else [piece]
  | piece :: rest => if isSilent piece then dropSilent rest else piece :: rest

/-- The path without its last segment. The empty path and absolute paths have none. -/
def parent? (path : String) : Option String :=
  if isAbsolute path then none
  else
    match dropSilent (pieces path).reverse with
    | [] => none
    | _ :: rest => some ("/".intercalate (dropSilent rest).reverse)

def ancestorsUpTo (path : String) : Nat → List String
  | 0 => [path]
  | count + 1 =>
    match parent? path with
    | none => [path]
    | some up => path :: ancestorsUpTo up count

def ancestors (path : String) : List String :=
  ancestorsUpTo path (pieces path).length

def fileName (path : String) : String :=
  (dropSilent (pieces path).reverse).headD ""

/-- What follows the last dot of a file name, unless the name begins with that dot. -/
def extension? (name : String) : Option String :=
  match (splitWhere (· == '.') name.toList).reverse with
  | last :: before =>
    if before.all List.isEmpty && before.length ≤ 1 then none else some (String.ofList last)
  | [] => none

end Path

/-- A tree of files. Files are listed once each, by the names along their path. -/
structure FileTree where
  files : List (List String × ByteArray)
  directories : List (List String)
  distinct : (files.map Prod.fst).Nodup
  named : ∀ file ∈ files, ∀ name ∈ file.1, Path.IsName name

inductive Obstacle where
  | missing
  | notDirectory
  | tooLong
  /-- The path holds the character zero, which ends a name. -/
  | zeroCharacter
  deriving DecidableEq, Repr

inductive ReadError where
  | notText (path : String)
  | unreachable (path : String) (obstacle : Obstacle)
  deriving DecidableEq, Repr

namespace FileTree

def empty : FileTree :=
  ⟨[], [], by simp, by simp⟩

/-- Puts a file into the tree, in place of one at the same path, and makes the directories passed
on the way. -/
def addFile (tree : FileTree) (path : String) (content : ByteArray) : FileTree :=
  match h : Path.trailOf? path with
  | none => tree
  | some (place, passed) =>
    { files := tree.files.filter (fun file => file.1 != place) ++ [(place, content)]
      directories := tree.directories ++ passed
      distinct := by
        rw [List.map_append, List.nodup_append]
        refine ⟨tree.distinct.sublist (List.filter_sublist.map _), by simp, ?_⟩
        rintro other hother _ hplace rfl
        obtain ⟨file, hfile, rfl⟩ := List.mem_map.1 hother
        simp_all
      named := by
        intro file hfile
        rcases List.mem_append.1 hfile with hfile | hfile
        · exact tree.named file (List.mem_filter.1 hfile).1
        · rw [List.mem_singleton.1 hfile]
          exact Path.isName_of_trailOf? h }

def addDirectory (tree : FileTree) (path : String) : FileTree :=
  match Path.trailOf? path with
  | none => tree
  | some (place, passed) => { tree with directories := tree.directories ++ place :: passed }

def fileAt? (tree : FileTree) (place : List String) : Option ByteArray :=
  tree.files.lookup place

def isDirectoryAt (tree : FileTree) (place : List String) : Bool :=
  place.isEmpty || tree.directories.any place.isPrefixOf ||
    tree.files.any fun file => place.isPrefixOf file.1 && place != file.1

def nameLimit : Nat := 255

def pathLimit : Nat := 4095

def step (tree : FileTree) (place : List String) (piece : String) :
    Except Obstacle (List String) :=
  if !tree.isDirectoryAt place then .error .notDirectory
  else if nameLimit < piece.utf8ByteSize then .error .tooLong
  else
    match Path.step? place piece with
    | none => .error .missing
    | some next =>
      if tree.isDirectoryAt next || (tree.fileAt? next).isSome then .ok next else .error .missing

def locate (tree : FileTree) (path : String) : Except Obstacle (List String) :=
  if path.toList.contains '\x00' then .error .zeroCharacter
  else if pathLimit < path.utf8ByteSize then .error .tooLong
  else if path.isEmpty || Path.isAbsolute path then .error .missing
  else (Path.pieces path).foldlM tree.step []

def isDirectory (tree : FileTree) (path : String) : Bool :=
  (tree.locate path).toOption.any tree.isDirectoryAt

def file? (tree : FileTree) (path : String) : Option ByteArray :=
  (tree.locate path).toOption.bind tree.fileAt?

/-- The order of a walk: by the names along the path, each compared code point by code point. -/
def placeLe (left right : List String) : Bool :=
  !decide (right < left)

/-- All files at or below a path with their paths, written as the path given and the names below
it. A directory is passed through where its own name stands among its neighbours. -/
def filesBelow (tree : FileTree) (root : String) : Except ReadError (List (String × ByteArray)) :=
  match tree.locate root with
  | .error obstacle => .error (.unreachable root obstacle)
  | .ok place =>
    match tree.fileAt? place with
    | some content => .ok [(root, content)]
    | none =>
      let below := tree.files.filterMap fun (path, content) =>
        if place.isPrefixOf path then some (path.drop place.length, content) else none
      .ok <| (below.mergeSort fun a b => placeLe a.1 b.1).map fun (names, content) =>
        (names.foldl Path.join root, content)

end FileTree

def Obstacle.message : Obstacle → String
  | .missing => "No such file or directory (os error 2)"
  | .notDirectory => "Not a directory (os error 20)"
  | .tooLong => "File name too long (os error 36)"
  | .zeroCharacter => "file name contained an unexpected NUL byte"

def ReadError.message : ReadError → String
  | .notText path => "IO error on " ++ path ++ ": stream did not contain valid UTF-8"
  | .unreachable path obstacle =>
    "Walk error: IO error for operation on " ++ path ++ ": " ++ obstacle.message

end Ili

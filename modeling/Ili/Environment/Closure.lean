import Ili.Environment.Basic
import Ili.Diagnostic
import Ili.Repository

/-!
# Import closure

A closure asks a repository for the models that are imported but not known, and adds the files it
gets, until nothing is missing that has not been asked for. It goes in rounds. A round takes the
names missing at its start in alphabetical order; a name may have arrived with the file of another
one by the time its turn comes, and is then passed over.
-/

namespace Ili

structure RepositoryAccess where
  repository : Repository
  failures : List (String × QueryError)
  /-- The run is called off during the query of this number, counted from one; zero is before the
  first. -/
  calledOff : Option Nat
  deriving Repr

namespace RepositoryAccess

def search (access : RepositoryAccess) (name : String) (filter : Option String) :
    Except QueryError (List RepositoryModel) :=
  match access.failures.lookup name with
  | some error => .error error
  | none => .ok (access.repository.search name filter)

/-- The run is called off once `count` queries have been made. -/
def isCalledOff (access : RepositoryAccess) (count : Nat) : Bool :=
  access.calledOff.any fun number => number ≤ count

end RepositoryAccess

structure ImportSite where
  uri : Option String
  span : Span
  deriving DecidableEq, Repr

namespace Environment

/-- The names imported by the models that are known, each with its place. Of a path the first
segment counts. -/
def importedNames (env : Environment) : List (String × ImportSite) :=
  env.models.entries.flatMap fun (_, model) =>
    (env.importsOf model).filterMap fun (_, reference) =>
      reference.path.head?.map fun name => (name, ⟨env.uri? model, reference.span⟩)

/-- The imported names that are not known, each with the place where it is imported first. -/
def missingImports (env : Environment) : Dict ImportSite :=
  env.importedNames.foldl
    (fun missing (name, site) =>
      if env.knowsModel name then missing else missing.insertNew name site)
    .empty

end Environment

structure Closure where
  env : Environment
  /-- The names whose turn has come. -/
  handled : List String
  queries : List (String × Option String)
  diagnostics : List Diagnostic
  reported : List String
  isAborted : Bool
  deriving Repr

namespace Closure

def start (env : Environment) : Closure :=
  ⟨env, [], [], [], [], false⟩

def report (closure : Closure) (site : ImportSite) (finding : Finding) : Closure :=
  { closure with diagnostics := closure.diagnostics ++ [⟨site.uri, site.span, finding⟩] }

def refuse (closure : Closure) (name : String) (site : ImportSite) (finding : Finding) : Closure :=
  { closure.report site finding with reported := closure.reported ++ [name] }

/-- Adds a file for the sake of a model, provided that it is written for the version of the
environment. -/
def take (closure : Closure) (name : String) (site : ImportSite) (catalog : Catalog) : Closure :=
  if catalog.schemaVersion = closure.env.version then
    { closure with env := (closure.env.merge catalog).1 }
  else
    closure.refuse name site
      (.versionMismatch name catalog.schemaVersion closure.env.version)

/-- Takes the first of several candidates; that there are others is reported. -/
def choose (closure : Closure) (name : String) (site : ImportSite) :
    List RepositoryModel → Closure
  | [] => closure.refuse name site (.modelNotFound name)
  | chosen :: others =>
    let closure :=
      if others.isEmpty then closure
      else
        closure.report site
          (.ambiguousModel name ((chosen :: others).map RepositoryModel.uri))
    closure.take name site (.ofText chosen.content (some chosen.uri))

/-- The turn of a missing name. A query that fails counts as one without an answer. -/
def step (access : RepositoryAccess) (filter : Option String) (closure : Closure)
    (missing : String × ImportSite) : Closure :=
  if closure.isAborted then closure
  else
    let (name, site) := missing
    let closure := { closure with handled := closure.handled ++ [name] }
    if access.isCalledOff closure.queries.length then { closure with isAborted := true }
    else if closure.env.knowsModel name then closure
    else
      { closure with queries := closure.queries ++ [(name, filter)] }.choose name site
        ((access.search name filter).toOption.getD [])

/-- The missing names whose turn has not come, in alphabetical order. -/
def pending (closure : Closure) : List (String × ImportSite) :=
  (closure.env.missingImports.entries.filter fun entry =>
    !closure.handled.contains entry.1).mergeSort fun a b => a.1 ≤ b.1

def rounds (access : RepositoryAccess) (filter : Option String) : Nat → Closure → Closure
  | 0, closure => closure
  | count + 1, closure =>
    if closure.isAborted || closure.pending.isEmpty then closure
    else rounds access filter count (closure.pending.foldl (step access filter) closure)

/-- Closes an environment. Each round but the last adds a file that the repository has under a name
not handled before, so there is one round more than entries at most. -/
def run (access : RepositoryAccess) (filter : Option String) (env : Environment) : Closure :=
  rounds access filter (access.repository.models.length + 1) (start env)

end Closure

end Ili

import Ili.EditorConfig
import Ili.Parse
import Ili.Tree.View

/-!
# Repositories

A repository knows the texts of models by their names. It is a fixed list, or it is read off a
directory: every file with the right extension is entered once for each model it declares.
-/

namespace Ili

structure RepositoryModel where
  name : String
  /-- The version of the language, as a tag such as `ili2_4`. -/
  schemaLanguage : String
  uri : String
  content : String
  deriving DecidableEq, Repr

def schemaLanguage (version : String) : String :=
  "ili" ++ String.ofList (version.toList.map fun c => if c = '.' then '_' else c)

inductive QueryError where
  | unavailable (detail : String)
  | invalidResponse (detail : String)
  deriving DecidableEq, Repr

def QueryError.message : QueryError → String
  | .unavailable detail => "repository unavailable: " ++ detail
  | .invalidResponse detail => "invalid repository response: " ++ detail

structure Repository where
  models : List RepositoryModel
  deriving DecidableEq, Repr

namespace Repository

def search (repository : Repository) (name : String) (filter : Option String) :
    List RepositoryModel :=
  repository.models.filter fun model =>
    model.name == name && filter.all fun language => model.schemaLanguage == language

/-- The version that a file without a header counts as. -/
def assumedVersion : String := "2.4"

/-- The entries of a model file: one for each model declared, with the whole text. -/
def modelsOfFile (uri text : String) : List RepositoryModel :=
  let file := Site.root (parse text).tree
  let language := schemaLanguage (file.schemaVersion?.getD assumedVersion)
  file.modelNames.map fun name => ⟨name, language, uri, text⟩

def isModelFile (path : String) : Bool :=
  (Path.extension? (Path.fileName path)).any fun extension =>
    EditorConfig.foldCase extension == "ili"

/-- The repository of all model files at or below a path. Files that are not text are passed
over. -/
def scan (tree : FileTree) (root : String) : Except ReadError Repository :=
  (tree.filesBelow root).map fun files =>
    ⟨files.flatMap fun (path, content) =>
      if isModelFile path then ((String.fromUTF8? content).map (modelsOfFile path)).getD []
      else []⟩

end Repository

end Ili

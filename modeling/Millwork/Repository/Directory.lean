import Std.Data.ExtTreeMap
import Millwork.Files
import Millwork.Rule.Json
import Millwork.Repository.Key
/-!
# Rule sets in a directory

The documents of a directory are its files with the extension `json`, each known by the rest of its
name in small letters. An eager repository reads all of them when it is opened or reloaded, which fails
if the directory cannot be listed; a lazy one reads a document when its key is first asked for, and does
not remember keys that have none.
-/
namespace Millwork
/-- When the documents are read. -/
inductive Strategy
  | eager
  | lazy
deriving DecidableEq, Repr

/-- The rule sets that have been read, by key. -/
abbrev Snapshot := Std.ExtTreeMap String RuleSet

namespace Document
def splitExtension (name : List Char) : Option (List Char × List Char) :=
  let extension := (name.reverse.takeWhile (· != '.')).reverse
  match (name.reverse.dropWhile (· != '.')) with
  | _ :: stem => if stem.isEmpty then none else some (stem.reverse, extension)
  | [] => none

/-- The key of a document; other entries have none. -/
def key? (name : String) : Entry → Option String
  | .folder .. => none
  | .file _ =>
    match splitExtension name.toList with
    | some (stem, extension) =>
      if extension.map Char.toLower = ['j', 's', 'o', 'n'] then
        some (RuleSet.keyOf (String.ofList stem))
      else
        none
    | none => none

/-- The rule set that a file holds, if it is one. -/
def decode? (content : ByteArray) : Option RuleSet :=
  (String.fromUTF8? content).bind RuleSet.ofJsonText?

def content? : Entry → Option ByteArray
  | .file content => some content
  | .folder .. => none

def load? (entry : String × Entry) : Option (String × RuleSet) :=
  match key? entry.1 entry.2, (content? entry.2).bind decode? with
  | some key, some rules => some (key, rules)
  | _, _ => none

def loadAll (folder : Folder) : Snapshot :=
  (folder.filterMap load?).foldl (fun snapshot found => snapshot.insert found.1 found.2) ∅

end Document

/-- The folder at a path is there but cannot be listed. -/
structure ReadFailure where
  path : String
  reason : String
deriving DecidableEq, Repr

def ReadFailure.message (failure : ReadFailure) : String :=
  "failed to read rule set " ++ failure.path ++ ": " ++ failure.reason

/-- All documents of the folder at a path, from what listing the folder gives. -/
def Document.readAll (path : String) : Except String Folder → Except ReadFailure Snapshot
  | .ok folder => .ok (loadAll folder)
  | .error reason => .error ⟨path, reason⟩

structure DirectoryRepository where
  path : String
  strategy : Strategy
  snapshot : Snapshot := ∅

namespace DirectoryRepository
/-- The document for a key: the file named by it, else the first document in the folder with that key. -/
def findDocument? (path : String) (files : Files) (key : String) : Option ByteArray :=
  match files.fileAt? (Folder.join path (RuleSet.fileName key)), files.listing path with
  | some content, _ => some content
  | none, .ok folder =>
    (List.find? (fun entry => Document.key? entry.1 entry.2 == some key) folder).bind fun entry =>
      Document.content? entry.2
  | none, .error _ => none

def loadKey? (path : String) (files : Files) (key : String) : Option RuleSet :=
  (findDocument? path files key).bind Document.decode?

def reloadKeys (path : String) (files : Files) (keys : List String) : Snapshot :=
  keys.foldl
    (fun snapshot key =>
      match loadKey? path files key with
      | some rules => snapshot.insert key rules
      | none => snapshot)
    ∅

/-- Reads again what is to be remembered: everything, or the keys that are remembered already. -/
def reload (repository : DirectoryRepository) (files : Files) :
    Except ReadFailure DirectoryRepository :=
  match repository.strategy with
  | .eager =>
    (Document.readAll repository.path (files.listing repository.path)).map fun snapshot =>
      { repository with snapshot }
  | .lazy =>
    .ok { repository with
      snapshot := reloadKeys repository.path files repository.snapshot.keys }

/-- Opens a directory, which need not exist. -/
def opened (path : String) (strategy : Strategy) (files : Files) :
    Except ReadFailure DirectoryRepository :=
  match strategy with
  | .eager => reload { path, strategy } files
  | .lazy => .ok { path, strategy }

/-- Forgets all that has been read. -/
def invalidate (repository : DirectoryRepository) : DirectoryRepository :=
  { repository with snapshot := ∅ }

/-- The rule set of a key, the empty one if there is none; a lazy repository remembers what it reads. -/
def resolve (repository : DirectoryRepository) (files : Files) (name : String) :
    RuleSet × DirectoryRepository :=
  let key := RuleSet.keyOf name
  match repository.snapshot[key]?, repository.strategy with
  | some rules, _ => (rules, repository)
  | none, .eager => (RuleSet.empty, repository)
  | none, .lazy =>
    match loadKey? repository.path files key with
    | some rules =>
      (rules, { repository with snapshot := repository.snapshot.insert key rules })
    | none => (RuleSet.empty, repository)

end DirectoryRepository
end Millwork

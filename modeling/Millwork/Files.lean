/-!
# Files and folders

All files there are, what a path leads to, and what listing a folder gives. A path is followed name by
name, from the root if it begins with a slash and else from the folder where relative paths start. It may
step back with `..`, but above the root there is only the root again.
-/
namespace Millwork
inductive Entry
  | file (content : ByteArray)
  /-- The entries are reached by their names. If they cannot be listed, `refusal` is the reason. -/
  | folder (entries : List (String × Entry)) (refusal : Option String := none)

/-- The entries of a folder with their names. -/
abbrev Folder := List (String × Entry)

namespace Folder
def entry? (folder : Folder) (name : String) : Option Entry :=
  (List.find? (·.1 == name) folder).map (·.2)

/-- The names in a path, between the slashes. -/
def segments : List Char → List (List Char)
  | [] => [[]]
  | c :: rest =>
    if c = '/' then
      [] :: segments rest
    else
      match segments rest with
      | name :: more => (c :: name) :: more
      | [] => [[c]]

def names (path : String) : List String :=
  (segments path.toList).map String.ofList

/-- The path of a name below another path; an absolute name stands for itself. -/
def join (path name : String) : String :=
  if path = "" || name.toList.head? = some '/' then name
  else if path.toList.getLast? = some '/' then path ++ name
  else path ++ "/" ++ name

end Folder

/-- Follows names from an entry; `above` are the folders around it, the nearest first. -/
def Entry.follow? (above : List Entry) (here : Entry) : List String → Option Entry
  | [] => some here
  | name :: rest =>
    match here with
    | .file _ => none
    | .folder entries refusal =>
      if name = "" || name = "." then
        follow? above (.folder entries refusal) rest
      else if name = ".." then
        match above with
        | outer :: more => follow? more outer rest
        | [] => follow? [] (.folder entries refusal) rest
      else
        match Folder.entry? entries name with
        | some inner => follow? (.folder entries refusal :: above) inner rest
        | none => none

/-- The entries of the root, and where relative paths start. -/
structure Files where
  root : Folder
  rootRefusal : Option String := none
  /-- The names that lead from the root to the folder where relative paths start. -/
  start : List String := []

namespace Files
def trail (files : Files) (path : String) : List String :=
  if path.toList.head? = some '/' then Folder.names path else files.start ++ Folder.names path

/-- What a path leads to; the empty path leads nowhere. -/
def entryAt? (files : Files) (path : String) : Option Entry :=
  if path = "" then none
  else Entry.follow? [] (.folder files.root files.rootRefusal) (files.trail path)

def fileAt? (files : Files) (path : String) : Option ByteArray :=
  match files.entryAt? path with
  | some (.file content) => some content
  | _ => none

def folderAt? (files : Files) (path : String) : Option Folder :=
  match files.entryAt? path with
  | some (.folder entries _) => some entries
  | _ => none

/-- What listing the folder at a path gives: its entries, none if there is no folder, or the reason why
they cannot be listed. -/
def listing (files : Files) (path : String) : Except String Folder :=
  match files.entryAt? path with
  | some (.folder entries none) => .ok entries
  | some (.folder _ (some reason)) => .error reason
  | _ => .ok []

end Files
end Millwork

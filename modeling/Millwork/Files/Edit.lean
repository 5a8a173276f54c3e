import Millwork.Files
/-!
# Changes to files

Writing and removing files and folders. A change that a file stands in the way of does nothing, and
neither does one at a path that steps back.
-/
namespace Millwork
namespace Folder
def put (folder : Folder) (name : String) (entry : Entry) : Folder :=
  folder.filter (·.1 != name) ++ [(name, entry)]

def changeAt (change : Folder → Folder) : List String → Folder → Folder
  | [], here => change here
  | name :: rest, here =>
    match here.entry? name with
    | some (.folder inner refusal) => here.put name (.folder (changeAt change rest inner) refusal)
    | some (.file _) => here
    | none => here.put name (.folder (changeAt change rest []))

def putFile (name : String) (content : ByteArray) (here : Folder) : Folder :=
  match here.entry? name with
  | some (.folder ..) => here
  | _ => here.put name (.file content)

def writeNames (content : ByteArray) (path : List String) (folder : Folder) : Folder :=
  match path.getLast? with
  | some name => changeAt (putFile name content) path.dropLast folder
  | none => folder

def removeNames : List String → Folder → Folder
  | [], here => here
  | [name], here => here.filter (·.1 != name)
  | name :: rest, here =>
    match here.entry? name with
    | some (.folder inner refusal) => here.put name (.folder (removeNames rest inner) refusal)
    | _ => here

end Folder

namespace Files
def edit (files : Files) (path : String) (change : List String → Folder → Folder) : Files :=
  let names := (files.trail path).filter fun name => name != "" && name != "."
  if ".." ∈ names then files else { files with root := change names files.root }

def write (files : Files) (path : String) (content : ByteArray) : Files :=
  files.edit path (Folder.writeNames content)

def remove (files : Files) (path : String) : Files :=
  files.edit path Folder.removeNames

def makeFolder (files : Files) (path : String) : Files :=
  files.edit path (Folder.changeAt id)

end Files
end Millwork

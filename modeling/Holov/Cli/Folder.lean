namespace Holov.Cli

inductive ReadError where
  | notFound
  | isDirectory
  | notDirectory
  | nameTooLong
  | denied
  | notText
deriving DecidableEq, Repr, Inhabited

def ReadError.message : ReadError → String
  | notFound => "No such file or directory (os error 2)"
  | isDirectory => "Is a directory (os error 21)"
  | notDirectory => "Not a directory (os error 20)"
  | nameTooLong => "File name too long (os error 36)"
  | denied => "Permission denied (os error 13)"
  | notText => "stream did not contain valid UTF-8"

inductive Entry where
  | file (bytes : List UInt8)
  | directory
deriving DecidableEq, Repr, Inhabited

/-- Entries by path, a path being the list of its components. A directory need not be listed if
something inside it is. -/
abbrev Folder := List (List String × Entry)

namespace Folder

def nameLimit : Nat := 255

def pathLimit : Nat := 4095

def ofNames (entries : List (String × Entry)) : Folder :=
  entries.map fun (name, entry) => (name.splitOn "/", entry)

def entry? (folder : Folder) (path : List String) : Option Entry :=
  if path = [] then some .directory
  else
    match folder.find? fun (key, _) => key = path with
    | some (_, entry) => some entry
    | none => if folder.any fun (key, _) => path.isPrefixOf key then some .directory else none

/-- A place on the way along a path: a path inside the folder, or somewhere around it. -/
inductive Place where
  | inside (path : List String)
  | around
deriving DecidableEq, Repr, Inhabited

def entryAt? (folder : Folder) : Place → Option Entry
  | .inside path => folder.entry? path
  | .around => some .directory

def parent : Place → Place
  | .inside [] => .around
  | .inside path => .inside path.dropLast
  | .around => .around

def child (folder : Folder) (place : Place) (name : String) : Except ReadError Place :=
  if nameLimit < name.utf8ByteSize then .error .nameTooLong
  else
    match place with
    | .around => .error .notFound
    | .inside path =>
      if (folder.entry? (path ++ [name])).isSome then .ok (.inside (path ++ [name]))
      else .error .notFound

/-- One component of a path, which has to start from a directory. -/
def step (folder : Folder) (place : Place) (component : String) : Except ReadError Place :=
  match folder.entryAt? place with
  | none => .error .notFound
  | some (.file _) => .error .notDirectory
  | some .directory =>
    if component = "" || component = "." then .ok place
    else if component = ".." then .ok (parent place)
    else folder.child place component

def walk (folder : Folder) (path : String) : Except ReadError Place :=
  if path = "" then .error .notFound
  else if pathLimit < path.utf8ByteSize then .error .nameTooLong
  else
    let start := if path.startsWith "/" then .around else .inside []
    (path.splitOn "/").foldlM folder.step start

def readBytes (folder : Folder) (path : String) : Except ReadError (List UInt8) := do
  match folder.entryAt? (← folder.walk path) with
  | none => .error .notFound
  | some .directory => .error .isDirectory
  | some (.file bytes) => return bytes

end Folder

def decodeText (bytes : ByteArray) : Except ReadError String :=
  match String.fromUTF8? bytes with
  | some s => .ok s
  | none => .error .notText

def Folder.readText (folder : Folder) (path : String) : Except ReadError String := do
  decodeText ⟨(← folder.readBytes path).toArray⟩

end Holov.Cli

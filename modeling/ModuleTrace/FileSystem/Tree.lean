import ModuleTrace.FileSystem

/-!
# File systems in memory

A tree of directories and files. A path is followed step by step from the directory it starts
in, as an operating system does: a step up needs the directory it leaves, and what comes before
a slash must be a directory.
-/

namespace ModuleTrace

inductive FileTree where
  | file (contents : Except ReadError String) (isExecutable : Bool)
  | directory (children : List (String × FileTree))

namespace FileTree

instance : Inhabited FileTree := ⟨.directory []⟩

def empty : FileTree := .directory []

def kind : FileTree → EntryKind
  | .file _ _ => .file
  | .directory _ => .directory

def child? (t : FileTree) (name : String) : Option FileTree :=
  match t with
  | .file _ _ => none
  | .directory children => children.lookup name

def setChild (t : FileTree) (name : String) (child : FileTree) : FileTree :=
  match t with
  | .file _ _ => .directory [(name, child)]
  | .directory children =>
      .directory (children.filter (fun entry => entry.1 ≠ name) ++ [(name, child)])

/-- Puts a tree at the end of some names; directories on the way are made. -/
def insert (names : List String) (t new : FileTree) : FileTree :=
  match names with
  | [] => new
  | name :: rest => t.setChild name (insert rest ((t.child? name).getD empty) new)

def insertDirectory (names : List String) (t : FileTree) : FileTree :=
  match names with
  | [] => match t with
    | .directory children => .directory children
    | .file _ _ => empty
  | name :: rest => t.setChild name (insertDirectory rest ((t.child? name).getD empty))

def step (place : FileTree × List FileTree) (piece : List Char) :
    Except ReadError (FileTree × List FileTree) :=
  match place.1 with
  | .file _ _ => .error .notDirectory
  | .directory children =>
      match Path.Part.ofPiece piece with
      | none => .ok place
      | some .up =>
          match place.2 with
          | [] => .ok place
          | around :: further => .ok (around, further)
      | some part =>
          match children.lookup part.text with
          | none => .error .notFound
          | some child => .ok (child, place.1 :: place.2)

def follow (root : FileTree) (here : FileTree × List FileTree) (path : Path) :
    Except ReadError (FileTree × List FileTree) :=
  if path.text.isEmpty then .error .notFound
  else
    let start := if path.isAbsolute then (root, []) else here
    let pieces := Path.splitSlashes path.text.toList
    (if path.isAbsolute then pieces.tail else pieces).foldlM step start

def size : FileTree → Nat
  | .file _ _ => 1
  | .directory children => 1 + sizeAll children
where
  sizeAll : List (String × FileTree) → Nat
    | [] => 0
    | entry :: rest => size entry.2 + sizeAll rest

/-- The tree as a file system; relative paths start in a directory. -/
def fileSystem (root : FileTree) (directory : Path) : FileSystem Id :=
  let here := ((root.follow (root, []) directory).toOption).getD (root, [])
  let find (path : Path) : Except ReadError FileTree := (root.follow here path).map Prod.fst
  { read := fun path =>
      match find path with
      | .error error => .error error
      | .ok (.file contents _) => contents
      | .ok (.directory _) => .error .isDirectory
    kind := fun path => (find path).map kind
    entries := fun path =>
      match find path with
      | .error error => .error error
      | .ok (.file _ _) => .error .notDirectory
      | .ok (.directory children) => .ok (children.map fun entry => (entry.1, entry.2.kind))
    isExecutable := fun path =>
      match find path with
      | .ok (.file _ isExecutable) => isExecutable
      | _ => false
    extent := root.size + 1 }

end FileTree

end ModuleTrace

import ModuleTrace.Path

/-!
# Packages of a workspace
-/

namespace ModuleTrace

/-- A package of a workspace: its root, or a member. -/
structure Package where
  name : String
  path : Path
  /-- Patterns of the members, on a root that has them. -/
  patterns : Option (List String)
  deriving DecidableEq, Repr, Inhabited

structure Workspace where
  root : Package
  members : List Package
  deriving DecidableEq, Repr, Inhabited

namespace Workspace

/-- The first member of a name, else the root if it has the name. -/
def byName (w : Workspace) (name : String) : Option Package :=
  match w.members.find? fun member => member.name = name with
  | some member => some member
  | none => if w.root.name = name then some w.root else none

def contains (w : Workspace) (path : Path) : Bool :=
  path.isUnder w.root.path

/-- The innermost of some packages, the last one among equals. -/
def innermost : List Package → Option Package
  | [] => none
  | package :: rest =>
      match innermost rest with
      | none => some package
      | some other =>
          if other.path.parts.length < package.path.parts.length then some package
          else some other

/-- The innermost member that a path lies in, else the root if it lies there. -/
def byPath (w : Workspace) (path : Path) : Option Package :=
  match innermost (w.members.filter fun member => path.isUnder member.path) with
  | some member => some member
  | none => if w.contains path then some w.root else none

end Workspace

end ModuleTrace

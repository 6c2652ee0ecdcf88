import ModuleTrace.Path

/-!
# Dependencies

What a specifier turns out to mean: a local file, found by one of five rules; a path that is no
file; or a module from elsewhere.
-/

namespace ModuleTrace

/-- The rule that found a local file, with what it adds to the specifier. -/
inductive Rule where
  /-- The specifier is a path. -/
  | relative
  | aliased (pattern target : String)
  /-- The specifier lies in the base directory of the project. -/
  | base
  /-- The specifier lies in the directory of the nearest manifest. -/
  | package
  /-- The specifier names a package of the workspace. -/
  | workspace (package : String)
  deriving DecidableEq, Repr, Inhabited

namespace Rule

def label : Rule → String
  | .relative => "relative"
  | .aliased _ _ => "alias"
  | .base => "base_path"
  | .package => "package"
  | .workspace _ => "workspace"

def rank : Rule → Nat
  | .relative => 0
  | .aliased _ _ => 1
  | .base => 2
  | .package => 3
  | .workspace _ => 4

end Rule

structure LocalDependency where
  specifier : String
  path : Path
  rule : Rule
  deriving DecidableEq, Repr, Inhabited

structure MissingDependency where
  specifier : String
  attempted : Path
  deriving DecidableEq, Repr, Inhabited

inductive Classification where
  | localFile (dependency : LocalDependency)
  | missing (dependency : MissingDependency)
  | external (specifier : String)
  deriving DecidableEq, Repr, Inhabited

/-- The dependencies of one file, each kind in the order of the text. -/
structure Dependencies where
  locals : List LocalDependency := []
  missing : List MissingDependency := []
  external : List String := []
  deriving DecidableEq, Repr, Inhabited

namespace Dependencies

def ofClassifications (found : List Classification) : Dependencies :=
  { locals := found.filterMap fun
      | .localFile dependency => some dependency
      | _ => none
    missing := found.filterMap fun
      | .missing dependency => some dependency
      | _ => none
    external := found.filterMap fun
      | .external specifier => some specifier
      | _ => none }

def isEmpty (d : Dependencies) : Bool :=
  d.locals.isEmpty && d.missing.isEmpty && d.external.isEmpty

end Dependencies

end ModuleTrace

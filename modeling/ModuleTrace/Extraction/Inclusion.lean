import ModuleTrace.Extraction.Literal
import ModuleTrace.Syntax.Tree

/-!
# Inclusions

A module includes others by import and export statements with a source, by imports of a
required module, and by calls of an including function with one literal. The specifiers come
in the order of the tree, and repeats stay.
-/

namespace ModuleTrace.Inclusion

open Grammar (Text)

def functionNames : List String := ["require"]

/-- Objects whose function of that name includes a module too. -/
def namespaceNames : List String := ["module"]

variable (source : Text)

def textOf (tree : SyntaxTree) : String :=
  source.slice tree.head.start tree.head.stop

def literal? (tree : SyntaxTree) : Option String :=
  if tree.kind = "string" then some (Literal.unescape (Literal.body (textOf source tree)))
  else if tree.kind = "template_string"
      && !tree.namedChildren.any (fun child => child.kind = "template_substitution") then
    some (Literal.unescape (Literal.body (textOf source tree)))
  else none

def fieldLiteral? (tree : SyntaxTree) (field : String) : Option String :=
  (tree.child? field).bind (literal? source)

def ofImport (tree : SyntaxTree) : List String :=
  if (tree.child? "source").isSome then (fieldLiteral? source tree "source").toList
  else
    tree.children.filterMap fun child =>
      if child.kind = "import_require_clause" then fieldLiteral? source child "source" else none

def isNamespaceCall (callee : SyntaxTree) : Bool :=
  match callee.child? "object", callee.child? "property" with
  | some object, some property =>
      object.kind = "identifier" && namespaceNames.contains (textOf source object)
        && functionNames.contains (textOf source property)
  | _, _ => false

def includes (callee : SyntaxTree) : Bool :=
  if callee.kind = "identifier" then functionNames.contains (textOf source callee)
  else if callee.kind = "member_expression" then isNamespaceCall source callee
  else callee.kind = "import"

/-- The literal of a call that includes a module: its only argument, comments left out. -/
def ofCall? (tree : SyntaxTree) : Option String :=
  match tree.child? "function", tree.child? "arguments" with
  | some callee, some arguments =>
      if includes source callee then
        match arguments.namedChildren.filter fun child => child.kind ≠ "comment" with
        | [argument] => literal? source argument
        | _ => none
      else none
  | _, _ => none

mutual

/-- Specifiers of a tree. Import statements are not searched further; all else is. -/
def specifiers : SyntaxTree → List String
  | .node head children =>
      if head.kind = "import_statement" then ofImport source (.node head children)
      else if head.kind = "export_statement" then
        (fieldLiteral? source (.node head children) "source").toList ++ specifiersOf children
      else if head.kind = "call_expression" then
        (ofCall? source (.node head children)).toList ++ specifiersOf children
      else specifiersOf children

def specifiersOf : List SyntaxTree → List String
  | [] => []
  | tree :: rest => specifiers tree ++ specifiersOf rest

end

end ModuleTrace.Inclusion

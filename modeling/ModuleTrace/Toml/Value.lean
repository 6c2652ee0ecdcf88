/-!
# TOML values

A document is a table. While it is read, tables remember how they came to be, for that decides
whether a later line may add to them: a table with a header of its own is closed to dotted keys,
and one that dotted keys have made is closed to headers.
-/

namespace ModuleTrace

inductive Toml where
  | string (value : String)
  | integer (value : Int)
  | boolean (value : Bool)
  | float
  | dateTime
  | array (items : List Toml)
  | table (entries : List (String × Toml))
  deriving Repr, Inhabited

namespace Toml

def string? : Toml → Option String
  | .string value => some value
  | _ => none

/-- What is known of a table while the document is read. -/
structure Origin where
  /-- The table was made on the way to another, and has no header. -/
  isImplicit : Bool
  /-- The table was made by a dotted key. -/
  isDotted : Bool
  deriving DecidableEq, Repr

inductive Node where
  | value (value : Toml)
  | table (origin : Origin) (entries : List (String × Node))
  /-- An array of tables, each with a header. -/
  | tables (elements : List (List (String × Node)))
  deriving Inhabited

abbrev Entries := List (String × Node)

namespace Entries

/-- Puts a node in the place of the one of its key, or at the end. -/
def set (key : String) (node : Node) : Entries → Entries
  | [] => [(key, node)]
  | (other, old) :: rest =>
      if other = key then (key, node) :: rest else (other, old) :: set key node rest

def onLast (change : Entries → Option Entries) : List Entries → Option (List Entries)
  | [] => none
  | [last] => (change last).map fun last => [last]
  | first :: rest => (onLast change rest).map (first :: ·)

def assign : List String → Toml → Entries → Option Entries
  | [], _, _ => none
  | [key], value, entries =>
      match entries.lookup key with
      | none => some (set key (.value value) entries)
      | some _ => none
  | key :: next :: rest, value, entries =>
      match entries.lookup key with
      | none =>
          (assign (next :: rest) value []).map fun made =>
            set key (.table ⟨true, true⟩ made) entries
      | some (.value _) => none
      | some (.tables elements) =>
          if rest.isEmpty then none
          else
            (onLast (assign (next :: rest) value) elements).map fun elements =>
              set key (.tables elements) entries
      | some (.table origin inner) =>
          if !origin.isImplicit || (rest.isEmpty && !origin.isDotted) then none
          else
            (assign (next :: rest) value inner).map fun inner =>
              set key (.table origin inner) entries

/-- Changes the table at the end of some keys; of arrays of tables the last one counts. Tables
on the way are made. -/
def update : List String → (Entries → Option Entries) → Entries → Option Entries
  | [], change, entries => change entries
  | key :: rest, change, entries =>
      match entries.lookup key with
      | none => (update rest change []).map fun made => set key (.table ⟨true, false⟩ made) entries
      | some (.value _) => none
      | some (.tables elements) =>
          (onLast (update rest change) elements).map fun elements =>
            set key (.tables elements) entries
      | some (.table origin inner) =>
          (update rest change inner).map fun inner => set key (.table origin inner) entries

def openTable (key : String) (entries : Entries) : Option Entries :=
  match entries.lookup key with
  | none => some (set key (.table ⟨false, false⟩ []) entries)
  | some (.table ⟨true, false⟩ inner) => some (set key (.table ⟨false, false⟩ inner) entries)
  | some _ => none

def openElement (key : String) (entries : Entries) : Option Entries :=
  match entries.lookup key with
  | none => some (set key (.tables [[]]) entries)
  | some (.tables elements) => some (set key (.tables (elements ++ [[]])) entries)
  | some _ => none

end Entries

mutual

def Node.toToml : Node → Toml
  | .value value => value
  | .table _ entries => .table (toTomls entries)
  | .tables elements => .array (elementsToToml elements)

def toTomls : List (String × Node) → List (String × Toml)
  | [] => []
  | (key, node) :: rest => (key, node.toToml) :: toTomls rest

def elementsToToml : List (List (String × Node)) → List Toml
  | [] => []
  | entries :: rest => .table (toTomls entries) :: elementsToToml rest

end

end Toml

end ModuleTrace

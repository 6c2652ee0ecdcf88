/-!
# JSON values

An object is a list of members in the order in which they are written out. Numbers keep their
text, since nothing here computes with them.
-/

namespace ModuleTrace

inductive Json where
  | null
  | bool (value : Bool)
  | number (text : String)
  | string (value : String)
  | array (items : List Json)
  | object (members : List (String × Json))
  deriving Repr, Inhabited

namespace Json

def member? (json : Json) (key : String) : Option Json :=
  match json with
  | .object members => members.lookup key
  | _ => none

def string? : Json → Option String
  | .string value => some value
  | _ => none

def bool? : Json → Option Bool
  | .bool value => some value
  | _ => none

def array? : Json → Option (List Json)
  | .array items => some items
  | _ => none

def object? : Json → Option (List (String × Json))
  | .object members => some members
  | _ => none

theorem string?_eq_some_iff {json : Json} {value : String} :
    json.string? = some value ↔ json = string value := by
  cases json <;> simp [string?]

theorem bool?_eq_some_iff {json : Json} {value : Bool} :
    json.bool? = some value ↔ json = bool value := by
  cases json <;> simp [bool?]

theorem array?_eq_some_iff {json : Json} {items : List Json} :
    json.array? = some items ↔ json = array items := by
  cases json <;> simp [array?]

theorem object?_eq_some_iff {json : Json} {members : List (String × Json)} :
    json.object? = some members ↔ json = object members := by
  cases json <;> simp [object?]

def isNull : Json → Bool
  | .null => true
  | _ => false

/-- The strings of an array; other items are left out. -/
def strings (items : List Json) : List String :=
  items.filterMap string?

/-- Some texts are all strings among the items, in their order. -/
def Texts (items : List Json) (texts : List String) : Prop :=
  texts.map string = items.filter (· matches string _)

theorem texts_iff {items : List Json} {texts : List String} :
    Texts items texts ↔ texts = strings items := by
  have hstrings : (strings items).map string = items.filter (· matches string _) := by
    induction items with
    | nil => rfl
    | cons item items ih => cases item <;> simp_all [strings, string?, List.filterMap_cons]
  rw [Texts, ← hstrings]
  exact List.map_inj_right fun _ _ h => string.inj h

/-- Puts a member into an object ordered by its keys; an equal key is replaced. -/
def insertMember (key : String) (value : Json) : List (String × Json) → List (String × Json)
  | [] => [(key, value)]
  | (other, old) :: rest =>
      if key = other then (key, value) :: rest
      else if key < other then (key, value) :: (other, old) :: rest
      else (other, old) :: insertMember key value rest

end Json

end ModuleTrace

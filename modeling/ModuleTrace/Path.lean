/-!
# Paths

A path is a text; its parts are what the text means. Repeated slashes and dots inside a path
mean nothing, so several texts can have the same parts, and two paths of the same parts name
the same file. Joining and cutting keep the text as it was written.
-/

namespace ModuleTrace

structure Path where
  text : String
  deriving DecidableEq, Repr, Inhabited, Hashable

namespace Path

instance : ToString Path := ⟨Path.text⟩

inductive Part where
  | root
  /-- A dot at the head of a relative path. -/
  | here
  | up
  | name (text : String)
  deriving DecidableEq, Repr, Inhabited, Hashable

def splitSlashes : List Char → List (List Char)
  | [] => [[]]
  | c :: cs =>
      if c = '/' then [] :: splitSlashes cs
      else
        match splitSlashes cs with
        | [] => [[c]]
        | piece :: pieces => (c :: piece) :: pieces

def joinSlashes : List (List Char) → List Char
  | [] => []
  | [piece] => piece
  | piece :: pieces => piece ++ '/' :: joinSlashes pieces

theorem splitSlashes_ne_nil (cs : List Char) : splitSlashes cs ≠ [] := by
  cases cs with
  | nil => simp [splitSlashes]
  | cons c cs =>
      by_cases h : c = '/'
      · simp [splitSlashes, h]
      · cases hs : splitSlashes cs <;> simp [splitSlashes, h, hs]

/-- Splitting loses nothing. -/
theorem joinSlashes_splitSlashes (cs : List Char) : joinSlashes (splitSlashes cs) = cs := by
  induction cs with
  | nil => rfl
  | cons c cs ih =>
      by_cases h : c = '/'
      · cases hs : splitSlashes cs with
        | nil => exact absurd hs (splitSlashes_ne_nil cs)
        | cons piece pieces =>
            rw [hs] at ih
            simp [splitSlashes, h, hs, joinSlashes, ih]
      · cases hs : splitSlashes cs with
        | nil => exact absurd hs (splitSlashes_ne_nil cs)
        | cons piece pieces =>
            rw [hs] at ih
            cases pieces <;> simp_all [splitSlashes, joinSlashes]

/-- What a piece of a path means; empty pieces and dots mean nothing. -/
def Part.ofPiece (piece : List Char) : Option Part :=
  if piece = [] || piece = ['.'] then none
  else if piece = ['.', '.'] then some .up
  else some (.name (String.ofList piece))

/-- A text cut into what stands before all names and the pieces behind it. -/
structure Cut where
  lead : Option Part
  pieces : List (List Char)

def Cut.ofPieces : List (List Char) → Cut
  | [] :: piece :: pieces => ⟨some .root, piece :: pieces⟩
  | ['.'] :: pieces => ⟨some .here, pieces⟩
  | pieces => ⟨none, pieces⟩

def cut (p : Path) : Cut :=
  Cut.ofPieces (splitSlashes p.text.toList)

def parts (p : Path) : List Part :=
  let cut := p.cut
  cut.lead.toList ++ cut.pieces.filterMap Part.ofPiece

def same (p q : Path) : Bool :=
  p.parts = q.parts

def isAbsolute (p : Path) : Bool :=
  p.text.toList.head? = some '/'

def ofCut (lead : Option Part) (pieces : List (List Char)) : Path :=
  let body := joinSlashes pieces
  match lead with
  | some .root => ⟨String.ofList ('/' :: body)⟩
  | some _ => ⟨String.ofList (if pieces = [] then ['.'] else '.' :: '/' :: body)⟩
  | none => ⟨String.ofList body⟩

/-- Puts one path behind another; an absolute path stays as it is. -/
def join (p q : Path) : Path :=
  if q.isAbsolute then q
  else if p.text.isEmpty || p.text.toList.getLast? = some '/' then ⟨p.text ++ q.text⟩
  else ⟨p.text ++ "/" ++ q.text⟩

instance : HDiv Path String Path := ⟨fun p name => p.join ⟨name⟩⟩

def Part.text : Part → String
  | .root => "/"
  | .here => "."
  | .up => ".."
  | .name text => text

def ofParts (parts : List Part) : Path :=
  parts.foldl (fun p part => p.join ⟨part.text⟩) ⟨""⟩

def isBlankPiece (piece : List Char) : Bool :=
  (Part.ofPiece piece).isNone

def trimRight (pieces : List (List Char)) : List (List Char) :=
  (pieces.reverse.dropWhile isBlankPiece).reverse

/-- The path without its last part; none for a root and for the empty path. -/
def parent? (p : Path) : Option Path :=
  let cut := p.cut
  match trimRight cut.pieces, cut.lead with
  | [], some .here => some ⟨""⟩
  | [], _ => none
  | pieces, lead => some (ofCut lead (trimRight pieces.dropLast))

def name? (p : Path) : Option String :=
  match p.parts.getLast? with
  | some (.name text) => some text
  | _ => none

/-- A name cut at its last dot, unless that is its first character. -/
def splitName (name : String) : String × Option String :=
  let reversed := name.toList.reverse
  let suffix := reversed.takeWhile (· ≠ '.')
  match reversed.drop suffix.length with
  | _ :: c :: stem => (String.ofList (c :: stem).reverse, some (String.ofList suffix.reverse))
  | _ => (name, none)

def extension? (p : Path) : Option String :=
  p.name?.bind fun name => (splitName name).2

/-- The text without as many characters at its end as the extension has. -/
def withoutSuffix (p : Path) : Path :=
  let suffix := p.extension?.getD ""
  ⟨String.ofList (p.text.toList.take (p.text.length - suffix.length))⟩

/-- Replaces the extension of the last name, and drops what follows the name. Where the text
without its extension ends in dots only, that is left as it is. -/
def withExtension (p : Path) (extension : String) : Path :=
  let base := p.withoutSuffix
  match base.name? with
  | none => base
  | some name =>
      let cut := base.cut
      let pieces := (trimRight cut.pieces).dropLast
      let renamed := (splitName name).1 ++ "." ++ extension
      ofCut cut.lead (pieces ++ [renamed.toList])

/-- Writes an extension behind the text. -/
def append (p : Path) (extension : String) : Path :=
  ⟨p.text ++ "." ++ extension⟩

def isUnder (p base : Path) : Bool :=
  base.parts.isPrefixOf p.parts

def dropParts : Nat → List (List Char) → List (List Char)
  | 0, pieces => pieces
  | _, [] => []
  | n + 1, piece :: pieces =>
      if isBlankPiece piece then dropParts (n + 1) pieces else dropParts n pieces

/-- What is left of a path behind a base that it lies under. -/
def relativeTo? (p base : Path) : Option Path :=
  if p.isUnder base then
    let cut := p.cut
    match base.parts.length, cut.lead with
    | 0, lead => some (ofCut lead (trimRight cut.pieces))
    | n + 1, lead =>
        let rest := dropParts (if lead.isSome then n else n + 1) cut.pieces
        some (ofCut none (trimRight (rest.dropWhile isBlankPiece)))
  else none

def Part.walk : List Part → Part → List Part
  | .name _ :: before, .up => before
  | .root :: before, .up => .root :: before
  | before, .here => before
  | before, part => part :: before

/-- The path without dots, and without steps up where these can be taken; nothing is looked up
on the way. -/
def normalize (p : Path) : Path :=
  ofParts (p.parts.foldl Part.walk []).reverse

/-- The path itself and what it lies in, the nearest first. -/
def ancestorsWithin : Nat → Path → List Path
  | 0, p => [p]
  | fuel + 1, p => p :: (match p.parent? with
      | some parent => ancestorsWithin fuel parent
      | none => [])

def ancestors (p : Path) : List Path :=
  ancestorsWithin p.parts.length p

/-- Order of parts: the root, dots, steps up, then names by their characters. -/
def Part.compare : Part → Part → Ordering
  | .name a, .name b => Ord.compare a b
  | a, b =>
      let rank := fun (part : Part) =>
        match part with
        | .root => 0
        | .here => 1
        | .up => 2
        | .name _ => 3
      Ord.compare (rank a) (rank b)

def compareParts : List Part → List Part → Ordering
  | [], [] => .eq
  | [], _ => .lt
  | _, [] => .gt
  | a :: as, b :: bs =>
      match a.compare b with
      | .eq => compareParts as bs
      | c => c

def compare (p q : Path) : Ordering :=
  compareParts p.parts q.parts

/-- The paths in order; paths of the same parts stay in the order they come in. -/
def sort (paths : List Path) : List Path :=
  paths.mergeSort fun p q => p.compare q != .gt

end Path

end ModuleTrace

import ModuleTrace.Toml.Scalar

/-!
# Reading TOML

A document is a row of lines: headers of tables and of elements of arrays of tables, and keys
with their values. Arrays may go over several lines, tables in braces may not. Arrays and tables
in braces nest at most 79 deep, and a dotted key has at most 79 parts.
-/

namespace ModuleTrace.Toml

def depthLimit : Nat := 79

/-- Drops a comment up to the end of its line; the text of a comment is plain. -/
private def skipComment (cs : List Char) : List Char :=
  match cs with
  | '#' :: rest => rest.dropWhile isPlain
  | _ => cs

private def lineEnd? (cs : List Char) : Option (List Char) :=
  match skipComment (skipBlanks cs) with
  | [] => some []
  | rest => newline? rest

/-- Drops blanks, line ends, and comments that end with a line. -/
private def skipLines : Nat → List Char → List Char
  | 0, cs => cs
  | fuel + 1, cs =>
      let start := skipBlanks cs
      match newline? (skipComment start) with
      | some rest => skipLines fuel rest
      | none => start

private def skipSpace (cs : List Char) : List Char :=
  skipLines cs.length cs

/-! ## Keys -/

private def isBare (c : Char) : Bool :=
  c.isAlphanum || c = '-' || c = '_'

private def simpleKey? (cs : List Char) : Option (String × List Char) :=
  match cs with
  | '\x22' :: rest => lineString? '\x22' rest
  | '\x27' :: rest => lineString? '\x27' rest
  | _ =>
      let name := cs.takeWhile isBare
      if name.isEmpty then none else some (String.ofList name, cs.drop name.length)

private def keyParts? : Nat → List Char → Option (List String × List Char)
  | 0, _ => none
  | fuel + 1, cs => do
      let (part, rest) ← simpleKey? (skipBlanks cs)
      match skipBlanks rest with
      | '.' :: rest => do
          let (parts, rest) ← keyParts? fuel rest
          return (part :: parts, rest)
      | rest => return ([part], rest)

/-- Reads a key; its parts are parted by dots. -/
private def key? (cs : List Char) : Option (List String × List Char) :=
  keyParts? depthLimit cs

private def equals? (cs : List Char) : Option (List Char) :=
  match cs with
  | '=' :: rest => some (skipBlanks rest)
  | _ => none

/-! ## Values -/

private def word? (word : String) (value : Toml) (cs : List Char) : Option (Toml × List Char) :=
  if word.toList.isPrefixOf cs then some (value, cs.drop word.length) else none

private def scalar? (cs : List Char) : Option (Toml × List Char) :=
  match cs with
  | [] => none
  | c :: _ =>
      if c = '\x22' || c = '\x27' then
        (anyString? cs).map fun (text, rest) => (.string text, rest)
      else if c = 't' then word? "true" (.boolean true) cs
      else if c = 'f' then word? "false" (.boolean false) cs
      else number? cs

mutual

private def tomlValue? : Nat → Nat → List Char → Option (Toml × List Char)
  | 0, _, _ => none
  | fuel + 1, depth, cs =>
      match cs with
      | '[' :: rest =>
          match depth with
          | 0 => none
          | depth + 1 => tomlItems? fuel depth [] (skipSpace rest)
      | '\x7b' :: rest =>
          match depth with
          | 0 => none
          | depth + 1 =>
              match skipBlanks rest with
              | '\x7d' :: rest => some (.table [], rest)
              | rest => tomlPairs? fuel depth [] rest
      | cs => scalar? cs

/-- The items of an array up to its bracket; a comma may stand before that. -/
private def tomlItems? : Nat → Nat → List Toml → List Char → Option (Toml × List Char)
  | 0, _, _, _ => none
  | fuel + 1, depth, done, cs =>
      match cs with
      | ']' :: rest => some (.array done.reverse, rest)
      | cs => do
          let (item, rest) ← tomlValue? fuel depth cs
          match skipSpace rest with
          | ',' :: rest => tomlItems? fuel depth (item :: done) (skipSpace rest)
          | ']' :: rest => some (.array (item :: done).reverse, rest)
          | _ => none

private def tomlPairs? : Nat → Nat → Entries → List Char → Option (Toml × List Char)
  | 0, _, _, _ => none
  | fuel + 1, depth, done, cs => do
      let (path, rest) ← key? cs
      let (value, rest) ← tomlValue? fuel depth (← equals? rest)
      let done ← Entries.assign path value done
      match skipBlanks rest with
      | ',' :: rest => tomlPairs? fuel depth done rest
      | '\x7d' :: rest => some (.table (toTomls done), rest)
      | _ => none

end

/-- Reads a value. Every call but the first takes a character, and a pair of calls shares one. -/
private def anyValue? (cs : List Char) : Option (Toml × List Char) :=
  tomlValue? (2 * cs.length + 2) depthLimit cs

/-! ## Documents -/

/-- What was read of a document, and the table that lines belong to. -/
private structure Document where
  entries : Entries := []
  table : List String := []

private def header? (openAt : String → Entries → Option Entries) (closing : List Char)
    (document : Document) (cs : List Char) : Option (Document × List Char) := do
  let (path, rest) ← key? cs
  let key ← path.getLast?
  if closing.isPrefixOf rest then
    let entries ← Entries.update path.dropLast (openAt key) document.entries
    return (⟨entries, path⟩, ← lineEnd? (rest.drop closing.length))
  else none

private def assignment? (document : Document) (cs : List Char) :
    Option (Document × List Char) := do
  let (path, rest) ← key? cs
  let (value, rest) ← anyValue? (← equals? rest)
  let rest ← lineEnd? rest
  let entries ← Entries.update document.table (Entries.assign path value) document.entries
  return ({ document with entries }, rest)

private def line? (document : Document) (cs : List Char) : Option (Document × List Char) :=
  match cs with
  | '[' :: '[' :: rest => header? Entries.openElement [']', ']'] document rest
  | '[' :: rest => header? Entries.openTable [']'] document rest
  | '#' :: _ => (lineEnd? cs).map fun rest => (document, rest)
  | cs => assignment? document cs

private def allLines? : Nat → Document → List Char → Option Document
  | 0, _, _ => none
  | fuel + 1, document, cs =>
      match skipSpace cs with
      | [] => some document
      | rest =>
          match line? document rest with
          | some (document, rest) => allLines? fuel document rest
          | none => none

/-- Reads a document; a mark of byte order may stand before it. -/
def parse? (text : String) : Option (List (String × Toml)) :=
  let cs := match text.toList with
    | '\ufeff' :: rest => rest
    | cs => cs
  (allLines? (cs.length + 1) {} cs).map fun document => toTomls document.entries

end ModuleTrace.Toml

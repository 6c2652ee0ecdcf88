import ModuleTrace.Grammar.Parsing
import ModuleTrace.Script.Layout

/-!
# The lexer

What is read at a position depends on the tokens that the parser expects there: the longest
expected mark or class wins, words are read as a class and told apart afterwards. The module
also says which tokens would mislead the lexer if a state learned them from another state.
-/

namespace ModuleTrace.Script

open Grammar (Text TokenSet Vocabulary ProductionSystem Reading)

structure Lexer where
  isTyped : Bool
  /-- Marks, the longest first. -/
  marks : Array (List Char × Nat)
  classes : Array (Lexeme × Nat)
  /-- The class of words. -/
  word : Nat
  keywords : Std.HashMap String Nat
  keywordSet : TokenSet
  /-- Tokens that recovery looks for. -/
  recoverable : TokenSet
  layout : Array Nat
  deriving Inhabited

namespace Lexer

private def isKeyword (text : String) : Bool :=
  match text.toList with
  | c :: rest =>
      (c.isAlpha || c == '_' || c == '$')
        && rest.all fun c => c.isAlphanum || c == '_' || c == '$'
  | [] => false

def ofVocabulary (v : Vocabulary) (isTyped : Bool) : Lexer :=
  let words := v.words.toList
  let marks := words.filterMap fun (text, n) =>
    if isKeyword text then none else some (text.toList, n)
  let keywords := words.filter fun (text, _) => isKeyword text
  let classes := Lexeme.all.filterMap fun (name, lexeme) =>
    v.lexemes[name]?.map fun n => (lexeme, n)
  let inner := Lexeme.inner.filterMap fun name => v.lexemes[name]?
  let described := words.map Prod.snd ++ classes.map Prod.snd
  { isTyped
    marks := (marks.mergeSort fun a b => b.1.length ≤ a.1.length).toArray
    classes := classes.toArray
    word := v.lexemes.getD "identifier" 0
    keywords := Std.HashMap.ofList keywords
    keywordSet := TokenSet.ofList (keywords.map Prod.snd)
    recoverable := TokenSet.ofList (described.filter fun n => !inner.contains n)
    layout := v.layout }

variable (lx : Lexer)

private def expectsClass (known : TokenSet) (number : Nat) : Bool :=
  known.contains number
    || (number = lx.word && !(known.inter lx.keywordSet).isEmpty)

/-- Tokens that must follow at once: of several the one of highest rank, then the longest. -/
private def glued (t : Text) (known : TokenSet) (i : Nat) : Option (Int × Nat × Nat) :=
  lx.classes.foldl (fun best (lexeme, number) =>
    if lexeme.isGlued && known.contains number then
      match lexeme.read t i, best with
      | none, best => best
      | some stop, none => some (lexeme.rank, number, stop)
      | some stop, some (rank, old, oldStop) =>
          if rank < lexeme.rank || (rank = lexeme.rank && oldStop < stop) then
            some (lexeme.rank, number, stop)
          else some (rank, old, oldStop)
    else best) none

/-- Tokens before which blanks may stand: the longest one. -/
private def spaced (t : Text) (known : TokenSet) (i : Nat) : Option (Nat × Nat) :=
  let mark := (lx.marks.find? fun (text, number) =>
    known.contains number && t.isAt text i).map fun (text, number) => (number, i + text.length)
  lx.classes.foldl (fun best (lexeme, number) =>
    if !lexeme.isGlued && lx.expectsClass known number then
      match lexeme.read t i, best with
      | none, best => best
      | some stop, none => some (number, stop)
      | some stop, some (old, oldStop) =>
          if oldStop < stop then some (number, stop) else some (old, oldStop)
    else best) mark

/-- How far the marks that start several tokens are examined when none of these is there. -/
private def examined (t : Text) (i : Nat) : Nat :=
  let c := t.peek i
  if c == '?' || c == '#' || c == '&' then i + 1
  else if c == '\\' then
    if t.peek (i + 1) == 'x' then t.runEndWithin isHexDigit 1 (i + 2)
    else if t.peek (i + 1) == 'u' then
      if t.peek (i + 2) == '\x7b' then t.runEnd isHexDigit (i + 3)
      else t.runEndWithin isHexDigit 3 (i + 2)
    else i + 1
  else i

/-- Reads a token that is expected; `atEnd` says whether the end of the text is. -/
def read (t : Text) (known : TokenSet) (atEnd : Bool) (i : Nat) : Reading :=
  let start := t.runEnd isBlank i
  let whenSpaced := fun (_ : Unit) =>
    match lx.spaced t known start with
    | some (number, stop) => Reading.token number start stop
    | none =>
        if t.size ≤ start then if atEnd then .token 0 start start else .nothing start start
        else .nothing start (examined t start)
  match lx.glued t known i with
  | none => whenSpaced ()
  | some (rank, number, stop) =>
      if rank ≠ 0 then .token number i stop
      else
        match whenSpaced () with
        | .token other otherStart otherStop =>
            if other ≠ 0 && stop < otherStop then .token other otherStart otherStop
            else .token number i stop
        | .nothing _ _ => .token number i stop

/-- The keyword that a word is. -/
def keyword? (t : Text) (start stop : Nat) : Option Nat :=
  lx.keywords[t.slice start stop]?

private def context (known : Nat → Bool) : LayoutContext :=
  let expects := fun i =>
    match lx.layout[i]? with
    | some number => known number
    | none => false
  { semicolon := expects 0
    templateText := expects 1
    conditionalMark := expects 2
    htmlComment := expects 3
    disjunction := expects 4
    escape := expects 5
    pattern := expects 6
    markupText := expects 7
    signatureEnd := expects 8 }

private def layoutIndex : LayoutToken → Nat
  | .semicolon => 0
  | .templateText => 1
  | .conditionalMark => 2
  | .htmlComment => 3
  | .markupText => 7

/-- Reads a token that depends on layout. -/
def readLayout (t : Text) (known : Nat → Bool) (i : Nat) : Option (Nat × Nat × Nat) :=
  if lx.layout.any known then
    (Layout.scan lx.isTyped (lx.context known) t i).map fun found =>
      (lx.layout.getD (layoutIndex found.token) 0, found.start, found.stop)
  else none

/-- Tokens that can follow each token somewhere in a text. -/
private def followers (s : ProductionSystem) (first : Array TokenSet) : Array TokenSet :=
  let last := s.lastSets
  let pairs := fun (sets : Array TokenSet) (p : Grammar.Production) =>
    (p.steps.zip p.steps.tail).foldl (fun sets (a, b) =>
      (last.getD a.symbol ∅).toList.foldl (fun sets token =>
        sets.modify token (·.union (first.getD b.symbol ∅))) sets) sets
  s.productions.foldl (fun sets ps => ps.foldl pairs sets)
    (Array.replicate s.vocabulary.tokenCount ∅)

private def classBegins (name : String) (c : Char) : Bool :=
  match name with
  | "identifier" => isNameStart c || c == '\\'
  | "number" => c.isDigit || c == '.'
  | "private_property_identifier" | "hash_bang_line" => c == '#'
  | "comment" | "regex_end" => c == '/'
  | "html_character_reference" => c == '&'
  | "jsx_identifier" => c.isAlpha || c == '_' || c == '$'
  | "unescaped_double_jsx_string_fragment" => c != '\x22'
  | "unescaped_single_jsx_string_fragment" => c != '\x27'
  | "unescaped_double_string_fragment" => c != '\x22' && c != '\\' && !isLineEnd c
  | "unescaped_single_string_fragment" => c != '\x27' && c != '\\' && !isLineEnd c
  | "escape_sequence" => c == '\\'
  | "regex_pattern" => c != '/' && c != '\n'
  | "regex_flags" => 'a' ≤ c && c ≤ 'z'
  | "static_get" => c == 's'
  | _ => false

private def fragments : List String :=
  ["unescaped_double_jsx_string_fragment", "unescaped_single_jsx_string_fragment",
   "unescaped_double_string_fragment", "unescaped_single_string_fragment", "regex_pattern"]

/-- What the lexer knows of a token. -/
private inductive Spelling where
  | mark (chars : List Char)
  | keyword (text : String)
  | kind (name : String)
  | none

private structure Usage where
  spellings : Array Spelling
  followers : Array TokenSet

private def usage (s : ProductionSystem) (first : Array TokenSet) : Usage :=
  let v := s.vocabulary
  let words := v.words.toList.map fun (text, n) =>
    (n, if isKeyword text then Spelling.keyword text else .mark text.toList)
  let classes := v.lexemes.toList.map fun (name, n) => (n, Spelling.kind name)
  { spellings := (words ++ classes).foldl (fun table (n, spelling) => table.set! n spelling)
      (Array.replicate v.tokenCount .none)
    followers := followers s first }

private def Usage.begins (u : Usage) (token : Nat) (c : Char) : Bool :=
  match u.spellings.getD token .none with
  | .mark (d :: _) => c == d
  | .keyword text => text.toList.head? == some c
  | .kind name => classBegins name c
  | _ => false

private def Usage.canFollow (u : Usage) (token : Nat) (c : Char) : Bool :=
  (u.followers.getD token ∅).toList.any fun next => next ≠ 0 && u.begins next c

/-- Whether a state that knows `known` would read another token in its place, were it to
learn `new`. -/
private def Usage.clash (u : Usage) (new known : Nat) : Bool :=
  if new = known || new = 0 || known = 0 then false
  else
    match u.spellings.getD new .none, u.spellings.getD known .none with
    | _, .none | .none, _ => false
    | .mark a, .mark b =>
        match a.drop b.length with
        | c :: _ => b.isPrefixOf a && u.canFollow known c
        | [] => false
    | .mark a, .kind "identifier" => a = "$\x7b".toList && u.canFollow known '\x7b'
    | .kind name, other =>
        if fragments.contains name then true
        else
          match name, other with
          | "regex_end", .mark b | "comment", .mark b => b = ['/']
          | "html_character_reference", .mark b => b = ['&']
          | "number", .mark b => b = ['.'] && u.canFollow known '0'
          | "regex_flags", .kind "identifier" | "regex_flags", .keyword _ => true
          | "jsx_identifier", .kind "identifier" | "jsx_identifier", .keyword _ => true
          | "static_get", .kind "identifier" => true
          | "static_get", .keyword text => text = "static"
          | _, _ => false
    | _, _ => false

/-- For each token, the tokens that it would mislead the lexer about. -/
def clashes (s : ProductionSystem) (first : Array TokenSet) : Array TokenSet :=
  let u := usage s first
  let tokens := List.range s.vocabulary.tokenCount
  (tokens.map fun new => TokenSet.ofList (tokens.filter (u.clash new))).toArray

end Lexer

end ModuleTrace.Script

import ModuleTrace.Affix

/-!
# JSON with comments

Configuration files may hold comments and a comma before a closing bracket. Both are taken out,
and strings stay as they are.
-/

namespace ModuleTrace.Json

/-- A string from behind its opening quote, up to and with its closing quote, and what follows
it. -/
def spanString : List Char → List Char × List Char
  | [] => ([], [])
  | '\\' :: c :: rest =>
      let (text, after) := spanString rest
      ('\\' :: c :: text, after)
  | c :: rest =>
      if c = '\x22' then ([c], rest)
      else
        let (text, after) := spanString rest
        (c :: text, after)

theorem spanString_append (cs : List Char) : (spanString cs).1 ++ (spanString cs).2 = cs := by
  fun_induction spanString cs <;> simp_all

theorem spanString_length (cs : List Char) : (spanString cs).2.length ≤ cs.length := by
  have := congrArg List.length (spanString_append cs)
  simp at this
  omega

/-- The line ends of a comment from behind its opening, and what follows the comment. -/
def spanComment : List Char → List Char × List Char
  | '*' :: '/' :: rest => ([], rest)
  | c :: d :: rest =>
      let (lines, after) := spanComment (d :: rest)
      (if c = '\n' then c :: lines else lines, after)
  | _ => ([], [])

theorem spanComment_length (cs : List Char) : (spanComment cs).2.length ≤ cs.length := by
  fun_induction spanComment cs <;> simp_all <;> omega

/-- Takes comments out. Line ends stay, so that positions keep their lines. -/
def dropComments : List Char → List Char
  | [] => []
  | '/' :: '/' :: rest => dropComments (rest.dropWhile (· ≠ '\n'))
  | '/' :: '*' :: rest =>
      let comment := spanComment rest
      comment.1 ++ dropComments comment.2
  | c :: rest =>
      if c = '\x22' then
        let string := spanString rest
        c :: string.1 ++ dropComments string.2
      else c :: dropComments rest
termination_by cs => cs.length
decreasing_by
  · have : (rest.dropWhile (· ≠ '\n')).length ≤ rest.length :=
      (List.dropWhile_sublist _).length_le
    simp only [List.length_cons]
    omega
  · have := spanComment_length rest
    simp
    omega
  · have := spanString_length rest
    simp
    omega
  · simp

def closesNext (cs : List Char) : Bool :=
  match cs.dropWhile Affix.isSpace with
  | c :: _ => c = '\x7d' || c = ']'
  | [] => false

/-- Takes out every comma that only white space separates from a closing bracket. -/
def dropTrailingCommas : List Char → List Char
  | [] => []
  | c :: rest =>
      if c = ',' && closesNext rest then dropTrailingCommas rest
      else if c = '\x22' then
        let string := spanString rest
        c :: string.1 ++ dropTrailingCommas string.2
      else c :: dropTrailingCommas rest
termination_by cs => cs.length
decreasing_by
  · simp
  · have := spanString_length rest
    simp
    omega
  · simp

def strict (text : String) : String :=
  String.ofList (dropTrailingCommas (dropComments text.toList))

end ModuleTrace.Json

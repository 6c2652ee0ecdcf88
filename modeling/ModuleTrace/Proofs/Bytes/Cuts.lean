import ModuleTrace.Extraction.Literal
import ModuleTrace.Proofs.Bytes.Slices
import ModuleTrace.Proofs.Project.Aliases
import ModuleTrace.Resolution.Classifier
import ModuleTrace.Suite.Rule

/-!
# Texts cut by bytes

Names of packages, patterns, what they capture, literals and templates, read off positions in
bytes. Each is what the characters of the text give, so none of the cuts fails: a position comes
from a character that was found, from a start or an end that was tested for, or from a delimiter
of one byte.
-/

namespace ModuleTrace.Bytes

@[simp] theorem ok_bind {α β : Type} (a : α) (f : α → Except Panic β) :
    (Except.ok a >>= f) = f a := rfl

/-! ## Names of packages -/

def namePart (text : String) : Except Panic String :=
  if Affix.begins "@" text then
    match first? '/' text with
    | none => return text
    | some slash => do
        match first? '/' (← onwards text (slash + 1)) with
        | none => return text
        | some next => upTo text (slash + 1 + next)
  else beforeFirst '/' text

def packageName (specifier : String) : Except Panic String :=
  namePart ((Affix.dropStart? Specifier.scheme specifier).getD specifier)

theorem begins_at_iff {text : String} :
    Affix.begins "@" text = true ↔ text.toList.head? = some '@' := by
  rw [Affix.begins_iff, List.head?_eq_some_iff]
  constructor
  · rintro ⟨rest, rfl⟩
    exact ⟨rest.toList, by simp⟩
  · rintro ⟨rest, hrest⟩
    exact ⟨String.ofList rest, String.toList_inj.1 (by simpa using hrest)⟩

theorem namePart_of_notMem {text : String} (h : '/' ∉ text.toList) :
    namePart text = .ok text := by
  simp only [namePart, first?_eq_none h, beforeFirst_of_notMem h]
  split <;> rfl

/-- A name without a scope ends at the first slash. -/
theorem namePart_unscoped {front behind : String} (hfront : '/' ∉ front.toList)
    (hscope : Affix.begins "@" (front ++ String.singleton '/' ++ behind) = false) :
    namePart (front ++ String.singleton '/' ++ behind) = .ok front ∧
      Specifier.packagePart (front ++ String.singleton '/' ++ behind).toList = front.toList := by
  constructor
  · rw [namePart, hscope]
    exact beforeFirst_append hfront behind
  · have hhead : front.toList.head? ≠ some '@' := by
      intro hhead
      have hbegins := begins_at_iff.2 (by simp [List.head?_append, hhead] :
        (front ++ String.singleton '/' ++ behind).toList.head? = some '@')
      rw [hscope] at hbegins
      cases hbegins
    simpa using Specifier.packagePart_append_slash (Specifier.packagePart_of_notMem hfront)
      (fun h => absurd h hhead) behind.toList

/-- A name with a scope ends at the second slash, which is looked for behind the first one. -/
theorem namePart_scoped {front behind : String} (hfront : '/' ∉ front.toList)
    (hscope : Affix.begins "@" (front ++ String.singleton '/' ++ behind) = true) :
    ∃ name, namePart (front ++ String.singleton '/' ++ behind) = .ok name ∧
      Specifier.packagePart (front ++ String.singleton '/' ++ behind).toList = name.toList := by
  have hhead : front.toList.head? = some '@' := by
    have hchars := begins_at_iff.1 hscope
    cases hcs : front.toList with
    | nil => simp [hcs] at hchars
    | cons c cs => simpa [hcs] using hchars
  have honwards : onwards (front ++ String.singleton '/' ++ behind) (front.utf8ByteSize + 1)
      = .ok behind := onwards_mark rfl front behind
  by_cases hslash : '/' ∈ behind.toList
  · obtain ⟨inside, rest, rfl, hinside⟩ := exists_first hslash
    have hwhole := Specifier.packagePart_scoped hfront hhead hinside
    refine ⟨front ++ String.singleton '/' ++ inside, ?_, ?_⟩
    · have hsize : front.utf8ByteSize + 1 + inside.utf8ByteSize
          = (front ++ String.singleton '/' ++ inside).utf8ByteSize := by
        rw [String.utf8ByteSize_append, String.utf8ByteSize_append, String.utf8ByteSize_singleton]
        rfl
      simp only [namePart, hscope, first?_append hfront, honwards, ok_bind, first?_append hinside,
        if_true, hsize]
      rw [← String.append_assoc, ← String.append_assoc]
      exact upTo_mark '/' _ rest
    · simpa using Specifier.packagePart_append_slash hwhole (fun _ => by simp) rest.toList
  · refine ⟨front ++ String.singleton '/' ++ behind, ?_, ?_⟩
    · simp only [namePart, hscope, first?_append hfront, honwards, ok_bind, first?_eq_none hslash,
        if_true]
      rfl
    · simpa using Specifier.packagePart_scoped hfront hhead hslash

theorem namePart_eq (text : String) :
    namePart text = .ok (String.ofList (Specifier.packagePart text.toList)) := by
  by_cases hslash : '/' ∈ text.toList
  · obtain ⟨front, behind, rfl, hfront⟩ := exists_first hslash
    cases hscope : Affix.begins "@" (front ++ String.singleton '/' ++ behind) with
    | false =>
        obtain ⟨hname, hpart⟩ := namePart_unscoped hfront hscope
        rw [hname, hpart, String.ofList_toList]
    | true =>
        obtain ⟨name, hname, hpart⟩ := namePart_scoped hfront hscope
        rw [hname, hpart, String.ofList_toList]
  · rw [namePart_of_notMem hslash, Specifier.packagePart_of_notMem hslash, String.ofList_toList]

theorem packageName_eq (specifier : String) :
    packageName specifier = .ok (Specifier.packageName specifier) :=
  namePart_eq _

/-- Without a scheme, the name of the package is what the specifier starts with. -/
theorem exists_packageName_append {specifier : String}
    (h : Specifier.hasScheme specifier = false) :
    ∃ rest, specifier = Specifier.packageName specifier ++ rest := by
  rcases Specifier.eq_packageName_or h with hname | ⟨rest, hrest⟩
  · exact ⟨"", by rw [String.append_empty]; exact hname⟩
  · exact ⟨"/" ++ rest, by rw [← String.append_assoc]; exact hrest⟩

/-- What stands behind as many bytes as the name has. -/
def subpath (name specifier : String) : Except Panic String := do
  return Affix.trimLeft (· = '/') (← onwards specifier name.utf8ByteSize)

theorem subpath_eq {specifier : String} (h : Specifier.hasScheme specifier = false) :
    subpath (Specifier.packageName specifier) specifier
      = .ok (Classifier.subpath (Specifier.packageName specifier) specifier) := by
  obtain ⟨rest, hrest⟩ := exists_packageName_append h
  generalize Specifier.packageName specifier = name at hrest
  subst hrest
  rw [subpath, onwards_append, Classifier.subpath, Affix.dropStart?_eq_some_iff.2 rfl]
  rfl

/-- With the scheme, the size of the name may end inside a character of the specifier. -/
example : subpath (Specifier.packageName "node:ééé") "node:ééé"
    = .error (.slice "node:ééé" 6 11) := by decide

/-! ## Patterns -/

def pattern (text : String) : Except Panic Pattern :=
  match first? Pattern.wildcard text with
  | none => return ⟨text, none⟩
  | some position => do
      let start ← upTo text position
      let stop ← onwards text (position + 1)
      return ⟨start, some stop⟩

theorem pattern_eq (text : String) : pattern text = .ok (Pattern.ofString text) := by
  by_cases hwild : Pattern.wildcard ∈ text.toList
  · obtain ⟨start, stop, rfl, hstart⟩ := exists_first hwild
    have hstop : onwards (start ++ String.singleton Pattern.wildcard ++ stop)
        (start.utf8ByteSize + 1) = .ok stop := onwards_mark rfl start stop
    have htext : start ++ String.singleton Pattern.wildcard ++ stop = start ++ "*" ++ stop := rfl
    simp only [pattern, first?_append hstart, upTo_mark, hstop, ok_bind]
    rw [htext, Pattern.ofString_append hstart]
    rfl
  · rw [pattern, first?_eq_none hwild, Pattern.ofString_of_notMem hwild]
    rfl

/-- What stands between the start of a pattern and its stop, where these do not overlap. -/
def capture (p : Pattern) (specifier : String) : Except Panic (Option String) :=
  match p.stop with
  | none => return if specifier = p.start then some "" else none
  | some stop =>
      if Affix.begins p.start specifier && Affix.ends stop specifier then do
        let limit ← minus specifier.utf8ByteSize stop.utf8ByteSize
        if p.start.utf8ByteSize ≤ limit then
          return some (← slice specifier p.start.utf8ByteSize limit)
        else return none
      else return none

/-- Of two starts of one text, the one of fewer bytes is a start of the other. -/
theorem exists_append_of_size_le {front other rest behind : String}
    (h : front ++ rest = other ++ behind) (hle : front.utf8ByteSize ≤ other.utf8ByteSize) :
    ∃ inside, other = front ++ inside := by
  have hchars : front.toList ++ rest.toList = other.toList ++ behind.toList := by
    simpa using congrArg String.toList h
  rcases List.append_eq_append_iff.1 hchars with ⟨cs, hother, -⟩ | ⟨cs, hfront, -⟩
  · exact ⟨String.ofList cs, String.toList_inj.1 (by simpa using hother)⟩
  · have hsplit : front = other ++ String.ofList cs := String.toList_inj.1 (by simpa using hfront)
    have hempty : String.ofList cs = "" := by
      rw [hsplit, String.utf8ByteSize_append] at hle
      exact String.utf8ByteSize_eq_zero_iff.1 (by omega)
    exact ⟨"", by rw [hsplit, hempty, String.append_empty, String.append_empty]⟩

theorem capture_between (start captured stop : String) :
    capture ⟨start, some stop⟩ (start ++ captured ++ stop) = .ok (some captured) := by
  have hbegins : Affix.begins start (start ++ captured ++ stop) = true :=
    Affix.begins_iff.2 ⟨captured ++ stop, String.append_assoc ..⟩
  have hends : Affix.ends stop (start ++ captured ++ stop) = true :=
    Affix.ends_iff.2 ⟨start ++ captured, rfl⟩
  have hminus : minus (start ++ captured ++ stop).utf8ByteSize stop.utf8ByteSize
      = .ok (start.utf8ByteSize + captured.utf8ByteSize) := by
    rw [String.utf8ByteSize_append, minus_add, String.utf8ByteSize_append]
  simp only [capture, hbegins, hends, Bool.and_self, if_true, hminus, ok_bind, Nat.le_add_right,
    slice_append]
  rfl

/-- Both ends of a pattern may be there and overlap; then nothing is cut. -/
theorem capture_nowhere {start stop specifier : String}
    (h : ∀ captured, specifier ≠ start ++ captured ++ stop) :
    capture ⟨start, some stop⟩ specifier = .ok none := by
  unfold capture
  dsimp only
  split
  · rename_i hboth
    obtain ⟨hbegins, hends⟩ := Bool.and_eq_true_iff.1 hboth
    obtain ⟨rest, hrest⟩ := Affix.begins_iff.1 hbegins
    obtain ⟨front, rfl⟩ := Affix.ends_iff.1 hends
    have hoverlap : ¬ start.utf8ByteSize ≤ front.utf8ByteSize := by
      intro hle
      obtain ⟨captured, rfl⟩ := exists_append_of_size_le hrest.symm hle
      exact h captured rfl
    rw [String.utf8ByteSize_append, minus_add, ok_bind, if_neg hoverlap]
    rfl
  · rfl

theorem capture_eq (p : Pattern) (specifier : String) :
    capture p specifier = .ok (p.capture? specifier) := by
  obtain ⟨start, stop?⟩ := p
  cases stop? with
  | none => rfl
  | some stop =>
      cases hcaptured : Pattern.capture? ⟨start, some stop⟩ specifier with
      | some captured =>
          obtain rfl := Pattern.capture?_wild.1 hcaptured
          exact capture_between start captured stop
      | none =>
          refine capture_nowhere fun captured heq => ?_
          rw [Pattern.capture?_wild.2 heq] at hcaptured
          cases hcaptured

def candidates (specifier : String) (a : Alias) : Except Panic (List AliasCandidate) := do
  match ← capture a.pattern specifier with
  | none => return []
  | some captured =>
      return a.targets.map fun target => ⟨a.text, target.raw, target.path captured⟩

def allCandidates (aliases : List Alias) (specifier : String) :
    Except Panic (List AliasCandidate) := do
  return (← aliases.mapM (candidates specifier)).flatten

theorem candidates_eq (specifier : String) (a : Alias) :
    candidates specifier a = .ok (a.candidates specifier) := by
  rw [candidates, capture_eq, ok_bind, Alias.candidates]
  cases a.pattern.capture? specifier <;> rfl

theorem allCandidates_eq (aliases : List Alias) (specifier : String) :
    allCandidates aliases specifier = .ok (Alias.allCandidates aliases specifier) := by
  have heach : candidates specifier = fun a => pure (a.candidates specifier) :=
    funext fun a => candidates_eq specifier a
  rw [allCandidates, heach, List.mapM_pure, Alias.allCandidates, List.flatMap_def]
  rfl

/-! ## Literals -/

/-- A text without its first byte and its last one. -/
def literalBody (text : String) : Except Panic String :=
  if 2 ≤ text.utf8ByteSize then do
    let stop ← minus text.utf8ByteSize 1
    slice text 1 stop
  else return ""

theorem literalBody_eq {opening closing : Char} (hopening : opening.utf8Size = 1)
    (hclosing : closing.utf8Size = 1) (inside : String) :
    literalBody (String.singleton opening ++ inside ++ String.singleton closing) = .ok inside ∧
      Literal.body (String.singleton opening ++ inside ++ String.singleton closing) = inside := by
  constructor
  · have hsize : (String.singleton opening ++ inside ++ String.singleton closing).utf8ByteSize
        = 1 + inside.utf8ByteSize + 1 := by
      simp [hopening, hclosing]
    have hslice := slice_append (String.singleton opening) inside (String.singleton closing)
    rw [String.utf8ByteSize_singleton, hopening] at hslice
    rw [literalBody, hsize, if_pos (by omega), minus_add, ok_bind, hslice]
  · have hchars : (String.singleton opening ++ inside ++ String.singleton closing).toList
        = opening :: (inside.toList ++ [closing]) := by simp
    rw [Literal.body, hchars]
    cases hinside : inside.toList with
    | nil =>
        have hempty : inside = "" := String.toList_inj.1 hinside
        rw [hempty]
        rfl
    | cons c cs =>
        have hlast : (c :: (cs ++ [closing])).dropLast = c :: cs := by
          rw [← List.cons_append, List.dropLast_concat]
        rw [List.cons_append]
        dsimp only
        rw [hlast, ← hinside, String.ofList_toList]

/-! ## Templates -/

/-- The directory part of what stands before the first brace. -/
def directoryPart (text : String) : Except Panic Path := do
  return ⟨← beforeLast '/' (← beforeFirst '\x7b' text)⟩

def snapshotDirectory (rule : MatchRule) (directory file : Path) : Except Panic Path := do
  let filled := (rule.placeholders directory file).foldl
    (fun text entry => Affix.replace (MatchRule.placeholder entry.1) entry.2 text)
    (rule.snapshotTemplate.getD MatchRule.usualTemplate)
  let part ← directoryPart filled
  if part.isAbsolute then return part.normalize else return (directory.join part).normalize

theorem directoryPart_eq (text : String) :
    directoryPart text = .ok (MatchRule.directoryPart text) := by
  rw [directoryPart, beforeFirst_eq, ok_bind, beforeLast_eq, ok_bind, MatchRule.directoryPart,
    String.toList_ofList]
  rfl

theorem snapshotDirectory_eq (rule : MatchRule) (directory file : Path) :
    snapshotDirectory rule directory file = .ok (rule.snapshotDirectory directory file) := by
  rw [snapshotDirectory, directoryPart_eq, ok_bind, MatchRule.snapshotDirectory, Path.join]
  split <;> rfl

end ModuleTrace.Bytes

/-!
# Text at the ends of a text

Tests for and removal of text at the start and the end of a string, character by character.
-/

namespace ModuleTrace.Affix

def after? (start : List Char) (cs : List Char) : Option (List Char) :=
  match start, cs with
  | [], cs => some cs
  | _ :: _, [] => none
  | a :: start, c :: cs => if a = c then after? start cs else none

theorem after?_eq_some_iff {start cs rest : List Char} :
    after? start cs = some rest ↔ cs = start ++ rest := by
  induction start generalizing cs with
  | nil => simp [after?, eq_comm]
  | cons a start ih =>
      cases cs with
      | nil => simp [after?]
      | cons c cs =>
          by_cases h : a = c
          · simp [after?, h, ih]
          · simp [after?, h, Ne.symm h]

/-- A list is cut where a character stands for the first time. -/
theorem cut_append {c : Char} {before rest : List Char} (h : c ∉ before)
    (hrest : rest = [] ∨ rest.head? = some c) :
    (before ++ rest).takeWhile (· ≠ c) = before ∧ (before ++ rest).dropWhile (· ≠ c) = rest := by
  have hother : ∀ a ∈ before, decide (a ≠ c) = true := by
    intro a ha
    exact decide_eq_true fun heq => h (heq ▸ ha)
  rw [List.takeWhile_append_of_pos hother, List.dropWhile_append_of_pos hother]
  rcases hrest with rfl | hhead
  · simp
  · obtain ⟨tail, rfl⟩ := List.head?_eq_some_iff.1 hhead
    simp

def begins (start s : String) : Bool :=
  (after? start.toList s.toList).isSome

def dropStart? (start s : String) : Option String :=
  (after? start.toList s.toList).map String.ofList

theorem dropStart?_eq_some_iff {start s rest : String} :
    dropStart? start s = some rest ↔ s = start ++ rest := by
  rw [dropStart?, Option.map_eq_some_iff]
  constructor
  · rintro ⟨cs, hcs, rfl⟩
    exact String.toList_inj.1 (by simp [after?_eq_some_iff.1 hcs])
  · rintro rfl
    exact ⟨rest.toList, after?_eq_some_iff.2 (by simp), by simp⟩

theorem begins_iff {start s : String} : begins start s = true ↔ ∃ rest, s = start ++ rest := by
  simp only [← dropStart?_eq_some_iff, ← Option.isSome_iff_exists, dropStart?, Option.isSome_map,
    begins]

def ends (stop s : String) : Bool :=
  (after? stop.toList.reverse s.toList.reverse).isSome

theorem ends_iff {stop s : String} : ends stop s = true ↔ ∃ front, s = front ++ stop := by
  rw [ends, Option.isSome_iff_exists]
  constructor
  · rintro ⟨reversed, hreversed⟩
    refine ⟨String.ofList reversed.reverse, String.toList_inj.1 ?_⟩
    simpa using congrArg List.reverse (after?_eq_some_iff.1 hreversed)
  · rintro ⟨front, rfl⟩
    exact ⟨front.toList.reverse, after?_eq_some_iff.2 (by simp)⟩

def trimLeft (p : Char → Bool) (s : String) : String :=
  String.ofList (s.toList.dropWhile p)

def trimRight (p : Char → Bool) (s : String) : String :=
  String.ofList (s.toList.reverse.dropWhile p).reverse

/-- Lower-case form of ASCII letters; other characters stay. -/
def lower (s : String) : String :=
  String.ofList (s.toList.map Char.toLower)

def split (mark : Char) (s : String) : List String :=
  let pieces := s.toList.foldr (fun c (pieces : List (List Char)) =>
    if c = mark then [] :: pieces
    else
      match pieces with
      | [] => [[c]]
      | piece :: rest => (c :: piece) :: rest) [[]]
  pieces.map String.ofList

private def replaceWithin (mark new : List Char) : Nat → List Char → List Char
  | 0, cs => cs
  | fuel + 1, cs =>
      match after? mark cs with
      | some rest => new ++ replaceWithin mark new fuel rest
      | none =>
          match cs with
          | [] => []
          | c :: cs => c :: replaceWithin mark new fuel cs

/-- Puts characters in the place of every occurrence of a mark, from the left. -/
def replaceAll (mark new cs : List Char) : List Char :=
  replaceWithin mark new cs.length cs

/-- A mark that is found takes characters away, so the length of a list bounds the steps. -/
private theorem replaceWithin_congr {mark : List Char} (hmark : mark ≠ []) (new : List Char)
    {fuel more : Nat} {cs : List Char} (h : cs.length ≤ fuel) (hmore : cs.length ≤ more) :
    replaceWithin mark new fuel cs = replaceWithin mark new more cs := by
  have hnil : ∀ n, replaceWithin mark new n [] = [] := by
    intro n
    cases mark with
    | nil => exact absurd rfl hmark
    | cons a start => cases n <;> rfl
  induction fuel generalizing more cs with
  | zero =>
      obtain rfl : cs = [] := List.length_eq_zero_iff.1 (Nat.le_zero.1 h)
      rw [hnil, hnil]
  | succ fuel ih =>
      cases more with
      | zero =>
          obtain rfl : cs = [] := List.length_eq_zero_iff.1 (Nat.le_zero.1 hmore)
          rw [hnil, hnil]
      | succ more =>
          unfold replaceWithin
          cases hafter : after? mark cs with
          | some rest =>
              have hlength := congrArg List.length (after?_eq_some_iff.1 hafter)
              have hpos := List.length_pos_iff.2 hmark
              rw [List.length_append] at hlength
              have hrest : rest.length ≤ fuel := by omega
              have hrest' : rest.length ≤ more := by omega
              simp only [ih hrest hrest']
          | none =>
              cases cs with
              | nil => rfl
              | cons c cs =>
                  simp only [ih (Nat.le_of_succ_le_succ h) (Nat.le_of_succ_le_succ hmore)]

theorem replaceAll_append {mark : List Char} (hmark : mark ≠ []) (new cs : List Char) :
    replaceAll mark new (mark ++ cs) = new ++ replaceAll mark new cs := by
  have hpos := List.length_pos_iff.2 hmark
  have hlength : (mark ++ cs).length = (mark.length - 1 + cs.length) + 1 := by
    rw [List.length_append]
    omega
  have hafter : after? mark (mark ++ cs) = some cs := after?_eq_some_iff.2 rfl
  rw [replaceAll, hlength]
  simp only [replaceWithin, hafter]
  exact congrArg (new ++ ·) (replaceWithin_congr hmark new (by omega) (Nat.le_refl _))

theorem replaceAll_cons {mark cs : List Char} {c : Char} (h : ¬ mark <+: c :: cs)
    (new : List Char) : replaceAll mark new (c :: cs) = c :: replaceAll mark new cs := by
  have hafter : after? mark (c :: cs) = none := by
    cases hfound : after? mark (c :: cs) with
    | none => rfl
    | some rest => exact absurd ⟨rest, (after?_eq_some_iff.1 hfound).symm⟩ h
  simp only [replaceAll, List.length_cons, replaceWithin, hafter]

def replace (mark new s : String) : String :=
  String.ofList (replaceAll mark.toList new.toList s.toList)

def joinWith (mark : String) : List String → String
  | [] => ""
  | [s] => s
  | s :: rest => s ++ mark ++ joinWith mark rest

def isSpace (c : Char) : Bool :=
  let n := c.toNat
  (0x09 ≤ n && n ≤ 0x0d) || n == 0x20 || n == 0x85 || n == 0xa0 || n == 0x1680
    || (0x2000 ≤ n && n ≤ 0x200a) || n == 0x2028 || n == 0x2029 || n == 0x202f || n == 0x205f
    || n == 0x3000

def trimEnd (s : String) : String :=
  trimRight isSpace s

def isBlank (s : String) : Bool :=
  s.toList.all isSpace

end ModuleTrace.Affix

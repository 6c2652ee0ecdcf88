import Mathlib.Data.List.Basic
import ModuleTrace.Affix

/-!
# Slices of texts by bytes

A position in a text counts the bytes in front of it, and a text can be cut only between two of its
characters. What is found by its characters, or stands at an end of the text, is such a place.
-/

namespace ModuleTrace.Bytes

/-! ## Cutting a text -/

/-- A place in the bytes of a text at which one of its characters begins, or its end. -/
def IsBoundary (text : String) (position : Nat) : Prop :=
  (String.Pos.Raw.mk position).IsValid text

instance (text : String) (position : Nat) : Decidable (IsBoundary text position) :=
  inferInstanceAs (Decidable ((String.Pos.Raw.mk position).IsValid text))

inductive Panic where
  /-- The text has no such slice. -/
  | slice (text : String) (start stop : Nat)
  /-- More is taken away than there is. -/
  | negative (size taken : Nat)
  deriving DecidableEq, Repr

def slice (text : String) (start stop : Nat) : Except Panic String :=
  if h : start ≤ stop ∧ IsBoundary text start ∧ IsBoundary text stop then
    .ok (text.extract ⟨⟨start⟩, h.2.1⟩ ⟨⟨stop⟩, h.2.2⟩)
  else .error (.slice text start stop)

def upTo (text : String) (stop : Nat) : Except Panic String :=
  slice text 0 stop

def onwards (text : String) (start : Nat) : Except Panic String :=
  slice text start text.utf8ByteSize

def minus (size taken : Nat) : Except Panic Nat :=
  if taken ≤ size then .ok (size - taken) else .error (.negative size taken)

theorem slice_isOk_iff {text : String} {start stop : Nat} :
    (∃ part, slice text start stop = .ok part) ↔
      start ≤ stop ∧ stop ≤ text.utf8ByteSize ∧ IsBoundary text start ∧ IsBoundary text stop := by
  unfold slice
  constructor
  · rintro ⟨part, hpart⟩
    split at hpart
    · rename_i h
      exact ⟨h.1, h.2.2.le_utf8ByteSize, h.2⟩
    · cases hpart
  · rintro ⟨hle, -, hplaces⟩
    exact ⟨_, dif_pos ⟨hle, hplaces⟩⟩

/-- A text in three parts is cut where they meet. -/
theorem slice_append (before part after : String) :
    slice (before ++ part ++ after) before.utf8ByteSize
      (before.utf8ByteSize + part.utf8ByteSize) = .ok part := by
  have hstart : IsBoundary (before ++ part ++ after) before.utf8ByteSize :=
    String.Pos.Raw.isValid_iff_exists_append.2 ⟨before, part ++ after, String.append_assoc .., rfl⟩
  have hstop : IsBoundary (before ++ part ++ after) (before.utf8ByteSize + part.utf8ByteSize) := by
    refine String.Pos.Raw.isValid_iff_exists_append.2 ⟨before ++ part, after, rfl, ?_⟩
    simp [String.Pos.Raw.ext_iff]
  have hle : before.utf8ByteSize ≤ before.utf8ByteSize + part.utf8ByteSize := Nat.le_add_right ..
  rw [slice, dif_pos ⟨hle, hstart, hstop⟩, String.extract_eq_copy_slice _ _ hle]
  refine congrArg Except.ok (String.copy_slice_eq_iff_splits.2 ⟨before, after, ?_, ?_⟩).2
  · exact ⟨String.append_assoc .., rfl⟩
  · exact ⟨rfl, by simp [String.Pos.Raw.ext_iff]⟩

theorem upTo_append (before after : String) :
    upTo (before ++ after) before.utf8ByteSize = .ok before := by
  simpa [upTo] using slice_append "" before after

theorem onwards_append (before after : String) :
    onwards (before ++ after) before.utf8ByteSize = .ok after := by
  simpa [onwards] using slice_append before after ""

theorem minus_add (size taken : Nat) : minus (size + taken) taken = .ok size := by
  simp [minus]

/-! ## Finding a character -/

/-- Where a character stands in a text that begins at some position. -/
def positionsFrom (mark : Char) : Nat → List Char → List Nat
  | _, [] => []
  | position, c :: cs =>
      let behind := positionsFrom mark (position + c.utf8Size) cs
      if c = mark then position :: behind else behind

def first? (mark : Char) (text : String) : Option Nat :=
  (positionsFrom mark 0 text.toList).head?

def last? (mark : Char) (text : String) : Option Nat :=
  (positionsFrom mark 0 text.toList).getLast?

theorem positionsFrom_eq_nil {mark : Char} {cs : List Char} (h : mark ∉ cs) (position : Nat) :
    positionsFrom mark position cs = [] := by
  induction cs generalizing position with
  | nil => rfl
  | cons c cs ih =>
      rw [List.mem_cons, not_or] at h
      rw [positionsFrom, if_neg (Ne.symm h.1), ih h.2]

theorem positionsFrom_append (mark : Char) (cs ds : List Char) (position : Nat) :
    positionsFrom mark position (cs ++ ds) = positionsFrom mark position cs
      ++ positionsFrom mark (position + (String.ofList cs).utf8ByteSize) ds := by
  induction cs generalizing position with
  | nil => simp [positionsFrom]
  | cons c cs ih =>
      have hsize : position + (String.ofList (c :: cs)).utf8ByteSize
          = position + c.utf8Size + (String.ofList cs).utf8ByteSize := by
        rw [String.ofList_cons, String.utf8ByteSize_append, String.utf8ByteSize_singleton,
          Nat.add_assoc]
      rw [List.cons_append, positionsFrom, positionsFrom, ih, hsize]
      split <;> rfl

/-- The positions of a character in a text cut at one of them. -/
theorem positionsFrom_mark (before after : String) (mark : Char) :
    positionsFrom mark 0 (before ++ String.singleton mark ++ after).toList
      = positionsFrom mark 0 before.toList ++ before.utf8ByteSize
        :: positionsFrom mark (before.utf8ByteSize + mark.utf8Size) after.toList := by
  have hchars : (before ++ String.singleton mark ++ after).toList
      = before.toList ++ mark :: after.toList := by simp
  rw [hchars, positionsFrom_append, Nat.zero_add, String.ofList_toList, positionsFrom, if_pos rfl]

theorem first?_eq_none {mark : Char} {text : String} (h : mark ∉ text.toList) :
    first? mark text = none := by
  rw [first?, positionsFrom_eq_nil h, List.head?_nil]

theorem last?_eq_none {mark : Char} {text : String} (h : mark ∉ text.toList) :
    last? mark text = none := by
  rw [last?, positionsFrom_eq_nil h, List.getLast?_nil]

theorem first?_append {before : String} {mark : Char} (h : mark ∉ before.toList)
    (after : String) :
    first? mark (before ++ String.singleton mark ++ after) = some before.utf8ByteSize := by
  rw [first?, positionsFrom_mark, positionsFrom_eq_nil h, List.nil_append, List.head?_cons]

theorem last?_append {after : String} {mark : Char} (h : mark ∉ after.toList)
    (before : String) :
    last? mark (before ++ String.singleton mark ++ after) = some before.utf8ByteSize := by
  rw [last?, positionsFrom_mark, positionsFrom_eq_nil h, List.getLast?_concat]

/-- A text is cut at the first place where a character stands. -/
theorem exists_first {mark : Char} {text : String} (h : mark ∈ text.toList) :
    ∃ before after, text = before ++ String.singleton mark ++ after ∧ mark ∉ before.toList := by
  obtain ⟨cs, ds, hchars, hfree⟩ := List.eq_append_cons_of_mem h
  refine ⟨String.ofList cs, String.ofList ds, String.toList_inj.1 ?_, by simpa using hfree⟩
  simpa using hchars

/-- A text is cut at the last place where a character stands. -/
theorem exists_last {mark : Char} {text : String} (h : mark ∈ text.toList) :
    ∃ before after, text = before ++ String.singleton mark ++ after ∧ mark ∉ after.toList := by
  obtain ⟨cs, ds, hchars, hfree⟩ := List.eq_append_cons_of_mem (List.mem_reverse.2 h)
  refine ⟨String.ofList ds.reverse, String.ofList cs.reverse, String.toList_inj.1 ?_,
    by simpa using hfree⟩
  simpa using congrArg List.reverse hchars

/-! ## Cutting at a character -/

theorem upTo_mark (mark : Char) (before after : String) :
    upTo (before ++ String.singleton mark ++ after) before.utf8ByteSize = .ok before := by
  rw [String.append_assoc]
  exact upTo_append before _

/-- A character of one byte is left out behind what stands in front of it. -/
theorem onwards_mark {mark : Char} (hmark : mark.utf8Size = 1) (before after : String) :
    onwards (before ++ String.singleton mark ++ after) (before.utf8ByteSize + 1) = .ok after := by
  simpa [hmark] using onwards_append (before ++ String.singleton mark) after

/-- The text in front of the first place of a character, or all of it. -/
def beforeFirst (mark : Char) (text : String) : Except Panic String :=
  match first? mark text with
  | some position => upTo text position
  | none => return text

/-- The text in front of the last place of a character, or none of it. -/
def beforeLast (mark : Char) (text : String) : Except Panic String :=
  match last? mark text with
  | some position => upTo text position
  | none => return ""

theorem beforeFirst_append {before : String} {mark : Char} (h : mark ∉ before.toList)
    (after : String) :
    beforeFirst mark (before ++ String.singleton mark ++ after) = .ok before := by
  simp only [beforeFirst, first?_append h, upTo_mark]

theorem beforeFirst_of_notMem {mark : Char} {text : String} (h : mark ∉ text.toList) :
    beforeFirst mark text = .ok text := by
  simp only [beforeFirst, first?_eq_none h]
  rfl

theorem beforeLast_append {after : String} {mark : Char} (h : mark ∉ after.toList)
    (before : String) :
    beforeLast mark (before ++ String.singleton mark ++ after) = .ok before := by
  simp only [beforeLast, last?_append h, upTo_mark]

theorem beforeLast_of_notMem {mark : Char} {text : String} (h : mark ∉ text.toList) :
    beforeLast mark text = .ok "" := by
  simp only [beforeLast, last?_eq_none h]
  rfl

theorem beforeFirst_eq (mark : Char) (text : String) :
    beforeFirst mark text = .ok (String.ofList (text.toList.takeWhile (· ≠ mark))) := by
  by_cases hmark : mark ∈ text.toList
  · obtain ⟨before, after, rfl, hbefore⟩ := exists_first hmark
    have hchars : (before ++ String.singleton mark ++ after).toList
        = before.toList ++ mark :: after.toList := by simp
    rw [beforeFirst_append hbefore, hchars, (Affix.cut_append hbefore (.inr rfl)).1,
      String.ofList_toList]
  · have hall := (Affix.cut_append hmark (.inl rfl)).1
    rw [List.append_nil] at hall
    rw [beforeFirst_of_notMem hmark, hall, String.ofList_toList]

theorem beforeLast_eq (mark : Char) (text : String) :
    beforeLast mark text
      = .ok (String.ofList ((text.toList.reverse.dropWhile (· ≠ mark)).drop 1).reverse) := by
  by_cases hmark : mark ∈ text.toList
  · obtain ⟨before, after, rfl, hafter⟩ := exists_last hmark
    have hchars : (before ++ String.singleton mark ++ after).toList.reverse
        = after.toList.reverse ++ mark :: before.toList.reverse := by simp
    have hback : mark ∉ after.toList.reverse := fun h => hafter (List.mem_reverse.1 h)
    rw [beforeLast_append hafter, hchars, (Affix.cut_append hback (.inr rfl)).2, List.drop_one,
      List.tail_cons, List.reverse_reverse, String.ofList_toList]
  · have hback : mark ∉ text.toList.reverse := fun h => hmark (List.mem_reverse.1 h)
    have hnone := (Affix.cut_append hback (.inl rfl)).2
    rw [List.append_nil] at hnone
    rw [beforeLast_of_notMem hmark, hnone]
    rfl

end ModuleTrace.Bytes

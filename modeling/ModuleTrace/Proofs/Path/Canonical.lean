import ModuleTrace.Proofs.Path.Spelling

/-!
# Canonical paths

A walk over the parts of a path keeps what it has passed as names over the root, or over steps up
that nothing takes back. To walk over such parts once more changes nothing. So a normalized path
stands for all that lead the same way, and what is joined to a path may as well be joined to it
normalized.
-/

namespace ModuleTrace.Path

theorem isAbsolute_iff_head? (p : Path) :
    p.isAbsolute = true ↔ p.parts.head? = some .root := by
  rw [isAbsolute_iff]
  constructor
  · rintro ⟨cs, hcs⟩
    rw [← ofChars_toList p, hcs, parts_root_slash]
    rfl
  · intro h
    rcases cut_cases p with ⟨piece, pieces, hs, _⟩ | ⟨pieces, _, hcut⟩ | ⟨_, hcut⟩ |
      ⟨piece, pieces, _, hne, hdot, hcut⟩
    · have htext := joinSlashes_splitSlashes p.text.toList
      rw [hs, joinSlashes_cons (by simp)] at htext
      exact ⟨_, htext.symm⟩
    · simp [parts, hcut] at h
    · simp [parts, hcut, Part.ofPiece] at h
    · exfalso
      simp only [parts, hcut, Option.toList_none, List.nil_append] at h
      have hhead : Part.ofPiece piece = some .root := by
        obtain ⟨part, hpart⟩ := ofPiece_isSome hne hdot
        simpa [hpart] using h
      unfold Part.ofPiece at hhead
      split at hhead
      · simp at hhead
      · split at hhead <;> simp at hhead

theorem isAbsolute_ofChars (p : Path) (h : p.isAbsolute = true) :
    ∃ cs, p = ofChars ('/' :: cs) := by
  obtain ⟨cs, hcs⟩ := (isAbsolute_iff p).1 h
  exact ⟨cs, by rw [← hcs, ofChars_toList]⟩

/-! ## Plain parts -/

/-- A part that is read back from its text. -/
def Part.Plain (part : Part) : Prop :=
  ∃ text : String, part = .name text ∧ '/' ∉ text.toList ∧ Part.ofPiece text.toList = some part

theorem mem_inner {cs : List Char} {part : Part} (h : part ∈ inner cs) :
    part = .up ∨ part.Plain := by
  obtain ⟨piece, hpiece, hpart⟩ := List.mem_filterMap.1 h
  have hfree := slash_notMem_of_mem_splitSlashes hpiece
  unfold Part.ofPiece at hpart
  split at hpart
  · simp at hpart
  · rename_i hblank
    split at hpart
    · exact .inl (by simpa using hpart.symm)
    · rename_i hup
      right
      obtain rfl : Part.name (String.ofList piece) = part := by simpa using hpart
      refine ⟨String.ofList piece, rfl, by simpa using hfree, ?_⟩
      simp only [String.toList_ofList, Part.ofPiece]
      rw [if_neg hblank, if_neg hup]

theorem walk_name (before : List Part) (text : String) :
    Part.walk before (.name text) = .name text :: before := by
  cases before with
  | nil => rfl
  | cons first rest => cases first <;> rfl

theorem isAbsolute_of_notMem {text : String} (h : '/' ∉ text.toList) :
    (⟨text⟩ : Path).isAbsolute = false := by
  cases habs : (⟨text⟩ : Path).isAbsolute with
  | false => rfl
  | true =>
      obtain ⟨cs, hcs⟩ := (isAbsolute_iff _).1 habs
      exact absurd (hcs ▸ List.mem_cons_self) h

theorem parts_join_name {p : Path} (hp : p.text ≠ "") {name : String}
    (hname : Part.Plain (.name name)) : (p.join ⟨name⟩).parts = p.parts ++ [.name name] := by
  obtain ⟨text, heq, hfree, hpiece⟩ := hname
  cases heq
  rw [parts_join hp (isAbsolute_of_notMem hfree), inner_of_notMem hfree, hpiece]
  rfl

/-- A name behind a path is one more part, also behind the empty path. -/
theorem parts_div_plain (p : Path) {name : String} (hname : Part.Plain (.name name)) :
    (p / name).parts = p.parts ++ [.name name] := by
  by_cases hp : p.text = ""
  · obtain rfl : p = ⟨""⟩ := by cases p; simp_all
    obtain ⟨text, heq, hfree, hpiece⟩ := hname
    cases heq
    have hjoin : (⟨""⟩ : Path) / name = ⟨name⟩ := by
      show Path.join ⟨""⟩ ⟨name⟩ = ⟨name⟩
      rw [join, isAbsolute_of_notMem hfree]
      simp
    have hpieces : name.toList ≠ [] ∧ name.toList ≠ ['.'] := by
      constructor <;> intro heq <;> simp [heq, Part.ofPiece] at hpiece
    have hcut : (⟨name⟩ : Path).cut = ⟨none, [name.toList]⟩ := by
      rw [cut_of_split (splitSlashes_of_notMem hfree),
        Cut.ofPieces_of_ne hpieces.1 hpieces.2]
    rw [hjoin, parts, hcut]
    simp [hpiece]
  · exact parts_join_name hp hname

/-! ## Parts behind a walk -/

/-- Parts that a walk leaves behind, the last one first: names over the root of an absolute path,
or over steps up. -/
inductive Settled : Bool → List Part → Prop
  | root : Settled true [.root]
  | ups (count : Nat) : Settled false (List.replicate count .up)
  | name {absolute : Bool} {before : List Part} {text : String} (plain : Part.Plain (.name text))
      (rest : Settled absolute before) : Settled absolute (.name text :: before)

namespace Settled

variable {absolute : Bool} {before : List Part}

theorem walk (h : Settled absolute before) {part : Part} (hpart : part = .up ∨ part.Plain) :
    Settled absolute (Part.walk before part) := by
  rcases hpart with rfl | ⟨text, rfl, hplain⟩
  · cases h with
    | root => exact .root
    | ups count =>
        cases count with
        | zero => exact .ups 1
        | succ count => exact .ups (count + 2)
    | name _ rest => exact rest
  · rw [walk_name]
    exact .name ⟨text, rfl, hplain⟩ h

theorem foldl_walk (h : Settled absolute before) {parts : List Part}
    (hparts : ∀ part ∈ parts, part = .up ∨ part.Plain) :
    Settled absolute (parts.foldl Part.walk before) := by
  induction parts generalizing before with
  | nil => exact h
  | cons part parts ih =>
      exact ih (h.walk (hparts part List.mem_cons_self)) fun other hother =>
        hparts other (List.mem_cons_of_mem _ hother)

theorem foldl_walk_ups (count more : Nat) :
    (List.replicate more Part.up).foldl Part.walk (List.replicate count .up)
      = List.replicate (count + more) .up := by
  induction more generalizing count with
  | zero => rfl
  | succ more ih =>
      have hup : Part.walk (List.replicate count .up) .up = List.replicate (count + 1) .up := by
        cases count <;> rfl
      rw [List.replicate_succ, List.foldl_cons, hup, ih, Nat.add_right_comm, Nat.add_assoc]

/-- A second walk finds nothing to take back. -/
theorem foldl_walk_reverse (h : Settled absolute before) :
    before.reverse.foldl Part.walk [] = before := by
  induction h with
  | root => rfl
  | ups count =>
      rw [List.reverse_replicate]
      simpa using foldl_walk_ups 0 count
  | name _ _ ih => rw [List.reverse_cons, List.foldl_append, ih, List.foldl_cons, walk_name]; rfl

theorem getLast?_iff (h : Settled absolute before) :
    before.getLast? = some .root ↔ absolute = true := by
  induction h with
  | root => simp
  | ups count => cases count <;> simp [List.getLast?_replicate]
  | @name absolute before text _ rest ih =>
      rw [← ih, List.getLast?_cons]
      cases before.getLast? <;> simp

theorem exists_names (h : Settled absolute before) : ∃ (ups : Nat) (names : List String),
    before.reverse = (if absolute then [.root] else List.replicate ups .up)
      ++ names.map .name := by
  induction h with
  | root => exact ⟨0, [], rfl⟩
  | ups count => exact ⟨count, [], by simp⟩
  | @name absolute before text _ _ ih =>
      obtain ⟨ups, names, hreverse⟩ := ih
      exact ⟨ups, names ++ [text], by simp [hreverse]⟩

end Settled

/-! ## Normalizing -/

/-- A relative path has the parts of its text, behind a dot if it starts with one. -/
theorem parts_of_relative {p : Path} (h : p.isAbsolute = false) :
    p.parts = inner p.text.toList ∨ p.parts = .here :: inner p.text.toList := by
  have hroot : p.parts.head? ≠ some .root := by
    rw [← Bool.not_eq_true, isAbsolute_iff_head?] at h
    exact h
  obtain ⟨-, hup, hname, -⟩ := cut_sound p
  rw [parts_eq] at hroot ⊢
  cases hlead : p.cut.lead with
  | none => exact .inl rfl
  | some lead =>
      cases lead with
      | root => exact absurd (by simp [hlead]) hroot
      | here => exact .inr rfl
      | up => exact absurd hlead hup
      | name text => exact absurd hlead (hname text)

/-- A dot at the head of a relative path is passed by. -/
theorem foldl_walk_of_relative {p : Path} (h : p.isAbsolute = false) :
    p.parts.foldl Part.walk [] = (inner p.text.toList).foldl Part.walk [] := by
  rcases parts_of_relative h with hparts | hparts <;> rw [hparts]
  rfl

theorem settled_walk (p : Path) : Settled p.isAbsolute (p.parts.foldl Part.walk []) := by
  cases h : p.isAbsolute with
  | true =>
      obtain ⟨cs, rfl⟩ := isAbsolute_ofChars p h
      rw [parts_root_slash]
      exact Settled.root.foldl_walk fun _ => mem_inner
  | false =>
      rw [foldl_walk_of_relative h]
      exact (Settled.ups 0).foldl_walk fun _ => mem_inner

theorem parts_div_up (p : Path) : (p / "..").parts = p.parts ++ [.up] := by
  by_cases hp : p.text = ""
  · obtain rfl : p = ⟨""⟩ := by cases p; simp_all
    decide
  · have hrelative : (⟨".."⟩ : Path).isAbsolute = false := by decide
    have hinner : inner "..".toList = [.up] := by decide
    rw [← hinner]
    exact parts_join hp hrelative

/-- Parts that are settled are read back from their plain text. -/
theorem Settled.parts_ofParts {absolute : Bool} {before : List Part}
    (h : Settled absolute before) : (ofParts before.reverse).parts = before.reverse := by
  have hconcat : ∀ (parts : List Part) (part : Part),
      ofParts (parts ++ [part]) = ofParts parts / part.text := fun parts part => by
    rw [ofParts, List.foldl_append]
    rfl
  induction h with
  | root => decide
  | ups count =>
      rw [List.reverse_replicate]
      induction count with
      | zero => rfl
      | succ count ih =>
          rw [List.replicate_succ', hconcat]
          exact (parts_div_up _).trans (by rw [ih])
  | name plain _ ih =>
      rw [List.reverse_cons, hconcat]
      exact (parts_div_plain _ plain).trans (by rw [ih])

theorem parts_normalize_eq (p : Path) :
    p.normalize.parts = (p.parts.foldl Part.walk []).reverse :=
  (settled_walk p).parts_ofParts

theorem exists_parts_normalize (p : Path) : ∃ (ups : Nat) (names : List String),
    p.normalize.parts
      = (if p.isAbsolute then [.root] else List.replicate ups .up) ++ names.map .name := by
  obtain ⟨ups, names, hreverse⟩ := (settled_walk p).exists_names
  exact ⟨ups, names, (parts_normalize_eq p).trans hreverse⟩

/-- A normalized path leads where the path leads. -/
theorem foldl_walk_normalize (p : Path) :
    p.normalize.parts.foldl Part.walk [] = p.parts.foldl Part.walk [] := by
  rw [parts_normalize_eq]
  exact (settled_walk p).foldl_walk_reverse

theorem normalize_of_walk {p q : Path}
    (h : p.parts.foldl Part.walk [] = q.parts.foldl Part.walk []) : p.normalize = q.normalize := by
  rw [normalize, h, normalize]

theorem isAbsolute_normalize (p : Path) : p.normalize.isAbsolute = p.isAbsolute := by
  rw [Bool.eq_iff_iff, isAbsolute_iff_head?, parts_normalize_eq, List.head?_reverse]
  exact (settled_walk p).getLast?_iff

/-- To walk over a joined path is to walk over both, unless the second one is absolute. -/
theorem foldl_walk_join (p : Path) {q : Path} (hq : q.isAbsolute = false) :
    (p.join q).parts.foldl Part.walk []
      = (inner q.text.toList).foldl Part.walk (p.parts.foldl Part.walk []) := by
  by_cases hp : p.text = ""
  · obtain rfl : p = ⟨""⟩ := by cases p; simp_all
    have hjoin : (⟨""⟩ : Path).join q = q := by simp [join, hq]
    rw [hjoin]
    exact foldl_walk_of_relative hq
  · rw [parts_join hp hq, List.foldl_append]

theorem normalize_join (p q : Path) : (p.join q).normalize = (p.normalize.join q).normalize := by
  cases hq : q.isAbsolute with
  | true => rw [join_of_absolute hq, join_of_absolute hq]
  | false =>
      apply normalize_of_walk
      rw [foldl_walk_join p hq, foldl_walk_join p.normalize hq, foldl_walk_normalize]

/-- Normalizing gives one canonical text to all spellings of a path, without dots and with steps
up only at the head of a relative path, and a second time changes nothing. Where a path is joined
to another one, it makes no difference whether that was normalized before. -/
theorem normalize_canonical (p q : Path) :
    p.normalize.normalize = p.normalize ∧
      .here ∉ p.normalize.parts ∧
      (∃ (ups : Nat) (names : List String), p.normalize.parts
        = (if p.isAbsolute then [.root] else List.replicate ups .up) ++ names.map .name) ∧
      p.normalize.isAbsolute = p.isAbsolute ∧
      (p.same q = true → p.normalize.text = q.normalize.text) ∧
      (p.join q).normalize = (p.normalize.join q).normalize := by
  obtain ⟨ups, names, hparts⟩ := exists_parts_normalize p
  refine ⟨normalize_of_walk (foldl_walk_normalize p), fun hmem => ?_, ⟨ups, names, hparts⟩,
    isAbsolute_normalize p, fun hsame => ?_, normalize_join p q⟩
  · rw [hparts] at hmem
    cases h : p.isAbsolute <;> simp [h] at hmem
  · rw [normalize_congr ((same_iff p q).1 hsame)]

theorem normalize_canonical_sample :
    (⟨"./a//b/../../../c/"⟩ : Path).same ⟨"./a/./b/../../../c"⟩ = true ∧
      (⟨"./a//b/../../../c/"⟩ : Path).normalize.text
        = (⟨"./a/./b/../../../c"⟩ : Path).normalize.text ∧
      (⟨"./a//b/../../../c/"⟩ : Path).normalize = ⟨"../c"⟩ := by
  have hsame : (⟨"./a//b/../../../c/"⟩ : Path).same ⟨"./a/./b/../../../c"⟩ = true := by decide
  obtain ⟨-, -, -, -, htext, -⟩ := normalize_canonical ⟨"./a//b/../../../c/"⟩
    ⟨"./a/./b/../../../c"⟩
  exact ⟨hsame, htext hsame, by decide⟩

end ModuleTrace.Path

import ModuleTrace.Proofs.Path.Canonical

/-!
# Paths without steps up

An absolute path without steps up lies where its parts say. Normalizing gives such paths, and
what is then written behind them, cut off them or put in the place of a directory leads up at
most in the last part: that is where cutting off an extension can leave two dots.
-/

namespace ModuleTrace.Path

/-- An absolute path that does not lead up. -/
structure Clean (p : Path) : Prop where
  absolute : p.parts.head? = some .root
  no_up : .up ∉ p.parts

/-- An absolute path that leads up in its last part at most. -/
structure NearlyClean (p : Path) : Prop where
  absolute : p.parts.head? = some .root
  no_up : .up ∉ p.parts.dropLast

theorem Clean.isAbsolute {p : Path} (h : p.Clean) : p.isAbsolute = true :=
  (isAbsolute_iff_head? p).2 h.absolute

theorem Clean.congr {p q : Path} (h : p.Clean) (hparts : p.parts = q.parts) : q.Clean :=
  ⟨hparts ▸ h.absolute, hparts ▸ h.no_up⟩

theorem NearlyClean.congr {p q : Path} (h : p.NearlyClean) (hparts : p.parts = q.parts) :
    q.NearlyClean :=
  ⟨hparts ▸ h.absolute, hparts ▸ h.no_up⟩

theorem Clean.nearly {p : Path} (h : p.Clean) : p.NearlyClean :=
  ⟨h.absolute, fun hmem => h.no_up (List.dropLast_subset _ hmem)⟩

theorem NearlyClean.clean {p : Path} (h : p.NearlyClean) {text : String}
    (hname : p.name? = some text) : p.Clean := by
  refine ⟨h.absolute, fun hmem => ?_⟩
  have hup := h.no_up
  obtain ⟨before, hparts⟩ := List.getLast?_eq_some_iff.1 ((name?_eq_some_iff p text).1 hname)
  rw [hparts, List.dropLast_concat] at hup
  rw [hparts, List.mem_append] at hmem
  rcases hmem with hmem | hmem
  · exact hup hmem
  · simp at hmem

/-- A text that starts with a slash, by what it means behind the slash. -/
theorem clean_iff_inner (cs : List Char) : (ofChars ('/' :: cs)).Clean ↔ .up ∉ inner cs := by
  constructor
  · intro h hmem
    exact h.no_up (by simp [parts_root_slash, hmem])
  · intro h
    exact ⟨by simp [parts_root_slash], by simpa [parts_root_slash] using h⟩

/-- A path that starts neither at the root nor at a dot means what its text means behind a
slash. -/
theorem parts_eq_inner {p : Path} (hroot : .root ∉ p.parts) (hhere : .here ∉ p.parts) :
    p.parts = inner p.text.toList := by
  have hrelative : p.isAbsolute = false := by
    rw [← Bool.not_eq_true, isAbsolute_iff_head?]
    exact fun h => hroot (List.mem_of_head? h)
  rcases parts_of_relative hrelative with hparts | hparts
  · exact hparts
  · exact absurd (by simp [hparts]) hhere

/-! ## Normalizing -/

theorem clean_normalize {p : Path} (h : p.isAbsolute = true) : p.normalize.Clean := by
  obtain ⟨ups, names, hparts⟩ := exists_parts_normalize p
  rw [if_pos h] at hparts
  exact ⟨by simp [hparts], by simp [hparts]⟩

/-- A path that normalizing leaves as it is. -/
def IsNormal (p : Path) : Prop :=
  p.normalize.parts = p.parts

/-- Names are only put on. -/
theorem foldl_walk_names {parts : List Part} (h : ∀ part ∈ parts, ∃ text, part = .name text)
    (before : List Part) : parts.foldl Part.walk before = parts.reverse ++ before := by
  induction parts generalizing before with
  | nil => rfl
  | cons part parts ih =>
      obtain ⟨text, rfl⟩ := h part (by simp)
      rw [List.foldl_cons, walk_name, ih fun other hother => h other (by simp [hother])]
      simp

/-- A name at the end of a path stays at the end. -/
theorem normalize_concat {p q : Path} {name : String} (h : p.parts = q.parts ++ [.name name]) :
    p.normalize = q.normalize / name := by
  rw [normalize, h, List.foldl_append, List.foldl_cons, List.foldl_nil, walk_name,
    List.reverse_cons, ofParts, List.foldl_append]
  rfl

theorem Clean.isNormal {p : Path} (h : p.Clean) : p.IsNormal := by
  obtain ⟨cs, rfl⟩ := isAbsolute_ofChars p h.isAbsolute
  have hup := (clean_iff_inner cs).1 h
  have hnames : ∀ part ∈ inner cs, ∃ text, part = .name text := by
    intro part hpart
    rcases mem_inner hpart with rfl | ⟨text, hname, -⟩
    · exact absurd hpart hup
    · exact ⟨text, hname⟩
  have hwalk : (inner cs).foldl Part.walk [.root] = (inner cs).reverse ++ [.root] :=
    foldl_walk_names hnames [.root]
  have hfold : (ofChars ('/' :: cs)).parts.foldl Part.walk []
      = (inner cs).foldl Part.walk [.root] := by
    rw [parts_root_slash]
    rfl
  rw [IsNormal, parts_normalize_eq, hfold, hwalk, parts_root_slash]
  simp

theorem clean_of_isNormal {p : Path} (h : p.isAbsolute = true) (hnormal : p.IsNormal) : p.Clean :=
  (clean_normalize h).congr hnormal

theorem up_mem_of_not_isNormal {p : Path} (habsolute : p.isAbsolute = true) (h : ¬ p.IsNormal) :
    .up ∈ p.parts := by
  refine Decidable.byContradiction fun hup => ?_
  exact h (Clean.isNormal ⟨(isAbsolute_iff_head? p).1 habsolute, hup⟩)

/-- A path that is not normal leads up in its last part. -/
theorem NearlyClean.isNormal_or {p : Path} (h : p.NearlyClean) :
    p.IsNormal ∨ p.parts.getLast? = some .up := by
  by_cases hlast : p.parts.getLast? = some .up
  · exact .inr hlast
  · left
    apply Clean.isNormal
    refine ⟨h.absolute, fun hmem => ?_⟩
    have hne : p.parts ≠ [] := List.ne_nil_of_mem hmem
    have hparts := (List.dropLast_concat_getLast hne).symm
    generalize p.parts.dropLast = before, p.parts.getLast hne = last at hparts
    have hup := h.no_up
    rw [hparts, List.dropLast_concat] at hup
    rw [hparts, List.getLast?_concat] at hlast
    rw [hparts, List.mem_append, List.mem_singleton] at hmem
    rcases hmem with hmem | rfl
    · exact hup hmem
    · exact hlast rfl

/-! ## Joining and cutting -/

theorem isAbsolute_join {p q : Path} (h : p.isAbsolute = true) : (p.join q).isAbsolute = true := by
  cases hq : q.isAbsolute with
  | true => rwa [join_of_absolute hq]
  | false =>
      rw [isAbsolute_iff_head?] at h ⊢
      have hp : p.text ≠ "" := by
        intro hempty
        rw [(parts_eq_nil_iff p).2 hempty] at h
        simp at h
      rw [parts_join hp hq, List.head?_append, h]
      rfl

theorem isAbsolute_div {p : Path} (h : p.isAbsolute = true) (name : String) :
    (p / name).isAbsolute = true :=
  isAbsolute_join h

namespace Clean

variable {p : Path} (h : p.Clean)

include h

theorem text_ne : p.text ≠ "" := by
  intro hempty
  have habsolute := h.absolute
  rw [(parts_eq_nil_iff p).2 hempty] at habsolute
  simp at habsolute

theorem join {r : Path} (hr : r.isAbsolute = false) (hup : .up ∉ inner r.text.toList) :
    (p.join r).Clean := by
  refine ⟨(isAbsolute_iff_head? _).1 (isAbsolute_join h.isAbsolute), ?_⟩
  rw [parts_join h.text_ne hr, List.mem_append, not_or]
  exact ⟨h.no_up, hup⟩

theorem parts_div {name : String} (hname : Part.Plain (.name name)) :
    (p / name).parts = p.parts ++ [.name name] :=
  parts_join_name h.text_ne hname

/-- A name goes behind a clean path. -/
theorem div {name : String} (hname : Part.Plain (.name name)) : (p / name).Clean := by
  have hparts := h.parts_div hname
  refine ⟨by simp [hparts, h.absolute], fun hmem => ?_⟩
  rw [hparts, List.mem_append, List.mem_singleton] at hmem
  rcases hmem with hmem | hmem
  · exact h.no_up hmem
  · cases hmem

theorem name?_div {name : String} (hname : Part.Plain (.name name)) :
    (p / name).name? = some name := by
  rw [name?_eq_some_iff, h.parts_div hname, List.getLast?_concat]

theorem normalize_div (name : String) : (p / name).normalize.Clean :=
  clean_normalize (isAbsolute_div h.isAbsolute name)

end Clean

theorem NearlyClean.parent? {p d : Path} (h : p.NearlyClean) (hd : p.parent? = some d) :
    d.Clean := by
  have hparts := parts_parent? hd
  refine ⟨?_, hparts ▸ h.no_up⟩
  have habsolute := h.absolute
  cases hp : p.parts with
  | nil => simp [hp] at habsolute
  | cons first rest =>
      obtain rfl : first = .root := by simpa [hp] using habsolute
      cases rest with
      | nil =>
          have hnone := (parent?_eq_none_iff p).2 (.inr hp)
          simp [hnone] at hd
      | cons next rest => simp [hparts, hp]

theorem Clean.parent? {p d : Path} (h : p.Clean) (hd : p.parent? = some d) : d.Clean :=
  h.nearly.parent? hd

theorem Clean.of_mem_ancestors {p x : Path} (h : p.Clean) (hx : x ∈ p.ancestors) : x.Clean := by
  induction hlength : p.parts.length using Nat.strongRecOn generalizing p with
  | ind length ih =>
      subst hlength
      rw [ancestors_eq] at hx
      rcases List.mem_cons.1 hx with rfl | hx
      · exact h
      · cases hparent : p.parent? with
        | none => simp [hparent] at hx
        | some parent =>
            rw [hparent] at hx
            have hshort := length_parts_parent? hparent
            exact ih parent.parts.length (by omega) (h.parent? hparent) hx rfl

theorem clean_root : (⟨"/"⟩ : Path).Clean :=
  ⟨by decide, by decide⟩

/-- The directory around a clean path, the root for want of one. -/
theorem Clean.getD_parent? {p : Path} (h : p.Clean) : (p.parent?.getD ⟨"/"⟩).Clean := by
  cases hd : p.parent? with
  | none => exact clean_root
  | some d => exact h.parent? hd

/-- A path with a name lies in a directory. -/
theorem exists_parent?_of_name? {p : Path} {text : String} (h : p.name? = some text) :
    ∃ d, p.parent? = some d := by
  cases hd : p.parent? with
  | some d => exact ⟨d, rfl⟩
  | none =>
      have hlast := (name?_eq_some_iff p text).1 h
      rcases (parent?_eq_none_iff p).1 hd with hp | hp <;> simp [hp] at hlast

/-- What is named behind a path lies in it. -/
theorem exists_parent?_div (p : Path) {name : String} (hname : Part.Plain (.name name)) :
    ∃ d, (p / name).parent? = some d ∧ d.parts = p.parts := by
  have hparts := p.parts_div_plain hname
  have hlast : (p / name).name? = some name := by
    rw [name?_eq_some_iff, hparts, List.getLast?_concat]
  obtain ⟨d, hd⟩ := exists_parent?_of_name? hlast
  exact ⟨d, hd, by rw [parts_parent? hd, hparts, List.dropLast_concat]⟩

/-! ## Writing behind a path -/

theorem ofPiece_of_three_le {piece : List Char} (h : 3 ≤ piece.length) :
    Part.ofPiece piece = some (.name (String.ofList piece)) := by
  have hne : piece ≠ [] := by rintro rfl; simp at h
  have hdot : piece ≠ ['.'] := by rintro rfl; simp at h
  have hup : piece ≠ ['.', '.'] := by rintro rfl; simp at h
  simp [Part.ofPiece, hne, hdot, hup]

/-- The last piece of a text goes on in what is written behind the text. -/
theorem splitSlashes_append (as : List Char) :
    ∃ front last, ∀ bs piece rest, splitSlashes bs = piece :: rest →
      splitSlashes (as ++ bs) = front ++ (last ++ piece) :: rest := by
  induction as with
  | nil => exact ⟨[], [], fun bs piece rest hbs => by simpa using hbs⟩
  | cons a as ih =>
      obtain ⟨front, last, hsplit⟩ := ih
      by_cases ha : a = '/'
      · refine ⟨[] :: front, last, fun bs piece rest hbs => ?_⟩
        simp [splitSlashes, ha, hsplit bs piece rest hbs]
      · cases front with
        | nil =>
            refine ⟨[], a :: last, fun bs piece rest hbs => ?_⟩
            simp [splitSlashes, ha, hsplit bs piece rest hbs]
        | cons first front =>
            refine ⟨(a :: first) :: front, last, fun bs piece rest hbs => ?_⟩
            simp [splitSlashes, ha, hsplit bs piece rest hbs]

/-- An extension that can be written behind any piece and leaves a name. -/
structure Extends (extension : String) : Prop where
  free : '/' ∉ extension.toList
  long : 2 ≤ extension.toList.length

/-- An extension behind a text makes a name of its last piece. -/
theorem inner_append_extension (cs : List Char) {extension : String} (he : Extends extension) :
    ∃ front last, splitSlashes cs = front ++ [last] ∧
      inner (cs ++ '.' :: extension.toList) = front.filterMap Part.ofPiece
        ++ [.name (String.ofList (last ++ '.' :: extension.toList))] := by
  obtain ⟨front, last, hsplit⟩ := splitSlashes_append cs
  have hold := hsplit [] [] [] rfl
  have hnew := hsplit ('.' :: extension.toList) _ [] (splitSlashes_of_notMem (by simp [he.free]))
  have hlong : 3 ≤ (last ++ '.' :: extension.toList).length := by
    have := he.long
    simp only [List.length_append, List.length_cons]
    omega
  refine ⟨front, last, by simpa using hold, ?_⟩
  rw [inner, hnew, List.filterMap_append]
  simp [ofPiece_of_three_le hlong]

theorem append_ofChars (cs : List Char) (extension : String) :
    (ofChars cs).append extension = ofChars (cs ++ '.' :: extension.toList) := by
  simp only [Path.append, ofChars, Path.mk.injEq]
  apply String.toList_inj.1
  simp

theorem Clean.append {p : Path} (h : p.Clean) {extension : String} (he : Extends extension) :
    (p.append extension).Clean := by
  obtain ⟨cs, rfl⟩ := isAbsolute_ofChars p h.isAbsolute
  obtain ⟨front, last, hsplit, hinner⟩ := inner_append_extension cs he
  rw [clean_iff_inner] at h
  rw [append_ofChars, List.cons_append, clean_iff_inner, hinner]
  intro hmem
  rcases List.mem_append.1 hmem with hmem | hmem
  · exact h (by rw [inner, hsplit, List.filterMap_append]; exact List.mem_append_left _ hmem)
  · simp at hmem

theorem Clean.name?_append {p : Path} (h : p.Clean) {extension : String}
    (he : Extends extension) : ∃ text, (p.append extension).name? = some text := by
  obtain ⟨cs, rfl⟩ := isAbsolute_ofChars p h.isAbsolute
  obtain ⟨front, last, _, hinner⟩ := inner_append_extension cs he
  refine ⟨String.ofList (last ++ '.' :: extension.toList), (name?_eq_some_iff _ _).2 ?_⟩
  rw [append_ofChars, List.cons_append, parts_root_slash, hinner, ← List.cons_append,
    List.getLast?_concat]

/-! ## Putting another extension -/

/-- The start of a clean text can end within two dots. -/
theorem nearlyClean_take {cs : List Char} (h : .up ∉ inner cs) (n : Nat) :
    (ofChars ('/' :: cs.take n)).NearlyClean := by
  refine ⟨by simp [parts_root_slash], fun hmem => ?_⟩
  obtain ⟨front, last, hsplit⟩ := splitSlashes_append (cs.take n)
  have hstart := hsplit [] [] [] rfl
  rw [List.append_nil, List.append_nil] at hstart
  have hfront : front <+: splitSlashes cs := by
    obtain ⟨piece, rest, hrest⟩ := List.exists_cons_of_ne_nil (splitSlashes_ne_nil (cs.drop n))
    have hall := hsplit (cs.drop n) piece rest hrest
    rw [List.take_append_drop] at hall
    exact hall ▸ List.prefix_append _ _
  have hup : .up ∉ front.filterMap Part.ofPiece := by
    intro hup
    obtain ⟨piece, hpiece, hpart⟩ := List.mem_filterMap.1 hup
    exact h (List.mem_filterMap.2 ⟨piece, hfront.subset hpiece, hpart⟩)
  have hinner : inner (cs.take n)
      = front.filterMap Part.ofPiece ++ (Part.ofPiece last).toList := by
    rw [inner, hstart, List.filterMap_append]
    cases hlast : Part.ofPiece last <;> simp [hlast]
  rw [parts_root_slash, hinner] at hmem
  cases hlast : Part.ofPiece last with
  | none =>
      rw [hlast, Option.toList_none, List.append_nil] at hmem
      rcases List.mem_cons.1 (List.dropLast_subset _ hmem) with hroot | hmem
      · cases hroot
      · exact hup hmem
  | some part =>
      rw [hlast, Option.toList_some, ← List.cons_append, List.dropLast_concat] at hmem
      rcases List.mem_cons.1 hmem with hroot | hmem
      · cases hroot
      · exact hup hmem

theorem Clean.withoutSuffix {p : Path} (h : p.Clean) : p.withoutSuffix.NearlyClean := by
  obtain ⟨cs, rfl⟩ := isAbsolute_ofChars p h.isAbsolute
  have hlength : (ofChars ('/' :: cs)).suffixLength ≤ cs.length := by
    by_cases hname : ∃ text, (ofChars ('/' :: cs)).parts.getLast? = some (.name text)
    · obtain ⟨text, htext⟩ := hname
      have hmem : .name text ∈ inner cs := by
        have hparts := List.mem_of_getLast? htext
        simpa [parts_root_slash] using hparts
      have hle := length_le_of_mem_inner hmem
      rcases suffixLength_lt htext with hzero | hlt <;> omega
    · have hzero := suffixLength_eq_zero fun text htext => hname ⟨text, htext⟩
      omega
  have htake : (ofChars ('/' :: cs)).withoutSuffix
      = ofChars ('/' :: cs.take (cs.length - (ofChars ('/' :: cs)).suffixLength)) := by
    rw [withoutSuffix_eq]
    generalize (ofChars ('/' :: cs)).suffixLength = n at hlength
    have hsub : ('/' :: cs).length - n = (cs.length - n) + 1 := by
      rw [List.length_cons]
      omega
    simp only [ofChars_text, String.toList_ofList]
    rw [hsub, List.take_succ_cons]
  rw [htake]
  exact nearlyClean_take ((clean_iff_inner cs).1 h) _

theorem Clean.withExtension {p : Path} (h : p.Clean) {extension : String}
    (he : Extends extension) : (p.withExtension extension).NearlyClean := by
  have hbase := h.withoutSuffix
  have hne : extension ≠ "" := by
    rintro rfl
    simpa using he.long
  have hparts := parts_withExtension (p := p) he.free hne
  cases hname : p.withoutSuffix.name? with
  | none =>
      rw [hname] at hparts
      exact hbase.congr hparts.symm
  | some name =>
      rw [hname] at hparts
      have hlong : 3 ≤ ((splitName name).1 ++ "." ++ extension).toList.length := by
        have hdot : ".".toList.length = 1 := rfl
        have := he.long
        simp only [String.toList_append, List.length_append]
        omega
      simp only [ofPiece_of_three_le hlong, Option.toList_some] at hparts
      obtain ⟨before, hbefore⟩ :=
        List.getLast?_eq_some_iff.1 ((name?_eq_some_iff _ name).1 hname)
      obtain ⟨habsolute, hup⟩ := hbase
      rw [hbefore, List.dropLast_concat] at hup
      rw [hbefore, List.dropLast_concat] at hparts
      refine ⟨?_, by rwa [hparts, List.dropLast_concat]⟩
      rw [hbefore] at habsolute
      cases before with
      | nil => simp at habsolute
      | cons first rest => simpa [hparts] using habsolute

example : (Path.withExtension ⟨"/p/..js"⟩ "ts").parts = [.root, .name "p", .up] := by decide

/-! ## What is left behind a base -/

theorem dropParts_isSuffix (n : Nat) (pieces : List (List Char)) :
    dropParts n pieces <:+ pieces := by
  induction pieces generalizing n with
  | nil => cases n <;> exact List.suffix_rfl
  | cons piece pieces ih =>
      cases n with
      | zero => exact List.suffix_rfl
      | succ n =>
          rw [dropParts]
          split
          · exact (ih (n + 1)).trans (List.suffix_cons _ _)
          · exact (ih n).trans (List.suffix_cons _ _)

/-- Pieces that start with a name or a step make a relative path. -/
theorem isAbsolute_ofCut_none {pieces : List (List Char)} (hfree : ∀ piece ∈ pieces, '/' ∉ piece)
    (hhead : ∀ piece, pieces.head? = some piece → isBlankPiece piece = false) :
    (ofCut none pieces).isAbsolute = false := by
  cases habs : (ofCut none pieces).isAbsolute with
  | false => rfl
  | true =>
      exfalso
      obtain ⟨cs, hcs⟩ := (isAbsolute_iff _).1 habs
      rw [ofCut_none, ofChars_text, String.toList_ofList] at hcs
      cases pieces with
      | nil => simp [joinSlashes] at hcs
      | cons piece pieces =>
          have hblank := hhead piece rfl
          cases piece with
          | nil => simp [isBlankPiece, Part.ofPiece] at hblank
          | cons c piece =>
              have hc : c = '/' := by
                cases pieces with
                | nil => simpa [joinSlashes] using (List.cons.inj hcs).1
                | cons next rest =>
                    rw [joinSlashes_cons (by simp)] at hcs
                    simpa using (List.cons.inj hcs).1
              exact hfree _ List.mem_cons_self (by simp [hc])

theorem filterMap_dropParts (n : Nat) (pieces : List (List Char)) :
    (dropParts n pieces).filterMap Part.ofPiece = (pieces.filterMap Part.ofPiece).drop n := by
  induction pieces generalizing n with
  | nil => cases n <;> rfl
  | cons piece pieces ih =>
      cases n with
      | zero => rfl
      | succ n =>
          rw [dropParts]
          cases hpiece : Part.ofPiece piece with
          | none => simp [isBlankPiece, hpiece, ih]
          | some part => simp [isBlankPiece, hpiece, ih]

/-- What is left of a path behind an absolute base has the parts that the base lacks, and has them
behind every other directory, too. -/
theorem exists_relativeTo? {p base : Path} (hbase : base.isAbsolute = true)
    (h : p.isUnder base = true) :
    ∃ r, p.relativeTo? base = some r ∧ p.parts = base.parts ++ r.parts ∧
      r.isAbsolute = false ∧ inner r.text.toList = r.parts := by
  obtain ⟨cs, rfl⟩ := isAbsolute_ofChars base hbase
  obtain ⟨more, hmore⟩ := (isUnder_iff p _).1 h
  rw [parts_root_slash, List.cons_append] at hmore
  obtain ⟨ds, rfl⟩ := isAbsolute_ofChars p ((isAbsolute_iff_head? p).2 (by rw [← hmore]; rfl))
  rw [parts_root_slash, List.cons.injEq] at hmore
  generalize hpieces : (dropParts (inner cs).length (splitSlashes ds)).dropWhile isBlankPiece
    = pieces
  have hfree : ∀ piece ∈ pieces, '/' ∉ piece := by
    intro piece hpiece
    rw [← hpieces] at hpiece
    exact slash_notMem_of_mem_splitSlashes ((dropParts_isSuffix _ _).subset
      ((List.dropWhile_suffix _).subset hpiece))
  have hhead : ∀ piece, pieces.head? = some piece → isBlankPiece piece = false := by
    intro piece hpiece
    have hnot := List.head?_dropWhile_not isBlankPiece
      (dropParts (inner cs).length (splitSlashes ds))
    rw [hpieces, hpiece] at hnot
    simpa using hnot
  have hsound : Cut.Sound ⟨none, pieces⟩ := by
    refine ⟨hfree, by simp, by simp, fun _ piece rest hcons hblank => ?_⟩
    have hfirst := hhead piece (by rw [show pieces = piece :: rest from hcons]; rfl)
    simp [isBlankPiece, hblank] at hfirst
  have hparts : (ofCut none (trimRight pieces)).parts = pieces.filterMap Part.ofPiece := by
    have htrimmed := (trimRight_trimmed none pieces).parts
      (hsound.of_isPrefix (trimRight_isPrefix pieces))
    rw [htrimmed, filterMap_trimRight]
    rfl
  have htrimFree : ∀ piece ∈ trimRight pieces, '/' ∉ piece :=
    fun piece hpiece => hfree piece ((trimRight_isPrefix pieces).subset hpiece)
  refine ⟨ofCut none (trimRight pieces), ?_, ?_, ?_, ?_⟩
  · simp only [relativeTo?, if_pos h, cut_root_slash, parts_root_slash, List.length_cons,
      Option.isSome_some, if_true, hpieces]
  · rw [hparts, ← hpieces, filterMap_dropWhile_blank, filterMap_dropParts, parts_root_slash,
      parts_root_slash, ← inner, ← hmore.2, List.drop_left, List.cons_append]
  · refine isAbsolute_ofCut_none htrimFree fun piece hpiece => hhead piece ?_
    obtain ⟨more, hmore⟩ := trimRight_isPrefix pieces
    rw [← hmore, List.head?_append, hpiece]
    rfl
  · rw [hparts, ofCut_none, ofChars_text, String.toList_ofList, ← filterMap_trimRight]
    by_cases hnil : trimRight pieces = []
    · rw [hnil]
      rfl
    · rw [inner_joinSlashes hnil htrimFree]

theorem isUnder_of_relativeTo? {p base r : Path} (h : p.relativeTo? base = some r) :
    p.isUnder base = true := by
  unfold Path.relativeTo? at h
  split at h
  · assumption
  · cases h

/-- What is left of a clean path can be put behind any directory. -/
theorem Clean.relativeTo? {p base r : Path} (hp : p.Clean) (hbase : base.Clean)
    (h : p.relativeTo? base = some r) :
    r.isAbsolute = false ∧ .up ∉ inner r.text.toList := by
  obtain ⟨other, hother, hparts, hrelative, hinner⟩ :=
    exists_relativeTo? hbase.isAbsolute (isUnder_of_relativeTo? h)
  obtain rfl : r = other := Option.some.inj (h.symm.trans hother)
  refine ⟨hrelative, fun hmem => hp.no_up ?_⟩
  rw [hparts]
  exact List.mem_append_right _ (hinner ▸ hmem)

end ModuleTrace.Path

import ModuleTrace.Proofs.Path.Clean

/-!
# What stands behind the last slash

An extension is written behind the text of a path, so it goes to what stands behind the last
slash, which need not be the last name. Two spellings of one path take every extension alike
exactly if they end alike. An extension is put in the place of another one by the length of that,
and then all spellings agree, unless two dots are left of the name.
-/

namespace ModuleTrace.Path

/-! ## Texts with an end -/

/-- What is written behind the last slash. -/
def ending (p : Path) : List Char :=
  (splitSlashes p.text.toList).getLast (splitSlashes_ne_nil _)

/-- Whether the text ends in the last part, with no slash or dot behind that. -/
def endsInPart (p : Path) : Bool :=
  !isBlankPiece p.ending

theorem ending_of_split {p : Path} {pieces : List (List Char)} {last : List Char}
    (h : splitSlashes p.text.toList = pieces ++ [last]) : p.ending = last := by
  simp [ending, h]

/-- A text with a slash is cut behind its last one, and what stands before means the same whatever
is written behind. -/
theorem ending_cases (p : Path) :
    p.text.toList = p.ending ∧ '/' ∉ p.ending ∨
      ∃ front parts, p.text.toList = front ++ p.ending ∧ '/' ∉ p.ending ∧ '/' ∈ front ∧
        parts ≠ [] ∧ ∀ cs, (ofChars (front ++ cs)).parts = parts ++ inner cs := by
  have hsplit := List.dropLast_concat_getLast (splitSlashes_ne_nil p.text.toList)
  have hfree : '/' ∉ p.ending :=
    slash_notMem_of_mem_splitSlashes (List.getLast_mem (splitSlashes_ne_nil p.text.toList))
  have htext := joinSlashes_splitSlashes p.text.toList
  rw [← hsplit] at htext
  by_cases hpieces : (splitSlashes p.text.toList).dropLast = []
  · rw [hpieces] at htext
    exact .inl ⟨htext.symm, hfree⟩
  · right
    rw [joinSlashes_concat hpieces] at htext
    generalize joinSlashes (splitSlashes p.text.toList).dropLast = as at htext
    have htext : p.text.toList = as ++ ['/'] ++ p.ending := by
      rw [← htext, List.append_assoc, List.singleton_append]
      rfl
    by_cases has : as = []
    · subst has
      exact ⟨['/'], [.root], htext, hfree, by simp, by simp, fun cs => parts_root_slash cs⟩
    · refine ⟨as ++ ['/'], (ofChars as).parts, htext, hfree, by simp, fun hnil => ?_,
        fun cs => ?_⟩
      · exact has (by simpa [ofChars] using (parts_eq_nil_iff _).1 hnil)
      · rw [List.append_assoc, List.singleton_append, parts_append_slash has]

theorem parts_of_open {cs : List Char} (h : '/' ∉ cs) (hdot : cs ≠ ['.']) :
    (ofChars cs).parts = (Part.ofPiece cs).toList := by
  by_cases hempty : cs = []
  · subst hempty
    rfl
  · have hcut : (ofChars cs).cut = ⟨none, [cs]⟩ := by
      rw [cut_of_split (by simpa using splitSlashes_of_notMem h), Cut.ofPieces_of_ne hempty hdot]
    cases hpart : Part.ofPiece cs <;> simp [parts, hcut, hpart]

/-- What an extension is written behind: some parts, and the text that becomes a name with it. Of a
lone dot nothing but the text is left. -/
theorem exists_parts_append (p : Path) :
    ∃ front : List Part,
      (∀ extension, Extends extension → (p.append extension).parts
        = front ++ [.name (String.ofList (p.ending ++ '.' :: extension.toList))]) ∧
      (p.text ≠ "." → p.parts = front ++ (Part.ofPiece p.ending).toList) ∧
      (p.text = "." → front = []) := by
  have hname : ∀ extension, Extends extension →
      Part.ofPiece (p.ending ++ '.' :: extension.toList)
        = some (.name (String.ofList (p.ending ++ '.' :: extension.toList))) := by
    intro extension he
    have := he.long
    exact ofPiece_of_three_le (by simp; omega)
  have happend : ∀ extension, p.append extension
      = ofChars (p.text.toList ++ '.' :: extension.toList) := by
    intro extension
    rw [← append_ofChars, ofChars_toList]
  rcases ending_cases p with ⟨htext, hfree⟩ | ⟨front, parts, htext, hfree, hslash, -, hparts⟩
  · refine ⟨[], fun extension he => ?_, fun hdot => ?_, fun _ => rfl⟩
    · have hopen : '/' ∉ p.ending ++ '.' :: extension.toList := by simp [hfree, he.free]
      rw [happend, htext, parts_of_open hopen, hname extension he]
      · rfl
      · intro heq
        have hlength := congrArg List.length heq
        have := he.long
        simp at hlength
        omega
    · have hother : p.ending ≠ ['.'] := by
        intro heq
        exact hdot (String.toList_inj.1 (by rw [htext, heq]; rfl))
      have hwhole := parts_of_open hfree hother
      rwa [← htext, ofChars_toList, htext] at hwhole
  · refine ⟨parts, fun extension he => ?_, fun _ => ?_, fun hdot => ?_⟩
    · have hopen : '/' ∉ p.ending ++ '.' :: extension.toList := by simp [hfree, he.free]
      rw [happend, htext, List.append_assoc, hparts, inner_of_notMem hopen, hname extension he]
      rfl
    · have hwhole := hparts p.ending
      rwa [← htext, ofChars_toList, inner_of_notMem hfree] at hwhole
    · rw [hdot] at htext
      have hmem : '/' ∈ ".".toList := htext ▸ List.mem_append_left _ hslash
      exact absurd hmem (by decide)

/-! ## Spellings that end alike -/

/-- Two spellings with the same text behind the last slash. A lone dot is unlike all others: with an
extension behind it, it is no dot any more. -/
structure EndsLike (p q : Path) : Prop where
  ending : p.ending = q.ending
  dot : p.text = "." ↔ q.text = "."

/-- A lone dot is a part of its own. Any other text that ends in a dot has the same parts as what
stands before the dot. -/
theorem parts_ne_of_dot {p : Path} (hdot : p.text = ".") {q : Path} (hending : p.ending = q.ending)
    (hq : q.parts = (Part.ofPiece q.ending).toList) : p.parts ≠ q.parts := by
  obtain rfl : p = ⟨"."⟩ := by cases p; simp_all
  rw [hq, ← hending]
  decide

namespace EndsLike

variable {p q : Path}

theorem symm (h : EndsLike p q) : EndsLike q p :=
  ⟨h.ending.symm, h.dot.symm⟩

theorem endsInPart (h : EndsLike p q) : p.endsInPart = q.endsInPart := by
  rw [Path.endsInPart, Path.endsInPart, h.ending]

/-- A text without a slash is like no text with one. -/
theorem not_open (h : EndsLike p q) (hparts : p.parts = q.parts) (hp : p.text.toList = p.ending)
    {front : List Char} {before : List Part} (hq : q.text.toList = front ++ q.ending)
    (hfree : '/' ∉ q.ending) (hslash : '/' ∈ front) (hne : before ≠ [])
    (hbefore : ∀ cs, (ofChars (front ++ cs)).parts = before ++ inner cs) : False := by
  have hdot : p.ending ≠ ['.'] := by
    intro heq
    have hdot : q.text = "." := h.dot.1 (String.toList_inj.1 (hp.trans heq))
    have hmem : '/' ∈ q.text.toList := hq ▸ List.mem_append_left _ hslash
    rw [hdot] at hmem
    exact absurd hmem (by decide)
  have hopen := parts_of_open (h.ending ▸ hfree) hdot
  have hwhole := hbefore q.ending
  rw [← hq, ofChars_toList, inner_of_notMem hfree] at hwhole
  rw [← hp, ofChars_toList, hparts, hwhole, hp, h.ending] at hopen
  exact hne (by simpa using hopen)

theorem interchangeable (h : EndsLike p q) (hparts : p.parts = q.parts) :
    Interchangeable p q := by
  rcases ending_cases p with ⟨hp, hfree⟩ | ⟨front, before, hp, hfree, hslash, hne, hbefore⟩
  · rcases ending_cases q with ⟨hq, -⟩ | ⟨front', before', hq, hfree', hslash', hne', hbefore'⟩
    · have hsame : p = q := by
        rw [← ofChars_toList p, ← ofChars_toList q, hp, hq, h.ending]
      exact hsame ▸ .refl p
    · exact (h.not_open hparts hp hq hfree' hslash' hne' hbefore').elim
  · rcases ending_cases q with ⟨hq, -⟩ | ⟨front', before', hq, hfree', hslash', hne', hbefore'⟩
    · exact (h.symm.not_open hparts.symm hq hp hfree hslash hne hbefore).elim
    · have hbehind : before = before' := by
        have hwhole := hbefore p.ending
        have hwhole' := hbefore' q.ending
        rw [← hp, ofChars_toList] at hwhole
        rw [← hq, ofChars_toList, ← hparts, hwhole, h.ending] at hwhole'
        exact List.append_cancel_right hwhole'
      intro cs
      rw [hp, hq, List.append_assoc, List.append_assoc, hbefore, hbefore', hbehind, h.ending]

theorem of_append (hparts : p.parts = q.parts) {extension : String} (he : Extends extension)
    (h : (p.append extension).parts = (q.append extension).parts) : EndsLike p q := by
  obtain ⟨front, happend, hfront, hdot⟩ := exists_parts_append p
  obtain ⟨front', happend', hfront', hdot'⟩ := exists_parts_append q
  rw [happend _ he, happend' _ he] at h
  obtain ⟨rfl, hlast⟩ := List.append_inj' h rfl
  have hending : p.ending = q.ending := by
    have htext := congrArg String.toList (Part.name.inj (List.singleton_inj.1 hlast))
    simpa using htext
  refine ⟨hending, fun hp => ?_, fun hq => ?_⟩
  · refine Decidable.byContradiction fun hne => parts_ne_of_dot hp hending ?_ hparts
    simpa [hdot hp] using hfront' hne
  · refine Decidable.byContradiction fun hne => parts_ne_of_dot hq hending.symm ?_ hparts.symm
    simpa [hdot' hq] using hfront hne

end EndsLike

/-! ## A name and what is written behind it -/

theorem joinSlashes_append {before behind : List (List Char)} (h : before ≠ []) (hb : behind ≠ []) :
    joinSlashes (before ++ behind) = joinSlashes before ++ '/' :: joinSlashes behind := by
  induction before with
  | nil => exact absurd rfl h
  | cons piece rest ih =>
      by_cases hrest : rest = []
      · subst hrest
        rw [List.singleton_append, joinSlashes_cons hb]
        rfl
      · rw [List.cons_append, joinSlashes_cons (by simp [hrest]), ih hrest, joinSlashes_cons hrest,
          List.append_assoc, List.cons_append]

/-- The start of a text that means nothing means nothing. -/
theorem inner_of_append {as bs : List Char} (h : inner (as ++ bs) = []) : inner as = [] := by
  obtain ⟨front, last, hsplit⟩ := splitSlashes_append as
  obtain ⟨piece, rest, hbs⟩ := List.exists_cons_of_ne_nil (splitSlashes_ne_nil bs)
  have has : splitSlashes as = front ++ [last] := by simpa using hsplit [] [] [] rfl
  rw [inner, hsplit bs piece rest hbs, List.filterMap_append, List.append_eq_nil_iff] at h
  have hlast : Part.ofPiece (last ++ piece) = none := by
    cases hpart : Part.ofPiece (last ++ piece) with
    | none => rfl
    | some part => simp [hpart] at h
  have hblank : Part.ofPiece last = none := by
    rw [ofPiece_eq_none_iff] at hlast ⊢
    rcases hlast with hnil | hdot
    · exact .inl (List.append_eq_nil_iff.1 hnil).1
    · cases last with
      | nil => exact .inl rfl
      | cons c rest =>
          simp only [List.cons_append, List.cons.injEq, List.append_eq_nil_iff] at hdot
          exact .inr (by rw [hdot.1, hdot.2.1])
  rw [inner, has, List.filterMap_append, h.1]
  simp [hblank]

theorem lead_eq_none_of_stem {stem : List Char} (hne : stem ≠ []) (hfree : '/' ∉ stem)
    (cs : List Char) : (ofChars (stem ++ '.' :: cs)).cut.lead = none := by
  match stem, hne with
  | [a], _ => exact lead_eq_none_of_two (fun h => hfree (by simp [h])) (by decide) cs
  | a :: b :: rest, _ =>
      exact lead_eq_none_of_two (fun h => hfree (by simp [h])) (fun h => hfree (by simp [h])) _

/-- What is written before some pieces is a front for them. -/
theorem exists_fronts (pieces : List (List Char)) :
    ∃ front before, Fronts front before ∧
      ∀ more, more ≠ [] → joinSlashes (pieces ++ more) = front ++ joinSlashes more := by
  by_cases hpieces : pieces = []
  · exact ⟨[], [], fun cs hcs => by simp [parts_eq, hcs], fun more _ => by rw [hpieces]; rfl⟩
  · have hjoin : ∀ more, more ≠ [] →
        joinSlashes (pieces ++ more) = joinSlashes pieces ++ ['/'] ++ joinSlashes more := by
      intro more hmore
      rw [joinSlashes_append hpieces hmore, List.append_assoc, List.singleton_append]
    by_cases hempty : joinSlashes pieces = []
    · rw [hempty] at hjoin
      exact ⟨['/'], [.root], fun cs _ => parts_root_slash cs, hjoin⟩
    · exact ⟨_, _, fronts_slash hempty, hjoin⟩

/-- The last name of a path is no lead, so it is written as a piece. -/
theorem inner_of_name {p : Path} {name : String} (h : p.name? = some name) :
    ∃ init, inner p.text.toList = init ++ [.name name] := by
  have hlast := (name?_eq_some_iff p name).1 h
  obtain ⟨-, -, hname, -⟩ := cut_sound p
  rw [parts_eq] at hlast
  cases hinner : (inner p.text.toList).getLast? with
  | some last =>
      rw [List.getLast?_append, hinner] at hlast
      obtain rfl : last = .name name := by simpa using hlast
      exact List.getLast?_eq_some_iff.1 hinner
  | none =>
      rw [List.getLast?_append, hinner] at hlast
      cases hlead : p.cut.lead with
      | none => simp [hlead] at hlast
      | some lead =>
          obtain rfl : lead = .name name := by simpa [hlead] using hlast
          exact absurd hlead (hname name)

/-- A text without its last name, which is written behind a front. Behind the name there is
nothing, or a slash and no more parts. -/
theorem text_of_name {p : Path} {name : String} (h : p.name? = some name) :
    ∃ front before tail, p.text.toList = front ++ (name.toList ++ tail) ∧ Fronts front before ∧
      (tail = [] ∧ p.endsInPart = true ∨
        ∃ rest, tail = '/' :: rest ∧ inner rest = [] ∧ p.endsInPart = false) := by
  obtain ⟨init, hinit⟩ := inner_of_name h
  obtain ⟨first, second, hsplit, -, hsecond⟩ := List.filterMap_eq_append_iff.1 hinit
  obtain ⟨blanks, last, behind, rfl, -, hlast, hbehind⟩ := List.filterMap_eq_cons_iff.1 hsecond
  obtain rfl := eq_toList_of_ofPiece hlast
  have hsplit : splitSlashes p.text.toList = (first ++ blanks) ++ ([name.toList] ++ behind) := by
    simp [hsplit]
  have htext := joinSlashes_splitSlashes p.text.toList
  obtain ⟨front, before, hfront, hjoin⟩ := exists_fronts (first ++ blanks)
  rw [hsplit, hjoin _ (by simp)] at htext
  refine ⟨front, before, (if behind = [] then [] else '/' :: joinSlashes behind), ?_, hfront, ?_⟩
  · rw [← htext]
    split
    · rename_i hnil
      simp [hnil, joinSlashes]
    · rename_i hne
      rw [joinSlashes_append (by simp) hne]
      rfl
  · split
    · rename_i hnil
      rw [hnil, List.append_nil] at hsplit
      refine .inl ⟨rfl, ?_⟩
      simp [endsInPart, ending_of_split hsplit, isBlankPiece, hlast]
    · rename_i hne
      have hfree : ∀ piece ∈ behind, '/' ∉ piece := by
        intro piece hpiece
        have hmem : piece ∈ splitSlashes p.text.toList := by simp [hsplit, hpiece]
        exact slash_notMem_of_mem_splitSlashes hmem
      refine .inr ⟨_, rfl, by rw [inner_joinSlashes hne hfree, hbehind], ?_⟩
      have hend := List.dropLast_concat_getLast hne
      rw [← hend, ← List.append_assoc, ← List.append_assoc] at hsplit
      have hblank := List.filterMap_eq_nil_iff.1 hbehind _ (List.getLast_mem hne)
      simp [endsInPart, ending_of_split hsplit, isBlankPiece, hblank]

/-- What is left of a name, and of nothing or a slash and no more parts behind it, without as many
characters as its extension has. -/
theorem inner_cut_name {stem suffix tail : List Char} (hstem : '/' ∉ stem) (hsuffix : '/' ∉ suffix)
    (hdots : '.' ∉ suffix) (hne : suffix ≠ [])
    (htail : tail = [] ∨ ∃ rest, tail = '/' :: rest ∧ inner rest = []) :
    ∃ rest : List Char, '.' ∉ rest ∧ (rest = [] ↔ tail = []) ∧
      inner (stem ++ '.' :: (suffix ++ tail).take tail.length)
        = (Part.ofPiece (stem ++ '.' :: rest)).toList := by
  rcases htail with rfl | ⟨behind, rfl, hbehind⟩
  · refine ⟨[], by simp, by simp, ?_⟩
    rw [List.length_nil, List.take_zero, inner_of_notMem (by simp [hstem])]
  · by_cases hlong : ('/' :: behind).length ≤ suffix.length
    · rw [List.take_append_of_le_length hlong, List.length_cons]
      refine ⟨suffix.take (behind.length + 1), fun hdot => hdots (List.mem_of_mem_take hdot),
        by simp [hne], ?_⟩
      have hslash : '/' ∉ suffix.take (behind.length + 1) := fun hc =>
        hsuffix (List.mem_of_mem_take hc)
      rw [inner_of_notMem (by simp [hstem, hslash])]
    · refine ⟨suffix, hdots, by simp [hne], ?_⟩
      obtain ⟨n, hn⟩ : ∃ n, ('/' :: behind).length = suffix.length + (n + 1) :=
        ⟨('/' :: behind).length - suffix.length - 1, by omega⟩
      have hmore : inner (behind.take n) = [] := by
        rw [← List.take_append_drop n behind] at hbehind
        exact inner_of_append hbehind
      rw [hn, List.take_append, List.take_of_length_le (by omega), Nat.add_sub_cancel_left,
        List.take_succ_cons, ← List.cons_append, ← List.append_assoc, inner_append_slash, hmore,
        inner_of_notMem (by simp [hstem, hsuffix]), List.append_nil]

/-- What is left of a name when as many characters are cut off as its extension has: the stem, a
dot, and of the extension as much as was written behind the name. -/
theorem withoutSuffix_of_name {p : Path} {name suffix : String} (h : p.name? = some name)
    (hsuffix : (splitName name).2 = some suffix) (hne : suffix ≠ "") :
    ∃ rest : List Char, '.' ∉ rest ∧ (rest = [] ↔ p.endsInPart = true) ∧
      p.withoutSuffix.parts = p.parts.dropLast
        ++ (Part.ofPiece ((splitName name).1.toList ++ '.' :: rest)).toList := by
  obtain ⟨hstem, hdots, hname⟩ := splitName_eq_some hsuffix
  generalize hs : (splitName name).1.toList = stem at hname
  have hstem : stem ≠ [] := by
    rw [← hs]
    simpa using hstem
  have hfree : '/' ∉ name.toList :=
    slash_notMem_name (List.mem_of_getLast? ((name?_eq_some_iff p name).1 h))
  have hslash : '/' ∉ stem ∧ '/' ∉ suffix.toList := by simpa [hname] using hfree
  have hpos : 0 < suffix.toList.length := List.length_pos_iff.2 (by simpa using hne)
  have hpiece : Part.ofPiece name.toList = some (.name name) := by
    have hpos' := List.length_pos_iff.2 hstem
    have hlong : 3 ≤ name.toList.length := by
      rw [hname, List.length_append, List.length_cons]
      omega
    simpa using ofPiece_of_three_le hlong
  obtain ⟨front, before, tail, htext, hfront, htail⟩ := text_of_name h
  -- Cut off at the end, the characters come from what is written behind the name first.
  have hcut : p.withoutSuffix
      = ofChars (front ++ (stem ++ '.' :: (suffix.toList ++ tail).take tail.length)) := by
    have hlength : p.suffixLength = suffix.toList.length := by
      simp [suffixLength, extension?, h, hsuffix, String.length_toList]
    have hwhole : p.text.toList = (front ++ stem ++ ['.']) ++ (suffix.toList ++ tail) := by
      simp [htext, hname]
    have hleft : (suffix.toList ++ tail).length - suffix.toList.length = tail.length := by
      rw [List.length_append]
      omega
    rw [withoutSuffix_eq, hwhole, hlength, take_append_sub (by simp), hleft]
    simp
  have hparts : p.parts = before ++ [.name name] := by
    have hlead : (ofChars (name.toList ++ tail)).cut.lead = none := by
      rw [hname, List.append_assoc, List.cons_append]
      exact lead_eq_none_of_stem hstem hslash.1 _
    have hwhole := hfront _ hlead
    rw [← htext, ofChars_toList] at hwhole
    rw [hwhole]
    rcases htail with ⟨rfl, -⟩ | ⟨rest, rfl, hrest, -⟩
    · rw [List.append_nil, inner_of_notMem hfree, hpiece]
      rfl
    · rw [inner_append_slash, hrest, inner_of_notMem hfree, hpiece]
      rfl
  rw [hcut, hparts, List.dropLast_concat, hfront _ (lead_eq_none_of_stem hstem hslash.1 _)]
  have hends : tail = [] ↔ p.endsInPart = true := by
    rcases htail with ⟨rfl, hend⟩ | ⟨behind, rfl, -, hend⟩ <;> simp [hend]
  have hbehind : tail = [] ∨ ∃ rest, tail = '/' :: rest ∧ inner rest = [] := by
    rcases htail with ⟨hnil, -⟩ | ⟨behind, heq, hnone, -⟩
    · exact .inl hnil
    · exact .inr ⟨behind, heq, hnone⟩
  obtain ⟨rest, hdots, hrest, hinner⟩ :=
    inner_cut_name hslash.1 hslash.2 hdots (by simpa using hne) hbehind
  exact ⟨rest, hdots, hrest.trans hends, by rw [hinner]⟩

/-- With another extension the last name keeps its stem, however the path is spelled. Only a stem of
one dot at the end of the text is lost: cut off behind it, the text ends in two dots. -/
theorem parts_withExtension_of_name {p : Path} {name suffix extension : String}
    (h : p.name? = some name) (hsuffix : (splitName name).2 = some suffix) (hne : suffix ≠ "")
    (he : Extends extension) :
    (p.withExtension extension).parts = p.parts.dropLast
      ++ [if (splitName name).1 = "." ∧ p.endsInPart = true then .up
        else .name ((splitName name).1 ++ "." ++ extension)] := by
  obtain ⟨rest, hdots, hrest, hbase⟩ := withoutSuffix_of_name h hsuffix hne
  obtain ⟨hstem, -, -⟩ := splitName_eq_some hsuffix
  generalize (splitName name).1 = stem at hstem hbase ⊢
  have hlong := he.long
  have hpos : 0 < stem.toList.length := List.length_pos_iff.2 (by simpa using hstem)
  have hwritten : extension ≠ "" := by
    rintro rfl
    simp at hlong
  rw [parts_withExtension he.free hwritten]
  by_cases hlost : stem = "." ∧ p.endsInPart = true
  · obtain ⟨rfl, hend⟩ := hlost
    have hup : p.withoutSuffix.parts = p.parts.dropLast ++ [.up] := by
      rw [hbase, hrest.2 hend]
      rfl
    simp [name?, hup, hend]
  · have hother : stem.toList ++ '.' :: rest ≠ ['.', '.'] := by
      intro heq
      have hlength := congrArg List.length heq
      simp only [List.length_append, List.length_cons, List.length_nil] at hlength
      obtain rfl : rest = [] := List.length_eq_zero_iff.1 (by omega)
      have hdot : stem.toList = ".".toList := by simpa using congrArg List.dropLast heq
      exact hlost ⟨String.toList_inj.1 hdot, hrest.1 rfl⟩
    have hpiece : Part.ofPiece (stem.toList ++ '.' :: rest)
        = some (.name (String.ofList (stem.toList ++ '.' :: rest))) := by
      have hone : stem.toList ++ '.' :: rest ≠ ['.'] := by
        intro heq
        have hlength := congrArg List.length heq
        simp only [List.length_append, List.length_cons, List.length_nil] at hlength
        omega
      simp [Part.ofPiece, hone, hother]
    have hname : p.withoutSuffix.name? = some (String.ofList (stem.toList ++ '.' :: rest)) := by
      rw [name?_eq_some_iff, hbase, hpiece, Option.toList_some, List.getLast?_concat]
    have hsplit : splitName (String.ofList (stem.toList ++ '.' :: rest))
        = (stem, some (String.ofList rest)) :=
      splitName_concat hstem (by simpa using hdots) (by simp)
    have hrenamed : 3 ≤ (stem ++ "." ++ extension).toList.length := by
      have hdot : ".".toList.length = 1 := rfl
      simp only [String.toList_append, List.length_append]
      omega
    simp only [hname, hsplit, hbase, hpiece, Option.toList_some, List.dropLast_concat,
      ofPiece_of_three_le hrenamed, String.ofList_toList, if_neg hlost]

end ModuleTrace.Path

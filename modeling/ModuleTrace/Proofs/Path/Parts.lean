import ModuleTrace.Path

/-!
# Parts of written paths

What joining, appending and cutting do to the parts of a path. The pieces of a text mean the same
wherever the text stands behind a slash, so the parts of a join are the parts of its two sides.
Only the head of a text is different: it says whether the path starts at the root or at a dot.
-/

namespace ModuleTrace.Path

/-! ## Pieces of a text -/

theorem splitSlashes_append_slash (as bs : List Char) :
    splitSlashes (as ++ '/' :: bs) = splitSlashes as ++ splitSlashes bs := by
  induction as with
  | nil => simp [splitSlashes]
  | cons a as ih =>
      by_cases ha : a = '/'
      · simp [splitSlashes, ha, ih]
      · cases hs : splitSlashes as with
        | nil => exact absurd hs (splitSlashes_ne_nil as)
        | cons piece pieces => simp [splitSlashes, ha, ih, hs]

theorem slash_notMem_of_mem_splitSlashes {cs piece : List Char} (h : piece ∈ splitSlashes cs) :
    '/' ∉ piece := by
  induction cs generalizing piece with
  | nil =>
      have : piece = [] := by simpa [splitSlashes] using h
      simp [this]
  | cons c cs ih =>
      by_cases hc : c = '/'
      · have hcases : piece = [] ∨ piece ∈ splitSlashes cs := by
          simpa [splitSlashes, hc] using h
        rcases hcases with rfl | hmem
        · simp
        · exact ih hmem
      · cases hs : splitSlashes cs with
        | nil => exact absurd hs (splitSlashes_ne_nil cs)
        | cons first pieces =>
            have hcases : piece = c :: first ∨ piece ∈ pieces := by
              simpa [splitSlashes, hc, hs] using h
            rcases hcases with rfl | hmem
            · have hfirst : '/' ∉ first := ih (by simp [hs])
              simp [hfirst, Ne.symm hc]
            · exact ih (by simp [hs, hmem])

theorem splitSlashes_of_notMem {cs : List Char} (h : '/' ∉ cs) : splitSlashes cs = [cs] := by
  induction cs with
  | nil => rfl
  | cons c cs ih =>
      have hc : c ≠ '/' := fun hc => h (by simp [hc])
      have hcs : '/' ∉ cs := fun hcs => h (by simp [hcs])
      simp [splitSlashes, hc, ih hcs]

theorem splitSlashes_joinSlashes {pieces : List (List Char)} (hne : pieces ≠ [])
    (hfree : ∀ piece ∈ pieces, '/' ∉ piece) : splitSlashes (joinSlashes pieces) = pieces := by
  induction pieces with
  | nil => exact absurd rfl hne
  | cons piece pieces ih =>
      have hpiece : '/' ∉ piece := hfree piece (by simp)
      cases pieces with
      | nil => simpa [joinSlashes] using splitSlashes_of_notMem hpiece
      | cons next rest =>
          have hrest := ih (by simp) fun p hp => hfree p (by simp [hp])
          have hjoin : joinSlashes (piece :: next :: rest)
              = piece ++ '/' :: joinSlashes (next :: rest) := rfl
          rw [hjoin, splitSlashes_append_slash, splitSlashes_of_notMem hpiece, hrest]
          rfl

/-- What a text means behind a slash. -/
def inner (cs : List Char) : List Part :=
  (splitSlashes cs).filterMap Part.ofPiece

@[simp] theorem inner_nil : inner [] = [] := rfl

@[simp] theorem inner_slash (cs : List Char) : inner ('/' :: cs) = inner cs := by
  simp [inner, splitSlashes, Part.ofPiece]

theorem inner_append_slash (as bs : List Char) :
    inner (as ++ '/' :: bs) = inner as ++ inner bs := by
  simp [inner, splitSlashes_append_slash]

theorem inner_of_notMem {cs : List Char} (h : '/' ∉ cs) :
    inner cs = (Part.ofPiece cs).toList := by
  cases hp : Part.ofPiece cs <;> simp [inner, splitSlashes_of_notMem h, hp]

/-! ## Head and parts -/

def ofChars (cs : List Char) : Path :=
  ⟨String.ofList cs⟩

@[simp] theorem ofChars_text (cs : List Char) : (ofChars cs).text = String.ofList cs := rfl

theorem ofChars_toList (p : Path) : ofChars p.text.toList = p := by
  simp [ofChars]

theorem Cut.ofPieces_of_ne {piece : List Char} {pieces : List (List Char)} (hne : piece ≠ [])
    (hdot : piece ≠ ['.']) : Cut.ofPieces (piece :: pieces) = ⟨none, piece :: pieces⟩ := by
  unfold Cut.ofPieces
  split <;> simp_all

theorem cut_of_split {p : Path} {pieces : List (List Char)}
    (h : splitSlashes p.text.toList = pieces) : p.cut = Cut.ofPieces pieces := by
  rw [cut, h]

/-- The three ways to cut a text. -/
theorem cut_cases (p : Path) :
    (∃ piece pieces, splitSlashes p.text.toList = [] :: piece :: pieces ∧
        p.cut = ⟨some .root, piece :: pieces⟩) ∨
      (∃ pieces, splitSlashes p.text.toList = ['.'] :: pieces ∧
        p.cut = ⟨some .here, pieces⟩) ∨
      (p.text.toList = [] ∧ p.cut = ⟨none, [[]]⟩) ∨
      ∃ piece pieces, splitSlashes p.text.toList = piece :: pieces ∧ piece ≠ [] ∧
        piece ≠ ['.'] ∧ p.cut = ⟨none, piece :: pieces⟩ := by
  cases hs : splitSlashes p.text.toList with
  | nil => exact absurd hs (splitSlashes_ne_nil _)
  | cons piece pieces =>
      have hcut := cut_of_split hs
      by_cases hempty : piece = []
      · subst hempty
        cases pieces with
        | nil =>
            have htext := joinSlashes_splitSlashes p.text.toList
            rw [hs] at htext
            exact .inr (.inr (.inl ⟨htext.symm, hcut⟩))
        | cons next rest => exact .inl ⟨next, rest, rfl, hcut⟩
      · by_cases hdot : piece = ['.']
        · subst hdot
          exact .inr (.inl ⟨pieces, rfl, hcut⟩)
        · refine .inr (.inr (.inr ⟨piece, pieces, rfl, hempty, hdot, ?_⟩))
          rw [hcut, Cut.ofPieces_of_ne hempty hdot]

theorem parts_eq (p : Path) : p.parts = p.cut.lead.toList ++ inner p.text.toList := by
  rcases cut_cases p with ⟨piece, pieces, hs, hcut⟩ | ⟨pieces, hs, hcut⟩ | ⟨htext, hcut⟩ |
    ⟨piece, pieces, hs, _, _, hcut⟩
  · simp [parts, hcut, inner, hs, Part.ofPiece]
  · simp [parts, hcut, inner, hs, Part.ofPiece]
  · simp [parts, hcut, htext, Part.ofPiece]
  · simp [parts, hcut, inner, hs]

@[simp] theorem parts_empty : (⟨""⟩ : Path).parts = [] := rfl

theorem cut_root_slash (cs : List Char) :
    (ofChars ('/' :: cs)).cut = ⟨some .root, splitSlashes cs⟩ := by
  cases hs : splitSlashes cs with
  | nil => exact absurd hs (splitSlashes_ne_nil cs)
  | cons piece pieces => simp [cut, splitSlashes, hs, Cut.ofPieces]

theorem parts_root_slash (cs : List Char) :
    (ofChars ('/' :: cs)).parts = .root :: inner cs := by
  simp [parts_eq, cut_root_slash]

theorem ofPiece_isSome {piece : List Char} (hne : piece ≠ []) (hdot : piece ≠ ['.']) :
    ∃ part, Part.ofPiece piece = some part := by
  unfold Part.ofPiece
  by_cases hup : piece = ['.', '.']
  · exact ⟨.up, by simp [hup]⟩
  · exact ⟨.name (String.ofList piece), by simp [hne, hdot, hup]⟩

/-- Only the empty text has no parts. -/
theorem parts_eq_nil_iff (p : Path) : p.parts = [] ↔ p.text = "" := by
  constructor
  · intro h
    rcases cut_cases p with ⟨piece, pieces, _, hcut⟩ | ⟨pieces, _, hcut⟩ | ⟨htext, _⟩ |
      ⟨piece, pieces, hs, hne, hdot, hcut⟩
    · simp [parts, hcut] at h
    · simp [parts, hcut] at h
    · exact String.toList_eq_nil_iff.1 htext
    · obtain ⟨part, hpart⟩ := ofPiece_isSome hne hdot
      simp [parts, hcut, hpart] at h
  · intro h
    rw [show p = ⟨""⟩ by cases p; simp_all]
    rfl

theorem lead_append_slash {as : List Char} (hne : as ≠ []) (bs : List Char) :
    (ofChars (as ++ '/' :: bs)).cut.lead = (ofChars as).cut.lead := by
  have hsplit := splitSlashes_append_slash as bs
  rcases cut_cases (ofChars as) with ⟨piece, pieces, hs, hcut⟩ | ⟨pieces, hs, hcut⟩ | ⟨htext, _⟩ |
    ⟨piece, pieces, hs, hpiece, hdot, hcut⟩
  · simp only [ofChars_text, String.toList_ofList] at hs
    rw [hcut, cut_of_split (by simpa [hs] using hsplit)]
    rfl
  · simp only [ofChars_text, String.toList_ofList] at hs
    rw [hcut, cut_of_split (by simpa [hs] using hsplit)]
    rfl
  · exact absurd (by simpa using htext) hne
  · simp only [ofChars_text, String.toList_ofList] at hs
    rw [hcut, cut_of_split (by simpa [hs] using hsplit), Cut.ofPieces_of_ne hpiece hdot]

theorem parts_append_slash {as : List Char} (hne : as ≠ []) (bs : List Char) :
    (ofChars (as ++ '/' :: bs)).parts = (ofChars as).parts ++ inner bs := by
  simp [parts_eq, lead_append_slash hne, inner_append_slash]

/-! ## Joining -/

theorem isAbsolute_iff (p : Path) : p.isAbsolute = true ↔ ∃ cs, p.text.toList = '/' :: cs := by
  cases h : p.text.toList <;> simp [isAbsolute, h]

theorem join_of_absolute {p q : Path} (h : q.isAbsolute = true) : p.join q = q := by
  simp [join, h]

/-- A join, whatever is written behind it, has the parts of its two sides. -/
theorem parts_join_append {p q : Path} (hp : p.text ≠ "") (hq : q.isAbsolute = false)
    (cs : List Char) :
    (ofChars ((p.join q).text.toList ++ cs)).parts = p.parts ++ inner (q.text.toList ++ cs) := by
  have hne : p.text.toList ≠ [] := by simpa using hp
  by_cases hlast : p.text.toList.getLast? = some '/'
  · obtain ⟨as, has⟩ : ∃ as, p.text.toList = as ++ ['/'] := List.getLast?_eq_some_iff.1 hlast
    have hjoin : (p.join q).text.toList = as ++ '/' :: q.text.toList := by
      simp [join, hq, has]
    have hp : p.parts = (ofChars (as ++ ['/'])).parts := by rw [← has, ofChars_toList]
    rw [hjoin, hp, List.append_assoc, List.cons_append]
    by_cases has : as = []
    · simp [has, parts_root_slash]
    · simp [parts_append_slash has]
  · have hjoin : (p.join q).text.toList = p.text.toList ++ '/' :: q.text.toList := by
      simp [join, hq, hlast, hp]
    rw [hjoin, List.append_assoc, List.cons_append, parts_append_slash hne, ofChars_toList]

theorem parts_join {p q : Path} (hp : p.text ≠ "") (hq : q.isAbsolute = false) :
    (p.join q).parts = p.parts ++ inner q.text.toList := by
  have h := parts_join_append hp hq []
  simpa [ofChars_toList] using h

/-! ## Cutting -/

theorem joinSlashes_cons {piece : List Char} {pieces : List (List Char)} (h : pieces ≠ []) :
    joinSlashes (piece :: pieces) = piece ++ '/' :: joinSlashes pieces := by
  cases pieces with
  | nil => exact absurd rfl h
  | cons next rest => rfl

theorem ofPiece_eq_none_iff (piece : List Char) :
    Part.ofPiece piece = none ↔ piece = [] ∨ piece = ['.'] := by
  constructor
  · intro h
    by_cases hne : piece = []
    · exact .inl hne
    · by_cases hdot : piece = ['.']
      · exact .inr hdot
      · obtain ⟨part, hpart⟩ := ofPiece_isSome hne hdot
        simp [hpart] at h
  · rintro (rfl | rfl) <;> rfl

theorem ofCut_none (pieces : List (List Char)) :
    ofCut none pieces = ofChars (joinSlashes pieces) := rfl

theorem ofCut_root (pieces : List (List Char)) :
    ofCut (some .root) pieces = ofChars ('/' :: joinSlashes pieces) := rfl

theorem ofCut_here {pieces : List (List Char)} (h : pieces ≠ []) :
    ofCut (some .here) pieces = ofChars ('.' :: '/' :: joinSlashes pieces) := by
  simp [ofCut, ofChars, h]

/-- Pieces that a text without a lead can start with. -/
def Cut.Sound (c : Cut) : Prop :=
  (∀ piece ∈ c.pieces, '/' ∉ piece) ∧ c.lead ≠ some .up ∧ (∀ text, c.lead ≠ some (.name text)) ∧
    (c.lead = none → ∀ piece pieces, c.pieces = piece :: pieces →
      Part.ofPiece piece = none → pieces = [])

theorem cut_sound (p : Path) : p.cut.Sound := by
  rcases cut_cases p with ⟨piece, pieces, hs, hcut⟩ | ⟨pieces, hs, hcut⟩ | ⟨htext, hcut⟩ |
    ⟨piece, pieces, hs, hne, hdot, hcut⟩
  · rw [hcut]
    refine ⟨fun q hq => ?_, by simp, by simp, by simp⟩
    exact slash_notMem_of_mem_splitSlashes (hs ▸ List.mem_cons_of_mem _ hq)
  · rw [hcut]
    refine ⟨fun q hq => ?_, by simp, by simp, by simp⟩
    exact slash_notMem_of_mem_splitSlashes (hs ▸ List.mem_cons_of_mem _ hq)
  · rw [hcut]
    exact ⟨by simp, by simp, by simp, by simp⟩
  · rw [hcut]
    refine ⟨fun q hq => slash_notMem_of_mem_splitSlashes (hs ▸ hq), by simp, by simp, ?_⟩
    rintro - q qs hq hnone
    obtain ⟨rfl, rfl⟩ := List.cons.inj hq
    simp [ofPiece_eq_none_iff, hne, hdot] at hnone

/-- The parts of a path put together from the pieces of a cut. A single blank piece is written
like a head, so it is left out. -/
theorem parts_ofCut {c : Cut} (hc : c.Sound) (hblank : c.pieces.filterMap Part.ofPiece ≠ [] ∨
    c.pieces = []) :
    (ofCut c.lead c.pieces).parts = c.lead.toList ++ c.pieces.filterMap Part.ofPiece := by
  obtain ⟨lead, pieces⟩ := c
  obtain ⟨hfree, hup, hname, hopen⟩ := hc
  have hinner : pieces ≠ [] → inner (joinSlashes pieces) = pieces.filterMap Part.ofPiece := by
    intro hne
    rw [inner, splitSlashes_joinSlashes hne hfree]
  cases lead with
  | none =>
      cases pieces with
      | nil => rfl
      | cons piece pieces =>
          have hsplit : splitSlashes (joinSlashes (piece :: pieces)) = piece :: pieces :=
            splitSlashes_joinSlashes (by simp) hfree
          have hsome : Part.ofPiece piece ≠ none := by
            intro hnone
            have hrest : pieces = [] := hopen rfl piece pieces rfl hnone
            rcases hblank with hblank | hblank <;> simp [hrest, hnone] at hblank
          rw [ne_eq, ofPiece_eq_none_iff, not_or] at hsome
          have hcut : (ofChars (joinSlashes (piece :: pieces))).cut.lead = none := by
            rw [cut_of_split (by simpa using hsplit), Cut.ofPieces_of_ne hsome.1 hsome.2]
          rw [ofCut_none, parts_eq, hcut]
          simpa using hinner (by simp)
  | some lead =>
      cases lead with
      | up => exact absurd rfl hup
      | name text => exact absurd rfl (hname text)
      | root =>
          rw [ofCut_root, parts_root_slash]
          cases pieces with
          | nil => rfl
          | cons piece pieces => rw [hinner (by simp)]; rfl
      | here =>
          cases pieces with
          | nil => rfl
          | cons piece pieces =>
              have hdot :=
                parts_append_slash (List.cons_ne_nil '.' []) (joinSlashes (piece :: pieces))
              rw [ofCut_here (by simp), ← hinner (by simp)]
              exact hdot

theorem trimRight_isPrefix (pieces : List (List Char)) : trimRight pieces <+: pieces := by
  have h : pieces.reverse.dropWhile isBlankPiece <:+ pieces.reverse := List.dropWhile_suffix _
  simpa [trimRight] using List.reverse_prefix.2 h

theorem filterMap_dropWhile_blank (pieces : List (List Char)) :
    (pieces.dropWhile isBlankPiece).filterMap Part.ofPiece = pieces.filterMap Part.ofPiece := by
  induction pieces with
  | nil => rfl
  | cons piece pieces ih =>
      cases hpiece : Part.ofPiece piece <;> simp [isBlankPiece, hpiece, ih]

theorem filterMap_trimRight (pieces : List (List Char)) :
    (trimRight pieces).filterMap Part.ofPiece = pieces.filterMap Part.ofPiece := by
  rw [trimRight, List.filterMap_reverse, filterMap_dropWhile_blank, ← List.filterMap_reverse,
    List.reverse_reverse]

/-- What is left ends in a piece that means something. -/
theorem trimRight_eq_append {pieces : List (List Char)} (h : trimRight pieces ≠ []) :
    ∃ before last part, trimRight pieces = before ++ [last] ∧ Part.ofPiece last = some part := by
  have hne : pieces.reverse.dropWhile isBlankPiece ≠ [] := by
    intro hnil
    exact h (by simp [trimRight, hnil])
  cases hd : pieces.reverse.dropWhile isBlankPiece with
  | nil => exact absurd hd hne
  | cons last before =>
      have hlast : isBlankPiece last = false := by
        have hhead := List.head?_dropWhile_not isBlankPiece pieces.reverse
        simpa [hd] using hhead
      obtain ⟨part, hpart⟩ : ∃ part, Part.ofPiece last = some part := by
        cases hp : Part.ofPiece last with
        | none => simp [isBlankPiece, hp] at hlast
        | some part => exact ⟨part, rfl⟩
      exact ⟨before.reverse, last, part, by simp [trimRight, hd], hpart⟩

/-- A cut without blank pieces at its end. -/
def Cut.Trimmed (c : Cut) : Prop :=
  c.pieces = [] ∨ ∃ before last part, c.pieces = before ++ [last] ∧ Part.ofPiece last = some part

theorem Cut.Trimmed.parts {c : Cut} (hc : c.Trimmed) (hs : c.Sound) :
    (ofCut c.lead c.pieces).parts = c.lead.toList ++ c.pieces.filterMap Part.ofPiece := by
  refine parts_ofCut hs ?_
  rcases hc with hnil | ⟨before, last, part, hpieces, hpart⟩
  · exact .inr hnil
  · exact .inl (by simp [hpieces, hpart])

theorem Cut.Sound.of_isPrefix {c : Cut} {pieces : List (List Char)} (hc : c.Sound)
    (h : pieces <+: c.pieces) : Cut.Sound ⟨c.lead, pieces⟩ := by
  obtain ⟨hfree, hup, hname, hopen⟩ := hc
  refine ⟨fun piece hpiece => hfree piece (h.subset hpiece), hup, hname, ?_⟩
  rintro hlead piece rest rfl hnone
  obtain ⟨more, hmore⟩ := h
  have hnil := hopen hlead piece (rest ++ more) (by simpa using hmore.symm) hnone
  exact (List.append_eq_nil_iff.1 hnil).1

theorem trimRight_trimmed (lead : Option Part) (pieces : List (List Char)) :
    Cut.Trimmed ⟨lead, trimRight pieces⟩ := by
  by_cases h : trimRight pieces = []
  · exact .inl h
  · exact .inr (trimRight_eq_append h)

/-- The path around a path is written without blank pieces at its end. -/
theorem parent?_eq_some {p d : Path} (h : p.parent? = some d) :
    ∃ c : Cut, c.Sound ∧ c.Trimmed ∧ d = ofCut c.lead c.pieces ∧
      c.lead.toList ++ c.pieces.filterMap Part.ofPiece = p.parts.dropLast := by
  have hsound := cut_sound p
  by_cases hnil : trimRight p.cut.pieces = []
  · have hblank : p.cut.pieces.filterMap Part.ofPiece = [] := by
      rw [← filterMap_trimRight, hnil]
      rfl
    cases hlead : p.cut.lead with
    | none => simp [parent?, hnil, hlead] at h
    | some lead =>
        cases lead with
        | up => exact absurd hlead hsound.2.1
        | name text => exact absurd hlead (hsound.2.2.1 text)
        | root => simp [parent?, hnil, hlead] at h
        | here =>
            have hd : d = ⟨""⟩ := by simpa [parent?, hnil, hlead, eq_comm] using h
            refine ⟨⟨none, []⟩, ⟨by simp, by simp, by simp, by simp⟩, .inl rfl, hd, ?_⟩
            simp [parts, hlead, hblank]
  · obtain ⟨before, last, part, htrim, hpart⟩ := trimRight_eq_append hnil
    have hd : d = ofCut p.cut.lead (trimRight before) := by
      simp only [parent?, htrim] at h
      split at h
      · simp_all
      · simp_all
      · simpa [eq_comm] using h
    have hbefore : trimRight before <+: p.cut.pieces :=
      (trimRight_isPrefix before).trans
        ((htrim ▸ List.prefix_append before [last]).trans (trimRight_isPrefix _))
    refine ⟨⟨p.cut.lead, trimRight before⟩, hsound.of_isPrefix hbefore, trimRight_trimmed _ _,
      hd, ?_⟩
    have hparts : p.parts = p.cut.lead.toList ++ (before.filterMap Part.ofPiece ++ [part]) := by
      rw [parts, ← filterMap_trimRight, htrim]
      simp [hpart]
    rw [hparts, ← List.append_assoc, List.dropLast_concat, filterMap_trimRight]

theorem parts_parent? {p d : Path} (h : p.parent? = some d) : d.parts = p.parts.dropLast := by
  obtain ⟨c, hsound, htrimmed, rfl, hparts⟩ := parent?_eq_some h
  rw [htrimmed.parts hsound, hparts]

theorem parent?_eq_none_iff (p : Path) :
    p.parent? = none ↔ p.parts = [] ∨ p.parts = [.root] := by
  have hsound := cut_sound p
  have hparts : p.parts = p.cut.lead.toList ++ (trimRight p.cut.pieces).filterMap Part.ofPiece := by
    rw [parts, filterMap_trimRight]
  by_cases hnil : trimRight p.cut.pieces = []
  · cases hlead : p.cut.lead with
    | none => simp [parent?, hnil, hlead, hparts]
    | some lead =>
        cases lead with
        | up => exact absurd hlead hsound.2.1
        | name text => exact absurd hlead (hsound.2.2.1 text)
        | root => simp [parent?, hnil, hlead, hparts]
        | here => simp [parent?, hnil, hlead, hparts]
  · obtain ⟨before, last, part, htrim, hpart⟩ := trimRight_eq_append hnil
    have hlast : Part.ofPiece last ≠ some .root := by
      unfold Part.ofPiece
      split <;> simp_all
      split <;> simp_all
    constructor
    · intro h
      simp only [parent?, htrim] at h
      split at h <;> simp_all
    · intro h
      exfalso
      rw [hparts, htrim] at h
      rcases h with h | h
      · simp [hpart] at h
      · cases hlead : p.cut.lead with
        | none =>
            have hpartRoot : part = .root := by
              have := congrArg List.getLast? h
              simpa [hlead, hpart] using this
            exact hlast (hpartRoot ▸ hpart)
        | some lead =>
            have := congrArg List.length h
            simp [hlead, hpart] at this

/-! ## Ancestors -/

theorem length_parts_parent? {p d : Path} (h : p.parent? = some d) :
    d.parts.length + 1 = p.parts.length := by
  have hne : p.parts ≠ [] := by
    intro hnil
    have hnone := (parent?_eq_none_iff p).2 (.inl hnil)
    simp [hnone] at h
  rw [parts_parent? h, List.length_dropLast]
  have := List.length_pos_iff.2 hne
  omega

/-- A path comes first among its ancestors, then the ancestors of the path around it. -/
theorem ancestors_eq (p : Path) :
    p.ancestors = p :: (match p.parent? with
      | some parent => parent.ancestors
      | none => []) := by
  cases hparent : p.parent? with
  | none =>
      rw [ancestors]
      cases p.parts.length <;> simp [ancestorsWithin, hparent]
  | some parent =>
      have hlen := length_parts_parent? hparent
      rw [ancestors, ← hlen]
      simp [ancestorsWithin, hparent, ancestors]

/-- What a path lies in lies less deep. -/
theorem length_of_mem_ancestors {p x : Path} (h : x ∈ p.ancestors) :
    x.parts.length ≤ p.parts.length := by
  induction hlength : p.parts.length using Nat.strongRecOn generalizing p with
  | ind length ih =>
      subst hlength
      rw [ancestors_eq] at h
      rcases List.mem_cons.1 h with rfl | h
      · exact Nat.le_refl _
      · cases hparent : p.parent? with
        | none => simp [hparent] at h
        | some parent =>
            have hshort := length_parts_parent? hparent
            rw [hparent] at h
            have hbound := ih parent.parts.length (by omega) h rfl
            omega

theorem nodup_parts_ancestors (p : Path) : (p.ancestors.map parts).Nodup := by
  induction hlength : p.parts.length using Nat.strongRecOn generalizing p with
  | ind length ih =>
      subst hlength
      rw [ancestors_eq]
      cases hparent : p.parent? with
      | none => simp
      | some parent =>
          have hshort := length_parts_parent? hparent
          rw [List.map_cons, List.nodup_cons]
          refine ⟨fun hmem => ?_, ih parent.parts.length (by omega) parent rfl⟩
          obtain ⟨x, hx, hsame⟩ := List.mem_map.1 hmem
          have hbound := length_of_mem_ancestors hx
          rw [hsame] at hbound
          omega

/-- The directory so many steps up. -/
def up? : Nat → Path → Option Path
  | 0, p => some p
  | n + 1, p => p.parent?.bind (up? n)

theorem getElem?_ancestors (p : Path) (n : Nat) : p.ancestors[n]? = up? n p := by
  induction n generalizing p with
  | zero =>
      rw [ancestors_eq]
      rfl
  | succ n ih =>
      rw [ancestors_eq, List.getElem?_cons_succ, up?]
      cases p.parent? with
      | none => rfl
      | some parent => exact ih parent

end ModuleTrace.Path

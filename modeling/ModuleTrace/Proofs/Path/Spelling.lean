import ModuleTrace.Affix
import ModuleTrace.Proofs.Path.Parts
import ModuleTrace.Resolution.Candidate

/-!
# Spellings of one path

Paths of the same parts are one path under several spellings. What is made of a path may still
depend on its text: an extension is written behind the text as it is, and cut off by its length.
Two spellings are interchangeable when nothing that is written behind them tells them apart, and
of one shape when the extension can be cut off both.
-/

namespace ModuleTrace.Path

theorem same_iff (p q : Path) : p.same q = true ↔ p.parts = q.parts := by
  simp [same]

theorem same_refl (p : Path) : p.same p = true := (same_iff p p).2 rfl

theorem name?_congr {p q : Path} (h : p.parts = q.parts) : p.name? = q.name? := by
  simp [name?, h]

theorem extension?_congr {p q : Path} (h : p.parts = q.parts) : p.extension? = q.extension? := by
  simp [extension?, name?_congr h]

theorem normalize_congr {p q : Path} (h : p.parts = q.parts) : p.normalize = q.normalize := by
  simp [normalize, h]

theorem isUnder_iff (p base : Path) : p.isUnder base = true ↔ base.parts <+: p.parts :=
  List.isPrefixOf_iff_prefix

theorem isUnder_congr {p q : Path} (h : p.parts = q.parts) (base : Path) :
    p.isUnder base = q.isUnder base := by
  simp [isUnder, h]

theorem text_eq_empty_congr {p q : Path} (h : p.parts = q.parts) :
    p.text = "" ↔ q.text = "" := by
  rw [← parts_eq_nil_iff, ← parts_eq_nil_iff, h]

theorem parent?_congr {p q : Path} (h : p.parts = q.parts) :
    Option.Rel (fun d e : Path => d.parts = e.parts) p.parent? q.parent? := by
  cases hp : p.parent? with
  | none =>
      have hq : q.parent? = none := by
        rw [parent?_eq_none_iff, ← h, ← parent?_eq_none_iff, hp]
      rw [hq]
      exact .none
  | some d =>
      cases hq : q.parent? with
      | none =>
          have : p.parent? = none := by
            rw [parent?_eq_none_iff, h, ← parent?_eq_none_iff, hq]
          simp [hp] at this
      | some e => exact .some (by rw [parts_parent? hp, parts_parent? hq, h])

/-! ## Interchangeable spellings -/

/-- Whatever is written behind both spellings, they have the same parts. -/
def Interchangeable (p q : Path) : Prop :=
  ∀ cs, (ofChars (p.text.toList ++ cs)).parts = (ofChars (q.text.toList ++ cs)).parts

theorem Interchangeable.refl (p : Path) : Interchangeable p p := fun _ => rfl

theorem Interchangeable.parts {p q : Path} (h : Interchangeable p q) : p.parts = q.parts := by
  have := h []
  simpa [ofChars_toList] using this

theorem Interchangeable.append {p q : Path} (h : Interchangeable p q) (extension : String) :
    (p.append extension).parts = (q.append extension).parts := by
  have := h ('.' :: extension.toList)
  simpa [Path.append, ofChars, String.append_assoc] using this

/-- Behind a joined path nothing shows how its left side was spelled. -/
theorem join_interchangeable {p q : Path} (h : p.parts = q.parts) (r : Path) :
    Interchangeable (p.join r) (q.join r) := by
  intro cs
  cases hr : r.isAbsolute with
  | true => rw [join_of_absolute hr, join_of_absolute hr]
  | false =>
      by_cases hp : p.text = ""
      · have hq : q.text = "" := (text_eq_empty_congr h).1 hp
        rw [show p = q by cases p; cases q; simp_all]
      · have hq : q.text ≠ "" := fun hq => hp ((text_eq_empty_congr h).2 hq)
        rw [parts_join_append hp hr, parts_join_append hq hr, h]

theorem parts_join_congr {p q : Path} (h : p.parts = q.parts) (r : Path) :
    (p.join r).parts = (q.join r).parts :=
  (join_interchangeable h r).parts

theorem parts_div_congr {p q : Path} (h : p.parts = q.parts) (name : String) :
    (p / name).parts = (q / name).parts :=
  parts_join_congr h ⟨name⟩

theorem normalize_div_congr {p q : Path} (h : p.parts = q.parts) (name : String) :
    (p / name).normalize = (q / name).normalize :=
  normalize_congr (parts_div_congr h name)

/-! ## Names and extensions -/

theorem drop_takeWhile_length (test : Char → Bool) (cs : List Char) :
    cs.drop (cs.takeWhile test).length = cs.dropWhile test := by
  induction cs with
  | nil => rfl
  | cons c cs ih => by_cases hc : test c <;> simp [hc, ih]

theorem splitName_eq (name : String) :
    splitName name = match name.toList.reverse.dropWhile (· ≠ '.') with
      | _ :: c :: stem => (String.ofList (c :: stem).reverse,
          some (String.ofList (name.toList.reverse.takeWhile (· ≠ '.')).reverse))
      | _ => (name, none) := by
  rw [← drop_takeWhile_length]
  rfl

theorem splitName_eq_some {name extension : String} (h : (splitName name).2 = some extension) :
    (splitName name).1 ≠ "" ∧ '.' ∉ extension.toList ∧
      name.toList = (splitName name).1.toList ++ '.' :: extension.toList := by
  have hsplit := List.takeWhile_append_dropWhile (p := (· ≠ '.')) (l := name.toList.reverse)
  have hhead := List.head?_dropWhile_not (· ≠ '.') name.toList.reverse
  have hbefore : '.' ∉ name.toList.reverse.takeWhile (· ≠ '.') := by
    intro hmem
    have hall := List.all_eq_true.1 (List.all_takeWhile (p := (· ≠ '.'))) _ hmem
    simp at hall
  rw [splitName_eq] at h ⊢
  generalize name.toList.reverse.takeWhile (· ≠ '.') = suffix at h hsplit hbefore ⊢
  generalize name.toList.reverse.dropWhile (· ≠ '.') = rest at h hsplit hhead ⊢
  match rest, h with
  | dot :: c :: stem, h =>
      obtain rfl : dot = '.' := by simpa using hhead
      simp only [Option.some.injEq] at h
      subst h
      refine ⟨by simp, by simpa using hbefore, ?_⟩
      have := congrArg List.reverse hsplit
      simpa using this.symm

/-- A name with a stem in front of its end is cut between the two. -/
theorem splitName_concat {stem name extension : String} (hstem : stem ≠ "")
    (hfree : '.' ∉ extension.toList)
    (hname : name.toList = stem.toList ++ '.' :: extension.toList) :
    splitName name = (stem, some extension) := by
  have hreverse : name.toList.reverse = extension.toList.reverse ++ '.' :: stem.toList.reverse := by
    simp [hname]
  have hbefore : '.' ∉ extension.toList.reverse := by
    simpa using hfree
  obtain ⟨htake, hdrop⟩ := Affix.cut_append hbefore
    (.inr (rfl : ('.' :: stem.toList.reverse).head? = some '.'))
  rw [splitName_eq, hreverse, htake, hdrop]
  cases hstem' : stem.toList.reverse with
  | nil => exact absurd (by simpa using hstem') hstem
  | cons c rest => simp [← hstem']

/-- The stem of a name is what the name starts with. -/
theorem splitName_fst_isPrefix (name : String) :
    (splitName name).1.toList <+: name.toList := by
  cases h : (splitName name).2 with
  | some extension =>
      obtain ⟨_, _, hname⟩ := splitName_eq_some h
      exact ⟨_, hname.symm⟩
  | none =>
      rw [splitName_eq] at h ⊢
      split at h
      · simp at h
      · simp

theorem eq_toList_of_ofPiece {piece : List Char} {text : String}
    (h : Part.ofPiece piece = some (.name text)) : piece = text.toList := by
  unfold Part.ofPiece at h
  split at h
  · simp at h
  · split at h
    · simp at h
    · simp only [Option.some.injEq, Part.name.injEq] at h
      simp [← h]

theorem slash_notMem_of_name {piece : List Char} {text : String} (hfree : '/' ∉ piece)
    (h : Part.ofPiece piece = some (.name text)) : '/' ∉ text.toList := by
  rwa [← eq_toList_of_ofPiece h]

theorem slash_notMem_name {p : Path} {text : String} (h : .name text ∈ p.parts) :
    '/' ∉ text.toList := by
  obtain ⟨hfree, _, hname, _⟩ := cut_sound p
  simp only [parts, List.mem_append, Option.mem_toList, List.mem_filterMap] at h
  rcases h with hlead | ⟨piece, hpiece, hpart⟩
  · exact absurd hlead (hname text)
  · exact slash_notMem_of_name (hfree piece hpiece) hpart

theorem name?_eq_some_iff (p : Path) (text : String) :
    p.name? = some text ↔ p.parts.getLast? = some (.name text) := by
  unfold name?
  split <;> simp_all

theorem ofPiece_of_two_le {piece : List Char} (h : 2 ≤ piece.length) :
    ∃ part, Part.ofPiece piece = some part := by
  refine ofPiece_isSome ?_ ?_ <;> rintro rfl <;> simp at h

/-- The cut of a path whose last part is a name. -/
theorem trimRight_eq_append_of_name {p : Path} {text : String}
    (h : p.parts.getLast? = some (.name text)) :
    ∃ before last, trimRight p.cut.pieces = before ++ [last] ∧
      Part.ofPiece last = some (.name text) ∧
      p.parts.dropLast = p.cut.lead.toList ++ before.filterMap Part.ofPiece := by
  obtain ⟨_, _, hname, _⟩ := cut_sound p
  rw [parts, ← filterMap_trimRight] at h ⊢
  by_cases hnil : trimRight p.cut.pieces = []
  · cases hlead : p.cut.lead with
    | none => simp [hnil, hlead] at h
    | some lead =>
        have : lead = .name text := by simpa [hnil, hlead] using h
        exact absurd (this ▸ hlead) (hname text)
  · obtain ⟨before, last, part, htrim, hpart⟩ := trimRight_eq_append hnil
    have hparts : p.cut.lead.toList ++ (before ++ [last]).filterMap Part.ofPiece
        = (p.cut.lead.toList ++ before.filterMap Part.ofPiece) ++ [part] := by
      simp [hpart]
    rw [htrim, hparts] at h ⊢
    have hpartName : part = .name text := by simpa using h
    exact ⟨before, last, rfl, hpartName ▸ hpart, by simp⟩

/-- The last piece of a cut can be written anew. -/
theorem Cut.Sound.replaceLast {lead : Option Part} {before : List (List Char)}
    {last new : List Char} (hc : Cut.Sound ⟨lead, before ++ [last]⟩) (hfree : '/' ∉ new) :
    Cut.Sound ⟨lead, before ++ [new]⟩ := by
  obtain ⟨hold, hup, hname, hopen⟩ := hc
  refine ⟨fun piece hpiece => ?_, hup, hname, fun hnone piece pieces hpieces hblank => ?_⟩
  · rcases List.mem_append.1 hpiece with hmem | hmem
    · exact hold piece (by simp [hmem])
    · rwa [List.mem_singleton.1 hmem]
  · cases before with
    | nil =>
        obtain ⟨rfl, rfl⟩ := List.cons.inj hpieces
        rfl
    | cons first rest =>
        obtain ⟨rfl, rfl⟩ := List.cons.inj hpieces
        have := hopen hnone first (rest ++ [last]) rfl hblank
        simp at this

/-- A path with another extension has the parts of the path with its extension cut off, but for
the last one, which is written anew. -/
theorem parts_withExtension {p : Path} {extension : String} (he : '/' ∉ extension.toList)
    (hne : extension ≠ "") :
    (p.withExtension extension).parts = match p.withoutSuffix.name? with
      | none => p.withoutSuffix.parts
      | some name => p.withoutSuffix.parts.dropLast ++
          (Part.ofPiece ((splitName name).1 ++ "." ++ extension).toList).toList := by
  unfold withExtension
  generalize p.withoutSuffix = base
  simp only
  cases hname : base.name? with
  | none => simp
  | some name =>
      simp only
      have hlast : base.parts.getLast? = some (.name name) := (name?_eq_some_iff base name).1 hname
      have hslash : '/' ∉ name.toList := slash_notMem_name (List.mem_of_getLast? hlast)
      obtain ⟨before, last, htrim, hpart, hparts⟩ := trimRight_eq_append_of_name hlast
      have hfree : '/' ∉ ((splitName name).1 ++ "." ++ extension).toList := by
        have hstem : '/' ∉ (splitName name).1.toList :=
          fun h => hslash ((splitName_fst_isPrefix name).subset h)
        simp [hstem, he]
      generalize hrenamed : ((splitName name).1 ++ "." ++ extension).toList = renamed at hfree ⊢
      obtain ⟨part, hnew⟩ : ∃ part, Part.ofPiece renamed = some part := by
        refine ofPiece_of_two_le ?_
        have : 0 < extension.toList.length := List.length_pos_iff.2 (by simpa using hne)
        rw [← hrenamed]
        simp only [String.toList_append, List.length_append]
        have hdot : ".".toList.length = 1 := rfl
        omega
      have hbefore : before ++ [last] <+: base.cut.pieces := htrim ▸ trimRight_isPrefix _
      have hsound : Cut.Sound ⟨base.cut.lead, before ++ [renamed]⟩ :=
        ((cut_sound base).of_isPrefix hbefore).replaceLast hfree
      have htrimmed : Cut.Trimmed ⟨base.cut.lead, before ++ [renamed]⟩ :=
        .inr ⟨before, renamed, part, rfl, hnew⟩
      have hcut := htrimmed.parts hsound
      rw [htrim, List.dropLast_concat, hcut, hparts]
      simp [hnew]

theorem withExtension_congr {p q : Path} {extension : String} (he : '/' ∉ extension.toList)
    (hne : extension ≠ "") (h : p.withoutSuffix.parts = q.withoutSuffix.parts) :
    (p.withExtension extension).parts = (q.withExtension extension).parts := by
  rw [parts_withExtension he hne, parts_withExtension he hne, name?_congr h, h]

/-! ## Spellings of one shape -/

/-- Interchangeable spellings that stay one path when the extension is cut off. -/
structure SameShape (p q : Path) : Prop where
  behind : Interchangeable p q
  cutOff : p.withoutSuffix.parts = q.withoutSuffix.parts

namespace SameShape

theorem refl (p : Path) : SameShape p p := ⟨.refl p, rfl⟩

theorem parts {p q : Path} (h : SameShape p q) : p.parts = q.parts := h.behind.parts

end SameShape

def suffixLength (p : Path) : Nat :=
  (p.extension?.getD "").length

theorem withoutSuffix_eq (p : Path) :
    p.withoutSuffix = ofChars (p.text.toList.take (p.text.toList.length - p.suffixLength)) := by
  simp [withoutSuffix, ofChars, suffixLength, String.length_toList]

/-- Behind a text that ends as a directory does, a text means what it means behind a slash. -/
theorem parts_join_empty_append {d : Path} (hd : d.text ≠ "") (cs : List Char) :
    (ofChars ((d.join ⟨""⟩).text.toList ++ cs)).parts = d.parts ++ inner cs := by
  have h := parts_join_append hd (q := ⟨""⟩) rfl cs
  simpa using h

theorem text_join_relative {d r : Path} (hr : r.isAbsolute = false) :
    (d.join r).text.toList = (d.join ⟨""⟩).text.toList ++ r.text.toList := by
  have hempty : (⟨""⟩ : Path).isAbsolute = false := rfl
  by_cases hd : d.text = "" ∨ d.text.toList.getLast? = some '/' <;> simp [join, hr, hempty, hd]

theorem length_le_of_mem_splitSlashes {cs piece : List Char} (h : piece ∈ splitSlashes cs) :
    piece.length ≤ cs.length := by
  have hjoin : ∀ pieces : List (List Char), piece ∈ pieces →
      piece.length ≤ (joinSlashes pieces).length := by
    intro pieces hmem
    induction pieces with
    | nil => simp at hmem
    | cons first rest ih =>
        cases rest with
        | nil => simp_all [joinSlashes]
        | cons next rest =>
            rw [joinSlashes_cons (by simp), List.length_append, List.length_cons]
            rcases List.mem_cons.1 hmem with rfl | hmem
            · omega
            · have := ih hmem
              omega
  have := hjoin _ h
  rwa [joinSlashes_splitSlashes] at this

theorem length_le_of_mem_inner {cs : List Char} {text : String} (h : .name text ∈ inner cs) :
    text.toList.length ≤ cs.length := by
  obtain ⟨piece, hpiece, hpart⟩ := List.mem_filterMap.1 h
  rw [← eq_toList_of_ofPiece hpart]
  exact length_le_of_mem_splitSlashes hpiece

/-- An extension is shorter than its name by more than the dot. -/
theorem suffixLength_lt {p : Path} {text : String} (h : p.parts.getLast? = some (.name text)) :
    p.suffixLength = 0 ∨ p.suffixLength + 2 ≤ text.toList.length := by
  have hname := (name?_eq_some_iff p text).2 h
  cases he : (splitName text).2 with
  | none => exact .inl (by simp [suffixLength, extension?, hname, he])
  | some extension =>
      obtain ⟨hstem, _, htext⟩ := splitName_eq_some he
      have hlen := congrArg List.length htext
      have hpos : 0 < (splitName text).1.toList.length :=
        List.length_pos_iff.2 (by simpa using hstem)
      right
      simp only [suffixLength, extension?, hname, Option.bind_some, he, Option.getD_some,
        String.length_toList, List.length_append, List.length_cons] at hlen hpos ⊢
      omega

theorem suffixLength_eq_zero {p : Path} (h : ∀ text, p.parts.getLast? ≠ some (.name text)) :
    p.suffixLength = 0 := by
  have hname : p.name? = none := by
    cases hn : p.name? with
    | none => rfl
    | some text => exact absurd ((name?_eq_some_iff p text).1 hn) (h text)
  simp [suffixLength, extension?, hname]

theorem joinSlashes_concat {before : List (List Char)} (h : before ≠ []) (last : List Char) :
    joinSlashes (before ++ [last]) = joinSlashes before ++ '/' :: last := by
  induction before with
  | nil => exact absurd rfl h
  | cons first rest ih =>
      cases rest with
      | nil => rfl
      | cons next rest =>
          have hcons : joinSlashes (first :: next :: rest)
              = first ++ '/' :: joinSlashes (next :: rest) := rfl
          rw [List.cons_append, joinSlashes_cons (by simp), ih (by simp), hcons, List.append_assoc]
          rfl

theorem inner_joinSlashes {pieces : List (List Char)} (hne : pieces ≠ [])
    (hfree : ∀ piece ∈ pieces, '/' ∉ piece) :
    inner (joinSlashes pieces) = pieces.filterMap Part.ofPiece := by
  rw [inner, splitSlashes_joinSlashes hne hfree]

/-- A text before a last piece: what is written in the place of the piece stands behind some
parts. -/
def Fronts (front : List Char) (parts : List Part) : Prop :=
  ∀ cs, (ofChars cs).cut.lead = none → (ofChars (front ++ cs)).parts = parts ++ inner cs

theorem fronts_slash {as : List Char} (hne : as ≠ []) :
    Fronts (as ++ ['/']) (ofChars as).parts := by
  intro cs _
  rw [List.append_assoc, List.singleton_append, parts_append_slash hne]

theorem exists_fronts_open {before : List (List Char)} {last : List Char}
    (hc : Cut.Sound ⟨none, before ++ [last]⟩) :
    ∃ front, joinSlashes (before ++ [last]) = front ++ last ∧
      Fronts front (before.filterMap Part.ofPiece) := by
  cases before with
  | nil => exact ⟨[], rfl, fun cs hcs => by simp [parts_eq, hcs]⟩
  | cons first rest =>
      obtain ⟨part, hfirst⟩ : ∃ part, Part.ofPiece first = some part := by
        refine Option.ne_none_iff_exists'.1 fun hnone => ?_
        have := hc.2.2.2 rfl first (rest ++ [last]) rfl hnone
        simp at this
      have hsound : Cut.Sound ⟨none, first :: rest⟩ :=
        hc.of_isPrefix (List.prefix_append (first :: rest) [last])
      have hparts : (ofChars (joinSlashes (first :: rest))).parts
          = (first :: rest).filterMap Part.ofPiece := by
        simpa [ofCut_none] using parts_ofCut hsound (.inl (by simp [hfirst]))
      have hne : joinSlashes (first :: rest) ≠ [] := by
        intro hnil
        rw [hnil] at hparts
        simp [ofChars, hfirst] at hparts
      refine ⟨joinSlashes (first :: rest) ++ ['/'], ?_, hparts ▸ fronts_slash hne⟩
      rw [joinSlashes_concat (by simp)]
      simp

theorem exists_fronts_root {before : List (List Char)} (hfree : ∀ piece ∈ before, '/' ∉ piece)
    (last : List Char) :
    ∃ front, '/' :: joinSlashes (before ++ [last]) = front ++ last ∧
      Fronts front (.root :: before.filterMap Part.ofPiece) := by
  by_cases hbefore : before = []
  · subst hbefore
    exact ⟨['/'], rfl, fun cs _ => by simp [parts_root_slash]⟩
  · have hparts : (ofChars ('/' :: joinSlashes before)).parts
        = .root :: before.filterMap Part.ofPiece := by
      rw [parts_root_slash, inner_joinSlashes hbefore hfree]
    refine ⟨'/' :: joinSlashes before ++ ['/'], ?_, hparts ▸ fronts_slash (by simp)⟩
    simp [joinSlashes_concat hbefore]

theorem exists_fronts_here {before : List (List Char)} (hfree : ∀ piece ∈ before, '/' ∉ piece)
    (last : List Char) :
    ∃ front, '.' :: '/' :: joinSlashes (before ++ [last]) = front ++ last ∧
      Fronts front (.here :: before.filterMap Part.ofPiece) := by
  by_cases hbefore : before = []
  · subst hbefore
    have hdot : Fronts ['.', '/'] [.here] := by
      intro cs _
      exact parts_append_slash (List.cons_ne_nil '.' []) cs
    exact ⟨['.', '/'], rfl, hdot⟩
  · have hparts : (ofChars ('.' :: '/' :: joinSlashes before)).parts
        = .here :: before.filterMap Part.ofPiece := by
      have hdot := parts_append_slash (List.cons_ne_nil '.' []) (joinSlashes before)
      rw [inner_joinSlashes hbefore hfree] at hdot
      exact hdot
    refine ⟨'.' :: '/' :: joinSlashes before ++ ['/'], ?_, hparts ▸ fronts_slash (by simp)⟩
    simp [joinSlashes_concat hbefore]

/-- A path is written as its last piece behind a text that leaves the meaning of all others in its
place alone. -/
theorem text_ofCut_concat {lead : Option Part} {before : List (List Char)} {last : List Char}
    (hc : Cut.Sound ⟨lead, before ++ [last]⟩) :
    ∃ front, (ofCut lead (before ++ [last])).text.toList = front ++ last ∧
      Fronts front (lead.toList ++ before.filterMap Part.ofPiece) := by
  have hfree : ∀ piece ∈ before, '/' ∉ piece := fun piece hpiece => hc.1 piece (by simp [hpiece])
  cases lead with
  | none => simpa [ofCut_none] using exists_fronts_open hc
  | some lead =>
      cases lead with
      | up => exact absurd rfl hc.2.1
      | name text => exact absurd rfl (hc.2.2.1 text)
      | root => simpa [ofCut_root] using exists_fronts_root hfree last
      | here => simpa [ofCut_here] using exists_fronts_here hfree last

theorem lead_eq_none_of_two {a b : Char} (ha : a ≠ '/') (hb : b ≠ '/') (cs : List Char) :
    (ofChars (a :: b :: cs)).cut.lead = none := by
  cases hs : splitSlashes cs with
  | nil => exact absurd hs (splitSlashes_ne_nil cs)
  | cons piece pieces =>
      have hsplit : splitSlashes (ofChars (a :: b :: cs)).text.toList
          = (a :: b :: piece) :: pieces := by
        simp [splitSlashes, ha, hb, hs]
      rw [cut_of_split hsplit, Cut.ofPieces_of_ne (by simp) (by simp)]

theorem take_append_sub {front back : List Char} {n : Nat} (h : n ≤ back.length) :
    (front ++ back).take ((front ++ back).length - n) = front ++ back.take (back.length - n) := by
  have hlen : (front ++ back).length - n = front.length + (back.length - n) := by
    rw [List.length_append]
    omega
  rw [hlen, List.take_append, List.take_of_length_le (by omega)]
  simp

/-- The directory around a path is written as its name behind its front. -/
theorem parent?_eq_front_append {p d : Path} {text : String} (hd : p.parent? = some d)
    (hlast : d.parts.getLast? = some (.name text)) :
    ∃ front, d.text.toList = front ++ text.toList ∧ '/' ∉ text.toList ∧
      Fronts front d.parts.dropLast := by
  obtain ⟨⟨lead, pieces⟩, hsound, htrimmed, rfl, _⟩ := parent?_eq_some hd
  have hparts := htrimmed.parts hsound
  simp only at hparts
  rcases htrimmed with rfl | ⟨before, last, part, rfl, hpart⟩
  · exfalso
    rw [hparts] at hlast
    cases lead with
    | none => simp at hlast
    | some lead =>
        have hname : lead = .name text := by simpa using hlast
        exact hsound.2.2.1 text (hname ▸ rfl)
  · have hconcat : lead.toList ++ (before ++ [last]).filterMap Part.ofPiece
        = (lead.toList ++ before.filterMap Part.ofPiece) ++ [part] := by simp [hpart]
    rw [hparts, hconcat] at hlast
    obtain rfl : part = .name text := by simpa using hlast
    have hfree : '/' ∉ last := hsound.1 last (by simp)
    obtain rfl := eq_toList_of_ofPiece hpart
    obtain ⟨front, htext, hfront⟩ := text_ofCut_concat hsound
    exact ⟨front, htext, hfree, by rwa [hparts, hconcat, List.dropLast_concat]⟩

theorem text_join_of_getLast? {d r : Path} (hr : r.isAbsolute = false) (hd : d.text ≠ "")
    (hend : d.text.toList.getLast? ≠ some '/') :
    (d.join r).text.toList = d.text.toList ++ '/' :: r.text.toList := by
  simp [join, hr, hd, hend]

/-- What is left of a directory with a blank text behind it, when more than that text is cut
off. -/
theorem parts_take_directory {p d r : Path} {text : String} {n : Nat} (hd : p.parent? = some d)
    (hlast : d.parts.getLast? = some (.name text)) (hr : r.isAbsolute = false)
    (hn : n + 2 ≤ text.toList.length) :
    (ofChars ((d.join r).text.toList.take ((d.join r).text.toList.length - n))).parts
      = d.parts.dropLast ++ inner ((text.toList ++ '/' :: r.text.toList).take
          ((text.toList ++ '/' :: r.text.toList).length - n)) := by
  obtain ⟨front, htext, hfree, hfront⟩ := parent?_eq_front_append hd hlast
  obtain ⟨a, b, more, hab⟩ : ∃ a b more, text.toList = a :: b :: more := by
    match htoList : text.toList, hn with
    | a :: b :: more, _ => exact ⟨a, b, more, rfl⟩
  have hjoin : (d.join r).text.toList = front ++ (text.toList ++ '/' :: r.text.toList) := by
    have hempty : d.text ≠ "" := by
      intro h
      rw [h, hab] at htext
      simp at htext
    have hend : d.text.toList.getLast? ≠ some '/' := by
      rw [htext, List.getLast?_append, List.getLast?_eq_some_getLast (by simp [hab])]
      intro h
      exact hfree (Option.some.inj h ▸ List.getLast_mem _)
    rw [text_join_of_getLast? hr hempty hend, htext, List.append_assoc]
  rw [hjoin, take_append_sub (by simp; omega), hfront]
  rw [hab] at hfree hn ⊢
  obtain ⟨m, hm⟩ : ∃ m, (a :: b :: more ++ '/' :: r.text.toList).length - n = m + 2 :=
    ⟨(a :: b :: more ++ '/' :: r.text.toList).length - n - 2, by simp at hn ⊢; omega⟩
  rw [hm]
  exact lead_eq_none_of_two (fun h => hfree (by simp [h])) (fun h => hfree (by simp [h])) _

/-- Whatever is joined to the directories around two files, the spellings of the directories do
not show in the shape. -/
theorem join_parent_sameShape {p q d e : Path} (hd : p.parent? = some d) (he : q.parent? = some e)
    (h : d.parts = e.parts) (r : Path) : SameShape (d.join r) (e.join r) := by
  cases hr : r.isAbsolute with
  | true =>
      rw [join_of_absolute hr, join_of_absolute hr]
      exact .refl r
  | false =>
      by_cases hempty : d.text = ""
      · have hempty' := (text_eq_empty_congr h).1 hempty
        rw [show d = e by cases d; cases e; simp_all]
        exact .refl _
      · have hempty' : e.text ≠ "" := fun he => hempty ((text_eq_empty_congr h).2 he)
        have hbehind := join_interchangeable h r
        refine ⟨hbehind, ?_⟩
        have hlength : (e.join r).suffixLength = (d.join r).suffixLength := by
          simp [suffixLength, extension?_congr hbehind.parts]
        rw [withoutSuffix_eq, withoutSuffix_eq, hlength]
        by_cases hzero : (d.join r).suffixLength = 0
        · simpa [hzero, ofChars_toList] using hbehind.parts
        · obtain ⟨text, hlast⟩ : ∃ text, (d.join r).parts.getLast? = some (.name text) := by
            refine Classical.byContradiction fun hnone => hzero (suffixLength_eq_zero ?_)
            exact fun text htext => hnone ⟨text, htext⟩
          have hlt := (suffixLength_lt hlast).resolve_left hzero
          rw [parts_join hempty hr] at hlast
          by_cases hinner : inner r.text.toList = []
          · rw [hinner, List.append_nil] at hlast
            rw [parts_take_directory hd hlast hr hlt, parts_take_directory he (h ▸ hlast) hr hlt, h]
          · rw [List.getLast?_append, List.getLast?_eq_some_getLast hinner] at hlast
            have hmem : .name text ∈ inner r.text.toList := by
              have := List.getLast_mem hinner
              simp_all
            have hle := length_le_of_mem_inner hmem
            rw [text_join_relative hr, text_join_relative hr, take_append_sub (by omega),
              take_append_sub (by omega), parts_join_empty_append hempty,
              parts_join_empty_append hempty', h]

end ModuleTrace.Path

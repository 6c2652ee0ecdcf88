import Mathlib.Data.List.Induction
import ModuleTrace.Affix
import ModuleTrace.Proofs.Path.Clean

/-!
# Names behind a path

From a directory one goes down by names. What is left of such a path behind the directory are the
names, with slashes between them, however the directory is written.
-/

namespace ModuleTrace.Path

def below (p : Path) (names : List String) : Path :=
  names.foldl (fun p name => p / name) p

@[simp]
theorem below_nil (p : Path) : p.below [] = p := rfl

@[simp]
theorem below_cons (p : Path) (name : String) (names : List String) :
    p.below (name :: names) = (p / name).below names := rfl

theorem below_concat (p : Path) (names : List String) (name : String) :
    p.below (names ++ [name]) = p.below names / name :=
  List.foldl_append

def PlainNames (names : List String) : Prop :=
  ∀ name ∈ names, Part.Plain (.name name)

theorem PlainNames.cons_iff {name : String} {names : List String} :
    PlainNames (name :: names) ↔ Part.Plain (.name name) ∧ PlainNames names :=
  List.forall_mem_cons

theorem parts_below {names : List String} (hplain : PlainNames names) (p : Path) :
    (p.below names).parts = p.parts ++ names.map .name := by
  induction names generalizing p with
  | nil => simp
  | cons name names ih =>
      obtain ⟨hname, hnames⟩ := PlainNames.cons_iff.1 hplain
      rw [below_cons, ih hnames, parts_div_plain p hname, List.append_assoc]
      rfl

theorem isAbsolute_div_eq {p : Path} (hp : p.text ≠ "") {name : String}
    (hname : Part.Plain (.name name)) : (p / name).isAbsolute = p.isAbsolute := by
  have hne : p.parts ≠ [] := (parts_eq_nil_iff p).not.2 hp
  obtain ⟨part, parts, hparts⟩ := List.exists_cons_of_ne_nil hne
  rw [Bool.eq_iff_iff, isAbsolute_iff_head?, isAbsolute_iff_head?, parts_div_plain p hname, hparts]
  rfl

theorem text_div_ne (p : Path) {name : String} (hname : Part.Plain (.name name)) :
    (p / name).text ≠ "" := by
  rw [Ne, ← parts_eq_nil_iff, parts_div_plain p hname]
  simp

theorem text_below_ne {p : Path} (hp : p.text ≠ "") {names : List String}
    (hplain : PlainNames names) : (p.below names).text ≠ "" := by
  rw [Ne, ← parts_eq_nil_iff, parts_below hplain, List.append_eq_nil_iff, parts_eq_nil_iff]
  exact fun h => hp h.1

/-- A name behind a text is one more piece, in the stead of an empty one at its end. -/
theorem splitSlashes_div {p : Path} (hp : p.text ≠ "") :
    ∃ front, front ≠ [] ∧
      (splitSlashes p.text.toList = front ∨ splitSlashes p.text.toList = front ++ [[]]) ∧
      ∀ name, Part.Plain (.name name) →
        splitSlashes (p / name).text.toList = front ++ [name.toList] := by
  have hfree : ∀ name, Part.Plain (.name name) →
      '/' ∉ name.toList ∧ (⟨name⟩ : Path).isAbsolute = false := by
    rintro name ⟨text, heq, htext, -⟩
    cases heq
    exact ⟨htext, isAbsolute_of_notMem htext⟩
  by_cases hlast : p.text.toList.getLast? = some '/'
  · obtain ⟨as, has⟩ := List.getLast?_eq_some_iff.1 hlast
    refine ⟨splitSlashes as, splitSlashes_ne_nil as, .inr ?_, fun name hname => ?_⟩
    · rw [has, splitSlashes_append_slash]
      rfl
    · obtain ⟨hname, hopen⟩ := hfree name hname
      have htext : (p / name).text.toList = as ++ '/' :: name.toList := by
        show (p.join ⟨name⟩).text.toList = _
        simp [join, hopen, has]
      rw [htext, splitSlashes_append_slash, splitSlashes_of_notMem hname]
  · refine ⟨splitSlashes p.text.toList, splitSlashes_ne_nil _, .inl rfl, fun name hname => ?_⟩
    obtain ⟨hname, hopen⟩ := hfree name hname
    have htext : (p / name).text.toList = p.text.toList ++ '/' :: name.toList := by
      show (p.join ⟨name⟩).text.toList = _
      simp [join, hopen, hlast, hp]
    rw [htext, splitSlashes_append_slash, splitSlashes_of_notMem hname]

/-- By induction from the last name: no piece of a name is empty, so none is replaced. -/
theorem splitSlashes_below {p : Path} (hp : p.text ≠ "") {names : List String} (hne : names ≠ [])
    (hplain : PlainNames names) :
    ∃ front, front ≠ [] ∧
      splitSlashes (p.below names).text.toList = front ++ names.map String.toList := by
  induction names using List.reverseRecOn with
  | nil => exact absurd rfl hne
  | append_singleton names last ih =>
      have hlast := hplain last (by simp)
      have hnames : PlainNames names := fun name hname => hplain name (by simp [hname])
      rw [below_concat]
      by_cases hnil : names = []
      · subst hnil
        obtain ⟨front, hne, -, hsplit⟩ := splitSlashes_div hp
        exact ⟨front, hne, hsplit last hlast⟩
      · obtain ⟨front, hne, hsplit⟩ := ih hnil hnames
        obtain ⟨pieces, -, hpieces, hdiv⟩ := splitSlashes_div (text_below_ne hp hnames)
        refine ⟨front, hne, ?_⟩
        have hwhole : pieces = front ++ names.map String.toList := by
          rcases hpieces with hpieces | hpieces
          · rw [← hpieces, hsplit]
          · have hblank := congrArg List.getLast? (hsplit.symm.trans hpieces)
            rw [List.getLast?_append, List.getLast?_concat, List.getLast?_map] at hblank
            obtain ⟨name, hname⟩ := Option.isSome_iff_exists.1 (List.getLast?_isSome.2 hnil)
            obtain ⟨text, heq, -, hpiece⟩ := hnames name (List.mem_of_getLast? hname)
            cases heq
            simp [hname] at hblank
            simp [hblank, Part.ofPiece] at hpiece
        rw [hdiv last hlast, hwhole, List.map_append, List.append_assoc]
        rfl

/-! ## What is left behind a path -/

theorem pieces_ofPieces (pieces : List (List Char)) :
    (Cut.ofPieces pieces).pieces = pieces ∨ (Cut.ofPieces pieces).pieces = pieces.tail := by
  unfold Cut.ofPieces
  split
  · exact .inr rfl
  · exact .inr rfl
  · exact .inl rfl

theorem dropWhile_of_not_blank {pieces : List (List Char)}
    (h : ∀ piece ∈ pieces, isBlankPiece piece = false) :
    pieces.dropWhile isBlankPiece = pieces := by
  cases pieces with
  | nil => rfl
  | cons piece pieces => exact List.dropWhile_cons_of_neg (by simp [h piece List.mem_cons_self])

/-- Dropping as many parts as the front has leaves what is not blank of the rest. -/
theorem dropWhile_dropParts (front rest : List (List Char)) :
    (dropParts (front.filterMap Part.ofPiece).length (front ++ rest)).dropWhile isBlankPiece
      = rest.dropWhile isBlankPiece := by
  induction front with
  | nil => cases rest <;> rfl
  | cons piece front ih =>
      cases hpiece : Part.ofPiece piece with
      | none =>
          have hblank : isBlankPiece piece = true := by simp [isBlankPiece, hpiece]
          rw [List.filterMap_cons_none hpiece, List.cons_append, ← ih]
          cases hcount : (front.filterMap Part.ofPiece).length with
          | zero =>
              have hzero : ∀ pieces, dropParts 0 pieces = pieces := fun pieces => by
                cases pieces <;> rfl
              rw [hzero, hzero, List.dropWhile_cons_of_pos hblank]
          | succ n => rw [dropParts, if_pos hblank]
      | some part =>
          rw [List.filterMap_cons_some hpiece, List.length_cons, List.cons_append, dropParts]
          simpa [isBlankPiece, hpiece] using ih

/-- A path of which the first pieces mean what the base means. -/
theorem relativeTo?_of_pieces {p base : Path} (hbase : base.text ≠ "")
    {front rest : List (List Char)} (hpieces : p.cut.pieces = front ++ rest)
    (hfront : base.parts = p.cut.lead.toList ++ front.filterMap Part.ofPiece) :
    p.relativeTo? base = some (ofCut none (trimRight (rest.dropWhile isBlankPiece))) := by
  have hwhole : p.parts = base.parts ++ rest.filterMap Part.ofPiece := by
    rw [hfront, List.append_assoc, ← List.filterMap_append, ← hpieces]
    rfl
  have hunder : p.isUnder base = true := (isUnder_iff p base).2 (hwhole ▸ List.prefix_append _ _)
  obtain ⟨n, hn⟩ : ∃ n, base.parts.length = n + 1 :=
    Nat.exists_eq_add_one.2 (List.length_pos_iff.2 ((parts_eq_nil_iff base).not.2 hbase))
  have hcount : (if p.cut.lead.isSome then n else n + 1)
      = (front.filterMap Part.ofPiece).length := by
    have hlength := congrArg List.length hfront
    rw [hn, List.length_append] at hlength
    cases hlead : p.cut.lead <;> simp [hlead] at hlength ⊢ <;> omega
  rw [relativeTo?, if_pos hunder, hn]
  simp only [hcount, hpieces, dropWhile_dropParts]

/-- Behind a path of the same parts there is nothing left. -/
theorem relativeTo?_same {p base : Path} (h : p.parts = base.parts) :
    p.relativeTo? base = some ⟨""⟩ := by
  by_cases hbase : base.text = ""
  · obtain rfl : base = ⟨""⟩ := by cases base; simp_all
    obtain rfl : p = ⟨""⟩ := by
      have hp : p.text = "" := (parts_eq_nil_iff p).1 h
      cases p
      simp_all
    rfl
  · exact relativeTo?_of_pieces hbase (List.append_nil _).symm (h ▸ rfl)

theorem joinSlashes_map_toList (names : List String) :
    joinSlashes (names.map String.toList) = (Affix.joinWith "/" names).toList := by
  induction names with
  | nil => rfl
  | cons name names ih =>
      cases names with
      | nil => rfl
      | cons next names =>
          have hjoin : Affix.joinWith "/" (name :: next :: names)
              = name ++ "/" ++ Affix.joinWith "/" (next :: names) := rfl
          rw [List.map_cons, joinSlashes_cons (by simp), ih, hjoin]
          simp

theorem PlainNames.filterMap_ofPiece {names : List String} (h : PlainNames names) :
    (names.map String.toList).filterMap Part.ofPiece = names.map .name := by
  induction names with
  | nil => rfl
  | cons name names ih =>
      obtain ⟨⟨text, heq, -, hpiece⟩, hnames⟩ := PlainNames.cons_iff.1 h
      cases heq
      rw [List.map_cons, List.filterMap_cons_some hpiece, ih hnames]
      rfl

/-- What is left behind a path are the names that were put there. -/
theorem relativeTo?_below {p : Path} (hp : p.text ≠ "") {names : List String}
    (hplain : PlainNames names) :
    (p.below names).relativeTo? p = some ⟨Affix.joinWith "/" names⟩ := by
  by_cases hne : names = []
  · subst hne
    exact relativeTo?_same rfl
  · obtain ⟨front, hfront, hsplit⟩ := splitSlashes_below hp hne hplain
    have hblank : ∀ piece ∈ names.map String.toList, isBlankPiece piece = false := by
      intro piece hpiece
      obtain ⟨name, hname, rfl⟩ := List.mem_map.1 hpiece
      obtain ⟨text, heq, -, hpiece⟩ := hplain name hname
      cases heq
      simp [isBlankPiece, hpiece]
    obtain ⟨rest, hrest⟩ : ∃ rest,
        (p.below names).cut.pieces = rest ++ names.map String.toList := by
      rcases pieces_ofPieces (front ++ names.map String.toList) with hpieces | hpieces
      · exact ⟨front, by rw [cut_of_split hsplit, hpieces]⟩
      · exact ⟨front.tail, by rw [cut_of_split hsplit, hpieces, List.tail_append_of_ne_nil hfront]⟩
    have hparts : p.parts = (p.below names).cut.lead.toList ++ rest.filterMap Part.ofPiece := by
      have hwhole := parts_below hplain p
      rw [parts, hrest, List.filterMap_append, hplain.filterMap_ofPiece,
        ← List.append_assoc] at hwhole
      exact (List.append_cancel_right hwhole).symm
    have hstart : (names.map String.toList).dropWhile isBlankPiece = names.map String.toList :=
      dropWhile_of_not_blank hblank
    have hend : trimRight (names.map String.toList) = names.map String.toList := by
      rw [trimRight, dropWhile_of_not_blank, List.reverse_reverse]
      exact fun piece hpiece => hblank piece (List.mem_reverse.1 hpiece)
    rw [relativeTo?_of_pieces hp hrest hparts, hstart, hend, ofCut_none, joinSlashes_map_toList]
    simp [ofChars]

theorem joinWith_ne {names : List String} (hne : names ≠ []) (hplain : PlainNames names) :
    Affix.joinWith "/" names ≠ "" := by
  match names, hne with
  | [name], _ =>
      rintro rfl
      obtain ⟨text, heq, -, hpiece⟩ := hplain "" List.mem_cons_self
      cases heq
      cases hpiece
  | name :: next :: names, _ =>
      intro hempty
      have htext := congrArg String.toList hempty
      simp [Affix.joinWith] at htext

end ModuleTrace.Path

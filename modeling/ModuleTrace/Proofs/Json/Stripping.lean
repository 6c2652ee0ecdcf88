import Mathlib.Data.List.Infix
import ModuleTrace.Proofs.Json.Layout

/-!
# What is taken out of a text

Comments and commas too many are taken out by two scans, one behind the other. Neither loses track
of where quoted texts end, so both take out just what stands in the gaps of a layout.
-/

namespace ModuleTrace.Json

/-! ## Gaps with comments -/

/-- A blank, or a comment with all that its end allows in it. -/
inductive Filler where
  | blank (c : Char) (h : isJsonBlank c = true)
  | line (comment : List Char) (h : '\n' ∉ comment)
  | block (comment : List Char) (h : ¬ ['*', '/'] <:+: comment)

namespace Filler

def text : Filler → List Char
  | .blank c _ => [c]
  | .line comment _ => '/' :: '/' :: comment ++ ['\n']
  | .block comment _ => '/' :: '*' :: comment ++ ['*', '/']

/-- What is left without comments: line ends stay. -/
def left : Filler → List Char
  | .blank c _ => [c]
  | .line _ _ => ['\n']
  | .block comment _ => comment.filter (· = '\n')

theorem left_blank (filler : Filler) : ∀ c ∈ filler.left, isJsonBlank c = true := by
  intro c hc
  cases filler with
  | blank d h =>
      obtain rfl := List.mem_singleton.1 hc
      exact h
  | line comment h =>
      obtain rfl := List.mem_singleton.1 hc
      decide
  | block comment h =>
      obtain rfl : c = '\n' := by simpa using (List.mem_filter.1 hc).2
      decide

end Filler

/-- What may stand between two tokens. -/
def Gap : Type :=
  List Filler

def Gap.text (gap : Gap) : List Char :=
  List.flatMap Filler.text gap

def Gap.left (gap : Gap) : Blanks :=
  ⟨List.flatMap Filler.left gap, fun c hc => by
    obtain ⟨filler, -, hc⟩ := List.mem_flatMap.1 hc
    exact filler.left_blank c hc⟩

/-! ## Scans -/

/-- Whatever comes behind a text, a scan leaves some other text of it. -/
def Leaves (scan : List Char → List Char) (cs kept : List Char) : Prop :=
  ∀ rest, scan (cs ++ rest) = kept ++ scan rest

theorem Leaves.nil (scan : List Char → List Char) : Leaves scan [] [] :=
  fun _ => rfl

theorem Leaves.append {scan : List Char → List Char} {as bs cs ds : List Char}
    (h : Leaves scan as bs) (h' : Leaves scan cs ds) : Leaves scan (as ++ cs) (bs ++ ds) := by
  intro rest
  rw [List.append_assoc, h, h', List.append_assoc]

/-- Ends no token, and starts neither a quoted text nor a comment. -/
def Plain (c : Char) : Prop :=
  c ≠ '/' ∧ c ≠ '\x22' ∧ c ≠ ','

instance (c : Char) : Decidable (Plain c) :=
  inferInstanceAs (Decidable (_ ∧ _))

/-- A scan that lets plain characters and quoted texts pass. -/
structure Passing (scan : List Char → List Char) : Prop where
  plain : ∀ c, Plain c → Leaves scan [c] [c]
  quotes : ∀ quoted : Quotable, Leaves scan quoted.quotes quoted.quotes

theorem plain_of_isDigit {c : Char} (h : c.isDigit = true) : Plain c := by
  refine ⟨?_, ?_, ?_⟩ <;>
    · rintro rfl
      simp at h

theorem plain_of_isJsonBlank {c : Char} (h : isJsonBlank c = true) : Plain c := by
  simp only [isJsonBlank, Bool.or_eq_true, decide_eq_true_eq] at h
  obtain ((rfl | rfl) | rfl) | rfl := h <;> decide

theorem Digits.plain (d : Digits) : ∀ c ∈ d.text, Plain c :=
  fun c hc => plain_of_isDigit (d.all c hc)

theorem Exponent.plain (e : Exponent) : ∀ c ∈ e.text, Plain c := by
  intro c hc
  rw [text, List.mem_append, List.mem_cons] at hc
  rcases hc with (rfl | hc) | hc
  · obtain hmark | hmark := e.isMark <;> rw [hmark] <;> decide
  · obtain rfl | rfl := e.isSign c (by simpa using hc) <;> decide
  · exact e.digits.plain c hc

theorem Number.plain (n : Number) : ∀ c ∈ n.text, Plain c := by
  intro c hc
  simp only [text, unsigned, List.mem_append] at hc
  rcases hc with hc | hc | hc | hc
  · split at hc
    · obtain rfl := List.mem_singleton.1 hc
      decide
    · simp at hc
  · exact n.whole.plain c hc
  · unfold fractionText at hc
    cases hfraction : n.fraction with
    | none => simp [hfraction] at hc
    | some digits =>
        have hmem : c = '.' ∨ c ∈ digits.text := by simpa [hfraction] using hc
        rcases hmem with rfl | hc
        · decide
        · exact digits.plain c hc
  · unfold exponentText at hc
    cases hexponent : n.exponent with
    | none => simp [hexponent] at hc
    | some e => exact e.plain c (by simpa [hexponent] using hc)

namespace Passing

variable {scan : List Char → List Char} (h : Passing scan)

include h

theorem leaves_plain {cs : List Char} (hcs : ∀ c ∈ cs, Plain c) : Leaves scan cs cs := by
  induction cs with
  | nil => exact .nil scan
  | cons c cs ih =>
      have hrest := ih fun d hd => hcs d (List.mem_cons_of_mem _ hd)
      exact (h.plain c (hcs c List.mem_cons_self)).append hrest

theorem atom (token : Atom) : Leaves scan token.text token.text := by
  cases token with
  | null => exact h.leaves_plain (by simp [Atom.text, Plain])
  | bool value => cases value <;> exact h.leaves_plain (by simp [Atom.text, Plain])
  | number n => exact h.leaves_plain n.plain
  | string quoted => exact h.quotes quoted

theorem bracket (b : Bracket) :
    Leaves scan [b.opening] [b.opening] ∧ Leaves scan [b.closing] [b.closing] := by
  cases b <;> exact ⟨h.plain _ (by decide), h.plain _ (by decide)⟩

theorem between (b : Bracket) {cs kept : List Char} (hcs : Leaves scan cs kept) :
    Leaves scan (b.opening :: cs ++ [b.closing]) (b.opening :: kept ++ [b.closing]) :=
  ((h.bracket b).1.append hcs).append (h.bracket b).2

section

variable {γ : Type} {write left : γ → List Char} (hgap : ∀ gap, Leaves scan (write gap) (left gap))

include hgap

theorem label {b : Bracket} (label : Label γ b) :
    Leaves scan (label.text write) (label.text left) := by
  cases b with
  | square => exact .nil scan
  | curly =>
      have hcolon := h.plain ':' (by decide)
      exact ((h.quotes label.quoted).append (hgap label.before)).append
        (hcolon.append (hgap label.after))

theorem entry {b : Bracket} (before : γ) (label : Label γ b) {value kept : List Char}
    (hvalue : Leaves scan value kept) (after : γ) :
    Leaves scan (write before ++ label.text write ++ value ++ write after)
      (left before ++ label.text left ++ kept ++ left after) :=
  (((hgap before).append (h.label hgap label)).append hvalue).append (hgap after)

end

end Passing

/-! ## Comments -/

theorem dropComments_cons {c : Char} (hslash : c ≠ '/') (hquote : c ≠ '\x22') (cs : List Char) :
    dropComments (c :: cs) = c :: dropComments cs := by
  rw [dropComments]
  · rw [if_neg hquote]
  · exact fun _ h => absurd h hslash
  · exact fun _ h => absurd h hslash

theorem dropComments_passing : Passing dropComments where
  plain c hc rest := dropComments_cons hc.1 hc.2.1 rest
  quotes quoted rest := by
    rw [quoted.quotes_append, dropComments]
    · simp [spanString_quotable, Quotable.quotes]
    · simp
    · simp

/-- A comment ends where its end stands for the first time. -/
theorem spanComment_block {comment : List Char} (h : ¬ ['*', '/'] <:+: comment)
    (rest : List Char) :
    spanComment (comment ++ '*' :: '/' :: rest) = (comment.filter (· = '\n'), rest) := by
  induction comment with
  | nil => rw [List.nil_append, spanComment, List.filter_nil]
  | cons c comment ih =>
      have hrest := ih fun hin => h (hin.trans (List.suffix_cons c comment).isInfix)
      obtain ⟨d, more, hmore, hend⟩ : ∃ d more,
          comment ++ '*' :: '/' :: rest = d :: more ∧ (c = '*' → d ≠ '/') := by
        cases comment with
        | nil => exact ⟨'*', _, rfl, fun _ => by decide⟩
        | cons d comment =>
            refine ⟨d, _, rfl, ?_⟩
            rintro rfl rfl
            exact h ⟨[], comment, rfl⟩
      rw [hmore] at hrest
      rw [List.cons_append, hmore, spanComment, hrest]
      · by_cases hline : c = '\n' <;> simp [hline]
      · rintro rfl rfl
        exact hend rfl rfl

theorem dropComments_filler (filler : Filler) : Leaves dropComments filler.text filler.left := by
  intro rest
  cases filler with
  | blank c h =>
      have hplain := plain_of_isJsonBlank h
      exact dropComments_cons hplain.1 hplain.2.1 rest
  | line comment h =>
      have hall : ∀ c ∈ comment, decide (c ≠ '\n') = true := by
        intro c hc
        have hne : c ≠ '\n' := fun heq => h (heq ▸ hc)
        simpa using hne
      have hline : (comment ++ '\n' :: rest).dropWhile (· ≠ '\n') = '\n' :: rest := by
        rw [List.dropWhile_append_of_pos hall]
        simp
      have htext : (Filler.line comment h).text ++ rest
          = '/' :: '/' :: (comment ++ '\n' :: rest) := by
        simp [Filler.text]
      rw [htext, dropComments, hline]
      exact dropComments_cons (by decide) (by decide) rest
  | block comment h =>
      have htext : (Filler.block comment h).text ++ rest
          = '/' :: '*' :: (comment ++ '*' :: '/' :: rest) := by
        simp [Filler.text]
      rw [htext, dropComments]
      simp only [spanComment_block h]
      rfl

theorem dropComments_gap (gap : Gap) : Leaves dropComments gap.text gap.left.1 := by
  induction gap with
  | nil => exact .nil _
  | cons filler gap ih => exact (dropComments_filler filler).append ih

/-- Of a layout, gaps without comments are left. -/
theorem dropComments_layout {γ : Type} {write left : γ → List Char}
    (hgap : ∀ gap, Leaves dropComments (write gap) (left gap)) {comma : List Char}
    (hcomma : Leaves dropComments comma comma) {role : Role} (layout : Layout γ role) :
    Leaves dropComments (layout.text write comma) (layout.text left comma) := by
  have hpassing := dropComments_passing
  induction layout with
  | atom token => exact hpassing.atom token
  | empty b gap => exact hpassing.between b (hgap gap)
  | group b entries ih => exact hpassing.between b ih
  | last before label value after trailing ih =>
      have hentry := hpassing.entry hgap before label ih after
      cases trailing with
      | none => exact hentry.append (.nil _)
      | some gap => exact hentry.append (hcomma.append (hgap gap))
  | more before label value after rest ih ihRest =>
      have hentry := hpassing.entry hgap before label ih after
      have hseparator : Leaves dropComments [','] [','] :=
        dropComments_cons (by decide) (by decide)
      exact hentry.append (hseparator.append ihRest)

/-! ## Commas too many -/

theorem dropTrailingCommas_cons {c : Char} (hcomma : c ≠ ',') (hquote : c ≠ '\x22')
    (cs : List Char) : dropTrailingCommas (c :: cs) = c :: dropTrailingCommas cs := by
  rw [dropTrailingCommas]
  simp [hcomma, hquote]

theorem dropTrailingCommas_passing : Passing dropTrailingCommas where
  plain c hc rest := dropTrailingCommas_cons hc.2.2 hc.2.1 rest
  quotes quoted rest := by
    rw [quoted.quotes_append, dropTrailingCommas]
    simp [spanString_quotable, Quotable.quotes]

theorem closesNext_append {gap : List Char} (hgap : ∀ c ∈ gap, Affix.isSpace c = true) {c : Char}
    (hc : Affix.isSpace c = false) (rest : List Char) :
    closesNext (gap ++ c :: rest) = (decide (c = '\x7d') || decide (c = ']')) := by
  rw [closesNext, List.dropWhile_append_of_pos hgap, List.dropWhile_cons_of_neg (by simp [hc])]

section

variable {γ : Type} {write : γ → List Char}
  (hblank : ∀ gap, ∀ c ∈ write gap, isJsonBlank c = true)

include hblank

theorem dropTrailingCommas_gap (gap : γ) : Leaves dropTrailingCommas (write gap) (write gap) :=
  dropTrailingCommas_passing.leaves_plain fun c hc => plain_of_isJsonBlank (hblank gap c hc)

/-- A comma stays where another entry comes behind it. -/
theorem dropTrailingCommas_separator {bracket : Bracket} (comma : List Char)
    (entries : Layout γ (.entries bracket)) (rest : List Char) :
    dropTrailingCommas (',' :: (entries.text write comma ++ rest))
      = ',' :: dropTrailingCommas (entries.text write comma ++ rest) := by
  obtain ⟨gap, c, more, htext, hspace, hsquare, hcurly⟩ := entries.exists_start_entries write comma
  have hcloses : closesNext (entries.text write comma ++ rest) = false := by
    rw [htext, List.append_assoc, List.cons_append, closesNext_append
      (fun c hc => isSpace_of_isJsonBlank (hblank gap c hc)) hspace]
    simp [hsquare, hcurly]
  rw [dropTrailingCommas]
  simp [hcloses]

/-- A comma goes where a bracket closes behind it. -/
theorem dropTrailingCommas_trailing (gap : γ) (bracket : Bracket) (rest : List Char) :
    dropTrailingCommas (',' :: (write gap ++ bracket.closing :: rest))
      = write gap ++ dropTrailingCommas (bracket.closing :: rest) := by
  have hcloses : closesNext (write gap ++ bracket.closing :: rest) = true := by
    rw [closesNext_append (fun c hc => isSpace_of_isJsonBlank (hblank gap c hc))
      (by cases bracket <;> decide)]
    cases bracket <;> rfl
  rw [dropTrailingCommas]
  simp only [hcloses, decide_true, Bool.and_self, if_true]
  exact dropTrailingCommas_gap hblank gap _

omit hblank in
/-- What is left of a value in front of any rest, and of entries in front of their bracket. -/
def CommasLeave (write : γ → List Char) (comma : List Char) : {role : Role} → Layout γ role → Prop
  | .value, layout =>
      Leaves dropTrailingCommas (layout.text write comma) (layout.text write [])
  | .entries bracket, layout => ∀ rest,
      dropTrailingCommas (layout.text write comma ++ bracket.closing :: rest)
        = layout.text write [] ++ dropTrailingCommas (bracket.closing :: rest)

/-- Of a layout, all but the commas too many is left. -/
theorem dropTrailingCommas_layout {comma : List Char} (hcomma : comma = [] ∨ comma = [','])
    {role : Role} (layout : Layout γ role) : CommasLeave write comma layout := by
  have hpassing := dropTrailingCommas_passing
  have hgap := dropTrailingCommas_gap hblank
  induction layout with
  | atom token => exact hpassing.atom token
  | empty b gap => exact hpassing.between b (hgap gap)
  | group b entries ih =>
      intro rest
      have hopening := (hpassing.bracket b).1 (entries.text write comma ++ b.closing :: rest)
      have hclosing := (hpassing.bracket b).2 rest
      simp only [List.singleton_append] at hopening hclosing
      simp only [Layout.text, List.cons_append, List.append_assoc, List.nil_append, hopening,
        ih rest, hclosing]
  | @last b before label value after trailing ih =>
      intro rest
      have hentry := hpassing.entry hgap before label ih after
      cases trailing with
      | none => exact (hentry.append (.nil _)) _
      | some gap =>
          have htrailing : dropTrailingCommas (comma ++ write gap ++ b.closing :: rest)
              = write gap ++ dropTrailingCommas (b.closing :: rest) := by
            rcases hcomma with rfl | rfl
            · exact hgap gap _
            · rw [List.append_assoc]
              exact dropTrailingCommas_trailing hblank gap b rest
          simp only [Layout.text, Option.map_some, Option.getD_some, List.nil_append]
          rw [List.append_assoc, hentry, htrailing]
          simp only [List.append_assoc]
  | @more b before label value after others ih ihRest =>
      intro rest
      have hentry := hpassing.entry hgap before label ih after
      simp only [Layout.text]
      rw [List.append_assoc, hentry, List.cons_append,
        dropTrailingCommas_separator hblank comma others, ihRest rest]
      simp only [List.append_assoc, List.cons_append]

end

/-- Both scans together leave the tokens of a text with blanks between them. -/
theorem strict_document {γ : Type} {write left : γ → List Char}
    (hgap : ∀ gap, Leaves dropComments (write gap) (left gap))
    (hblank : ∀ gap, ∀ c ∈ left gap, isJsonBlank c = true) {comma : List Char}
    (hcomma : comma = [] ∨ comma = [',']) (d : Document γ) :
    strict (String.ofList (d.text write comma)) = String.ofList (d.text left []) := by
  have hkept : Leaves dropComments comma comma := by
    rcases hcomma with rfl | rfl
    · exact .nil _
    · exact dropComments_cons (by decide) (by decide)
  have hcomments : Leaves dropComments (d.text write comma) (d.text left comma) :=
    ((hgap d.before).append (dropComments_layout hgap hkept d.value)).append (hgap d.after)
  have hleft := dropTrailingCommas_gap hblank
  have hvalue : Leaves dropTrailingCommas (d.value.text left comma) (d.value.text left []) :=
    dropTrailingCommas_layout hblank hcomma d.value
  have hcommas : Leaves dropTrailingCommas (d.text left comma) (d.text left []) :=
    ((hleft d.before).append hvalue).append (hleft d.after)
  have hall := hcommas (dropComments [])
  rw [← hcomments []] at hall
  have hnil : dropComments [] = [] := by rw [dropComments]
  have hnone : dropTrailingCommas [] = [] := by rw [dropTrailingCommas]
  rw [hnil, hnone, List.append_nil, List.append_nil] at hall
  rw [strict, String.toList_ofList, hall]

end ModuleTrace.Json

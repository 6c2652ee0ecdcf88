import ModuleTrace.Proofs.Json.Layout

/-!
# Reading layouts

What the reader makes of a layout depends on its tree alone: gaps are skipped, and each token is
read as if nothing stood around it. And whatever the reader takes is a layout.
-/

namespace ModuleTrace.Json

/-! ## Meanings of trees -/

/-- What is read of an entry: an item or a member. -/
abbrev Entry : Bracket → Type
  | .square => Json
  | .curly => String × Json

def Bracket.collect : (bracket : Bracket) → List (Entry bracket) → Json
  | .square, items => .array items
  | .curly, members => .object members

def Atom.meaning? : Atom → Option Json
  | .null => some .null
  | .bool value => some (.bool value)
  | .number n => n.value?
  | .string quoted => quoted.value?.map .string

/-- How the value of an entry becomes the entry. -/
def Label.meaning? {γ : Type} : {bracket : Bracket} → Label γ bracket →
    Option (Json → Entry bracket)
  | .square, _ => some id
  | .curly, key => key.quoted.value?.map Prod.mk

abbrev Meaning : Role → Type
  | .value => Json
  | .entries bracket => List (Entry bracket)

/-- What a tree means where arrays and objects inside one another must be fewer than `depth`. -/
def Layout.meaning? : {role : Role} → Nat → Layout Unit role → Option (Meaning role)
  | _, _, .atom token => token.meaning?
  | _, depth, .empty bracket _ => if depth ≤ 1 then none else some (bracket.collect [])
  | _, depth, .group bracket entries =>
      if depth ≤ 1 then none else (entries.meaning? (depth - 1)).map bracket.collect
  | _, depth, .last _ label value _ _ =>
      label.meaning?.bind fun entry => (value.meaning? depth).map fun json => [entry json]
  | _, depth, .more _ label value _ rest =>
      label.meaning?.bind fun entry => (value.meaning? depth).bind fun json =>
        (rest.meaning? depth).map fun entries => entry json :: entries

theorem Label.meaning?_map {γ δ : Type} (f : γ → δ) {bracket : Bracket}
    (label : Label γ bracket) : (label.map f).meaning? = label.meaning? := by
  cases bracket <;> rfl

/-! ## The reader step by step -/

theorem value?_gap (gap : Blanks) (fuel depth : Nat) (cs : List Char) :
    value? fuel depth (gap.1 ++ cs) = value? fuel depth cs := by
  cases fuel with
  | zero => rw [value?, value?]
  | succ fuel => rw [value?, value?, skipBlanks_append]

namespace Bracket

def read? : (bracket : Bracket) → Nat → Nat → List (Entry bracket) → List Char →
    Option (Json × List Char)
  | .square => items?
  | .curly => members?

def label? : (bracket : Bracket) → List Char → Option ((Json → Entry bracket) × List Char)
  | .square, cs => some (id, cs)
  | .curly, cs =>
      match skipBlanks cs with
      | '\x22' :: rest =>
          match stringRest (rest.length + 1) [] rest with
          | none => none
          | some (key, rest) =>
              match skipBlanks rest with
              | ':' :: rest => some (Prod.mk key, rest)
              | _ => none
      | _ => none

/-- Reads what stands behind an entry: another one or the end. -/
def readOn? (bracket : Bracket) (fuel depth : Nat) (done : List (Entry bracket))
    (cs : List Char) : Option (Json × List Char) :=
  match skipBlanks cs with
  | [] => none
  | c :: rest =>
      if c = ',' then bracket.read? fuel depth done rest
      else if c = bracket.closing then some (bracket.collect done.reverse, rest)
      else none

variable (bracket : Bracket) (fuel depth : Nat) (done : List (Entry bracket)) {cs rest : List Char}

theorem readOn?_comma (h : skipBlanks cs = ',' :: rest) :
    bracket.readOn? fuel depth done cs = bracket.read? fuel depth done rest := by
  simp only [readOn?, h, if_true]

theorem readOn?_closing (h : skipBlanks cs = bracket.closing :: rest) :
    bracket.readOn? fuel depth done cs = some (bracket.collect done.reverse, rest) := by
  have hcomma : bracket.closing ≠ ',' := by cases bracket <;> decide
  simp only [readOn?, h, if_neg hcomma, if_true]

theorem readOn?_none (hcomma : ∀ rest, skipBlanks cs = ',' :: rest → False)
    (hclosing : ∀ rest, skipBlanks cs = bracket.closing :: rest → False) :
    bracket.readOn? fuel depth done cs = none := by
  unfold readOn?
  cases hskip : skipBlanks cs with
  | nil => rfl
  | cons c rest =>
      have hc : c ≠ ',' := fun h => hcomma rest (by rw [hskip, h])
      have hc' : c ≠ bracket.closing := fun h => hclosing rest (by rw [hskip, h])
      simp only [if_neg hc, if_neg hc']

/-- The entries of arrays and of objects are read by one scheme. -/
theorem read?_succ (cs : List Char) :
    bracket.read? (fuel + 1) depth done cs
      = (bracket.label? cs).bind fun (entry, rest) => (value? fuel depth rest).bind
          fun (json, after) => bracket.readOn? fuel depth (entry json :: done) after := by
  cases bracket with
  | square =>
      simp only [read?, label?, items?, Option.bind_some]
      cases value? fuel depth cs with
      | none => rfl
      | some found =>
          simp only [Option.bind_some]
          split
          · exact (readOn?_comma .square _ _ _ ‹_›).symm
          · exact (readOn?_closing .square _ _ _ ‹_›).symm
          · exact (readOn?_none .square _ _ _ ‹_› ‹_›).symm
  | curly =>
      simp only [read?, members?]
      split
      · rename_i hquote
        split
        · rename_i hkey
          simp only [label?, hquote, hkey, Option.bind_none]
        · rename_i hkey
          split
          · rename_i hcolon
            simp only [label?, hquote, hkey, hcolon, Option.bind_some]
            cases value? fuel depth _ with
            | none => rfl
            | some found =>
                simp only [Option.bind_some]
                split
                · exact (readOn?_comma .curly _ _ _ ‹_›).symm
                · exact (readOn?_closing .curly _ _ _ ‹_›).symm
                · exact (readOn?_none .curly _ _ _ ‹_› ‹_›).symm
          · rename_i hcolon
            simp only [label?, hquote, hkey, Option.bind_none]
      · rename_i hquote
        simp only [label?, Option.bind_none]

theorem read?_skipBlanks (cs : List Char) :
    bracket.read? fuel depth done (skipBlanks cs) = bracket.read? fuel depth done cs := by
  obtain ⟨gap, hgap⟩ := exists_blanks cs
  cases fuel with
  | zero => cases bracket <;> simp only [read?, items?, members?]
  | succ fuel =>
      cases bracket with
      | square =>
          simp only [read?_succ, label?, Option.bind_some]
          rw [← value?_gap gap, ← hgap]
      | curly => simp only [read?_succ, label?, skipBlanks_skipBlanks]

/-- Behind an opening bracket the other one or the first entry is read. -/
theorem value?_opening (hskip : skipBlanks cs = bracket.opening :: rest) :
    value? (fuel + 1) depth cs
      = if depth ≤ 1 then none
        else if (skipBlanks rest).head? = some bracket.closing then
          some (bracket.collect [], (skipBlanks rest).tail)
        else bracket.read? fuel (depth - 1) [] rest := by
  rw [← read?_skipBlanks, value?, hskip]
  cases bracket with
  | square =>
      simp only [opening, closing]
      split
      · rfl
      · split
        · simp [*, collect]
        · rename_i hother
          exact (if_neg fun h => (List.head?_eq_some_iff.1 h).elim hother).symm
  | curly =>
      simp only [opening, closing]
      split
      · rfl
      · split
        · simp [*, collect]
        · rename_i hother
          exact (if_neg fun h => (List.head?_eq_some_iff.1 h).elim hother).symm

end Bracket

/-! ## Layouts are read by their trees -/

/-- The text of a layout with white space only, and no comma too many. -/
def Layout.plainText {role : Role} (layout : Layout Blanks role) : List Char :=
  layout.text Subtype.val []

theorem Layout.plainText_pos (layout : Layout Blanks .value) : 0 < layout.plainText.length := by
  obtain ⟨c, more, htext, -⟩ := layout.exists_start Subtype.val []
  rw [plainText, htext]
  exact Nat.succ_pos _

/-- The last entry, with the gap in which a comma too many is left out. -/
theorem Layout.plainText_last {bracket : Bracket} (before : Blanks) (label : Label Blanks bracket)
    (value : Layout Blanks .value) (after : Blanks) (trailing : Option Blanks) :
    ∃ gap : Blanks, (Layout.last before label value after trailing).plainText
      = before.1 ++ (label.text Subtype.val ++ (value.plainText ++ gap.1)) := by
  cases trailing with
  | none => exact ⟨after, by simp [plainText, text]⟩
  | some gap =>
      have hgap : ∀ c ∈ after.1 ++ gap.1, isJsonBlank c = true := fun c hc =>
        (List.mem_append.1 hc).elim (after.2 c) (gap.2 c)
      exact ⟨⟨after.1 ++ gap.1, hgap⟩, by simp [plainText, text]⟩

theorem Layout.plainText_more {bracket : Bracket} (before : Blanks) (label : Label Blanks bracket)
    (value : Layout Blanks .value) (after : Blanks) (rest : Layout Blanks (.entries bracket)) :
    (Layout.more before label value after rest).plainText
      = before.1 ++ (label.text Subtype.val ++ (value.plainText ++
        (after.1 ++ ',' :: rest.plainText))) := by
  simp [plainText, text]

theorem Layout.plainText_empty (bracket : Bracket) (gap : Blanks) (rest : List Char) :
    (Layout.empty bracket gap).plainText ++ rest
      = bracket.opening :: (gap.1 ++ bracket.closing :: rest) := by
  simp [plainText, text]

theorem Layout.plainText_group (bracket : Bracket) (entries : Layout Blanks (.entries bracket))
    (rest : List Char) :
    (Layout.group bracket entries).plainText ++ rest
      = bracket.opening :: (entries.plainText ++ bracket.closing :: rest) := by
  simp [plainText, text]

/-- The reader gives the meaning of a value and leaves the rest. Of entries it gives the meaning
behind what was read before, and leaves what stands behind the bracket. It needs two calls for
each character at most. -/
def IsRead : {role : Role} → Layout Blanks role → Prop
  | .value, layout => ∀ fuel depth rest, 2 * layout.plainText.length ≤ fuel + 1 →
      EndsNumber rest →
        value? fuel depth (layout.plainText ++ rest)
          = (layout.tree.meaning? depth).map (·, rest)
  | .entries bracket, layout => ∀ fuel depth done rest, 2 * layout.plainText.length ≤ fuel →
      bracket.read? fuel depth done (layout.plainText ++ bracket.closing :: rest)
        = (layout.tree.meaning? depth).map fun entries =>
            (bracket.collect (done.reverse ++ entries), rest)

theorem skipBlanks_gap (gap : Blanks) {c : Char} (hc : isJsonBlank c = false) (rest : List Char) :
    skipBlanks (gap.1 ++ c :: rest) = c :: rest := by
  rw [skipBlanks_append, skipBlanks_cons hc]

theorem endsNumber_gap (gap : Blanks) {rest : List Char} (h : EndsNumber rest) :
    EndsNumber (gap.1 ++ rest) := by
  obtain ⟨gap, hgap⟩ := gap
  cases gap with
  | nil => exact h
  | cons blank gap =>
      intro c hc
      obtain rfl : blank = c := by simpa using hc
      have hblank := hgap blank List.mem_cons_self
      simp only [isJsonBlank, Bool.or_eq_true, decide_eq_true_eq] at hblank
      obtain ((rfl | rfl) | rfl) | rfl := hblank <;> decide

theorem endsNumber_cons {c : Char} (hc : goesOn c = false) (rest : List Char) :
    EndsNumber (c :: rest) := by
  intro d hd
  obtain rfl : c = d := by simpa using hd
  exact hc

theorem Bracket.closing_ends (bracket : Bracket) :
    isJsonBlank bracket.closing = false ∧ goesOn bracket.closing = false := by
  cases bracket <;> decide

theorem Bracket.opening_not_blank (bracket : Bracket) : isJsonBlank bracket.opening = false := by
  cases bracket <;> decide

/-- A word is read off a text that starts with it. -/
theorem word?_append (word : String) (json : Json) (rest : List Char) :
    word? word json (word.toList ++ rest) = some (json, rest) := by
  rw [word?, if_pos (List.isPrefixOf_iff_prefix.2 (List.prefix_append _ _)), ← String.length_toList,
    List.drop_left]

theorem value?_number (fuel depth : Nat) (n : Number) {rest : List Char} (h : EndsNumber rest) :
    value? (fuel + 1) depth (n.text ++ rest) = n.value?.map (·, rest) := by
  rw [← number?_append n h]
  obtain ⟨c, more, htext, hc⟩ := n.exists_head
  -- A number starts with a sign or a digit, and no other value does.
  have hne : ∀ d ∈ ['\x22', '[', '\x7b', 't', 'f', 'n'], c ≠ d := by
    rintro d hd rfl
    rcases hc with rfl | hdigit
    · revert hd
      decide
    · have hnone : ∀ d ∈ ['\x22', '[', '\x7b', 't', 'f', 'n'], d.isDigit = false := by simp
      rw [hnone c hd] at hdigit
      cases hdigit
  have hblank : isJsonBlank c = false := by
    obtain ⟨d, _, htext', hstarts⟩ := n.exists_start
    obtain rfl : c = d := (List.cons.inj (htext.symm.trans htext')).1
    exact hstarts.not_blank
  rw [htext, List.cons_append, value?, skipBlanks_cons hblank]
  split
  · rename_i heq
    cases heq
  all_goals rename_i heq
  all_goals first
    | rfl
    | exact absurd (List.cons.inj heq).1 (hne _ (by simp))

theorem value?_quotes (fuel depth : Nat) (quoted : Quotable) (rest : List Char) :
    value? (fuel + 1) depth (quoted.quotes ++ rest)
      = (quoted.value?.map Json.string).map (·, rest) := by
  have hfuel : quoted.text.length < (quoted.text ++ '\x22' :: rest).length + 1 := by
    simp only [List.length_append]
    omega
  rw [quoted.quotes_append, value?, skipBlanks_cons (by decide)]
  simp only [stringRest_append quoted rest hfuel, Option.map_map]
  rfl

theorem isRead_atom (token : Atom) : IsRead (.atom token) := by
  intro fuel depth rest hfuel hrest
  have hpos := (Layout.atom token : Layout Blanks .value).plainText_pos
  obtain ⟨fuel, rfl⟩ := Nat.exists_eq_succ_of_ne_zero (by omega : fuel ≠ 0)
  cases token with
  | null =>
      show value? (fuel + 1) depth ('n' :: ("ull".toList ++ rest)) = _
      rw [value?, skipBlanks_cons (by decide)]
      exact word?_append "ull" .null rest
  | bool value =>
      cases value with
      | true =>
          show value? (fuel + 1) depth ('t' :: ("rue".toList ++ rest)) = _
          rw [value?, skipBlanks_cons (by decide)]
          exact word?_append "rue" (.bool true) rest
      | false =>
          show value? (fuel + 1) depth ('f' :: ("alse".toList ++ rest)) = _
          rw [value?, skipBlanks_cons (by decide)]
          exact word?_append "alse" (.bool false) rest
  | number n => exact value?_number fuel depth n hrest
  | string quoted => exact value?_quotes fuel depth quoted rest

theorem isRead_empty (bracket : Bracket) (gap : Blanks) : IsRead (.empty bracket gap) := by
  intro fuel depth rest hfuel _
  have hpos := (Layout.empty bracket gap).plainText_pos
  obtain ⟨fuel, rfl⟩ := Nat.exists_eq_succ_of_ne_zero (by omega : fuel ≠ 0)
  rw [Layout.plainText_empty,
    bracket.value?_opening fuel depth (skipBlanks_cons bracket.opening_not_blank _),
    skipBlanks_gap gap bracket.closing_ends.1, Layout.tree, Layout.meaning?]
  split <;> simp

theorem isRead_group (bracket : Bracket) {entries : Layout Blanks (.entries bracket)}
    (ih : IsRead entries) : IsRead (.group bracket entries) := by
  intro fuel depth rest hfuel _
  have hlength := congrArg List.length (Layout.plainText_group bracket entries [])
  simp only [List.append_nil, List.length_cons, List.length_append, List.length_nil] at hlength
  -- Entries start with a key or a value, so the reader does not take them for an end.
  obtain ⟨gap, c, more, hstart, hstarts⟩ := entries.exists_start_entries Subtype.val []
  have hclosing : c ≠ bracket.closing := by
    cases bracket with
    | square => exact hstarts.2.1
    | curly => exact hstarts.2.2
  have hhead : (skipBlanks (entries.plainText ++ bracket.closing :: rest)).head?
      ≠ some bracket.closing := by
    rw [Layout.plainText, hstart, List.append_assoc, List.cons_append,
      skipBlanks_gap gap hstarts.not_blank]
    simpa using hclosing
  obtain ⟨fuel, rfl⟩ := Nat.exists_eq_succ_of_ne_zero (by omega : fuel ≠ 0)
  rw [Layout.plainText_group,
    bracket.value?_opening fuel depth (skipBlanks_cons bracket.opening_not_blank _),
    if_neg hhead, ih fuel (depth - 1) [] rest (by omega), Layout.tree, Layout.meaning?]
  split
  · rfl
  · cases entries.tree.meaning? (depth - 1) <;> rfl

/-- A label is read up to a gap, which the value behind it skips. -/
theorem label?_append {bracket : Bracket} (before : Blanks) (label : Label Blanks bracket)
    (rest : List Char) :
    ∃ gap : Blanks, bracket.label? (before.1 ++ (label.text Subtype.val ++ rest))
      = label.meaning?.map (·, gap.1 ++ rest) := by
  cases bracket with
  | square => exact ⟨before, rfl⟩
  | curly =>
      have htext : before.1 ++ (Label.text Subtype.val label ++ rest)
          = before.1 ++ '\x22' :: (label.quoted.text ++ '\x22' ::
            (label.before.1 ++ ':' :: (label.after.1 ++ rest))) := by
        simp [Label.text, Quotable.quotes]
      have hfuel : label.quoted.text.length < (label.quoted.text ++ '\x22' ::
          (label.before.1 ++ ':' :: (label.after.1 ++ rest))).length + 1 := by
        simp only [List.length_append]
        omega
      refine ⟨label.after, ?_⟩
      rw [htext, Bracket.label?, skipBlanks_gap before (by decide)]
      simp only [stringRest_append _ _ hfuel, Label.meaning?]
      cases label.quoted.value? with
      | none => rfl
      | some key =>
          simp only [Option.map_some]
          rw [skipBlanks_gap label.before (by decide)]
          rfl

/-- One entry, and what stands behind it. -/
theorem read?_entry {bracket : Bracket} (fuel depth : Nat) (done : List (Entry bracket))
    (before : Blanks) (label : Label Blanks bracket) {value : Layout Blanks .value}
    (ih : IsRead value) {after : List Char} (hfuel : 2 * value.plainText.length ≤ fuel + 1)
    (hafter : EndsNumber after) :
    bracket.read? (fuel + 1) depth done
        (before.1 ++ (label.text Subtype.val ++ (value.plainText ++ after)))
      = label.meaning?.bind fun entry => (value.tree.meaning? depth).bind fun json =>
          bracket.readOn? fuel depth (entry json :: done) after := by
  obtain ⟨gap, hlabel⟩ := label?_append before label (value.plainText ++ after)
  rw [bracket.read?_succ, hlabel]
  cases label.meaning? with
  | none => rfl
  | some entry =>
      simp only [Option.map_some, Option.bind_some]
      rw [value?_gap, ih fuel depth after hfuel hafter]
      cases value.tree.meaning? depth <;> rfl

theorem isRead_last {bracket : Bracket} (before : Blanks) (label : Label Blanks bracket)
    {value : Layout Blanks .value} (after : Blanks) (trailing : Option Blanks)
    (ih : IsRead value) : IsRead (.last before label value after trailing) := by
  intro fuel depth done rest hfuel
  obtain ⟨gap, htext⟩ := Layout.plainText_last before label value after trailing
  have hpos := value.plainText_pos
  simp only [htext, List.length_append] at hfuel
  obtain ⟨fuel, rfl⟩ := Nat.exists_eq_succ_of_ne_zero (by omega : fuel ≠ 0)
  have hon := fun entry => bracket.readOn?_closing fuel depth (entry :: done)
    (skipBlanks_gap gap bracket.closing_ends.1 rest)
  simp only [htext, List.append_assoc]
  rw [read?_entry fuel depth done before label ih (by omega)
    (endsNumber_gap gap (endsNumber_cons bracket.closing_ends.2 rest))]
  simp only [hon, Layout.tree, Layout.meaning?, Label.meaning?_map]
  cases label.meaning? with
  | none => rfl
  | some entry => cases value.tree.meaning? depth <;> simp

theorem isRead_more {bracket : Bracket} (before : Blanks) (label : Label Blanks bracket)
    {value : Layout Blanks .value} (after : Blanks) {others : Layout Blanks (.entries bracket)}
    (ih : IsRead value) (ihRest : IsRead others) :
    IsRead (.more before label value after others) := by
  intro fuel depth done rest hfuel
  have htext := Layout.plainText_more before label value after others
  simp only [htext, List.length_append, List.length_cons] at hfuel
  obtain ⟨fuel, rfl⟩ := Nat.exists_eq_succ_of_ne_zero (by omega : fuel ≠ 0)
  have hon := fun entry => (bracket.readOn?_comma fuel depth (entry :: done)
    (skipBlanks_gap after (by decide) _)).trans
      (ihRest fuel depth (entry :: done) rest (by omega))
  simp only [htext, List.append_assoc, List.cons_append]
  rw [read?_entry fuel depth done before label ih (by omega)
    (endsNumber_gap after (endsNumber_cons (by decide) _))]
  simp only [hon, Layout.tree, Layout.meaning?, Label.meaning?_map]
  cases label.meaning? with
  | none => rfl
  | some entry =>
      cases value.tree.meaning? depth with
      | none => rfl
      | some json => cases others.tree.meaning? depth <;> simp

/-- Every layout is read by its tree. -/
theorem isRead {role : Role} (layout : Layout Blanks role) : IsRead layout := by
  induction layout with
  | atom token => exact isRead_atom token
  | empty bracket gap => exact isRead_empty bracket gap
  | group bracket entries ih => exact isRead_group bracket ih
  | last before label value after trailing ih => exact isRead_last before label after trailing ih
  | more before label value after rest ih ihRest =>
      exact isRead_more before label after ih ihRest

/-! ## What is read is a layout -/

theorem word?_sound {word : String} {json found : Json} {cs rest : List Char}
    (h : word? word json cs = some (found, rest)) : cs = word.toList ++ rest := by
  unfold word? at h
  split at h
  · rename_i hprefix
    obtain ⟨behind, rfl⟩ := List.isPrefixOf_iff_prefix.1 hprefix
    obtain ⟨-, rfl⟩ := Prod.mk.inj (Option.some.inj h)
    rw [← String.length_toList, List.drop_left]
  · cases h

theorem label?_sound {bracket : Bracket} {cs rest : List Char} {entry : Json → Entry bracket}
    (h : bracket.label? cs = some (entry, rest)) :
    ∃ (before : Blanks) (label : Label Blanks bracket),
      cs = before.1 ++ (label.text Subtype.val ++ skipBlanks rest) := by
  obtain ⟨before, hbefore⟩ := exists_blanks cs
  cases bracket with
  | square =>
      obtain ⟨-, rfl⟩ := Prod.mk.inj (Option.some.inj h)
      exact ⟨before, (), hbefore⟩
  | curly =>
      simp only [Bracket.label?] at h
      split at h
      · rename_i behind hquote
        split at h
        · cases h
        · rename_i key after hkey
          split at h
          · rename_i behind hcolon
            obtain ⟨-, rfl⟩ := Prod.mk.inj (Option.some.inj h)
            obtain ⟨quoted, hquoted, -⟩ := stringRest_sound hkey
            obtain ⟨gap, hgap⟩ := exists_blanks after
            obtain ⟨gap', hgap'⟩ := exists_blanks behind
            refine ⟨before, ⟨quoted, gap, gap'⟩, ?_⟩
            rw [hbefore, hquote, hquoted, hgap, hcolon]
            simp [Label.text, Quotable.quotes, ← hgap']
          · cases h
      · cases h

/-- What stands behind an entry is a comma and other entries, or the bracket. -/
theorem readOn?_sound {bracket : Bracket} {fuel depth : Nat} {done : List (Entry bracket)}
    {cs rest : List Char} {json : Json}
    (h : bracket.readOn? fuel depth done cs = some (json, rest)) :
    ∃ gap : Blanks, cs = gap.1 ++ bracket.closing :: rest ∨
      ∃ more, cs = gap.1 ++ ',' :: more ∧
        bracket.read? fuel depth done more = some (json, rest) := by
  obtain ⟨gap, hgap⟩ := exists_blanks cs
  refine ⟨gap, ?_⟩
  unfold Bracket.readOn? at h
  cases hskip : skipBlanks cs with
  | nil =>
      rw [hskip] at h
      cases h
  | cons c behind =>
      rw [hskip] at h hgap
      simp only at h
      split at h
      · rename_i hcomma
        exact .inr ⟨behind, by rw [hgap, hcomma], h⟩
      · split at h
        · rename_i hclosing
          obtain ⟨-, rfl⟩ := Prod.mk.inj (Option.some.inj h)
          exact .inl (by rw [hgap, hclosing])
        · cases h

/-- What a reader with some fuel takes is a layout, and the rest is what stands behind it. -/
structure Sound (fuel : Nat) : Prop where
  value : ∀ {depth cs json rest}, value? fuel depth cs = some (json, rest) →
    ∃ layout : Layout Blanks .value, skipBlanks cs = layout.plainText ++ rest
  entries : ∀ {bracket : Bracket} {depth done cs json rest},
    bracket.read? fuel depth done cs = some (json, rest) →
      ∃ layout : Layout Blanks (.entries bracket),
        cs = layout.plainText ++ bracket.closing :: rest

theorem Sound.entries_succ {fuel : Nat} (ih : Sound fuel) {bracket : Bracket} {depth : Nat}
    {done : List (Entry bracket)} {cs rest : List Char} {json : Json}
    (h : bracket.read? (fuel + 1) depth done cs = some (json, rest)) :
    ∃ layout : Layout Blanks (.entries bracket),
      cs = layout.plainText ++ bracket.closing :: rest := by
  rw [bracket.read?_succ] at h
  obtain ⟨⟨entry, behind⟩, hlabel, h⟩ := Option.bind_eq_some_iff.1 h
  obtain ⟨⟨found, after⟩, hvalue, h⟩ := Option.bind_eq_some_iff.1 h
  obtain ⟨before, label, hcs⟩ := label?_sound hlabel
  obtain ⟨value, hbehind⟩ := ih.value hvalue
  obtain ⟨gap, hclosing | ⟨more, hcomma, hmore⟩⟩ := readOn?_sound h
  · refine ⟨.last before label value gap none, ?_⟩
    rw [hcs, hbehind, hclosing]
    simp [Layout.plainText, Layout.text]
  · obtain ⟨others, hothers⟩ := ih.entries hmore
    refine ⟨.more before label value gap others, ?_⟩
    rw [hcs, hbehind, hcomma, hothers]
    simp [Layout.plainText, Layout.text]

theorem Sound.value_bracket {fuel : Nat} (ih : Sound fuel) (bracket : Bracket) {depth : Nat}
    {cs behind rest : List Char} {json : Json} (hskip : skipBlanks cs = bracket.opening :: behind)
    (h : value? (fuel + 1) depth cs = some (json, rest)) :
    ∃ layout : Layout Blanks .value, skipBlanks cs = layout.plainText ++ rest := by
  rw [bracket.value?_opening fuel depth hskip] at h
  split at h
  · cases h
  · split at h
    · rename_i hhead
      obtain ⟨-, rfl⟩ := Prod.mk.inj (Option.some.inj h)
      obtain ⟨gap, hgap⟩ := exists_blanks behind
      obtain ⟨after, hafter⟩ := List.head?_eq_some_iff.1 hhead
      refine ⟨.empty bracket gap, ?_⟩
      rw [Layout.plainText_empty, hskip, hafter, List.tail_cons, ← hafter, ← hgap]
    · obtain ⟨entries, hentries⟩ := ih.entries h
      exact ⟨.group bracket entries, by rw [Layout.plainText_group, hskip, hentries]⟩

theorem Sound.value_succ {fuel : Nat} (ih : Sound fuel) {depth : Nat} {cs rest : List Char}
    {json : Json} (h : value? (fuel + 1) depth cs = some (json, rest)) :
    ∃ layout : Layout Blanks .value, skipBlanks cs = layout.plainText ++ rest := by
  have hread := h
  rw [value?] at h
  split at h
  · cases h
  · rename_i behind hskip
    obtain ⟨⟨text, after⟩, hstring, heq⟩ := Option.map_eq_some_iff.1 h
    obtain ⟨-, rfl⟩ := Prod.mk.inj heq
    obtain ⟨quoted, hquoted, -⟩ := stringRest_sound hstring
    refine ⟨.atom (.string quoted), ?_⟩
    rw [hskip, hquoted]
    exact (quoted.quotes_append _).symm
  · exact ih.value_bracket .square ‹_› hread
  · exact ih.value_bracket .curly ‹_› hread
  · rename_i hskip
    exact ⟨.atom (.bool true), by rw [hskip, word?_sound h]; rfl⟩
  · rename_i hskip
    exact ⟨.atom (.bool false), by rw [hskip, word?_sound h]; rfl⟩
  · rename_i hskip
    exact ⟨.atom .null, by rw [hskip, word?_sound h]; rfl⟩
  · obtain ⟨n, hn⟩ := number?_sound h
    exact ⟨.atom (.number n), hn⟩

theorem sound (fuel : Nat) : Sound fuel := by
  induction fuel with
  | zero =>
      constructor
      · intro depth cs json rest h
        rw [value?] at h
        cases h
      · intro bracket depth done cs json rest h
        cases bracket <;> simp [Bracket.read?, items?, members?] at h
  | succ fuel ih => exact ⟨ih.value_succ, ih.entries_succ⟩

/-! ## Documents -/

theorem parseRaw?_document (d : Document Blanks) :
    parseRaw? (String.ofList (d.text Subtype.val [])) = d.value.tree.meaning? depthLimit := by
  have htext : d.text Subtype.val [] = d.before.1 ++ (d.value.plainText ++ d.after.1) := by
    rw [Document.text, List.append_assoc, Layout.plainText]
  have hends : EndsNumber d.after.1 := by
    rw [← List.append_nil d.after.1]
    exact endsNumber_gap d.after (by rintro c ⟨⟩)
  have hrest : skipBlanks d.after.1 = [] := by
    rw [← List.append_nil d.after.1]
    exact skipBlanks_append d.after []
  have hfuel : 2 * d.value.plainText.length
      ≤ 2 * (d.before.1 ++ (d.value.plainText ++ d.after.1)).length + 2 + 1 := by
    simp only [List.length_append]
    omega
  unfold parseRaw?
  simp only [String.toList_ofList, htext, value?_gap]
  rw [isRead d.value _ depthLimit d.after.1 hfuel hends]
  cases d.value.tree.meaning? depthLimit with
  | none => rfl
  | some json => simp [hrest]

theorem exists_document {text : String} {json : Json} (h : parseRaw? text = some json) :
    ∃ d : Document Blanks, text = String.ofList (d.text Subtype.val []) := by
  unfold parseRaw? at h
  simp only at h
  split at h
  · rename_i rest hread
    split at h
    · rename_i hempty
      obtain ⟨before, hbefore⟩ := exists_blanks text.toList
      obtain ⟨after, hafter⟩ := exists_blanks rest
      obtain ⟨value, hvalue⟩ := (sound _).value hread
      refine ⟨⟨before, value, after⟩, ?_⟩
      rw [List.isEmpty_iff.1 hempty, List.append_nil] at hafter
      rw [Document.text, List.append_assoc, ← hafter, ← Layout.plainText, ← hvalue, ← hbefore,
        String.ofList_toList]
    · cases h
  · cases h

end ModuleTrace.Json

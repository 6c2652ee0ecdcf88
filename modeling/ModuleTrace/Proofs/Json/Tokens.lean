import ModuleTrace.Json.Reader
import ModuleTrace.Json.Relaxed

/-!
# Tokens of JSON

Numbers and quoted texts as they are written. The reader takes a token in front of any rest that
does not go on with it, and leaves just this rest; and whatever it takes is such a token.
-/

namespace ModuleTrace.Json

/-! ## Blanks -/

/-- White space between tokens. -/
abbrev Blanks : Type :=
  { cs : List Char // ∀ c ∈ cs, isJsonBlank c = true }

theorem skipBlanks_append (gap : Blanks) (cs : List Char) :
    skipBlanks (gap.1 ++ cs) = skipBlanks cs :=
  List.dropWhile_append_of_pos gap.2

theorem skipBlanks_cons {c : Char} (h : isJsonBlank c = false) (cs : List Char) :
    skipBlanks (c :: cs) = c :: cs := by
  simp [skipBlanks, h]

theorem exists_blanks (cs : List Char) : ∃ gap : Blanks, cs = gap.1 ++ skipBlanks cs :=
  ⟨⟨cs.takeWhile isJsonBlank, List.all_eq_true.1 List.all_takeWhile⟩,
    List.takeWhile_append_dropWhile.symm⟩

theorem skipBlanks_skipBlanks (cs : List Char) : skipBlanks (skipBlanks cs) = skipBlanks cs := by
  obtain ⟨gap, hgap⟩ := exists_blanks cs
  have hskip := skipBlanks_append gap (skipBlanks cs)
  rw [← hgap] at hskip
  exact hskip.symm

/-! ## Numbers -/

/-- Digits, one at least. -/
structure Digits where
  text : List Char
  nonempty : text ≠ []
  all : ∀ c ∈ text, c.isDigit = true

structure Exponent where
  mark : Char
  sign : Option Char
  digits : Digits
  isMark : mark = 'e' ∨ mark = 'E'
  isSign : ∀ c ∈ sign, c = '-' ∨ c = '+'

def Exponent.text (e : Exponent) : List Char :=
  e.mark :: e.sign.toList ++ e.digits.text

def Exponent.value (e : Exponent) : Int :=
  (if e.sign = some '-' then -1 else 1) * Decimal.value e.digits.text

structure Number where
  isNegative : Bool
  whole : Digits
  fraction : Option Digits
  exponent : Option Exponent
  /-- A zero stands in front of no other digit. -/
  wellStarted : whole.text = ['0'] ∨ whole.text.head? ≠ some '0'

namespace Number

def fractionText (n : Number) : List Char :=
  (n.fraction.map fun digits => '.' :: digits.text).getD []

def exponentText (n : Number) : List Char :=
  (n.exponent.map Exponent.text).getD []

def unsigned (n : Number) : List Char :=
  n.whole.text ++ (n.fractionText ++ n.exponentText)

def text (n : Number) : List Char :=
  (if n.isNegative then ['-'] else []) ++ n.unsigned

def fractionDigits (n : Number) : List Char :=
  (n.fraction.map Digits.text).getD []

def value? (n : Number) : Option Json :=
  if Decimal.inRange (n.whole.text ++ n.fractionDigits)
      ((n.exponent.map Exponent.value).getD 0 - n.fractionDigits.length) then
    some (.number (String.ofList n.text))
  else none

theorem exists_head (n : Number) :
    ∃ c more, n.text = c :: more ∧ (c = '-' ∨ c.isDigit = true) := by
  cases hnegative : n.isNegative with
  | true => exact ⟨'-', n.unsigned, by simp [text, hnegative], .inl rfl⟩
  | false =>
      obtain ⟨c, more, htext⟩ := List.exists_cons_of_ne_nil n.whole.nonempty
      refine ⟨c, more ++ (n.fractionText ++ n.exponentText), ?_,
        .inr (n.whole.all c (by simp [htext]))⟩
      simp [text, unsigned, hnegative, htext]

end Number

/-- Characters that a number could go on with. -/
def goesOn (c : Char) : Bool :=
  c.isDigit || c = '.' || c = 'e' || c = 'E'

/-- No number goes on with the text. -/
def EndsNumber (rest : List Char) : Prop :=
  ∀ c ∈ rest.head?, goesOn c = false

def EndsDigits (rest : List Char) : Prop :=
  ∀ c ∈ rest.head?, c.isDigit = false

theorem digitsOf_append (d : Digits) {rest : List Char} (h : EndsDigits rest) :
    digitsOf (d.text ++ rest) = (d.text, rest) := by
  have htake : rest.takeWhile Char.isDigit = [] := by
    cases rest with
    | nil => rfl
    | cons c rest => simp [h c rfl]
  have hdrop : rest.dropWhile Char.isDigit = rest := by
    cases rest with
    | nil => rfl
    | cons c rest => simp [h c rfl]
  rw [digitsOf, List.takeWhile_append_of_pos d.all, List.dropWhile_append_of_pos d.all, htake,
    hdrop, List.append_nil]

theorem wholePart?_append (d : Digits) (hstart : d.text = ['0'] ∨ d.text.head? ≠ some '0')
    {rest : List Char} (h : EndsDigits rest) :
    wholePart? (d.text ++ rest) = some (d.text, rest) := by
  rcases hstart with hzero | hstart
  · have hany : rest.head?.any Char.isDigit = false := by
      cases hrest : rest.head? with
      | none => rfl
      | some c => exact h c hrest
    simp [hzero, wholePart?, hany]
  · have hdigits := digitsOf_append d h
    have hne := d.nonempty
    generalize d.text = digits at *
    cases digits with
    | nil => exact absurd rfl hne
    | cons c more =>
        have hc : c ≠ '0' := by simpa using hstart
        simp only [List.cons_append] at hdigits ⊢
        unfold wholePart?
        split
        · rename_i heq
          exact absurd (List.cons.inj heq).1 hc
        · rw [hdigits]

theorem fractionPart?_append (n : Number) {rest : List Char} (hdot : ∀ c ∈ rest.head?, c ≠ '.')
    (h : EndsDigits rest) :
    fractionPart? (n.fractionText ++ rest) = some (n.fractionDigits, rest) := by
  unfold Number.fractionText Number.fractionDigits
  cases n.fraction with
  | none =>
      cases rest with
      | nil => rfl
      | cons c rest =>
          have hc : c ≠ '.' := hdot c rfl
          unfold fractionPart?
          split
          · rename_i heq
            exact absurd (List.cons.inj heq).1 hc
          · rfl
  | some digits =>
      obtain ⟨c, more, htext⟩ := List.exists_cons_of_ne_nil digits.nonempty
      simp only [Option.map_some, Option.getD_some, List.cons_append, fractionPart?]
      rw [digitsOf_append digits h, htext]

theorem exponentPart?_append (n : Number) {rest : List Char}
    (hmark : ∀ c ∈ rest.head?, c ≠ 'e' ∧ c ≠ 'E') (h : EndsDigits rest) :
    exponentPart? (n.exponentText ++ rest)
      = some ((n.exponent.map Exponent.value).getD 0, rest) := by
  unfold Number.exponentText
  cases n.exponent with
  | none =>
      cases rest with
      | nil => rfl
      | cons c rest => simp [exponentPart?, hmark c rfl]
  | some e =>
      obtain ⟨c, more, htext⟩ := List.exists_cons_of_ne_nil e.digits.nonempty
      have hdigit : c.isDigit = true := e.digits.all c (by simp [htext])
      have hmark : (e.mark = 'e' || e.mark = 'E') = true := by simpa using e.isMark
      have hdigits : digitsOf (c :: (more ++ rest)) = (c :: more, rest) := by
        rw [← List.cons_append, ← htext]
        exact digitsOf_append e.digits h
      simp only [Option.map_some, Option.getD_some, Exponent.text, List.cons_append,
        List.append_assoc, exponentPart?, hmark, if_true, Exponent.value, htext]
      cases hsign : e.sign with
      | none =>
          have hminus : c ≠ '-' := by
            rintro rfl
            simp at hdigit
          have hplus : c ≠ '+' := by
            rintro rfl
            simp at hdigit
          simp [hminus, hplus, hdigits]
      | some sign =>
          rcases e.isSign sign hsign with rfl | rfl
          · simp [hdigits]
          · simp [hdigits]

theorem mem_head?_exponentText (n : Number) {rest : List Char} {c : Char}
    (h : c ∈ (n.exponentText ++ rest).head?) : c = 'e' ∨ c = 'E' ∨ c ∈ rest.head? := by
  unfold Number.exponentText at h
  cases hexponent : n.exponent with
  | none => exact .inr (.inr (by simpa [hexponent] using h))
  | some e =>
      obtain rfl : e.mark = c := by simpa [hexponent, Exponent.text] using h
      exact e.isMark.imp_right .inl

theorem mem_head?_fractionText (n : Number) {rest : List Char} {c : Char}
    (h : c ∈ (n.fractionText ++ rest).head?) : c = '.' ∨ c ∈ rest.head? := by
  unfold Number.fractionText at h
  cases hfraction : n.fraction with
  | none => exact .inr (by simpa [hfraction] using h)
  | some digits => exact .inl (by simpa [hfraction, eq_comm] using h)

/-- The reader takes a number in front of what does not go on with it. -/
theorem number?_append (n : Number) {rest : List Char} (h : EndsNumber rest) :
    number? (n.text ++ rest) = n.value?.map (·, rest) := by
  have hrest : ∀ c ∈ rest.head?, c.isDigit = false ∧ c ≠ '.' ∧ c ≠ 'e' ∧ c ≠ 'E' := by
    intro c hc
    have hgoes := h c hc
    simp only [goesOn, Bool.or_eq_false_iff, decide_eq_false_iff_not] at hgoes
    exact ⟨hgoes.1.1.1, hgoes.1.1.2, hgoes.1.2, hgoes.2⟩
  have hbehind : ∀ c ∈ (n.exponentText ++ rest).head?, c.isDigit = false ∧ c ≠ '.' := by
    intro c hc
    rcases mem_head?_exponentText n hc with rfl | rfl | hc
    · decide
    · decide
    · exact ⟨(hrest c hc).1, (hrest c hc).2.1⟩
  have hwhole : wholePart? (n.whole.text ++ (n.fractionText ++ (n.exponentText ++ rest)))
      = some (n.whole.text, n.fractionText ++ (n.exponentText ++ rest)) := by
    refine wholePart?_append n.whole n.wellStarted fun c hc => ?_
    rcases mem_head?_fractionText n hc with rfl | hc
    · decide
    · exact (hbehind c hc).1
  have hfraction := fractionPart?_append n (fun c hc => (hbehind c hc).2)
    fun c hc => (hbehind c hc).1
  have hexponent := exponentPart?_append n (fun c hc => (hrest c hc).2.2)
    fun c hc => (hrest c hc).1
  have hunsigned : (if (n.text ++ rest).head? = some '-' then (n.text ++ rest).drop 1
      else n.text ++ rest) = n.unsigned ++ rest := by
    cases hnegative : n.isNegative with
    | true => simp [Number.text, hnegative]
    | false =>
        obtain ⟨c, more, htext⟩ := List.exists_cons_of_ne_nil n.whole.nonempty
        have hdigit : c.isDigit = true := n.whole.all c (by simp [htext])
        have hc : c ≠ '-' := by
          rintro rfl
          simp at hdigit
        simp [Number.text, Number.unsigned, hnegative, htext, hc]
  have htaken : (n.text ++ rest).take ((n.text ++ rest).length - rest.length) = n.text := by
    simp
  unfold number? Number.value?
  simp only [hunsigned, Number.unsigned, List.append_assoc, hwhole, hfraction, hexponent, htaken,
    Option.bind_eq_bind, Option.bind_some]
  split <;> rfl

/-! ## What is taken as a number -/

theorem digitsOf_sound {cs digits rest : List Char} (h : digitsOf cs = (digits, rest))
    (hne : digits ≠ []) : ∃ d : Digits, d.text = digits ∧ cs = digits ++ rest := by
  obtain ⟨rfl, rfl⟩ := Prod.mk.inj h
  exact ⟨⟨_, hne, List.all_eq_true.1 List.all_takeWhile⟩, rfl,
    List.takeWhile_append_dropWhile.symm⟩

theorem wholePart?_sound {cs whole rest : List Char} (h : wholePart? cs = some (whole, rest)) :
    ∃ d : Digits, d.text = whole ∧ cs = whole ++ rest ∧
      (d.text = ['0'] ∨ d.text.head? ≠ some '0') := by
  unfold wholePart? at h
  split at h
  · split at h
    · cases h
    · cases h
      exact ⟨⟨['0'], by simp, by simp⟩, rfl, rfl, .inl rfl⟩
  · rename_i hzero
    split at h
    · cases h
    · rename_i hne
      have hfound := Option.some.inj h
      have hwhole : whole ≠ [] := by
        rintro rfl
        exact hne _ hfound
      obtain ⟨d, rfl, hcs⟩ := digitsOf_sound hfound hwhole
      refine ⟨d, rfl, hcs, .inr fun hhead => ?_⟩
      obtain ⟨more, hmore⟩ := List.head?_eq_some_iff.1 hhead
      exact hzero (more ++ rest) (by rw [hcs, hmore, List.cons_append])

theorem fractionPart?_sound {cs fraction rest : List Char}
    (h : fractionPart? cs = some (fraction, rest)) :
    ∃ f : Option Digits, cs = (f.map fun digits => '.' :: digits.text).getD [] ++ rest := by
  unfold fractionPart? at h
  split at h
  · rename_i behind
    split at h
    · cases h
    · rename_i hne
      have hfound := Option.some.inj h
      have hfraction : fraction ≠ [] := by
        rintro rfl
        exact hne _ hfound
      obtain ⟨d, rfl, hcs⟩ := digitsOf_sound hfound hfraction
      exact ⟨some d, by simp [hcs]⟩
  · cases h
    exact ⟨none, rfl⟩

theorem exponentPart?_sound {cs rest : List Char} {exponent : Int}
    (h : exponentPart? cs = some (exponent, rest)) :
    ∃ e : Option Exponent, cs = (e.map Exponent.text).getD [] ++ rest := by
  unfold exponentPart? at h
  split at h
  · rename_i c behind
    split at h
    · rename_i hmark
      have hmark : c = 'e' ∨ c = 'E' := by simpa using hmark
      split at h
      rename_i sign unsigned heq
      obtain ⟨mark, hsign, hbehind⟩ : ∃ mark : Option Char,
          (∀ c ∈ mark, c = '-' ∨ c = '+') ∧ behind = mark.toList ++ unsigned := by
        split at heq <;> cases heq
        · exact ⟨some '-', by simp, rfl⟩
        · exact ⟨some '+', by simp, rfl⟩
        · exact ⟨none, by simp, rfl⟩
      split at h
      · cases h
      · rename_i digits after hne heq
        obtain ⟨-, rfl⟩ := Prod.mk.inj (Option.some.inj h)
        obtain ⟨d, rfl, hunsigned⟩ := digitsOf_sound heq hne
        refine ⟨some ⟨c, mark, d, hmark, hsign⟩, ?_⟩
        simp [Exponent.text, hbehind, hunsigned]
    · cases h
      exact ⟨none, rfl⟩
  · cases h
    exact ⟨none, rfl⟩

/-- What the reader takes for a number is one. -/
theorem number?_sound {cs rest : List Char} {json : Json} (h : number? cs = some (json, rest)) :
    ∃ n : Number, cs = n.text ++ rest := by
  unfold number? at h
  simp only [Option.bind_eq_bind, Option.bind_eq_some_iff] at h
  obtain ⟨⟨whole, afterWhole⟩, hwhole, ⟨fraction, afterFraction⟩, hfraction,
    ⟨exponent, after⟩, hexponent, hrange⟩ := h
  split at hrange
  · obtain ⟨-, rfl⟩ := Prod.mk.inj (Option.some.inj hrange)
    obtain ⟨d, rfl, hcs, hstart⟩ := wholePart?_sound hwhole
    obtain ⟨f, rfl⟩ := fractionPart?_sound hfraction
    obtain ⟨e, rfl⟩ := exponentPart?_sound hexponent
    refine ⟨⟨decide (cs.head? = some '-'), d, f, e, hstart⟩, ?_⟩
    by_cases hminus : cs.head? = some '-'
    · obtain ⟨behind, rfl⟩ := List.head?_eq_some_iff.1 hminus
      simpa [Number.text, Number.unsigned, Number.fractionText, Number.exponentText] using hcs
    · simpa [Number.text, Number.unsigned, Number.fractionText, Number.exponentText, hminus]
        using hcs
  · cases hrange

/-! ## Quoted texts -/

/-- No quote stands in the text but behind a backslash, and no backslash at its end. -/
def isQuotable : List Char → Bool
  | [] => true
  | '\\' :: _ :: rest => isQuotable rest
  | c :: rest => c ≠ '\x22' && c ≠ '\\' && isQuotable rest

/-- What stands between two quotes. -/
structure Quotable where
  text : List Char
  quotable : isQuotable text = true

def Quotable.quotes (quoted : Quotable) : List Char :=
  '\x22' :: quoted.text ++ ['\x22']

theorem Quotable.quotes_append (quoted : Quotable) (rest : List Char) :
    quoted.quotes ++ rest = '\x22' :: (quoted.text ++ '\x22' :: rest) := by
  simp [quotes]

theorem isQuotable_cons {c : Char} (hquote : c ≠ '\x22') (hslash : c ≠ '\\') (cs : List Char) :
    isQuotable (c :: cs) = isQuotable cs := by
  rw [isQuotable]
  · simp [hquote, hslash]
  · rintro d rest rfl
    exact absurd rfl hslash

/-- A quoted text ends with the first quote that can end it. -/
theorem spanString_quotable (text : Quotable) (rest : List Char) :
    spanString (text.text ++ '\x22' :: rest) = (text.text ++ ['\x22'], rest) := by
  obtain ⟨cs, hcs⟩ := text
  show spanString (cs ++ '\x22' :: rest) = (cs ++ ['\x22'], rest)
  fun_induction isQuotable cs with
  | case1 => simp [spanString]
  | case2 c cs ih => simp [spanString, ih hcs]
  | case3 c cs hescape ih =>
      simp only [Bool.and_eq_true, decide_eq_true_eq] at hcs
      obtain ⟨⟨hquote, hslash⟩, hcs⟩ := hcs
      simp [spanString, hquote, hslash, ih hcs]

/-- The text ends no quoted text and escapes nothing behind it. -/
def Transparent (cs : List Char) : Prop :=
  ∀ text, isQuotable (cs ++ text) = isQuotable text

/-! ## What is taken as a quoted text -/

theorem foldl_none {step : Option Nat → Char → Option Nat} (h : ∀ c, step none c = none)
    (cs : List Char) : cs.foldl step none = none := by
  induction cs with
  | nil => rfl
  | cons c cs ih => rw [List.foldl_cons, h, ih]

theorem hexDigits_of_hexValue? {digits : List Char} {value : Nat}
    (h : Literal.hexValue? digits = some value) :
    ∀ c ∈ digits, Literal.hexDigit? c ≠ none := by
  unfold Literal.hexValue? at h
  generalize 0 = start at h
  induction digits generalizing start with
  | nil => simp
  | cons c digits ih =>
      rw [List.foldl_cons] at h
      cases hdigit : Literal.hexDigit? c with
      | none =>
          simp only [hdigit] at h
          rw [foldl_none fun _ => rfl] at h
          cases h
      | some digit =>
          simp only [hdigit] at h
          simpa [hdigit] using ih _ h

theorem takeHex?_sound {cs rest : List Char} {value : Nat}
    (h : Literal.takeHex? 4 cs = some (value, rest)) :
    ∃ taken, cs = taken ++ rest ∧ Transparent taken ∧
      ∀ other, Literal.takeHex? 4 (taken ++ other) = some (value, other) := by
  unfold Literal.takeHex? at h
  split at h
  · rename_i hlength
    obtain ⟨found, hvalue, heq⟩ := Option.map_eq_some_iff.1 h
    obtain ⟨rfl, rfl⟩ := Prod.mk.inj heq
    have hdigits := hexDigits_of_hexValue? hvalue
    refine ⟨cs.take 4, (List.take_append_drop 4 cs).symm, fun text => ?_, fun other => ?_⟩
    · generalize cs.take 4 = taken at hdigits
      induction taken with
      | nil => rfl
      | cons c taken ih =>
          have hc := hdigits c List.mem_cons_self
          have hquote : c ≠ '\x22' := by
            rintro rfl
            exact hc (by decide)
          have hslash : c ≠ '\\' := by
            rintro rfl
            exact hc (by decide)
          rw [List.cons_append, isQuotable_cons hquote hslash]
          exact ih fun d hd => hdigits d (List.mem_cons_of_mem _ hd)
    · have htake : (cs.take 4 ++ other).take 4 = cs.take 4 := by
        rw [List.take_append_of_le_length (Nat.le_of_eq hlength.symm), List.take_take, Nat.min_self]
      have hdrop : (cs.take 4 ++ other).drop 4 = other := List.drop_left' hlength
      rw [Literal.takeHex?, htake, hdrop, if_pos hlength, hvalue]
      rfl
  · cases h

theorem unicodeEscape?_sound {cs rest : List Char} {c : Char}
    (h : unicodeEscape? cs = some (c, rest)) :
    ∃ taken, cs = taken ++ rest ∧ Transparent taken ∧
      ∀ other, unicodeEscape? (taken ++ other) = some (c, other) := by
  unfold unicodeEscape? at h
  split at h
  · cases h
  · rename_i value behind htake
    obtain ⟨high, rfl, hhigh, hreads⟩ := takeHex?_sound htake
    split at h
    · cases h
    · rename_i hlone
      split at h
      -- The first half of a pair is an escape together with the second one only.
      · rename_i hpair
        split at h
        · rename_i low
          split at h
          · rename_i half after hhalf
            obtain ⟨digits, rfl, hdigits, hreadsLow⟩ := takeHex?_sound hhalf
            split at h
            · rename_i hrange
              obtain ⟨rfl, rfl⟩ := Prod.mk.inj (Option.some.inj h)
              refine ⟨high ++ '\\' :: 'u' :: digits, by simp, fun text => ?_, fun other => ?_⟩
              · rw [List.append_assoc, hhigh, List.cons_append, List.cons_append, isQuotable,
                  hdigits]
              · unfold unicodeEscape?
                rw [List.append_assoc, hreads]
                simp only [List.cons_append, hlone, hpair, hreadsLow, hrange, if_true]
                simp
            · cases h
          · cases h
        · cases h
      · rename_i hpair
        obtain ⟨rfl, rfl⟩ := Prod.mk.inj (Option.some.inj h)
        refine ⟨high, rfl, hhigh, fun other => ?_⟩
        unfold unicodeEscape?
        rw [hreads]
        simp only [hlone, hpair]
        simp

/-- A character as it is written between quotes, perhaps behind a backslash. -/
structure Writes (taken : List Char) (c : Char) : Prop where
  nonempty : taken ≠ []
  transparent : Transparent taken
  reads : ∀ fuel done rest, stringRest (fuel + 1) done (taken ++ rest)
    = stringRest fuel (c :: done) rest

theorem writes_unicodeEscape {digits : List Char} {c : Char} (h : Transparent digits)
    (hreads : ∀ rest, unicodeEscape? (digits ++ rest) = some (c, rest)) :
    Writes ('\\' :: 'u' :: digits) c where
  nonempty := List.cons_ne_nil _ _
  transparent text := by rw [List.cons_append, List.cons_append, isQuotable, h]
  reads fuel done rest := by
    rw [List.cons_append, List.cons_append, stringRest]
    simp only [hreads]

theorem writes_simpleEscape {mark c : Char} (hmark : mark ≠ 'u')
    (h : simpleEscape? mark = some c) : Writes ['\\', mark] c where
  nonempty := List.cons_ne_nil _ _
  transparent text := by rw [List.cons_append, List.cons_append, isQuotable, List.nil_append]
  reads fuel done rest := by
    rw [List.cons_append, List.cons_append, List.nil_append, stringRest]
    · simp only [h]
    · exact fun h => hmark h

theorem writes_plain {c : Char} (hquote : c ≠ '\x22')
    (h : (c.toNat < 0x20 || c = '\\') = false) : Writes [c] c := by
  have hslash : c ≠ '\\' := by
    rintro rfl
    exact absurd h (by simp)
  refine ⟨List.cons_ne_nil _ _, isQuotable_cons hquote hslash, fun fuel done rest => ?_⟩
  rw [List.singleton_append, stringRest]
  · simp only [h]
    rfl
  · exact fun h => hquote h
  · exact fun _ h => absurd h hslash
  · exact fun _ _ h => absurd h hslash

/-- The reader ends a quoted text or takes one character more. -/
theorem stringRest_cases {fuel : Nat} {done cs rest : List Char} {text : String}
    (h : stringRest (fuel + 1) done cs = some (text, rest)) :
    (cs = '\x22' :: rest ∧ text = String.ofList done.reverse) ∨
    ∃ taken c behind, cs = taken ++ behind ∧ Writes taken c ∧
      stringRest fuel (c :: done) behind = some (text, rest) := by
  unfold stringRest at h
  split at h
  · cases h
  · obtain ⟨rfl, rfl⟩ := Prod.mk.inj (Option.some.inj h)
    exact .inl ⟨rfl, rfl⟩
  · split at h
    · rename_i c after hescape
      obtain ⟨digits, rfl, hdigits, hreads⟩ := unicodeEscape?_sound hescape
      exact .inr ⟨_, c, after, rfl, writes_unicodeEscape hdigits hreads, h⟩
    · cases h
  · rename_i mark behind hu
    split at h
    · rename_i c hescape
      exact .inr ⟨_, c, behind, rfl, writes_simpleEscape hu hescape, h⟩
    · cases h
  · rename_i c behind hquote _ _
    split at h
    · cases h
    · rename_i hplain
      exact .inr ⟨_, c, behind, rfl, writes_plain hquote (Bool.eq_false_iff.2 hplain), h⟩

/-- What is read as a quoted text is one, and it is read so in front of any rest. -/
theorem stringRest_sound {fuel : Nat} {done cs rest : List Char} {text : String}
    (h : stringRest fuel done cs = some (text, rest)) :
    ∃ quoted : Quotable, cs = quoted.text ++ '\x22' :: rest ∧
      ∀ other more, quoted.text.length < more →
        stringRest more done (quoted.text ++ '\x22' :: other) = some (text, other) := by
  induction fuel generalizing done cs with
  | zero => cases h
  | succ fuel ih =>
      obtain ⟨rfl, rfl⟩ | ⟨taken, c, behind, rfl, hwrites, hread⟩ := stringRest_cases h
      · refine ⟨⟨[], rfl⟩, rfl, fun other more hmore => ?_⟩
        obtain ⟨more, rfl⟩ := Nat.exists_eq_succ_of_ne_zero (Nat.ne_of_gt hmore)
        rfl
      · obtain ⟨quoted, rfl, hquoted⟩ := ih hread
        have hquotable : isQuotable (taken ++ quoted.text) = true :=
          (hwrites.transparent _).trans quoted.quotable
        refine ⟨⟨_, hquotable⟩, (List.append_assoc _ _ _).symm, fun other more hmore => ?_⟩
        have hpos := List.length_pos_iff.2 hwrites.nonempty
        rw [List.length_append] at hmore
        obtain ⟨more, rfl⟩ := Nat.exists_eq_succ_of_ne_zero (by omega : more ≠ 0)
        rw [List.append_assoc, hwrites.reads]
        exact hquoted other more (by omega)

def Quotable.value? (quoted : Quotable) : Option String :=
  (stringRest (quoted.text.length + 1) [] (quoted.text ++ ['\x22'])).map Prod.fst

theorem stringRest_append (quoted : Quotable) (rest : List Char) {fuel : Nat}
    (h : quoted.text.length < fuel) :
    stringRest fuel [] (quoted.text ++ '\x22' :: rest) = quoted.value?.map (·, rest) := by
  -- The quote that ends a text stands in one place only, so one reading gives all others.
  have hreads : ∀ {fuel tail after text}, stringRest fuel [] (quoted.text ++ '\x22' :: tail)
      = some (text, after) → after = tail ∧ ∀ other more, quoted.text.length < more →
        stringRest more [] (quoted.text ++ '\x22' :: other) = some (text, other) := by
    intro fuel tail after text hread
    obtain ⟨found, hfound, hall⟩ := stringRest_sound hread
    have hspan := congrArg spanString hfound
    rw [spanString_quotable, spanString_quotable] at hspan
    obtain ⟨htext, rfl⟩ := Prod.mk.inj hspan
    rw [List.append_cancel_right htext]
    exact ⟨rfl, hall⟩
  unfold Quotable.value?
  cases hread : stringRest fuel [] (quoted.text ++ '\x22' :: rest) with
  | some found =>
      obtain ⟨rfl, hall⟩ := hreads hread
      rw [hall [] _ (Nat.lt_succ_self _)]
      rfl
  | none =>
      cases hvalue : stringRest (quoted.text.length + 1) [] (quoted.text ++ ['\x22']) with
      | none => rfl
      | some found =>
          rw [(hreads hvalue).2 rest fuel h] at hread
          cases hread

end ModuleTrace.Json

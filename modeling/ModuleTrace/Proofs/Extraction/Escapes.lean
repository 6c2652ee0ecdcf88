import Mathlib.Data.List.Induction
import Mathlib.Data.Nat.Digits.Defs
import ModuleTrace.Affix
import ModuleTrace.Extraction.Literal

/-!
# Escaped texts

A text can be written between quotes in many ways: each character as it is, by its letter, by its
code point in hexadecimal digits, or behind a backslash that does nothing, and lines may be broken
anywhere between two characters. Decoding undoes each of them, however they are mixed, since every
way of writing a character is read to its end and not beyond it.
-/

namespace ModuleTrace.Literal

/-! ## Hexadecimal numbers -/

structure HexDigit where
  value : Fin 16
  isUpper : Bool
  deriving DecidableEq, Repr

namespace HexDigit

def char (d : HexDigit) : Char :=
  if d.isUpper then (Nat.digitChar d.value).toUpper else Nat.digitChar d.value

theorem hexDigit?_char (d : HexDigit) : hexDigit? d.char = some d.value.val := by
  have hall : ∀ (value : Fin 16) (isUpper : Bool),
      hexDigit? (char ⟨value, isUpper⟩) = some value.val := by decide
  exact hall d.value d.isUpper

theorem char_ne_brace (d : HexDigit) : d.char ≠ '\x7b' ∧ d.char ≠ '\x7d' := by
  have hall : ∀ (value : Fin 16) (isUpper : Bool),
      char ⟨value, isUpper⟩ ≠ '\x7b' ∧ char ⟨value, isUpper⟩ ≠ '\x7d' := by decide
  exact hall d.value d.isUpper

def number (digits : List HexDigit) : Nat :=
  Nat.ofDigits 16 (digits.reverse.map fun d => d.value.val)

def text (digits : List HexDigit) : List Char :=
  digits.map char

theorem number_concat (digits : List HexDigit) (d : HexDigit) :
    number (digits ++ [d]) = 16 * number digits + d.value.val := by
  simp [number, Nat.ofDigits_cons, Nat.add_comm]

theorem hexValue?_text (digits : List HexDigit) :
    hexValue? (text digits) = some (number digits) := by
  -- The value is gathered from the left, so the last digit is the last step.
  induction digits using List.reverseRecOn with
  | nil => rfl
  | append_singleton digits d ih =>
      rw [hexValue?, text] at ih
      rw [hexValue?, text, List.map_append, List.foldl_append, ih, number_concat]
      simp [hexDigit?_char]

theorem takeHex?_text (digits : List HexDigit) (rest : List Char) :
    takeHex? digits.length (text digits ++ rest) = some (number digits, rest) := by
  have hlength : (text digits).length = digits.length := List.length_map _
  rw [takeHex?, ← hlength, List.take_left, List.drop_left, if_pos rfl, hexValue?_text]
  rfl

theorem head?_text_append {digits : List HexDigit} (h : digits ≠ []) (rest : List Char) :
    (text digits ++ rest).head? ≠ some '\x7b' := by
  cases digits with
  | nil => exact absurd rfl h
  | cons d digits => simpa [text] using d.char_ne_brace.1

theorem brace_notMem_text (digits : List HexDigit) : '\x7d' ∉ text digits := by
  intro hmem
  obtain ⟨d, -, hd⟩ := List.mem_map.1 hmem
  exact d.char_ne_brace.2 hd

end HexDigit

open HexDigit (number text)

/-! ## Ways of writing a text -/

/-- Letters that stand for a character behind a backslash. -/
def letters : List (Char × Char) :=
  [('n', '\n'), ('t', '\t'), ('r', '\r'), ('b', '\x08'), ('f', '\x0c'), ('v', '\x0b'),
    ('0', '\x00')]

/-- Characters that mean something else than themselves behind a backslash. -/
def marks : List Char :=
  letters.map Prod.fst ++ ['x', 'u']

def lineTerminators : List Char := ['\n', '\r', '\u2028', '\u2029']

/-- What may stand between two characters and means nothing: a backslash and the end of a line. -/
def continuations : List (List Char) :=
  ['\\', '\r', '\n'] :: lineTerminators.map fun c => ['\\', c]

/-- The ways of writing a character. -/
inductive Spells (c : Char) : List Char → Prop where
  | itself (hslash : c ≠ '\\') (hline : c ∉ lineTerminators) : Spells c [c]
  | letter {mark : Char} (hletter : (mark, c) ∈ letters) : Spells c ['\\', mark]
  | byte {digits : List HexDigit} (hlength : digits.length = 2)
      (hnumber : number digits = c.toNat) : Spells c ('\\' :: 'x' :: text digits)
  | unit {digits : List HexDigit} (hlength : digits.length = 4)
      (hnumber : number digits = c.toNat) : Spells c ('\\' :: 'u' :: text digits)
  /-- The two halves of a pair, for a character that one number of four digits is too short for. -/
  | pair {high low : List HexDigit} (hlengths : high.length = 4 ∧ low.length = 4)
      (hwide : 0x10000 ≤ c.toNat) (hhigh : number high = 0xd800 + (c.toNat - 0x10000) / 0x400)
      (hlow : number low = 0xdc00 + (c.toNat - 0x10000) % 0x400) :
      Spells c ('\\' :: 'u' :: (text high ++ '\\' :: 'u' :: text low))
  | braced {digits : List HexDigit} (hne : digits ≠ []) (hnumber : number digits = c.toNat) :
      Spells c ('\\' :: 'u' :: '\x7b' :: (text digits ++ ['\x7d']))
  | escaped (hmark : c ∉ marks) (hline : c ∉ lineTerminators) : Spells c ['\\', c]

/-- A body of a literal that a text can be written as. -/
inductive Encodes : List Char → List Char → Prop where
  | nil : Encodes [] []
  | char {c : Char} {written s body : List Char} (hc : Spells c written) (h : Encodes s body) :
      Encodes (c :: s) (written ++ body)
  | continued {line s body : List Char} (hline : line ∈ continuations) (h : Encodes s body) :
      Encodes s (line ++ body)

/-! ## How each of them is read -/

theorem unescapeChars_escape (c : Char) (rest : List Char) :
    unescapeChars ('\\' :: c :: rest) = (escape c rest).1 ++ unescapeChars (escape c rest).2 := by
  rw [unescapeChars]

theorem unescapeChars_plain {c : Char} (h : c ≠ '\\') (rest : List Char) :
    unescapeChars (c :: rest) = c :: unescapeChars rest := by
  rw [unescapeChars]
  intro d rest' hc
  exact absurd hc h

theorem escape_letter {mark c : Char} (h : (mark, c) ∈ letters) (rest : List Char) :
    escape mark rest = ([c], rest) := by
  simp only [letters, List.mem_cons, Prod.mk.injEq, List.not_mem_nil, or_false] at h
  rcases h with ⟨rfl, rfl⟩ | ⟨rfl, rfl⟩ | ⟨rfl, rfl⟩ | ⟨rfl, rfl⟩ | ⟨rfl, rfl⟩ | ⟨rfl, rfl⟩ |
    ⟨rfl, rfl⟩ <;> rfl

theorem escape_other {c : Char} (hmark : c ∉ marks) (hline : c ∉ lineTerminators)
    (rest : List Char) : escape c rest = ([c], rest) := by
  unfold escape
  split <;> simp_all [marks, letters, lineTerminators]

theorem escape_byte {after rest : List Char} {value : Nat}
    (h : takeHex? 2 after = some (value, rest)) :
    escape 'x' after = ([Char.ofNat value], rest) := by
  simp [escape, h]

theorem escape_unicode {after rest : List Char} {c : Char} (h : codePoint? after = some (c, rest)) :
    escape 'u' after = ([c], rest) := by
  simp [escape, h]

theorem codePoint?_braced {digits : List HexDigit} (hne : digits ≠ []) (rest : List Char) :
    codePoint? ('\x7b' :: (text digits ++ '\x7d' :: rest))
      = (char? (number digits)).map fun c => (c, rest) := by
  have htake : (text digits ++ '\x7d' :: rest).takeWhile (· ≠ '\x7d') = text digits :=
    (Affix.cut_append (HexDigit.brace_notMem_text digits) (.inr rfl)).1
  have htext : text digits ≠ [] := by simpa [text] using hne
  simp only [codePoint?, htake, List.drop_left, htext, if_false, HexDigit.hexValue?_text,
    Option.bind_some]

theorem char?_toNat (c : Char) : char? c.toNat = some c := by
  have hvalid : c.toNat.isValidChar := c.valid
  rw [char?_of_isValidChar hvalid, Char.ofNat_toNat]

theorem codePoint?_halves {high low : List HexDigit} {c : Char}
    (hlengths : high.length = 4 ∧ low.length = 4) (hwide : 0x10000 ≤ c.toNat)
    (hhigh : number high = 0xd800 + (c.toNat - 0x10000) / 0x400)
    (hlow : number low = 0xdc00 + (c.toNat - 0x10000) % 0x400) (rest : List Char) :
    codePoint? (text high ++ '\\' :: 'u' :: (text low ++ rest)) = some (c, rest) := by
  have hfirst := HexDigit.takeHex?_text high ('\\' :: 'u' :: (text low ++ rest))
  have hsecond := HexDigit.takeHex?_text low rest
  have hne : high ≠ [] := by
    rintro rfl
    cases hlengths.1
  rw [hlengths.1] at hfirst
  rw [hlengths.2] at hsecond
  have hvalid : c.toNat < 0xd800 ∨ 0xdfff < c.toNat ∧ c.toNat < 0x110000 := c.valid
  have hvalue : 0x10000 + (number high - 0xd800) * 0x400 + (number low - 0xdc00) = c.toNat := by
    omega
  rw [codePoint?_pair (HexDigit.head?_text_append hne _) hfirst hsecond (by omega) (by omega),
    hvalue, Char.ofNat_toNat]

/-- A character is read to the end of what it is written as, and not beyond. -/
theorem Spells.read {c : Char} {written : List Char} (h : Spells c written) (rest : List Char) :
    unescapeChars (written ++ rest) = c :: unescapeChars rest := by
  cases h with
  | itself hslash _ => exact unescapeChars_plain hslash rest
  | letter hletter =>
      show unescapeChars ('\\' :: _ :: rest) = _
      rw [unescapeChars_escape, escape_letter hletter]
      rfl
  | @byte digits hlength hnumber =>
      have hhex := HexDigit.takeHex?_text digits rest
      rw [hlength] at hhex
      show unescapeChars ('\\' :: 'x' :: (text digits ++ rest)) = _
      rw [unescapeChars_escape, escape_byte hhex, hnumber, Char.ofNat_toNat]
      rfl
  | @unit digits hlength hnumber =>
      have hhex := HexDigit.takeHex?_text digits rest
      have hne : digits ≠ [] := by
        rintro rfl
        cases hlength
      rw [hlength, hnumber] at hhex
      have hcode := codePoint?_single (HexDigit.head?_text_append hne rest) hhex c.valid
      show unescapeChars ('\\' :: 'u' :: (text digits ++ rest)) = _
      rw [unescapeChars_escape, escape_unicode hcode, Char.ofNat_toNat]
      rfl
  | @pair high low hlengths hwide hhigh hlow =>
      have hcode := codePoint?_halves hlengths hwide hhigh hlow rest
      show unescapeChars ('\\' :: 'u' :: ((text high ++ '\\' :: 'u' :: text low) ++ rest)) = _
      rw [List.append_assoc, List.cons_append, List.cons_append, unescapeChars_escape,
        escape_unicode hcode]
      rfl
  | @braced digits hne hnumber =>
      have hcode := codePoint?_braced hne rest
      rw [hnumber, char?_toNat] at hcode
      show unescapeChars ('\\' :: 'u' :: '\x7b' :: ((text digits ++ ['\x7d']) ++ rest)) = _
      rw [List.append_assoc, unescapeChars_escape, List.singleton_append, escape_unicode hcode]
      rfl
  | escaped hmark hline =>
      show unescapeChars ('\\' :: c :: rest) = _
      rw [unescapeChars_escape, escape_other hmark hline]
      rfl

theorem unescapeChars_continuation {line rest : List Char} (hline : line ∈ continuations)
    (hrest : rest.head? ≠ some '\n') : unescapeChars (line ++ rest) = unescapeChars rest := by
  have hreturn : escape '\r' rest = ([], rest) := by
    cases rest with
    | nil => rfl
    | cons c rest =>
        have hc : c ≠ '\n' := by simpa using hrest
        simp [escape, hc]
  simp only [continuations, lineTerminators, List.map_cons, List.map_nil, List.mem_cons,
    List.not_mem_nil, or_false] at hline
  rcases hline with rfl | rfl | rfl | rfl | rfl
  · exact unescapeChars_escape '\r' ('\n' :: rest)
  · exact unescapeChars_escape '\n' rest
  · show unescapeChars ('\\' :: '\r' :: rest) = _
    rw [unescapeChars_escape, hreturn]
    rfl
  · exact unescapeChars_escape '\u2028' rest
  · exact unescapeChars_escape '\u2029' rest

theorem Spells.exists_head {c : Char} {written : List Char} (h : Spells c written) :
    ∃ first rest, written = first :: rest ∧ first ≠ '\n' := by
  cases h with
  | itself _ hline => exact ⟨c, [], rfl, fun heq => hline (by simp [heq, lineTerminators])⟩
  | _ => exact ⟨'\\', _, rfl, by decide⟩

/-- No text is written with the end of a line in front, so a line broken at a carriage return
takes nothing more with it. -/
theorem Encodes.head?_ne {s body : List Char} (h : Encodes s body) :
    body.head? ≠ some '\n' := by
  cases h with
  | nil => simp
  | char hc _ =>
      obtain ⟨first, rest, rfl, hfirst⟩ := hc.exists_head
      simpa using hfirst
  | continued hline _ =>
      simp only [continuations, lineTerminators, List.map_cons, List.map_nil, List.mem_cons,
        List.not_mem_nil, or_false] at hline
      rcases hline with rfl | rfl | rfl | rfl | rfl <;> simp

theorem Encodes.decode {s body : List Char} (h : Encodes s body) : unescapeChars body = s := by
  induction h with
  | nil => rw [unescapeChars]
  | char hc _ ih => rw [hc.read, ih]
  | continued hline h ih => rw [unescapeChars_continuation hline h.head?_ne, ih]

/-- Decoding gives back the text, whichever way each character of it is written and wherever lines
are broken between two of them. -/
theorem unescape_encoded {s body : String} (h : Encodes s.toList body.toList) :
    unescape body = s := by
  rw [unescape, h.decode, String.ofList_toList]

/-- Each way of writing a character once, with a line broken in front of the last one. -/
theorem unescape_encoded_mixed :
    Encodes ".\n~é😀😀'b".toList
        ".\\n\\x7e\\u00E9\\u\x7b0001F600\x7d\\ud83D\\uDe00\\'\\\x0db".toList ∧
      unescape ".\\n\\x7e\\u00E9\\u\x7b0001F600\x7d\\ud83D\\uDe00\\'\\\x0db"
        = ".\n~é😀😀'b" := by
  have hnewline : Spells '\n' ['\\', 'n'] := .letter (by decide)
  have htilde : Spells '~' ['\\', 'x', '7', 'e'] :=
    @Spells.byte '~' [⟨7, false⟩, ⟨14, false⟩] (by decide) (by decide)
  have haccent : Spells 'é' ['\\', 'u', '0', '0', 'E', '9'] :=
    @Spells.unit 'é' [⟨0, false⟩, ⟨0, false⟩, ⟨14, true⟩, ⟨9, false⟩] (by decide) (by decide)
  have hbraced : Spells '😀' ['\\', 'u', '\x7b', '0', '0', '0', '1', 'F', '6', '0', '0', '\x7d'] :=
    @Spells.braced '😀' [⟨0, false⟩, ⟨0, false⟩, ⟨0, false⟩, ⟨1, false⟩, ⟨15, true⟩, ⟨6, false⟩,
      ⟨0, false⟩, ⟨0, false⟩] (by decide) (by decide)
  have hpair : Spells '😀' ['\\', 'u', 'd', '8', '3', 'D', '\\', 'u', 'D', 'e', '0', '0'] :=
    @Spells.pair '😀' [⟨13, false⟩, ⟨8, false⟩, ⟨3, false⟩, ⟨13, true⟩]
      [⟨13, true⟩, ⟨14, false⟩, ⟨0, false⟩, ⟨0, false⟩] (by decide) (by decide) (by decide)
      (by decide)
  have hquote : Spells '\'' ['\\', '\''] := .escaped (by decide) (by decide)
  have hbroken : Encodes ['b'] (['\\', '\r'] ++ (['b'] ++ [])) :=
    .continued (by decide) (.char (.itself (by decide) (by decide)) .nil)
  have h : Encodes ".\n~é😀😀'b".toList
      ".\\n\\x7e\\u00E9\\u\x7b0001F600\x7d\\ud83D\\uDe00\\'\\\x0db".toList :=
    .char (.itself (by decide) (by decide)) (.char hnewline (.char htilde (.char haccent
      (.char hbraced (.char hpair (.char hquote hbroken))))))
  exact ⟨h, unescape_encoded h⟩

end ModuleTrace.Literal

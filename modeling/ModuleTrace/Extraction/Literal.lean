/-!
# Literals

The value of a string or template literal: its text without the delimiters, with every escape
replaced by what it stands for. An unknown escape stands for the escaped character, and a
malformed number for the letter that should have opened it.
-/

namespace ModuleTrace.Literal

/-- The text between the delimiters, which are one byte each. -/
def body (text : String) : String :=
  match text.toList with
  | _ :: second :: rest => String.ofList (second :: rest).dropLast
  | _ => ""

def hexDigit? (c : Char) : Option Nat :=
  if '0' ≤ c && c ≤ '9' then some (c.toNat - 48)
  else if 'a' ≤ c && c ≤ 'f' then some (c.toNat - 87)
  else if 'A' ≤ c && c ≤ 'F' then some (c.toNat - 55)
  else none

def hexValue? (digits : List Char) : Option Nat :=
  digits.foldl (fun value c =>
    match value, hexDigit? c with
    | some value, some digit => some (16 * value + digit)
    | _, _ => none) (some 0)

/-- The value of exactly `count` digits, and what follows them. -/
def takeHex? (count : Nat) (cs : List Char) : Option (Nat × List Char) :=
  if (cs.take count).length = count then
    (hexValue? (cs.take count)).map fun value => (value, cs.drop count)
  else none

def char? (value : Nat) : Option Char :=
  if h : value.isValidChar then some (Char.ofNatAux value h) else none

/-- Stands for half of a surrogate pair that has lost its other half. -/
def replacement : Char := '\ufffd'

private def isHighSurrogate (value : Nat) : Bool :=
  0xd800 ≤ value && value < 0xdc00

private def isLowSurrogate (value : Nat) : Bool :=
  0xdc00 ≤ value && value < 0xe000

private def lowHalf? : List Char → Option (Nat × List Char)
  | '\\' :: 'u' :: rest =>
      (takeHex? 4 rest).filter fun found => isLowSurrogate found.1
  | _ => none

/-- The character that the number after `\u` stands for, and what follows it. -/
def codePoint? : List Char → Option (Char × List Char)
  | '\x7b' :: rest =>
      let digits := rest.takeWhile (· ≠ '\x7d')
      match rest.drop digits.length with
      | _ :: after =>
          if digits = [] then none
          else ((hexValue? digits).bind char?).map fun c => (c, after)
      | [] => none
  | cs =>
      (takeHex? 4 cs).map fun (value, rest) =>
        if isHighSurrogate value then
          match lowHalf? rest with
          | some (low, rest) =>
              (Char.ofNat (0x10000 + (value - 0xd800) * 0x400 + (low - 0xdc00)), rest)
          | none => (replacement, rest)
        else ((char? value).getD replacement, rest)

/-- What the characters after a backslash stand for, and what follows them. -/
def escape : Char → List Char → List Char × List Char
  | 'n', rest => (['\n'], rest)
  | 't', rest => (['\t'], rest)
  | 'r', rest => (['\r'], rest)
  | 'b', rest => (['\x08'], rest)
  | 'f', rest => (['\x0c'], rest)
  | 'v', rest => (['\x0b'], rest)
  | '0', rest => (['\x00'], rest)
  | '\n', rest => ([], rest)
  | '\u2028', rest => ([], rest)
  | '\u2029', rest => ([], rest)
  | '\r', '\n' :: rest => ([], rest)
  | '\r', rest => ([], rest)
  | 'x', rest =>
      match takeHex? 2 rest with
      | some (value, after) => ([Char.ofNat value], after)
      | none => (['x'], rest)
  | 'u', rest =>
      match codePoint? rest with
      | some (c, after) => ([c], after)
      | none => (['u'], rest)
  | c, rest => ([c], rest)

private theorem takeHex?_length {count value : Nat} {cs rest : List Char}
    (h : takeHex? count cs = some (value, rest)) : rest.length ≤ cs.length := by
  unfold takeHex? at h
  split at h
  · cases hv : hexValue? (cs.take count) with
    | none => simp [hv] at h
    | some v =>
        simp [hv] at h
        simp [← h.2]
  · simp at h

private theorem lowHalf?_length {value : Nat} {cs rest : List Char}
    (h : lowHalf? cs = some (value, rest)) : rest.length ≤ cs.length := by
  unfold lowHalf? at h
  split at h
  · obtain ⟨h, _⟩ := Option.filter_eq_some_iff.mp h
    have := takeHex?_length h
    simp
    omega
  · simp at h

private theorem codePoint?_length {c : Char} {cs rest : List Char}
    (h : codePoint? cs = some (c, rest)) : rest.length ≤ cs.length := by
  unfold codePoint? at h
  split at h
  · rename_i tail
    dsimp only at h
    split at h
    · rename_i first after hdrop
      split at h
      · simp at h
      · obtain ⟨_, _, h⟩ := Option.map_eq_some_iff.mp h
        have hlen := congrArg List.length hdrop
        simp only [List.length_drop, List.length_cons] at hlen ⊢
        rw [← (Prod.mk.inj h).2]
        omega
    · simp at h
  · simp only [Option.map_eq_some_iff] at h
    obtain ⟨⟨value, after⟩, hex, h⟩ := h
    have first := takeHex?_length hex
    dsimp only at h
    split at h
    · split at h
      · rename_i low after' hlow
        have second := lowHalf?_length hlow
        simp at h
        rw [← h.2]
        omega
      · simp at h
        rw [← h.2]
        exact first
    · simp at h
      rw [← h.2]
      exact first

theorem char?_of_isValidChar {value : Nat} (h : value.isValidChar) :
    char? value = some (Char.ofNat value) := by
  rw [char?, Char.ofNat, dif_pos h, dif_pos h]

/-- Four digits that are no half of a pair are the character of that code point. -/
theorem codePoint?_single {cs rest : List Char} {value : Nat} (hopen : cs.head? ≠ some '\x7b')
    (hhex : takeHex? 4 cs = some (value, rest)) (hvalid : value.isValidChar) :
    codePoint? cs = some (Char.ofNat value, rest) := by
  have hhigh : isHighSurrogate value = false := by
    have hrange : value < 0xd800 ∨ 0xdfff < value ∧ value < 0x110000 := hvalid
    simp only [isHighSurrogate, Bool.and_eq_false_iff, decide_eq_false_iff_not]
    omega
  unfold codePoint?
  split
  · simp at hopen
  · simp [hhex, hhigh, char?_of_isValidChar hvalid]

/-- Two halves of a pair are the character they make up together. -/
theorem codePoint?_pair {cs after rest : List Char} {high low : Nat}
    (hopen : cs.head? ≠ some '\x7b') (hhigh : takeHex? 4 cs = some (high, '\\' :: 'u' :: after))
    (hlow : takeHex? 4 after = some (low, rest)) (hfirst : 0xd800 ≤ high ∧ high < 0xdc00)
    (hsecond : 0xdc00 ≤ low ∧ low < 0xe000) :
    codePoint? cs
      = some (Char.ofNat (0x10000 + (high - 0xd800) * 0x400 + (low - 0xdc00)), rest) := by
  have hishigh : isHighSurrogate high = true := by simp [isHighSurrogate, hfirst]
  have hislow : isLowSurrogate low = true := by simp [isLowSurrogate, hsecond]
  have hhalf : lowHalf? ('\\' :: 'u' :: after) = some (low, rest) := by
    simp [lowHalf?, hlow, Option.filter, hislow]
  unfold codePoint?
  split
  · simp at hopen
  · simp [hhigh, hishigh, hhalf]

/-- An escape never gives back more than it was given. -/
theorem escape_length (c : Char) (cs : List Char) : (escape c cs).2.length ≤ cs.length := by
  unfold escape
  split <;> try simp
  · split
    · rename_i h
      exact takeHex?_length h
    · simp
  · split
    · rename_i h
      exact codePoint?_length h
    · simp

/-- Replaces every escape; a backslash at the end stays. -/
def unescapeChars : List Char → List Char
  | [] => []
  | '\\' :: c :: rest =>
      let decoded := escape c rest
      decoded.1 ++ unescapeChars decoded.2
  | c :: rest => c :: unescapeChars rest
termination_by cs => cs.length
decreasing_by
  · have := escape_length c rest
    simp
    omega
  · simp

def unescape (body : String) : String :=
  String.ofList (unescapeChars body.toList)

end ModuleTrace.Literal

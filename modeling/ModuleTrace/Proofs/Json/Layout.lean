import ModuleTrace.Proofs.Json.Tokens

/-!
# Layouts of JSON texts

A layout is the tree of a JSON text with all that stands between its tokens: a gap before and
behind each value, key and colon, and behind the last entry of a list perhaps a comma too many.
The same tree has many layouts, with plain white space or with comments in the gaps.
-/

namespace ModuleTrace.Json

/-! ## Trees -/

inductive Atom where
  | null
  | bool (value : Bool)
  | number (n : Number)
  | string (quoted : Quotable)

def Atom.text : Atom → List Char
  | .null => ['n', 'u', 'l', 'l']
  | .bool true => ['t', 'r', 'u', 'e']
  | .bool false => ['f', 'a', 'l', 's', 'e']
  | .number n => n.text
  | .string quoted => quoted.quotes

inductive Bracket where
  | square
  | curly

namespace Bracket

def opening : Bracket → Char
  | .square => '['
  | .curly => '\x7b'

def closing : Bracket → Char
  | .square => ']'
  | .curly => '\x7d'

end Bracket

/-- A layout is one of a value, or of the entries between two brackets. -/
inductive Role where
  | value
  | entries (bracket : Bracket)

/-- The key of a member, with the gaps around its colon. -/
structure Key (γ : Type) where
  quoted : Quotable
  before : γ
  after : γ

/-- What stands before the value of an entry: nothing in an array, a key in an object. -/
def Label (γ : Type) : Bracket → Type
  | .square => Unit
  | .curly => Key γ

inductive Layout (γ : Type) : Role → Type where
  | atom (token : Atom) : Layout γ .value
  | empty (bracket : Bracket) (gap : γ) : Layout γ .value
  | group (bracket : Bracket) (entries : Layout γ (.entries bracket)) : Layout γ .value
  | last {bracket : Bracket} (before : γ) (label : Label γ bracket) (value : Layout γ .value)
      (after : γ) (trailing : Option γ) : Layout γ (.entries bracket)
  | more {bracket : Bracket} (before : γ) (label : Label γ bracket) (value : Layout γ .value)
      (after : γ) (rest : Layout γ (.entries bracket)) : Layout γ (.entries bracket)

structure Document (γ : Type) where
  before : γ
  value : Layout γ .value
  after : γ

/-! ## Texts -/

section

variable {γ δ : Type}

def Label.text (write : γ → List Char) : {bracket : Bracket} → Label γ bracket → List Char
  | .square, _ => []
  | .curly, key => key.quoted.quotes ++ write key.before ++ ':' :: write key.after

/-- The text of a layout, from the texts of its gaps. Where there is a comma too many, `comma` is
written: this takes all those commas out at once, or leaves them in. -/
def Layout.text (write : γ → List Char) (comma : List Char) : {role : Role} → Layout γ role →
    List Char
  | _, .atom token => token.text
  | _, .empty bracket gap => bracket.opening :: write gap ++ [bracket.closing]
  | _, .group bracket entries =>
      bracket.opening :: entries.text write comma ++ [bracket.closing]
  | _, .last before label value after trailing =>
      write before ++ label.text write ++ value.text write comma ++ write after
        ++ (trailing.map fun gap => comma ++ write gap).getD []
  | _, .more before label value after rest =>
      write before ++ label.text write ++ value.text write comma ++ write after
        ++ ',' :: rest.text write comma

def Document.text (write : γ → List Char) (comma : List Char) (d : Document γ) : List Char :=
  write d.before ++ d.value.text write comma ++ write d.after

/-! ## The same tree -/

def Label.map (f : γ → δ) : {bracket : Bracket} → Label γ bracket → Label δ bracket
  | .square, _ => ()
  | .curly, key => ⟨key.quoted, f key.before, f key.after⟩

def Layout.map (f : γ → δ) : {role : Role} → Layout γ role → Layout δ role
  | _, .atom token => .atom token
  | _, .empty bracket gap => .empty bracket (f gap)
  | _, .group bracket entries => .group bracket (entries.map f)
  | _, .last before label value after trailing =>
      .last (f before) (label.map f) (value.map f) (f after) (trailing.map f)
  | _, .more before label value after rest =>
      .more (f before) (label.map f) (value.map f) (f after) (rest.map f)

/-- The tree of a layout: its tokens, but for commas too many. -/
def Layout.tree : {role : Role} → Layout γ role → Layout Unit role
  | _, .atom token => .atom token
  | _, .empty bracket _ => .empty bracket ()
  | _, .group bracket entries => .group bracket entries.tree
  | _, .last _ label value _ _ => .last () (label.map fun _ => ()) value.tree () none
  | _, .more _ label value _ rest => .more () (label.map fun _ => ()) value.tree () rest.tree

def Document.map (f : γ → δ) (d : Document γ) : Document δ :=
  ⟨f d.before, d.value.map f, f d.after⟩

theorem Label.map_map {ε : Type} (f : γ → δ) (g : δ → ε) {bracket : Bracket}
    (label : Label γ bracket) : (label.map f).map g = label.map fun gap => g (f gap) := by
  cases bracket <;> rfl

theorem Label.text_map (f : γ → δ) (write : δ → List Char) {bracket : Bracket}
    (label : Label γ bracket) : (label.map f).text write = label.text fun gap => write (f gap) := by
  cases bracket <;> rfl

theorem Layout.tree_map (f : γ → δ) {role : Role} (layout : Layout γ role) :
    (layout.map f).tree = layout.tree := by
  induction layout with
  | atom token => rfl
  | empty bracket gap => rfl
  | group bracket entries ih => rw [map, tree, ih, tree]
  | last before label value after trailing ih => rw [map, tree, ih, tree, Label.map_map]
  | more before label value after rest ih ihRest =>
      rw [map, tree, ih, ihRest, tree, Label.map_map]

theorem Layout.text_map (f : γ → δ) (write : δ → List Char) (comma : List Char) {role : Role}
    (layout : Layout γ role) :
    (layout.map f).text write comma = layout.text (fun gap => write (f gap)) comma := by
  induction layout with
  | atom token => rfl
  | empty bracket gap => rfl
  | group bracket entries ih => rw [map, text, ih, text]
  | last before label value after trailing ih =>
      rw [map, text, ih, text, Label.text_map, Option.map_map]
      rfl
  | more before label value after rest ih ihRest =>
      rw [map, text, ih, ihRest, text, Label.text_map]

theorem Document.text_map (f : γ → δ) (write : δ → List Char) (comma : List Char)
    (d : Document γ) :
    (d.map f).text write comma = d.text (fun gap => write (f gap)) comma := by
  rw [Document.text, Document.text, map, Layout.text_map]

end

/-! ## Beginnings of entries -/

/-- Starts a value or a key: neither a blank nor a closing bracket. -/
def Starts (c : Char) : Prop :=
  Affix.isSpace c = false ∧ c ≠ ']' ∧ c ≠ '\x7d'

instance (c : Char) : Decidable (Starts c) :=
  inferInstanceAs (Decidable (_ ∧ _))

theorem isSpace_of_isJsonBlank {c : Char} (h : isJsonBlank c = true) : Affix.isSpace c = true := by
  simp only [isJsonBlank, Bool.or_eq_true, decide_eq_true_eq] at h
  obtain ((rfl | rfl) | rfl) | rfl := h <;> decide

theorem Starts.not_blank {c : Char} (h : Starts c) : isJsonBlank c = false := by
  cases hblank : isJsonBlank c with
  | false => rfl
  | true => exact absurd (isSpace_of_isJsonBlank hblank) (by simp [h.1])

theorem starts_of_isDigit {c : Char} (h : c.isDigit = true) : Starts c := by
  simp only [Char.isDigit, Bool.and_eq_true, decide_eq_true_eq] at h
  have hlower : 48 ≤ c.toNat := UInt32.le_iff_toNat_le.1 h.1
  have hupper : c.toNat ≤ 57 := UInt32.le_iff_toNat_le.1 h.2
  refine ⟨?_, ?_, ?_⟩
  · simp only [Affix.isSpace, Bool.or_eq_false_iff, Bool.and_eq_false_iff, decide_eq_false_iff_not,
      beq_eq_false_iff_ne]
    omega
  · rintro rfl
    exact absurd hupper (by decide)
  · rintro rfl
    exact absurd hupper (by decide)

theorem Number.exists_start (n : Number) : ∃ c more, n.text = c :: more ∧ Starts c := by
  obtain ⟨c, more, htext, rfl | hdigit⟩ := n.exists_head
  · exact ⟨'-', more, htext, by decide⟩
  · exact ⟨c, more, htext, starts_of_isDigit hdigit⟩

theorem Layout.exists_start {γ : Type} (write : γ → List Char) (comma : List Char)
    (layout : Layout γ .value) :
    ∃ c more, layout.text write comma = c :: more ∧ Starts c := by
  cases layout with
  | atom token =>
      cases token with
      | null => exact ⟨'n', _, rfl, by decide⟩
      | bool value => cases value <;> exact ⟨_, _, rfl, by decide⟩
      | number n => exact n.exists_start
      | string quoted => exact ⟨'\x22', _, rfl, by decide⟩
  | empty bracket gap => exact ⟨_, _, rfl, by cases bracket <;> decide⟩
  | group bracket entries => exact ⟨_, _, rfl, by cases bracket <;> decide⟩

/-- Entries start with a gap, and then with a key or a value. -/
theorem Layout.exists_start_entries {γ : Type} (write : γ → List Char) (comma : List Char)
    {bracket : Bracket} (entries : Layout γ (.entries bracket)) :
    ∃ gap c more, entries.text write comma = write gap ++ c :: more ∧ Starts c := by
  obtain ⟨before, label, value, tail, htext⟩ : ∃ (before : γ) (label : Label γ bracket)
      (value : Layout γ .value) (tail : List Char), entries.text write comma
        = write before ++ (label.text write ++ value.text write comma ++ tail) := by
    cases entries with
    | last before label value after trailing =>
        exact ⟨before, label, value, _, by simp only [text, List.append_assoc]; rfl⟩
    | more before label value after rest =>
        exact ⟨before, label, value, _, by simp only [text, List.append_assoc]; rfl⟩
  cases bracket with
  | square =>
      obtain ⟨c, more, hvalue, hstarts⟩ := value.exists_start write comma
      exact ⟨before, c, more ++ tail, by rw [htext, hvalue]; rfl, hstarts⟩
  | curly => exact ⟨before, '\x22', _, htext, by decide⟩

end ModuleTrace.Json

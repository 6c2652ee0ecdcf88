import ModuleTrace.Proofs.Json.Reading
import ModuleTrace.Proofs.Json.Stripping

/-!
# The strict form means the same

A tree of tokens is written strictly with white space between its tokens, and relaxed with comments
too and with commas behind last entries. The strict form of a relaxed text is a strict text of the
same tree, so the reader makes the same of it as of any other one.
-/

namespace ModuleTrace.Json

/-- The tokens of the tree, with white space around them. -/
def StrictText (tree : Layout Unit .value) (text : String) : Prop :=
  ∃ d : Document Blanks, d.value.tree = tree ∧ text = String.ofList (d.text Subtype.val [])

/-- The tokens of the tree, with white space and comments around them, and perhaps with a comma
behind the last entry between two brackets. -/
def RelaxedText (tree : Layout Unit .value) (text : String) : Prop :=
  ∃ d : Document Gap, d.value.tree = tree ∧ text = String.ofList (d.text Gap.text [','])

/-- All that the reader takes is strict. -/
theorem exists_strictText {text : String} {json : Json} (h : parse? text = some json) :
    ∃ tree, StrictText tree text := by
  obtain ⟨raw, hraw, -⟩ := Option.map_eq_some_iff.1 h
  obtain ⟨d, hd⟩ := exists_document hraw
  exact ⟨d.value.tree, d, rfl, hd⟩

namespace StrictText

variable {tree : Layout Unit .value} {text other : String}

/-- The tokens alone decide what is read. -/
theorem parse?_eq (h : StrictText tree text) :
    parse? text = (tree.meaning? depthLimit).map ordered := by
  obtain ⟨d, rfl, rfl⟩ := h
  rw [parse?, parseRaw?_document]

theorem strict_eq (h : StrictText tree text) : strict text = text := by
  obtain ⟨d, -, rfl⟩ := h
  have hgap : ∀ gap : Blanks, Leaves dropComments gap.1 gap.1 := fun gap =>
    dropComments_passing.leaves_plain fun c hc => plain_of_isJsonBlank (gap.2 c hc)
  exact strict_document hgap Subtype.property (.inl rfl) d

end StrictText

/-- What is left of a relaxed text are its tokens, each as it was written. -/
theorem RelaxedText.strict {tree : Layout Unit .value} {text : String}
    (h : RelaxedText tree text) : StrictText tree (strict text) := by
  obtain ⟨d, rfl, rfl⟩ := h
  refine ⟨d.map Gap.left, Layout.tree_map Gap.left d.value, ?_⟩
  rw [Document.text_map]
  exact strict_document dropComments_gap (fun gap => gap.left.2) (.inr rfl) d

/-- Strict texts, all that the reader takes among them, are their own strict forms. Comments and
commas behind last entries go, and nothing else does: the tokens stay and so does what is read. -/
theorem strict_preserves_meaning :
    (∀ {text json}, parse? text = some json → ∃ tree, StrictText tree text) ∧
      ∀ {tree text}, StrictText tree text → strict text = text ∧
        ∀ {relaxed}, RelaxedText tree relaxed →
          StrictText tree (strict relaxed) ∧ parse? (strict relaxed) = parse? text := by
  refine ⟨exists_strictText, fun htext => ⟨htext.strict_eq, fun hrelaxed => ?_⟩⟩
  exact ⟨hrelaxed.strict, hrelaxed.strict.parse?_eq.trans htext.parse?_eq.symm⟩

/-- One member with a list of one number. Its key looks like a comment and a comma. -/
def sampleLayout {γ : Type} (line block : γ) (trailing : Option γ) : Layout γ .value :=
  let key : Key γ := ⟨⟨['a', '/', '/', ','], rfl⟩, block, block⟩
  let number : Number := ⟨false, ⟨['1'], by simp, by simp⟩, none, none, .inr (by simp)⟩
  .group .curly (.last line key
    (.group .square (.last block () (.atom (.number number)) block trailing)) block trailing)

def compactSample : Document Blanks :=
  let bare : Blanks := ⟨[], by simp⟩
  ⟨bare, sampleLayout bare bare none, bare⟩

/-- With comments that look like quoted texts and commas too many. -/
def commentedSample : Document Gap :=
  let line : Gap := [.line ['\x22', ',', ']'] (by decide)]
  let block : Gap := [.block ['\x22', ',', ']'] (by decide)]
  ⟨[], sampleLayout line block (some block), []⟩

theorem strict_preserves_meaning_sample :
    strict "\x7b\"a//,\":[1]\x7d" = "\x7b\"a//,\":[1]\x7d" ∧
      parse? (strict ("\x7b//\",]\n\"a//,\"/*\",]*/:/*\",]*/[/*\",]*/1/*\",]*/,/*\",]*/]" ++
        "/*\",]*/,/*\",]*/\x7d")) = some (.object [("a//,", .array [.number "1"])]) := by
  have htext : StrictText (sampleLayout () () none) "\x7b\"a//,\":[1]\x7d" :=
    ⟨compactSample, rfl, rfl⟩
  have hrelaxed : RelaxedText (sampleLayout () () none)
      ("\x7b//\",]\n\"a//,\"/*\",]*/:/*\",]*/[/*\",]*/1/*\",]*/,/*\",]*/]" ++
        "/*\",]*/,/*\",]*/\x7d") :=
    ⟨commentedSample, rfl, by decide +kernel⟩
  obtain ⟨hsame, hmeans⟩ := strict_preserves_meaning.2 htext
  exact ⟨hsame, (hmeans hrelaxed).2.trans (htext.parse?_eq.trans rfl)⟩

end ModuleTrace.Json

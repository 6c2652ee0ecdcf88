import ModuleTrace.Project.Alias

/-!
# Aliases in order

What a pattern matches is told by its text alone: the text up to its first wildcard and the text
behind it stand at the ends of the specifier, and the wildcard stands for what is between them.
The candidates of a specifier are the targets of the entries that match it, entry by entry, and
the more specific entries go first.
-/

namespace ModuleTrace

namespace Pattern

theorem ofString_of_notMem {text : String} (h : wildcard ∉ text.toList) :
    ofString text = ⟨text, none⟩ := by
  have hdrop := (Affix.cut_append h (.inl rfl)).2
  rw [List.append_nil] at hdrop
  simp only [ofString, hdrop]

/-- A text is cut at the first wildcard; further ones belong to what is behind it. -/
theorem ofString_append {start stop : String} (h : wildcard ∉ start.toList) :
    ofString (start ++ "*" ++ stop) = ⟨start, some stop⟩ := by
  have htext : (start ++ "*" ++ stop).toList = start.toList ++ wildcard :: stop.toList := by
    simp [wildcard]
  obtain ⟨htake, hdrop⟩ :
      (start.toList ++ wildcard :: stop.toList).takeWhile (· ≠ wildcard) = start.toList ∧
        (start.toList ++ wildcard :: stop.toList).dropWhile (· ≠ wildcard)
          = wildcard :: stop.toList := Affix.cut_append h (.inr rfl)
  simp only [ofString, htext, hdrop, htake, String.ofList_toList]

/-- The text before the first wildcard. -/
def literal (text : String) : String :=
  String.ofList (text.toList.takeWhile (· ≠ wildcard))

/-- A text has no wildcard, or a first one. -/
theorem wildcard_cases (text : String) : wildcard ∉ text.toList ∨
    ∃ start stop : String, text = start ++ "*" ++ stop ∧ wildcard ∉ start.toList := by
  by_cases h : wildcard ∈ text.toList
  · obtain ⟨before, after, htext, hbefore⟩ := List.eq_append_cons_of_mem h
    refine .inr ⟨String.ofList before, String.ofList after, ?_, by simpa using hbefore⟩
    apply String.toList_inj.1
    simp [htext, wildcard]
  · exact .inl h

theorem literal_of_notMem {text : String} (h : wildcard ∉ text.toList) : literal text = text := by
  have htake := (Affix.cut_append h (.inl rfl)).1
  rw [List.append_nil] at htake
  rw [literal, htake, String.ofList_toList]

theorem literal_append {start stop : String} (h : wildcard ∉ start.toList) :
    literal (start ++ "*" ++ stop) = start := by
  have htext : (start ++ "*" ++ stop).toList = start.toList ++ wildcard :: stop.toList := by
    simp [wildcard]
  have htake : (start.toList ++ wildcard :: stop.toList).takeWhile (· ≠ wildcard)
      = start.toList := (Affix.cut_append h (.inr rfl)).1
  rw [literal, htext, htake, String.ofList_toList]

theorem start_ofString (text : String) : (ofString text).start = literal text := by
  rcases wildcard_cases text with h | ⟨start, stop, rfl, h⟩
  · rw [ofString_of_notMem h, literal_of_notMem h]
  · rw [ofString_append h, literal_append h]

theorem isExact_ofString (text : String) :
    (ofString text).isExact = true ↔ wildcard ∉ text.toList := by
  rcases wildcard_cases text with h | ⟨start, stop, rfl, h⟩
  · simp [ofString_of_notMem h, isExact, h]
  · rw [ofString_append h]
    simp [isExact, wildcard]

theorem capture?_exact {text specifier captured : String} :
    capture? ⟨text, none⟩ specifier = some captured ↔ specifier = text ∧ captured = "" := by
  by_cases h : specifier = text
  · simp [capture?, h, eq_comm]
  · simp [capture?, h]

/-- The parts around the wildcard never overlap: the specifier is both of them with the captured
text in between. -/
theorem capture?_wild {start stop specifier captured : String} :
    capture? ⟨start, some stop⟩ specifier = some captured
      ↔ specifier = start ++ captured ++ stop := by
  simp only [capture?, Option.bind_eq_some_iff, Option.map_eq_some_iff, Affix.after?_eq_some_iff]
  constructor
  · rintro ⟨rest, hrest, reversed, hreversed, rfl⟩
    have hback : rest = reversed.reverse ++ stop.toList := by
      simpa using congrArg List.reverse hreversed
    apply String.toList_inj.1
    simp [hrest, hback]
  · rintro rfl
    exact ⟨captured.toList ++ stop.toList, by simp, captured.toList.reverse, by simp, by simp⟩

/-- The text before the wildcard is no longer than what the pattern matches. -/
theorem size_start_le {p : Pattern} {specifier captured : String}
    (h : p.capture? specifier = some captured) :
    p.start.utf8ByteSize ≤ specifier.utf8ByteSize := by
  obtain ⟨start, stop⟩ := p
  cases stop with
  | none =>
      obtain ⟨rfl, -⟩ := capture?_exact.1 h
      exact Nat.le_refl _
  | some stop =>
      obtain rfl := capture?_wild.1 h
      simp only [String.utf8ByteSize_append]
      omega

theorem start_eq_of_isExact {p : Pattern} {specifier captured : String} (hexact : p.isExact = true)
    (h : p.capture? specifier = some captured) : p.start = specifier := by
  obtain ⟨start, stop⟩ := p
  cases stop with
  | none => exact (capture?_exact.1 h).1.symm
  | some stop => simp [isExact] at hexact

end Pattern

namespace Alias

/-! ## The order of aliases -/

theorem precedes_iff (a b : Alias) :
    a.precedes b = true ↔ b.pattern.start.utf8ByteSize < a.pattern.start.utf8ByteSize ∨
      a.pattern.start.utf8ByteSize = b.pattern.start.utf8ByteSize ∧
        (b.pattern.isExact = true → a.pattern.isExact = true) := by
  cases ha : a.pattern.isExact <;> cases hb : b.pattern.isExact <;> simp [precedes, ha, hb]

theorem precedes_trans (a b c : Alias) (hab : a.precedes b = true) (hbc : b.precedes c = true) :
    a.precedes c = true := by
  rw [precedes_iff] at *
  rcases hab with hab | ⟨hab, hexact⟩
  · rcases hbc with hbc | ⟨hbc, -⟩
    · exact .inl (by omega)
    · exact .inl (by omega)
  · rcases hbc with hbc | ⟨hbc, hexact'⟩
    · exact .inl (by omega)
    · exact .inr ⟨by omega, fun h => hexact (hexact' h)⟩

theorem precedes_total (a b : Alias) : (a.precedes b || b.precedes a) = true := by
  rw [Bool.or_eq_true, precedes_iff, precedes_iff]
  rcases Nat.lt_trichotomy a.pattern.start.utf8ByteSize b.pattern.start.utf8ByteSize
    with hlt | heq | hgt
  · exact .inr (.inl hlt)
  · cases ha : a.pattern.isExact with
    | true => exact .inl (.inr ⟨heq, fun _ => rfl⟩)
    | false => exact .inr (.inr ⟨heq.symm, fun h => by simp at h⟩)
  · exact .inl (.inl hgt)

/-- Of two aliases that match a specifier, the one that goes first is the more specific one. -/
theorem specific_of_precedes {a b : Alias} {specifier captured other : String}
    (h : a.precedes b = true) (ha : a.pattern.capture? specifier = some captured)
    (hb : b.pattern.capture? specifier = some other) :
    b.pattern.start.utf8ByteSize ≤ a.pattern.start.utf8ByteSize ∧
      (b.pattern.isExact = true → a.pattern.isExact = true) := by
  rcases (precedes_iff a b).1 h with hlt | ⟨heq, hexact⟩
  · refine ⟨Nat.le_of_lt hlt, fun hb' => ?_⟩
    -- An exact pattern is all of the specifier, and nothing longer can match it.
    have hlong := Pattern.size_start_le ha
    rw [← Pattern.start_eq_of_isExact hb' hb] at hlong
    omega
  · exact ⟨Nat.le_of_eq heq.symm, hexact⟩

/-! ## Entries of a configuration -/

section

variable (base : Path)

def ofEntry (entry : String × List String) : Alias :=
  of base entry.1 entry.2

theorem order_map_ofEntry (entries : List (String × List String)) :
    ∃ listed : List (String × List String), listed.Perm entries ∧
      order (entries.map (ofEntry base)) = listed.map (ofEntry base) ∧
      listed.Pairwise fun x y => (ofEntry base x).precedes (ofEntry base y) = true := by
  have htrans : ∀ x y z : String × List String,
      (ofEntry base x).precedes (ofEntry base y) = true →
      (ofEntry base y).precedes (ofEntry base z) = true →
      (ofEntry base x).precedes (ofEntry base z) = true := fun x y z => precedes_trans _ _ _
  refine ⟨entries.mergeSort fun x y => (ofEntry base x).precedes (ofEntry base y),
    List.mergeSort_perm _ _, ?_, List.pairwise_mergeSort htrans (fun _ _ => precedes_total _ _) _⟩
  exact (List.map_mergeSort (s := precedes) fun _ _ _ _ => rfl).symm

theorem candidates_ofEntry (entry : String × List String) (specifier : String) :
    (ofEntry base entry).candidates specifier
      = match (Pattern.ofString entry.1).capture? specifier with
        | none => []
        | some captured => entry.2.map fun raw =>
            ⟨entry.1, raw, (AliasTarget.ofString base raw).path captured⟩ := by
  cases h : (Pattern.ofString entry.1).capture? specifier with
  | none => simp [candidates, ofEntry, of, h]
  | some captured =>
      simp only [candidates, ofEntry, of, h, List.map_map]
      rfl

theorem pattern_of_mem_candidates {entry : String × List String} {specifier : String}
    {candidate : AliasCandidate} (h : candidate ∈ (ofEntry base entry).candidates specifier) :
    candidate.pattern = entry.1 ∧
      ∃ captured, (Pattern.ofString entry.1).capture? specifier = some captured := by
  rw [candidates_ofEntry] at h
  cases hcapture : (Pattern.ofString entry.1).capture? specifier with
  | none => simp [hcapture] at h
  | some captured =>
      simp only [hcapture, List.mem_map] at h
      obtain ⟨raw, -, rfl⟩ := h
      exact ⟨rfl, captured, rfl⟩

/-- Whether a candidate may stand before another one: the text before its wildcard is at least as
long, and it has no wildcard if the other one has none. -/
def AtLeastAsSpecific (a b : AliasCandidate) : Prop :=
  (Pattern.literal b.pattern).utf8ByteSize ≤ (Pattern.literal a.pattern).utf8ByteSize ∧
    (Pattern.wildcard ∉ b.pattern.toList → Pattern.wildcard ∉ a.pattern.toList)

theorem pairwise_candidates {listed : List (String × List String)} (specifier : String)
    (h : listed.Pairwise fun x y => (ofEntry base x).precedes (ofEntry base y) = true) :
    (listed.flatMap fun entry => (ofEntry base entry).candidates specifier).Pairwise
      AtLeastAsSpecific := by
  rw [List.pairwise_flatMap]
  constructor
  · intro entry _
    refine List.pairwise_iff_forall_sublist.2 fun {a b} hab => ?_
    have ha : a ∈ (ofEntry base entry).candidates specifier := hab.subset (by simp)
    have hb : b ∈ (ofEntry base entry).candidates specifier := hab.subset (by simp)
    rw [AtLeastAsSpecific, (pattern_of_mem_candidates base ha).1,
      (pattern_of_mem_candidates base hb).1]
    exact ⟨Nat.le_refl _, id⟩
  · refine h.imp fun {x y} hxy a ha b hb => ?_
    obtain ⟨hpattern, captured, hcaptured⟩ := pattern_of_mem_candidates base ha
    obtain ⟨hpattern', other, hother⟩ := pattern_of_mem_candidates base hb
    rw [AtLeastAsSpecific, hpattern, hpattern', ← Pattern.start_ofString, ← Pattern.start_ofString,
      ← Pattern.isExact_ofString, ← Pattern.isExact_ofString]
    exact specific_of_precedes hxy hcaptured hother

/-- A pattern with a wildcard matches what begins and ends as it does and captures the rest, and
one without matches itself. The candidates of a specifier are the targets of all entries that
match it, each entry in one place with its targets in order; texts before the wildcard get no
longer from one to the next, and what an exact pattern gives goes before all else. -/
theorem allCandidates_most_specific_first (entries : List (String × List String))
    (specifier : String) :
    (∀ start stop captured : String, Pattern.wildcard ∉ start.toList →
      ((Pattern.ofString (start ++ "*" ++ stop)).capture? specifier = some captured
        ↔ specifier = start ++ captured ++ stop)) ∧
    (∀ text captured : String, Pattern.wildcard ∉ text.toList →
      ((Pattern.ofString text).capture? specifier = some captured
        ↔ specifier = text ∧ captured = "")) ∧
    (∃ listed : List (String × List String), listed.Perm entries ∧
      allCandidates (order (entries.map (ofEntry base))) specifier
        = listed.flatMap fun entry =>
            match (Pattern.ofString entry.1).capture? specifier with
            | none => []
            | some captured => entry.2.map fun raw =>
                ⟨entry.1, raw, (AliasTarget.ofString base raw).path captured⟩) ∧
    (allCandidates (order (entries.map (ofEntry base))) specifier).Pairwise AtLeastAsSpecific := by
  obtain ⟨listed, hperm, horder, hpairwise⟩ := order_map_ofEntry base entries
  have hall : allCandidates (order (entries.map (ofEntry base))) specifier
      = listed.flatMap fun entry => (ofEntry base entry).candidates specifier := by
    rw [allCandidates, horder, List.flatMap_map]
  refine ⟨fun start stop captured h => ?_, fun text captured h => ?_, ⟨listed, hperm, ?_⟩, ?_⟩
  · rw [Pattern.ofString_append h, Pattern.capture?_wild]
  · rw [Pattern.ofString_of_notMem h, Pattern.capture?_exact]
  · rw [hall]
    exact congrArg listed.flatMap (funext fun entry => candidates_ofEntry base entry specifier)
  · rw [hall]
    exact pairwise_candidates base specifier hpairwise

end

end Alias

end ModuleTrace

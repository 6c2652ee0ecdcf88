import ModuleTrace.Syntax.Tree

/-!
# Addresses in syntax trees

An address leads to a node of a tree: each of its numbers picks a child. Addresses in their order
list the nodes of a tree as they are written, an outer node before the ones in it; where trees lie
behind one another, as those of a parsed text do, the places in the text are in the same order.
-/

namespace ModuleTrace.SyntaxTree

/-- What holds of a tree whenever it holds of its children holds of every tree. -/
theorem induction {p : SyntaxTree → Prop}
    (step : ∀ head children, (∀ child ∈ children, p child) → p (node head children))
    (t : SyntaxTree) : p t := by
  refine @SyntaxTree.rec p (fun ts => ∀ child ∈ ts, p child) step ?_ ?_ t
  · intro child hchild
    exact absurd hchild List.not_mem_nil
  · intro first rest hfirst hrest child hchild
    rcases List.mem_cons.1 hchild with rfl | hchild
    · exact hfirst
    · exact hrest child hchild

def at? : SyntaxTree → List Nat → Option SyntaxTree
  | t, [] => some t
  | t, i :: rest => t.children[i]?.bind fun child => child.at? rest

theorem at?_append (t : SyntaxTree) (p q : List Nat) :
    t.at? (p ++ q) = (t.at? p).bind fun u => u.at? q := by
  induction p generalizing t with
  | nil => rfl
  | cons i p ih =>
      simp only [List.cons_append, at?, Option.bind_assoc]
      exact congrArg _ (funext ih)

theorem at?_cons_eq_some {t u : SyntaxTree} {i : Nat} {rest : List Nat}
    (h : t.at? (i :: rest) = some u) :
    ∃ child, t.children[i]? = some child ∧ child.at? rest = some u :=
  Option.bind_eq_some_iff.1 h

/-! ## The order of addresses -/

/-- Of two addresses the first one of which does not lead on to the second, all that the first one
leads on to comes before all that the second one does. -/
theorem append_lt_append {p q : List Nat} (h : p < q) (hapart : ¬ p <+: q) (r s : List Nat) :
    p ++ r < q ++ s := by
  induction p generalizing q with
  | nil => exact absurd (List.nil_prefix) hapart
  | cons i p ih =>
      cases q with
      | nil => exact absurd h (List.not_lt_nil _)
      | cons j q =>
          rw [List.cons_lt_cons_iff] at h
          rw [List.cons_append, List.cons_append, List.cons_lt_cons_iff]
          rcases h with hlt | ⟨rfl, h⟩
          · exact .inl hlt
          · refine .inr ⟨rfl, ih h fun hprefix => hapart ?_⟩
            exact List.cons_prefix_cons.2 ⟨rfl, hprefix⟩

theorem append_lt_append_left (p : List Nat) {q r : List Nat} (h : q < r) : p ++ q < p ++ r := by
  induction p with
  | nil => exact h
  | cons i p ih => exact List.cons_lt_cons_iff.2 (.inr ⟨rfl, ih⟩)

theorem lt_of_prefix {p q : List Nat} (h : p <+: q) (hne : p ≠ q) : p < q := by
  obtain ⟨r, rfl⟩ := h
  cases r with
  | nil => simp at hne
  | cons i r => simpa using append_lt_append_left p (List.nil_lt_cons i r)

/-! ## The order of a text -/

mutual

def isOrderly : SyntaxTree → Bool
  | node head children => areOrderly head.start head.stop children

/-- Whether trees lie one behind the other between two positions. -/
def areOrderly : Nat → Nat → List SyntaxTree → Bool
  | start, stop, [] => start ≤ stop
  | start, stop, t :: ts => start ≤ t.head.start && t.isOrderly && areOrderly t.head.stop stop ts

end

theorem areOrderly_cons {start stop : Nat} {t : SyntaxTree} {ts : List SyntaxTree}
    (h : areOrderly start stop (t :: ts) = true) :
    start ≤ t.head.start ∧ t.isOrderly = true ∧ areOrderly t.head.stop stop ts = true := by
  simp only [areOrderly, Bool.and_eq_true, decide_eq_true_eq] at h
  exact ⟨h.1.1, h.1.2, h.2⟩

theorem le_of_areOrderly_of_span {ts : List SyntaxTree}
    (hspan : ∀ t ∈ ts, t.isOrderly = true → t.head.start ≤ t.head.stop) {start stop : Nat}
    (h : areOrderly start stop ts = true) : start ≤ stop := by
  induction ts generalizing start with
  | nil => simpa [areOrderly] using h
  | cons t ts ih =>
      obtain ⟨hstart, horderly, hrest⟩ := areOrderly_cons h
      have hfirst := hspan t List.mem_cons_self horderly
      have hlast := ih (fun u hu => hspan u (List.mem_cons_of_mem _ hu)) hrest
      omega

theorem span_of_isOrderly (t : SyntaxTree) (h : t.isOrderly = true) :
    t.head.start ≤ t.head.stop := by
  induction t using induction with
  | step head children ih =>
      rw [isOrderly] at h
      exact le_of_areOrderly_of_span ih h

theorem le_of_areOrderly {ts : List SyntaxTree} {start stop : Nat}
    (h : areOrderly start stop ts = true) : start ≤ stop :=
  le_of_areOrderly_of_span (fun t _ => span_of_isOrderly t) h

theorem areOrderly_getElem? {ts : List SyntaxTree} {start stop : Nat}
    (h : areOrderly start stop ts = true) {i : Nat} {t : SyntaxTree} (hi : ts[i]? = some t) :
    t.isOrderly = true ∧ start ≤ t.head.start ∧ t.head.stop ≤ stop := by
  induction ts generalizing start i with
  | nil => simp at hi
  | cons first ts ih =>
      obtain ⟨hstart, horderly, hrest⟩ := areOrderly_cons h
      cases i with
      | zero =>
          obtain rfl : first = t := by simpa using hi
          exact ⟨horderly, hstart, le_of_areOrderly hrest⟩
      | succ i =>
          obtain ⟨ht, hfrom, hto⟩ := ih hrest hi
          have hspan := span_of_isOrderly first horderly
          exact ⟨ht, by omega, hto⟩

theorem areOrderly_lt {ts : List SyntaxTree} {start stop : Nat}
    (h : areOrderly start stop ts = true) {i j : Nat} (hij : i < j) {t u : SyntaxTree}
    (hi : ts[i]? = some t) (hj : ts[j]? = some u) : t.head.stop ≤ u.head.start := by
  induction ts generalizing start i j with
  | nil => simp at hi
  | cons first ts ih =>
      obtain ⟨-, -, hrest⟩ := areOrderly_cons h
      cases j with
      | zero => omega
      | succ j =>
          cases i with
          | zero =>
              obtain rfl : first = t := by simpa using hi
              exact (areOrderly_getElem? hrest hj).2.1
          | succ i => exact ih hrest (by omega) hi hj

theorem isOrderly_iff (t : SyntaxTree) :
    t.isOrderly = areOrderly t.head.start t.head.stop t.children := by
  cases t
  rw [isOrderly]
  rfl

theorem isOrderly_at? {t u : SyntaxTree} (h : t.isOrderly = true) {p : List Nat}
    (hp : t.at? p = some u) :
    u.isOrderly = true ∧ t.head.start ≤ u.head.start ∧ u.head.stop ≤ t.head.stop := by
  induction p generalizing t with
  | nil =>
      obtain rfl : t = u := Option.some.inj hp
      exact ⟨h, Nat.le_refl _, Nat.le_refl _⟩
  | cons i p ih =>
      obtain ⟨child, hchild, hp⟩ := at?_cons_eq_some hp
      rw [isOrderly_iff] at h
      obtain ⟨horderly, hstart, hstop⟩ := areOrderly_getElem? h hchild
      obtain ⟨hu, hstart', hstop'⟩ := ih horderly hp
      exact ⟨hu, Nat.le_trans hstart hstart', Nat.le_trans hstop' hstop⟩

/-- Nodes at addresses in order begin in the order of the text. -/
theorem start_le_start {t u v : SyntaxTree} (h : t.isOrderly = true) {p q : List Nat}
    (hu : t.at? p = some u) (hv : t.at? q = some v) (hpq : p < q) :
    u.head.start ≤ v.head.start := by
  induction p generalizing t q with
  | nil =>
      obtain rfl : t = u := Option.some.inj hu
      exact (isOrderly_at? h hv).2.1
  | cons i p ih =>
      cases q with
      | nil => exact absurd hpq (List.not_lt_nil _)
      | cons j q =>
          obtain ⟨child, hchild, hu⟩ := at?_cons_eq_some hu
          obtain ⟨other, hother, hv⟩ := at?_cons_eq_some hv
          rw [isOrderly_iff] at h
          have horderly := (areOrderly_getElem? h hchild).1
          rcases List.cons_lt_cons_iff.1 hpq with hij | ⟨rfl, hrest⟩
          · -- The first node ends with the child that it is in, and that in front of the second.
            obtain ⟨huorderly, -, hustop⟩ := isOrderly_at? horderly hu
            have huspan := span_of_isOrderly u huorderly
            have hbetween := areOrderly_lt h hij hchild hother
            have hvstart := (isOrderly_at? (areOrderly_getElem? h hother).1 hv).2.1
            omega
          · obtain rfl : child = other := by simpa [hchild] using hother
            exact ih horderly hu hv hrest

end ModuleTrace.SyntaxTree

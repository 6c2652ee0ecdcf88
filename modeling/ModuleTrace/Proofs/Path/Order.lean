import Mathlib.Data.List.Sort
import ModuleTrace.Proofs.Path.Spelling

/-!
# Paths in order

Paths are totally ordered by their parts, and paths that are neither before nor behind one another
have the same parts. Sorting leaves such paths as they stood.
-/

namespace ModuleTrace

namespace Path

/-! ## Order of parts -/

def Part.rank : Part → Nat
  | .root => 0
  | .here => 1
  | .up => 2
  | .name _ => 3

/-- Parts are ordered by their ranks, and names by their texts. -/
theorem Part.compare_eq :
    Part.compare = compareLex (compareOn Part.rank) (compareOn Part.text) := by
  funext a b
  cases a <;> cases b <;> simp [Part.compare, compareLex, compareOn, Part.rank, Part.text] <;> rfl

instance : Std.TransCmp Part.compare := by
  rw [Part.compare_eq]
  infer_instance

instance : Std.LawfulEqCmp Part.compare where
  eq_of_compare {a b} h := by
    cases a <;> cases b <;> simp_all [Part.compare]

theorem compareParts_eq : compareParts = List.compareLex Part.compare := by
  funext as bs
  induction as generalizing bs with
  | nil => cases bs <;> rfl
  | cons a as ih =>
      cases bs with
      | nil => rfl
      | cons b bs =>
          rw [compareParts, List.compareLex_cons_cons, ih]
          cases a.compare b <;> rfl

instance : Std.TransCmp compareParts := by
  rw [compareParts_eq]
  infer_instance

instance : Std.LawfulEqCmp compareParts := by
  rw [compareParts_eq]
  infer_instance

instance : Std.TransCmp Path.compare where
  eq_swap {p q} := by
    show compareParts p.parts q.parts = (compareParts q.parts p.parts).swap
    exact Std.OrientedCmp.eq_swap
  isLE_trans {p q r} hpq hqr := by
    have htrans : (compareParts p.parts r.parts).isLE = true := Std.TransCmp.isLE_trans hpq hqr
    exact htrans

theorem compare_eq_iff (p q : Path) : p.compare q = .eq ↔ p.parts = q.parts := by
  constructor
  · intro h
    have hparts : compareParts p.parts q.parts = .eq := h
    exact Std.LawfulEqCmp.eq_of_compare hparts
  · intro h
    rw [compare, h]
    exact Std.ReflCmp.compare_self

/-! ## Sorting -/

/-- Strictly ordered lists are determined by their members. -/
theorem eq_of_pairwise_lt {α : Type} {cmp : α → α → Ordering} [Std.TransCmp cmp] {as bs : List α}
    (ha : as.Pairwise fun a b => cmp a b = .lt) (hb : bs.Pairwise fun a b => cmp a b = .lt)
    (h : ∀ a, a ∈ as ↔ a ∈ bs) : as = bs := by
  have hirrefl : Std.Irrefl fun a b => cmp a b = .lt := ⟨fun a hlt => by
    have hself : cmp a a = .eq := Std.ReflCmp.compare_self
    rw [hself] at hlt
    exact absurd hlt (by decide)⟩
  have hantisymm : Std.Antisymm fun a b => cmp a b = .lt := ⟨fun a b hab hba => by
    have hswap : cmp a b = (cmp b a).swap := Std.OrientedCmp.eq_swap
    rw [hswap, hba] at hab
    exact absurd hab (by decide)⟩
  exact ha.eq_of_mem_iff hb h

theorem sort_eq (paths : List Path) :
    sort paths = paths.mergeSort fun p q => (p.compare q).isLE := by
  have hle : ∀ c : Ordering, (c != .gt) = c.isLE := by decide
  simp only [sort, hle]

theorem sort_perm (paths : List Path) : (sort paths).Perm paths :=
  List.mergeSort_perm _ _

private theorem isLE_trans (p q r : Path) (hpq : (p.compare q).isLE = true)
    (hqr : (q.compare r).isLE = true) : (p.compare r).isLE = true :=
  Std.TransCmp.isLE_trans hpq hqr

private theorem isLE_total (p q : Path) :
    ((p.compare q).isLE || (q.compare p).isLE) = true := by
  have hswap : q.compare p = (p.compare q).swap := Std.OrientedCmp.eq_swap
  rw [hswap]
  cases p.compare q <;> rfl

theorem pairwise_sort (paths : List Path) :
    (sort paths).Pairwise fun p q => (p.compare q).isLE = true := by
  rw [sort_eq]
  exact List.pairwise_mergeSort isLE_trans isLE_total paths

/-- Different paths stand in strict order when they are sorted. -/
theorem pairwise_lt_sort {paths : List Path} (h : paths.Pairwise fun p q => p.parts ≠ q.parts) :
    (sort paths).Pairwise fun p q => p.compare q = .lt := by
  have hdifferent : (sort paths).Pairwise fun p q => p.parts ≠ q.parts :=
    ((sort_perm paths).pairwise_iff Ne.symm).2 h
  refine ((pairwise_sort paths).and hdifferent).imp fun {p q} ⟨hle, hne⟩ => ?_
  have hother : p.compare q ≠ .eq := fun heq => hne ((compare_eq_iff p q).1 heq)
  cases hcompare : p.compare q <;> simp_all

/-- Sorting leaves the spellings of one path in their order. -/
theorem filter_sort (p : Path) (paths : List Path) :
    (sort paths).filter p.same = paths.filter p.same := by
  have hequal : (paths.filter p.same).Pairwise fun q r => (q.compare r).isLE = true := by
    rw [List.pairwise_filter]
    refine List.pairwise_of_forall fun q r hq hr => ?_
    have hparts : q.parts = r.parts := ((same_iff p q).1 hq).symm.trans ((same_iff p r).1 hr)
    rw [(compare_eq_iff q r).2 hparts]
    rfl
  have hstays : (paths.filter p.same).Sublist (sort paths) := by
    rw [sort_eq]
    exact List.sublist_mergeSort isLE_trans isLE_total hequal List.filter_sublist
  have hsublist : (paths.filter p.same).Sublist ((sort paths).filter p.same) := by
    have hfiltered := hstays.filter p.same
    rwa [List.filter_filter, funext fun q => Bool.and_self (p.same q)] at hfiltered
  exact (hsublist.eq_of_length ((sort_perm paths).filter p.same).length_eq.symm).symm

end Path

end ModuleTrace

import ModuleTrace.Proofs.Path.Order
import ModuleTrace.Suite.Collection

/-!
# Collections of several lists of rules

The files of a collection are sorted and stand there once. The rules of two lists, one behind the
other, collect what the first list collects, and then what the second does with the memory that
the first has left.
-/

namespace ModuleTrace

namespace Suite

/-! ## Each path once -/

theorem dropRepeated_short {paths : List Path} (h : ∀ p q rest, paths = p :: q :: rest → False) :
    dropRepeated paths = paths := by
  rw [dropRepeated]
  exact h

private theorem nil_or_singleton {paths : List Path}
    (h : ∀ p q rest, paths = p :: q :: rest → False) : paths = [] ∨ ∃ p, paths = [p] := by
  cases paths with
  | nil => exact .inl rfl
  | cons p rest =>
      cases rest with
      | nil => exact .inr ⟨p, rfl⟩
      | cons q rest => exact absurd rfl (h p q rest)

/-- Every path stays, in one of its spellings. -/
theorem mem_dropRepeated_iff (paths : List Path) (key : List Path.Part) :
    key ∈ (dropRepeated paths).map Path.parts ↔ key ∈ paths.map Path.parts := by
  induction paths using dropRepeated.induct with
  | case1 p q rest hsame ih =>
      rw [dropRepeated, if_pos hsame, ih]
      have hparts : p.parts = q.parts := (Path.same_iff p q).1 hsame
      simp [hparts]
  | case2 p q rest hsame ih =>
      rw [dropRepeated, if_neg hsame, List.map_cons, List.mem_cons, ih]
      simp
  | case3 paths hshort => rw [dropRepeated_short hshort]

theorem dropRepeated_sublist (paths : List Path) : (dropRepeated paths).Sublist paths := by
  induction paths using dropRepeated.induct with
  | case1 p q rest hsame ih =>
      rw [dropRepeated, if_pos hsame]
      exact ih.trans ((List.Sublist.refl rest).cons q |>.cons_cons p)
  | case2 p q rest hsame ih =>
      rw [dropRepeated, if_neg hsame]
      exact ih.cons_cons p
  | case3 paths hshort => simp only [dropRepeated_short hshort, List.Sublist.refl]

/-- A path of sorted ones that differs from its neighbour is before all that come behind. -/
private theorem before_rest {p q : Path} {rest : List Path}
    (h : (p :: q :: rest).Pairwise fun p q => (p.compare q).isLE = true)
    (hsame : ¬ p.same q = true) : ∀ x ∈ q :: rest, p.compare x = .lt := by
  obtain ⟨hp, hrest⟩ := List.pairwise_cons.1 h
  intro x hx
  have hne : p.compare q ≠ .eq := by
    rw [ne_eq, Path.compare_eq_iff, ← Path.same_iff]
    exact hsame
  have hpq : p.compare q = .lt := by
    have hle := hp q List.mem_cons_self
    cases hcompare : p.compare q with
    | lt => rfl
    | eq => exact absurd hcompare hne
    | gt => simp [hcompare] at hle
  have hqx : (q.compare x).isLE = true := by
    rcases List.mem_cons.1 hx with rfl | hx
    · rw [(Path.compare_eq_iff x x).2 rfl]
      rfl
    · exact (List.pairwise_cons.1 hrest).1 x hx
  exact Std.TransCmp.lt_of_lt_of_isLE hpq hqx

theorem pairwise_dropRepeated {paths : List Path}
    (h : paths.Pairwise fun p q => (p.compare q).isLE = true) :
    (dropRepeated paths).Pairwise fun p q => p.compare q = .lt := by
  induction paths using dropRepeated.induct with
  | case1 p q rest hsame ih =>
      rw [dropRepeated, if_pos hsame]
      exact ih (h.sublist ((List.Sublist.refl rest).cons q |>.cons_cons p))
  | case2 p q rest hsame ih =>
      rw [dropRepeated, if_neg hsame]
      refine List.pairwise_cons.2 ⟨fun x hx => ?_, ih (List.pairwise_cons.1 h).2⟩
      exact before_rest h hsame x ((dropRepeated_sublist _).subset hx)
  | case3 paths hshort =>
      rw [dropRepeated_short hshort]
      obtain rfl | ⟨p, rfl⟩ := nil_or_singleton hshort
      · exact .nil
      · exact List.pairwise_singleton _ _

/-- Of the spellings of one path, sorted paths keep the first. -/
theorem filter_dropRepeated (key : Path) {paths : List Path}
    (h : paths.Pairwise fun p q => (p.compare q).isLE = true) :
    (dropRepeated paths).filter key.same = (paths.filter key.same).take 1 := by
  induction paths using dropRepeated.induct with
  | case1 p q rest hsame ih =>
      rw [dropRepeated, if_pos hsame,
        ih (h.sublist ((List.Sublist.refl rest).cons q |>.cons_cons p))]
      have hboth : key.same q = key.same p := by
        rw [Path.same, Path.same, (Path.same_iff p q).1 hsame]
      cases hkey : key.same p <;> simp [hboth, hkey]
  | case2 p q rest hsame ih =>
      rw [dropRepeated, if_neg hsame]
      cases hkey : key.same p with
      | false =>
          simp only [List.filter_cons, hkey, Bool.false_eq_true, if_false] at ih ⊢
          exact ih (List.pairwise_cons.1 h).2
      | true =>
          have hnone : (dropRepeated (q :: rest)).filter key.same = [] := by
            rw [List.filter_eq_nil_iff]
            intro x hx hsamex
            have hlt := before_rest h hsame x ((dropRepeated_sublist _).subset hx)
            rw [(Path.compare_eq_iff p x).2 (((Path.same_iff key p).1 hkey).symm.trans
              ((Path.same_iff key x).1 hsamex))] at hlt
            exact absurd hlt (by decide)
          simp [hkey, hnone]
  | case3 paths hshort =>
      rw [dropRepeated_short hshort]
      obtain rfl | ⟨p, rfl⟩ := nil_or_singleton hshort
      · rfl
      · cases hkey : key.same p <;> simp [hkey]

theorem pairwise_distinct (paths : List Path) :
    (distinct paths).Pairwise fun p q => p.compare q = .lt :=
  pairwise_dropRepeated (Path.pairwise_sort paths)

theorem mem_distinct_iff (paths : List Path) (key : List Path.Part) :
    key ∈ (distinct paths).map Path.parts ↔ key ∈ paths.map Path.parts := by
  rw [distinct, mem_dropRepeated_iff]
  exact ((Path.sort_perm paths).map Path.parts).mem_iff

theorem filter_distinct (key : Path) (paths : List Path) :
    (distinct paths).filter key.same = (paths.filter key.same).take 1 := by
  rw [distinct, filter_dropRepeated key (Path.pairwise_sort paths), Path.filter_sort]

/-- Putting paths in order in two parts first changes nothing. -/
theorem distinct_append (ps qs : List Path) :
    distinct (distinct ps ++ distinct qs) = distinct (ps ++ qs) := by
  have hfilter : ∀ key : Path, (distinct (distinct ps ++ distinct qs)).filter key.same
      = (distinct (ps ++ qs)).filter key.same := by
    intro key
    rw [filter_distinct, filter_distinct, List.filter_append, List.filter_append, filter_distinct,
      filter_distinct]
    cases ps.filter key.same with
    | nil => simp [List.take_take]
    | cons p rest => simp
  refine Path.eq_of_pairwise_lt (pairwise_distinct _) (pairwise_distinct _) fun p => ?_
  have hmem : ∀ paths : List Path, p ∈ paths ↔ p ∈ paths.filter p.same := by
    intro paths
    simp [Path.same]
  rw [hmem, hfilter p, ← hmem]

/-! ## What is gathered on the way -/

namespace Gathering

def append (g h : Gathering) : Gathering :=
  ⟨g.files ++ h.files, g.errors ++ h.errors⟩

@[simp] theorem append_empty (g : Gathering) : g.append {} = g := by
  simp [append]

theorem append_addFiles (g h : Gathering) (files : List Path) :
    (g.append h).addFiles files = g.append (h.addFiles files) := by
  simp [append, addFiles]

theorem append_addError (g h : Gathering) (file : Path) (message : String) :
    (g.append h).addError file message = g.append (h.addError file message) := by
  simp [append, addError]

end Gathering

/-- Adds what a traversal from a test has come to. -/
def addResult (g : Gathering) (test : Path) : Except ResolveError Reach → Gathering
  | .ok reach => addReach g test reach
  | .error error => g.addError test error.message

theorem addResult_append (g h : Gathering) (test : Path) (result : Except ResolveError Reach) :
    addResult (g.append h) test result = g.append (addResult h test result) := by
  cases result with
  | error error => exact Gathering.append_addError _ _ _ _
  | ok reach =>
      cases hproblems : reach.problems.isEmpty <;>
        simp [addResult, addReach, hproblems, Gathering.append_addFiles, Gathering.append_addError]

/-! ## One list of rules behind another -/

section

variable {m : Type → Type} [Monad m] [LawfulMonad m] (s : Session m) (search : Search m)

/-- The files of a directory; there are none in what is no directory. -/
def snapshotsIn (directory : Path) : m (List Path) := do
  if ← search.isDirectory directory then search.filesUnder directory else return []

theorem collectTest_eq (rule : MatchRule) (directory : Path) (g : Gathering) (test : Path) :
    collectTest s search rule directory g test = (do
      let snapshots ← (snapshotsIn search (rule.snapshotDirectory directory test) : m (List Path))
      let result ← s.collect test
      return addResult (g.addFiles snapshots) test result) := by
  have hnone : g.addFiles [] = g := by simp [Gathering.addFiles]
  unfold collectTest snapshotsIn
  rw [liftM_bind, bind_assoc]
  refine bind_congr fun found => ?_
  cases found with
  | true =>
      simp only [if_true, pure_bind]
      refine bind_congr fun files => bind_congr fun result => ?_
      cases result <;> rfl
  | false =>
      simp only [Bool.false_eq_true, if_false, pure_bind, liftM_pure, hnone]
      refine bind_congr fun result => ?_
      cases result <;> rfl

/-- A test is collected in the same way whatever was gathered before. -/
theorem collectTest_append (rule : MatchRule) (directory : Path) (g h : Gathering) (test : Path) :
    collectTest s search rule directory (g.append h) test
      = g.append <$> collectTest s search rule directory h test := by
  simp only [collectTest_eq, map_bind, map_pure, Gathering.append_addFiles, addResult_append]

theorem foldlM_gathered {α : Type} {step : Gathering → α → StateT Memory m Gathering}
    (hstep : ∀ (g h : Gathering) a, step (g.append h) a = g.append <$> step h a) (as : List α)
    (g h : Gathering) : as.foldlM step (g.append h) = g.append <$> as.foldlM step h := by
  induction as generalizing h with
  | nil => simp
  | cons a rest ih =>
      rw [List.foldlM_cons, List.foldlM_cons, hstep, map_bind, bind_map_left]
      exact bind_congr fun k => ih k

theorem collectRule_append (root : Path) (g h : Gathering) (rule : MatchRule) :
    collectRule s search root (g.append h) rule
      = g.append <$> collectRule s search root h rule := by
  unfold collectRule
  rw [map_bind]
  refine bind_congr fun tests => ?_
  cases tests with
  | error error => simp [Gathering.append_addError]
  | ok tests => exact foldlM_gathered (collectTest_append s search rule _) tests g h

end

end Suite

namespace SuiteCollection

/-- Both collections' files in order, each once, and both collections' errors. -/
def union (a b : SuiteCollection) : SuiteCollection :=
  ⟨Suite.distinct (a.files ++ b.files), a.errors ++ b.errors⟩

end SuiteCollection

namespace Suite

variable {m : Type → Type} [Monad m] [LawfulMonad m] (s : Session m) (search : Search m)

/-- Two lists of rules collect the union of what they collect one after the other. -/
theorem collect_append (root : Path) (rules others : List MatchRule) :
    collect s search root (rules ++ others) = (do
      let a ← collect s search root rules
      let b ← collect s search root others
      return a.union b) := by
  have hrest : ∀ g : Gathering, others.foldlM (collectRule s search root) g
      = g.append <$> others.foldlM (collectRule s search root) {} := by
    intro g
    rw [← foldlM_gathered (collectRule_append s search root), Gathering.append_empty]
  unfold collect
  rw [List.foldlM_append, bind_assoc, bind_assoc]
  refine bind_congr fun g => ?_
  rw [hrest, bind_map_left, pure_bind, bind_assoc]
  refine bind_congr fun h => ?_
  rw [pure_bind, SuiteCollection.union, distinct_append]
  rfl

end Suite

end ModuleTrace

import ModuleTrace.Proofs.Suite.Composition
import ModuleTrace.Proofs.Traversal.Transparency

/-!
# What a rule contributes

Each test of a rule contributes the files of its snapshots, and itself with all that it needs if
its traversal ends well; a rule whose tests cannot be found contributes one fault and no file.
Contributions are told as if every traversal were made in a session of its own. Under a loader
that never changes its answers the rules of a collection contribute just this, in one session,
whatever that was asked before.
-/

namespace ModuleTrace

namespace Suite

/-! ## Tests -/

/-- The tests of a rule are those of some files that its patterns select, in order. -/
structure Finds (reader : Glob.Reader) (rule : MatchRule) (directory : Path)
    (files tests : List Path) : Prop where
  sorted : tests.Pairwise fun p q => (p.compare q).isLE = true
  selected : ∃ selection, Selection.parse reader rule = .ok selection ∧
    ∀ test, test ∈ tests ↔ test ∈ files ∧
      (test.relativeTo? directory).any selection.selects = true

/-- Tests are selected from what a walk finds. -/
theorem findTests_finds {m : Type → Type} [Monad m] [LawfulMonad m] (search : Search m)
    (rule : MatchRule) (directory : Path) {P : List Path → Prop}
    (hwalk : Always (fun found => ∀ files, found = .ok files → P files) (search.walk directory)) :
    Always (fun found => ∀ tests, found = .ok tests →
      ∃ files, P files ∧ Finds search.reader rule directory files tests)
      (findTests search rule directory) := by
  unfold findTests
  cases hselection : Selection.parse search.reader rule with
  | error error => exact .pure fun tests htests => by cases htests
  | ok selection =>
      refine hwalk.bind fun found hfound => ?_
      cases found with
      | error error => exact .pure fun tests htests => by cases htests
      | ok files =>
          refine .pure fun tests htests => ?_
          obtain rfl := Except.ok.inj htests
          refine ⟨files, hfound files rfl, Path.pairwise_sort _, selection, hselection, ?_⟩
          intro test
          rw [(Path.sort_perm _).mem_iff, List.mem_filter]

/-! ## Contributions -/

inductive Fault where
  | rule (directory : Path) (error : SuiteError)
  | test (path : Path) (error : ResolveError)

namespace Fault

def failure : Fault → FileFailure
  | .rule directory error => ⟨directory, error.message⟩
  | .test path error => ⟨path, error.message⟩

/-- The same fault, up to the spelling of the paths that a traversal has found. -/
inductive Alike : Fault → Fault → Prop
  | rule (directory : Path) (error : SuiteError) :
      Alike (.rule directory error) (.rule directory error)
  | test (path : Path) {error other : ResolveError} (h : error.Alike other) :
      Alike (.test path error) (.test path other)

theorem Alike.of_common {a b c : Fault} (ha : a.Alike c) (hb : b.Alike c) : a.Alike b := by
  cases ha with
  | rule directory error =>
      cases hb
      exact .rule directory error
  | test path h =>
      cases hb with
      | test _ h' => exact .test path (h.of_common h')

/-- The failure tells the fault. -/
def IsTold (fault : Fault) (failure : FileFailure) : Prop :=
  ∃ told : Fault, told.Alike fault ∧ failure = told.failure

end Fault

def filesOf (test : Path) : Except ResolveError Reach → List Path
  | .ok reach => reach.files.map SourceFile.path ++ [test]
  | .error _ => []

def faultOf? (test : Path) : Except ResolveError Reach → Option Fault
  | .ok reach =>
      if reach.problems.isEmpty then none else some (.test test (.problems reach.problems))
  | .error error => some (.test test error)

section

variable (s : Session Id) (search : Search Id)

def fresh (test : Path) : Except ResolveError Reach :=
  ((s.collect test).run {}).run.1

def filesOfTest (rule : MatchRule) (directory test : Path) : List Path :=
  (snapshotsIn search (rule.snapshotDirectory directory test)).run ++ filesOf test (fresh s test)

def faultsOfTest (test : Path) : List Fault :=
  (faultOf? test (fresh s test)).toList

def filesOfRule (root : Path) (rule : MatchRule) : List Path :=
  match (findTests search rule (rule.directoryIn root)).run with
  | .error _ => []
  | .ok tests => tests.flatMap (filesOfTest s search rule (rule.directoryIn root))

def faultsOfRule (root : Path) (rule : MatchRule) : List Fault :=
  match (findTests search rule (rule.directoryIn root)).run with
  | .error error => [.rule (rule.directoryIn root) error]
  | .ok tests => tests.flatMap (faultsOfTest s)

end

/-! ## What is gathered is what is contributed -/

structure Gathering.Holds (g : Gathering) (files : List Path) (faults : List Fault) : Prop where
  files : List.Forall₂ (fun p q : Path => p.parts = q.parts) g.files files
  errors : List.Forall₂ (fun failure fault => fault.IsTold failure) g.errors faults

namespace Gathering.Holds

variable {g : Gathering} {files : List Path} {faults : List Fault} (h : g.Holds files faults)

include h

theorem addFiles (more : List Path) : (g.addFiles more).Holds (files ++ more) faults :=
  ⟨List.rel_append h.files (List.forall₂_same.2 fun _ _ => rfl), h.errors⟩

theorem addResult (test : Path) {result reference : Except ResolveError Reach}
    (halike : ModuleTrace.Alike Reach.Alike result reference) :
    (Suite.addResult g test result).Holds (files ++ filesOf test reference)
      (faults ++ (faultOf? test reference).toList) := by
  cases halike with
  | error herror =>
      rw [filesOf, List.append_nil]
      exact ⟨h.files, List.rel_append h.errors (.cons ⟨_, .test test herror, rfl⟩ .nil)⟩
  | @ok reach reference hreach =>
      have hpaths : List.Forall₂ (fun p q : Path => p.parts = q.parts)
          (reach.files.map SourceFile.path) (reference.files.map SourceFile.path) :=
        List.rel_map (fun _ _ hfile => hfile.path) hreach.files
      have htest : List.Forall₂ (fun p q : Path => p.parts = q.parts) [test] [test] :=
        .cons rfl .nil
      have hfiles := List.rel_append h.files (List.rel_append hpaths htest)
      cases hproblems : reference.problems.isEmpty with
      | true =>
          have hsame := hreach.problems.isEmpty.trans hproblems
          simp only [Suite.addResult, addReach, hsame, if_true, faultOf?, hproblems,
            Option.toList_none, List.append_nil]
          exact ⟨hfiles, h.errors⟩
      | false =>
          have hsame := hreach.problems.isEmpty.trans hproblems
          simp only [Suite.addResult, addReach, hsame, Bool.false_eq_true, if_false, faultOf?,
            hproblems, Option.toList_some]
          have hproblem : ResolveError.Alike (.problems reach.problems)
              (.problems reference.problems) := hreach.problems
          exact ⟨hfiles, List.rel_append h.errors (.cons ⟨_, .test test hproblem, rfl⟩ .nil)⟩

end Gathering.Holds

/-- Steps that add their contributions add them all. -/
theorem foldlM_holds {I : Memory → Prop} {α : Type}
    {step : Gathering → α → StateT Memory Id Gathering}
    {files : α → List Path} {faults : α → List Fault}
    (hstep : ∀ g ps es a, g.Holds ps es →
      Ensures I (step g a) (·.Holds (ps ++ files a) (es ++ faults a)))
    (as : List α) {g : Gathering} {ps : List Path} {es : List Fault} (h : g.Holds ps es) :
    Ensures I (as.foldlM step g) (·.Holds (ps ++ as.flatMap files) (es ++ as.flatMap faults)) := by
  induction as generalizing g ps es with
  | nil => exact .pure (by simpa using h)
  | cons a rest ih =>
      rw [List.foldlM_cons, List.flatMap_cons, List.flatMap_cons, ← List.append_assoc,
        ← List.append_assoc]
      exact (hstep g ps es a h).bind fun next hnext => ih hnext

section

variable {s : Session Id} (fixed : s.loader.Fixed) (search : Search Id)

include fixed

theorem collectTest_holds (rule : MatchRule) (directory : Path) {g : Gathering} {ps : List Path}
    {es : List Fault} (test : Path) (h : g.Holds ps es) :
    Ensures s.Sound (collectTest s search rule directory g test)
      (·.Holds (ps ++ filesOfTest s search rule directory test) (es ++ faultsOfTest s test)) := by
  rw [collectTest_eq]
  refine (Ensures.lift (always_id.2 rfl)).bind fun snapshots hsnapshots => ?_
  refine (Session.collect_fresh fixed test).bind fun result hresult => .pure ?_
  subst hsnapshots
  rw [filesOfTest, ← List.append_assoc]
  exact (h.addFiles _).addResult test hresult

theorem collectRule_holds (root : Path) {g : Gathering} {ps : List Path} {es : List Fault}
    (rule : MatchRule) (h : g.Holds ps es) :
    Ensures s.Sound (collectRule s search root g rule)
      (·.Holds (ps ++ filesOfRule s search root rule) (es ++ faultsOfRule s search root rule)) := by
  unfold collectRule filesOfRule faultsOfRule
  refine (Ensures.lift (always_id.2 rfl)).bind fun tests htests => ?_
  rw [htests]
  cases tests with
  | error error =>
      rw [List.append_nil]
      exact .pure ⟨h.files, List.rel_append h.errors (.cons ⟨_, .rule _ error, rfl⟩ .nil)⟩
  | ok tests =>
      exact foldlM_holds (fun _ _ _ test hg => collectTest_holds fixed search rule _ test hg)
        tests h

end

/-! ## Collections -/

section

variable (s : Session Id) (search : Search Id) (root : Path)

def collectedAfter (past : List (Call Id)) (rules : List MatchRule) : SuiteCollection :=
  ((collect s search root rules).run (s.memoryAfter past)).run.1

/-- Failures that tell the same fault, up to the spelling of paths. -/
def TellSame (failure other : FileFailure) : Prop :=
  ∃ fault, Fault.IsTold fault failure ∧ Fault.IsTold fault other

/-- A collection of just these files, each once and in order, and of failures that tell these
faults one by one. -/
structure Gathers (collection : SuiteCollection) (files : List Path) (faults : List Fault) :
    Prop where
  sorted : collection.files.Pairwise fun p q => p.compare q = .lt
  files : ∀ key, key ∈ collection.files.map Path.parts ↔ key ∈ files.map Path.parts
  errors : List.Forall₂ (fun failure fault => fault.IsTold failure) collection.errors faults

end

end Suite

/-- The same files, and failures that tell the same faults. -/
structure SuiteCollection.Same (a b : SuiteCollection) : Prop where
  files : a.files.map Path.parts = b.files.map Path.parts
  errors : List.Forall₂ Suite.TellSame a.errors b.errors

namespace Suite

namespace Gathers

variable {a b : SuiteCollection} {ps qs : List Path} {es fs : List Fault}

theorem union (ha : Gathers a ps es) (hb : Gathers b qs fs) :
    Gathers (a.union b) (ps ++ qs) (es ++ fs) where
  sorted := pairwise_distinct _
  files key := by
    show key ∈ (distinct (a.files ++ b.files)).map Path.parts ↔ _
    rw [mem_distinct_iff, List.map_append, List.map_append, List.mem_append, List.mem_append,
      ha.files, hb.files]
  errors := List.rel_append ha.errors hb.errors

/-- What is gathered from contributions is determined by them. -/
theorem same (ha : Gathers a ps es) (hb : Gathers b ps es) : a.Same b where
  files := by
    have hstrict : ∀ {c : SuiteCollection}, Gathers c ps es →
        (c.files.map Path.parts).Pairwise fun p q => Path.compareParts p q = .lt :=
      fun hc => List.pairwise_map.2 hc.sorted
    refine Path.eq_of_pairwise_lt (hstrict ha) (hstrict hb) fun key => ?_
    rw [ha.files, hb.files]
  errors := forall₂_of_common ha.errors hb.errors fun htold htold' => ⟨_, htold, htold'⟩

end Gathers

theorem collectedAfter_fixed {s : Session Id} (fixed : s.loader.Fixed) (search : Search Id)
    (root : Path) (past : List (Call Id)) (rules : List MatchRule) :
    Gathers (collectedAfter s search root past rules) (rules.flatMap (filesOfRule s search root))
      (rules.flatMap (faultsOfRule s search root)) := by
  have hrules : Ensures s.Sound (collect s search root rules) (Gathers ·
      (rules.flatMap (filesOfRule s search root))
      (rules.flatMap (faultsOfRule s search root))) := by
    have hempty : Gathering.Holds {} [] [] := ⟨.nil, .nil⟩
    refine (foldlM_holds (fun _ _ _ rule hg => collectRule_holds fixed search root rule hg) rules
      hempty).bind fun g hg => .pure ⟨pairwise_distinct _, fun key => ?_, hg.errors⟩
    have hkeys : g.files.map Path.parts
        = (rules.flatMap (filesOfRule s search root)).map Path.parts := by
      have hfiles := hg.files
      rw [List.nil_append] at hfiles
      have hmapped := List.forall₂_map_left_iff.2 (List.forall₂_map_right_iff.2 hfiles)
      exact List.forall₂_eq_eq_eq ▸ hmapped
    rw [mem_distinct_iff, hkeys]
  exact (ensures_id.1 hrules _ (Session.memoryAfter_sound fixed past)).1

end Suite

end ModuleTrace

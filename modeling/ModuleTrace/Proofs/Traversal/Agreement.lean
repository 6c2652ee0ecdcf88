import ModuleTrace.Proofs.Resolution.Agreement
import ModuleTrace.Proofs.Suite.Composition
import ModuleTrace.Proofs.Traversal.History

/-!
# Sessions over loaders that answer alike

A session does the same over another loader, as long as the two give the same answers to the
questions that stand in its journal in the end.
-/

namespace ModuleTrace

abbrev FollowsInMemory {α : Type} (a b : Loader Id) (x y : StateT Memory Id α) : Prop :=
  Follows (fun memory => memory.knowledge.sources.journal) (a.AnswersAs b) x y

namespace Session

def withLoader (s : Session Id) (other : Loader Id) : Session Id :=
  { s with loader := other }

variable {s : Session Id} {other : Loader Id} {α : Type}

theorem withKnowledge_follows {a b : Loader Id} {x y : StateT Knowledge Id α}
    (h : FollowsInKnowledge a b x y) :
    FollowsInMemory a b (withKnowledge x) (withKnowledge y) := by
  have hrun : ∀ (z : StateT Knowledge Id α) (memory : Memory),
      (withKnowledge z).run memory
        = ((z.run memory.knowledge).run.1,
          { memory with knowledge := (z.run memory.knowledge).run.2 }) := fun _ _ => rfl
  constructor
  · intro memory
    exact h.grows memory.knowledge
  · intro memory hall
    rw [hrun, hrun, h.agrees memory.knowledge hall]

theorem load_follows (path : Path) :
    FollowsInMemory s.loader other (s.load path) ((s.withLoader other).load path) :=
  withKnowledge_follows (Knowledge.load_follows path)

theorem classifyAll_follows (file : SourceFile) (specifiers : List String) :
    FollowsInMemory s.loader other (s.classifyAll file specifiers)
      ((s.withLoader other).classifyAll file specifiers) :=
  .mapM (fun specifier => withKnowledge_follows
    (Classifier.classify_follows (s.surroundings file) file specifier)) specifiers

theorem analyze_follows (file : SourceFile) :
    FollowsInMemory s.loader other (s.analyze file) ((s.withLoader other).analyze file) := by
  have hextractor : (s.withLoader other).extractor = s.extractor := rfl
  have hkeep : ∀ analysis : Analysis, FollowsInMemory s.loader other
      (do
        modify fun memory : Memory =>
          { memory with analyses := memory.analyses.insert file.path.parts analysis }
        return Except.ok (ε := ResolveError) analysis)
      (do
        modify fun memory : Memory =>
          { memory with analyses := memory.analyses.insert file.path.parts analysis }
        return Except.ok (ε := ResolveError) analysis) := by
    intro analysis
    refine .bind (.modify ?_) fun _ => .pure _
    exact fun _ => rfl
  unfold analyze
  rw [hextractor]
  refine Follows.get.bind fun memory => ?_
  split
  · exact .pure _
  · cases s.extractor file with
    | error error => exact .pure _
    | ok extraction =>
        cases extraction with
        | syntaxError message => exact hkeep _
        | specifiers found =>
            refine (classifyAll_follows file found).bind fun classifications => ?_
            exact hkeep _

theorem meet_follows (frontier : Frontier) (path : Path) :
    FollowsInMemory s.loader other (s.meet frontier path)
      ((s.withLoader other).meet frontier path) := by
  have hoptions : (s.withLoader other).options = s.options := rfl
  unfold meet
  rw [hoptions]
  split
  · exact .pure _
  · simp only
    split
    · exact .pure _
    · refine (load_follows path).bind fun found => ?_
      cases found <;> exact .pure _

theorem meetAll_follows (paths : List Path) (frontier : Frontier) :
    FollowsInMemory s.loader other (s.meetAll paths frontier)
      ((s.withLoader other).meetAll paths frontier) := by
  induction paths generalizing frontier with
  | nil => exact .pure _
  | cons path rest ih =>
      unfold meetAll
      refine (meet_follows frontier path).bind fun found => ?_
      cases found with
      | error error => exact .pure _
      | ok frontier => exact ih frontier

theorem visit_follows (file : SourceFile) (frontier : Frontier) :
    FollowsInMemory s.loader other (s.visit file frontier)
      ((s.withLoader other).visit file frontier) := by
  unfold visit
  refine (analyze_follows file).bind fun found => ?_
  cases found with
  | error error => exact .pure _
  | ok analysis =>
      simp only
      cases analysis.failure with
      | some message => exact .pure _
      | none => exact meetAll_follows _ _

variable (hextent : other.extent = s.loader.extent)

include hextent

theorem traverse_follows (fuel : Nat) (frontier : Frontier) :
    FollowsInMemory s.loader other (s.traverse fuel frontier)
      ((s.withLoader other).traverse fuel frontier) := by
  have hsame : (s.withLoader other).loader.extent = s.loader.extent := hextent
  induction fuel generalizing frontier with
  | zero =>
      unfold traverse
      rw [hsame]
      cases frontier.queue <;> exact .pure _
  | succ fuel ih =>
      unfold traverse
      cases frontier.queue with
      | nil => exact .pure _
      | cons file queue =>
          refine (visit_follows file _).bind fun found => ?_
          cases found with
          | error error => exact .pure _
          | ok frontier => exact ih frontier

theorem collect_follows (entrypoint : Path) :
    FollowsInMemory s.loader other (s.collect entrypoint)
      ((s.withLoader other).collect entrypoint) := by
  have hsame : (s.withLoader other).loader.extent = s.loader.extent := hextent
  unfold collect
  rw [hsame]
  refine (load_follows _).bind fun found => ?_
  cases found with
  | error error => exact .pure _
  | ok file =>
      refine (traverse_follows hextent _ _).bind fun result => ?_
      cases result <;> exact .pure _

theorem resolve_follows (entrypoint : Path) :
    FollowsInMemory s.loader other (s.resolve entrypoint)
      ((s.withLoader other).resolve entrypoint) := by
  refine (collect_follows hextent entrypoint).bind fun result => ?_
  cases result <;> exact .pure _

end Session

namespace Suite

variable {s : Session Id} {other : Loader Id} (hextent : other.extent = s.loader.extent)
  (search : Search Id) (root : Path)

include hextent

theorem collectTest_follows (rule : MatchRule) (directory : Path) (g : Gathering) (test : Path) :
    FollowsInMemory s.loader other (collectTest s search rule directory g test)
      (collectTest (s.withLoader other) search rule directory g test) := by
  rw [collectTest_eq, collectTest_eq]
  refine (Follows.lift _).bind fun snapshots => ?_
  exact (Session.collect_follows hextent test).bind fun result => .pure _

theorem collectRule_follows (g : Gathering) (rule : MatchRule) :
    FollowsInMemory s.loader other (collectRule s search root g rule)
      (collectRule (s.withLoader other) search root g rule) := by
  unfold collectRule
  refine (Follows.lift _).bind fun tests => ?_
  cases tests with
  | error error => exact .pure _
  | ok tests =>
      exact .foldlM (fun g test => collectTest_follows hextent search rule _ g test) tests g

theorem collect_follows (rules : List MatchRule) :
    FollowsInMemory s.loader other (collect s search root rules)
      (collect (s.withLoader other) search root rules) :=
  (Follows.foldlM (collectRule_follows hextent search root) rules {}).bind fun _ => .pure _

end Suite

namespace Session

variable {s : Session Id} {other : Loader Id} (hextent : other.extent = s.loader.extent)

include hextent

theorem perform_follows (call : Call Id) :
    FollowsInMemory s.loader other (s.perform call) ((s.withLoader other).perform call) := by
  cases call with
  | resolve entrypoint => exact (resolve_follows hextent entrypoint).bind fun _ => .pure _
  | resolveAll entrypoints =>
      exact (Follows.mapM (resolve_follows hextent) entrypoints).bind fun _ => .pure _
  | collect entrypoint => exact (collect_follows hextent entrypoint).bind fun _ => .pure _
  | collectSuite search root rules =>
      exact (Suite.collect_follows hextent search root rules).bind fun _ => .pure _

theorem performAll_follows (calls : List (Call Id)) :
    FollowsInMemory s.loader other (s.performAll calls)
      ((s.withLoader other).performAll calls) := by
  induction calls with
  | nil => exact .pure _
  | cons call calls ih => exact (perform_follows hextent call).bind fun _ => ih

omit hextent

/-! ## What a session cannot tell -/

theorem memoryAfter_append (s : Session Id) (calls : List (Call Id)) (call : Call Id) :
    s.memoryAfter (calls ++ [call]) = ((s.perform call).run (s.memoryAfter calls)).run.2 := by
  have hrest : ∀ memory, (s.performAll (calls ++ [call])).run memory
      = (s.perform call).run ((s.performAll calls).run memory).run.2 := by
    induction calls with
    | nil => exact fun _ => rfl
    | cons first calls ih => exact fun memory => ih _
  exact congrArg (fun result => result.run.2) (hrest {})

/-- All that a run after some calls has asked, and the calls themselves, another loader answers as
the session's does. -/
def Answered (s : Session Id) (other : Loader Id) (calls : List (Call Id))
    (x : StateT Memory Id α) : Prop :=
  other.extent = s.loader.extent ∧
    ∀ access ∈ (x.run (s.memoryAfter calls)).run.2.knowledge.sources.journal,
      s.loader.AnswersAs other access

theorem Answered.collect_eq {calls : List (Call Id)} {entrypoint : Path}
    (h : s.Answered other calls (s.collect entrypoint)) :
    (s.collect entrypoint).run (s.memoryAfter calls)
      = ((s.withLoader other).collect entrypoint).run ((s.withLoader other).memoryAfter calls) :=
  ((performAll_follows h.1 calls).bind fun _ => collect_follows h.1 entrypoint).agrees {} h.2

/-- Whatever the session is asked, its loader answers all that it wants to know as the other
loader does. -/
structure CannotTell (s : Session Id) (other : Loader Id) : Prop where
  extent : other.extent = s.loader.extent
  answers : ∀ calls, ∀ access ∈ (s.memoryAfter calls).knowledge.sources.journal,
    s.loader.AnswersAs other access

theorem cannotTell_self (s : Session Id) : s.CannotTell s.loader where
  extent := rfl
  answers _ access _ := by cases access <;> exact rfl

namespace CannotTell

variable (h : s.CannotTell other)

include h

theorem memoryAfter_eq (calls : List (Call Id)) :
    s.memoryAfter calls = (s.withLoader other).memoryAfter calls :=
  congrArg (fun result => result.run.2) ((performAll_follows h.extent calls).agrees {}
    (h.answers calls))

theorem answered (calls : List (Call Id)) (entrypoint : Path) :
    s.Answered other calls (s.collect entrypoint) := by
  have hanswers := h.answers (calls ++ [.collect entrypoint])
  rw [memoryAfter_append] at hanswers
  exact ⟨h.extent, hanswers⟩

theorem collect_eq (calls : List (Call Id)) (entrypoint : Path) :
    (s.collect entrypoint).run (s.memoryAfter calls)
      = ((s.withLoader other).collect entrypoint).run (s.memoryAfter calls) := by
  have heq := (h.answered calls entrypoint).collect_eq
  rwa [← h.memoryAfter_eq] at heq

theorem collectSuite_eq (calls : List (Call Id)) (search : Suite.Search Id) (root : Path)
    (rules : List MatchRule) :
    (Suite.collect s search root rules).run (s.memoryAfter calls)
      = (Suite.collect (s.withLoader other) search root rules).run (s.memoryAfter calls) := by
  refine (Suite.collect_follows h.extent search root rules).agrees _ ?_
  have hanswers := h.answers (calls ++ [.collectSuite search root rules])
  rw [memoryAfter_append] at hanswers
  exact hanswers

end CannotTell

end Session

end ModuleTrace

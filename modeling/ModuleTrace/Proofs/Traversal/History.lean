import ModuleTrace.Proofs.Memory.Ensures
import ModuleTrace.Suite.Collection

/-!
# The past of a session

A session is called again and again, and each call leaves behind what it has learned, also one
that ended in an error. What every traversal keeps true of memory, every past keeps true.
-/

namespace ModuleTrace

inductive Call (m : Type → Type) where
  | resolve (entrypoint : Path)
  | resolveAll (entrypoints : List Path)
  | collect (entrypoint : Path)
  | collectSuite (search : Suite.Search m) (root : Path) (rules : List MatchRule)

namespace Session

section

variable {m : Type → Type} [Monad m] (s : Session m)

def perform (call : Call m) : StateT Memory m PUnit := do
  match call with
  | .resolve entrypoint => let _ ← s.resolve entrypoint
  | .resolveAll entrypoints => let _ ← s.resolveAll entrypoints
  | .collect entrypoint => let _ ← s.collect entrypoint
  | .collectSuite search root rules => let _ ← Suite.collect s search root rules

def performAll : List (Call m) → StateT Memory m PUnit
  | [] => return
  | call :: calls => do
      s.perform call
      performAll calls

end

def memoryAfter (s : Session Id) (calls : List (Call Id)) : Memory :=
  ((s.performAll calls).run {}).run.2

end Session

/-! ## What every call keeps true -/

section

variable {m : Type → Type} [Monad m] [LawfulMonad m] {s : Session m} {I : Memory → Prop}
  (h : ∀ entrypoint, Ensures I (s.collect entrypoint) fun _ => True)

include h

namespace Suite

variable (search : Search m)

theorem collectTest_ensures (rule : MatchRule) (directory : Path) (g : Gathering) (test : Path) :
    Ensures I (collectTest s search rule directory g test) fun _ => True := by
  unfold collectTest
  refine (Ensures.lift (Always.top _)).bind fun found _ => ?_
  cases found with
  | true =>
      refine (Ensures.lift (Always.top _)).bind fun files _ => ?_
      rw [pure_bind]
      refine (h test).bind fun result _ => ?_
      cases result <;> exact .pure trivial
  | false =>
      simp only [Bool.false_eq_true, if_false, pure_bind]
      refine (h test).bind fun result _ => ?_
      cases result <;> exact .pure trivial

theorem collectRule_ensures (root : Path) (g : Gathering) (rule : MatchRule) :
    Ensures I (collectRule s search root g rule) fun _ => True := by
  unfold collectRule
  refine (Ensures.lift (Always.top _)).bind fun tests _ => ?_
  cases tests with
  | error error => exact .pure trivial
  | ok tests => exact .foldlM (fun g test _ _ => collectTest_ensures h search rule _ g test) trivial

theorem collect_ensures (root : Path) (rules : List MatchRule) :
    Ensures I (collect s search root rules) fun _ => True :=
  (Ensures.foldlM (fun g rule _ _ => collectRule_ensures h search root g rule) trivial).bind
    fun _ _ => .pure trivial

end Suite

namespace Session

theorem resolve_ensures (entrypoint : Path) :
    Ensures I (s.resolve entrypoint) fun _ => True := by
  refine (h entrypoint).bind fun result _ => ?_
  cases result with
  | ok reach => exact .pure trivial
  | error error => exact .pure trivial

theorem resolveAll_ensures (entrypoints : List Path) :
    Ensures I (s.resolveAll entrypoints) fun _ => True := by
  unfold resolveAll
  induction entrypoints with
  | nil => exact .pure trivial
  | cons entrypoint rest ih =>
      rw [List.mapM_cons]
      exact (resolve_ensures h entrypoint).bind fun _ _ => ih.bind fun _ _ => .pure trivial

theorem perform_ensures (call : Call m) : Ensures I (s.perform call) fun _ => True := by
  cases call with
  | resolve entrypoint => exact (resolve_ensures h entrypoint).bind fun _ _ => .pure trivial
  | resolveAll entrypoints => exact (resolveAll_ensures h entrypoints).bind fun _ _ => .pure trivial
  | collect entrypoint => exact (h entrypoint).bind fun _ _ => .pure trivial
  | collectSuite search root rules =>
      exact (Suite.collect_ensures h search root rules).bind fun _ _ => .pure trivial

theorem performAll_ensures (calls : List (Call m)) :
    Ensures I (s.performAll calls) fun _ => True := by
  induction calls with
  | nil => exact .pure trivial
  | cons call calls ih => exact (perform_ensures h call).bind fun _ _ => ih

end Session

end

end ModuleTrace

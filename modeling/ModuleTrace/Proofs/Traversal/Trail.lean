import ModuleTrace.Proofs.Memory.Trails

/-!
# Traversals with a trail

A traversal that ends in an error tells nothing of what it has met. Told with notes, it names every
path in the moment in which the path joins those that were met.
-/

namespace ModuleTrace

namespace Session

variable {m : Type → Type} [Monad m] (s : Session m)

def meetNoted (frontier : Frontier) (path : Path) :
    StateT (List Path) (StateT Memory m) (Except ResolveError Frontier) :=
  if frontier.visited.contains path.parts then s.meet frontier path
  else do
    note path
    s.meet frontier path

def meetAllNoted : List Path → Frontier →
    StateT (List Path) (StateT Memory m) (Except ResolveError Frontier)
  | [], frontier => return .ok frontier
  | path :: rest, frontier => do
      match ← s.meetNoted frontier path with
      | .error error => return .error error
      | .ok frontier => meetAllNoted rest frontier

def visitNoted (file : SourceFile) (frontier : Frontier) :
    StateT (List Path) (StateT Memory m) (Except ResolveError Frontier) := do
  match ← s.analyze file with
  | .error error => return .error error
  | .ok analysis =>
      match analysis.failure with
      | some message =>
          return .ok { frontier with reach := frontier.reach.addFailure file.path message }
      | none =>
          let reach := s.noteProblems file analysis frontier.reach
          s.meetAllNoted (analysis.dependencies.locals.map LocalDependency.path)
            { frontier with reach }

def traverseNoted : Nat → Frontier →
    StateT (List Path) (StateT Memory m) (Except ResolveError Frontier)
  | 0, frontier =>
      match frontier.queue with
      | [] => return .ok frontier
      | _ :: _ => return .error (.limitExceeded frontier.reach.entrypoint.path s.loader.extent)
  | fuel + 1, frontier => do
      match frontier.queue with
      | [] => return .ok frontier
      | file :: queue =>
          match ← s.visitNoted file { frontier with queue } with
          | .error error => return .error error
          | .ok frontier => traverseNoted fuel frontier

def collectNoted (entrypoint : Path) :
    StateT (List Path) (StateT Memory m) (Except ResolveError Reach) := do
  let path := entrypoint.normalize
  match ← s.load path with
  | .error error => return .error (.entrypointUnreadable path error)
  | .ok file =>
      note file.path
      let start : Frontier := ⟨{ entrypoint := file }, [file.path.parts], [file]⟩
      match ← s.traverseNoted (s.loader.extent + 1) start with
      | .error error => return .error error
      | .ok frontier => return .ok frontier.reach

/-! ## Without the notes -/

variable [LawfulMonad m]

theorem meetNoted_forgets (frontier : Frontier) (path : Path) :
    Forgets (s.meetNoted frontier path) (s.meet frontier path) := by
  unfold meetNoted
  split
  · exact .lift _
  · exact .noted (.lift _)

theorem meetAllNoted_forgets (paths : List Path) (frontier : Frontier) :
    Forgets (s.meetAllNoted paths frontier) (s.meetAll paths frontier) := by
  induction paths generalizing frontier with
  | nil => exact .pure _
  | cons path rest ih =>
      unfold meetAllNoted meetAll
      refine (s.meetNoted_forgets frontier path).bind fun result => ?_
      cases result with
      | error error => exact .pure _
      | ok next => exact ih next

theorem visitNoted_forgets (file : SourceFile) (frontier : Frontier) :
    Forgets (s.visitNoted file frontier) (s.visit file frontier) := by
  unfold visitNoted visit
  refine (Forgets.lift _).bind fun result => ?_
  cases result with
  | error error => exact .pure _
  | ok analysis =>
      simp only
      cases analysis.failure with
      | some message => exact .pure _
      | none => exact s.meetAllNoted_forgets _ _

theorem traverseNoted_forgets (fuel : Nat) (frontier : Frontier) :
    Forgets (s.traverseNoted fuel frontier) (s.traverse fuel frontier) := by
  induction fuel generalizing frontier with
  | zero =>
      unfold traverseNoted traverse
      cases frontier.queue <;> exact .pure _
  | succ fuel ih =>
      unfold traverseNoted traverse
      cases frontier.queue with
      | nil => exact .pure _
      | cons file queue =>
          refine (s.visitNoted_forgets file _).bind fun result => ?_
          cases result with
          | error error => exact .pure _
          | ok next => exact ih next

/-- The notes change nothing about the walk. -/
theorem collectNoted_forgets (entrypoint : Path) :
    Forgets (s.collectNoted entrypoint) (s.collect entrypoint) := by
  unfold collectNoted collect
  refine (Forgets.lift _).bind fun found => ?_
  cases found with
  | error error => exact .pure _
  | ok file =>
      apply Forgets.noted
      refine (s.traverseNoted_forgets _ _).bind fun result => ?_
      cases result with
      | error error => exact .pure _
      | ok frontier => exact .pure _

end Session

end ModuleTrace

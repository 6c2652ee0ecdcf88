import ModuleTrace.Proofs.Traversal.Analysis

/-!
# Traversals without memory

The walk from an entrypoint, with every file taken apart anew. Under a loader that never changes
its answers a session finds the same, step by step and whatever it remembers.
-/

namespace ModuleTrace

namespace Session

variable (s : Session Id)

def meetPlain (frontier : Frontier) (path : Path) : Except ResolveError Frontier :=
  if frontier.visited.contains path.parts then .ok frontier
  else
    let frontier := { frontier with visited := path.parts :: frontier.visited }
    let reach := frontier.reach
    match s.options.fileLimit.filter (· ≤ reach.files.length) with
    | some limit => .error (.limitExceeded reach.entrypoint.path limit)
    | none =>
        match (s.loader.read path).run with
        | .ok contents =>
            .ok { frontier with
              reach := { reach with files := reach.files ++ [⟨path, contents⟩] }
              queue := frontier.queue ++ [⟨path, contents⟩] }
        | .error error =>
            .ok { frontier with
              reach := reach.addFailure path ("cannot read file: " ++ error.message) }

def visitPlain (file : SourceFile) (frontier : Frontier) : Except ResolveError Frontier :=
  match s.analysisOf file with
  | .error error => .error error
  | .ok analysis =>
      match analysis.failure with
      | some message =>
          .ok { frontier with reach := frontier.reach.addFailure file.path message }
      | none =>
          (analysis.dependencies.locals.map LocalDependency.path).foldlM s.meetPlain
            { frontier with reach := s.noteProblems file analysis frontier.reach }

def traversePlain : Nat → Frontier → Except ResolveError Frontier
  | 0, frontier =>
      match frontier.queue with
      | [] => .ok frontier
      | _ :: _ => .error (.limitExceeded frontier.reach.entrypoint.path s.loader.extent)
  | fuel + 1, frontier =>
      match frontier.queue with
      | [] => .ok frontier
      | file :: queue => do traversePlain fuel (← s.visitPlain file { frontier with queue })

def collectPlain (entrypoint : Path) : Except ResolveError Reach := do
  let path := entrypoint.normalize
  match (s.loader.read path).run with
  | .error error => .error (.entrypointUnreadable path error)
  | .ok contents =>
      let file : SourceFile := ⟨path, contents⟩
      let frontier ← s.traversePlain (s.loader.extent + 1)
        ⟨{ entrypoint := file }, [file.path.parts], [file]⟩
      return frontier.reach

end Session

/-! ## Like findings -/

structure Reach.Alike (a b : Reach) : Prop where
  entrypoint : a.entrypoint.Alike b.entrypoint
  files : List.Forall₂ SourceFile.Alike a.files b.files
  missing : List.Forall₂ (fun p q : Path => p.parts = q.parts) a.missing b.missing
  unsupported : List.Forall₂ UnsupportedModules.Alike a.unsupported b.unsupported
  failures : List.Forall₂ FileFailure.Alike a.failures b.failures

structure Resolved.Alike (a b : Resolved) : Prop where
  entrypoint : a.entrypoint.Alike b.entrypoint
  files : List.Forall₂ SourceFile.Alike a.files b.files

namespace Reach.Alike

variable {a b : Reach} (h : a.Alike b)

include h

theorem addMissing {p q : Path} (hp : p.parts = q.parts) :
    Reach.Alike (a.addMissing p) (b.addMissing q) := by
  have hany : a.missing.any p.same = b.missing.any q.same := by
    have hmissing := h.missing
    generalize a.missing = ps, b.missing = qs at hmissing ⊢
    induction hmissing with
    | nil => rfl
    | cons hpq _ ih => simp [ih, Path.same, hp, hpq]
  unfold Reach.addMissing
  rw [hany]
  split
  · exact h
  · exact ⟨h.entrypoint, h.files, List.rel_append h.missing (.cons hp .nil), h.unsupported,
      h.failures⟩

theorem addUnsupported {p q : Path} (hp : p.parts = q.parts) (names : List String) :
    Reach.Alike (a.addUnsupported p names) (b.addUnsupported q names) := by
  unfold Reach.addUnsupported
  split
  · exact h
  · exact ⟨h.entrypoint, h.files, h.missing, List.rel_append h.unsupported (.cons ⟨hp, rfl⟩ .nil),
      h.failures⟩

theorem addFailure {p q : Path} (hp : p.parts = q.parts) (message : String) :
    Reach.Alike (a.addFailure p message) (b.addFailure q message) :=
  ⟨h.entrypoint, h.files, h.missing, h.unsupported,
    List.rel_append h.failures (.cons ⟨hp, rfl⟩ .nil)⟩

theorem noteProblems (s : Session Id) {f g : SourceFile} (hf : f.path.parts = g.path.parts)
    {x y : Analysis} (hx : x.Alike y) :
    Reach.Alike (s.noteProblems f x a) (s.noteProblems g y b) := by
  have hfold : ∀ (missing : List MissingDependency) (a b : Reach), a.Alike b → Reach.Alike
      (missing.foldl (fun reach dependency => reach.addMissing dependency.attempted) a)
      (missing.foldl (fun reach dependency => reach.addMissing dependency.attempted) b) := by
    intro missing
    induction missing with
    | nil => exact fun _ _ hab => hab
    | cons dependency rest ih => exact fun _ _ hab => ih _ _ (hab.addMissing rfl)
  unfold Session.noteProblems
  rw [hx.missing, hx.external]
  simp only
  split
  · exact (hfold _ _ _ h).addUnsupported hf _
  · exact hfold _ _ _ h

end Reach.Alike

/-! ## Step by step -/

namespace Session

/-- A frontier on the way of a plain one: both have found the same and wait for the same files. -/
structure Tracks (s : Session Id) (a b : Frontier) : Prop where
  reach : a.reach.Alike b.reach
  visited : a.visited = b.visited
  queue : List.Forall₂ SourceFile.Alike a.queue b.queue
  loads : ∀ file ∈ a.queue, s.Loads file

variable {s : Session Id} (fixed : s.loader.Fixed)

include fixed

theorem meet_plain {a b : Frontier} (h : s.Tracks a b) {p q : Path} (hp : p.parts = q.parts) :
    Ensures s.Sound (s.meet a p) (Alike s.Tracks · (s.meetPlain b q)) := by
  unfold meet meetPlain
  rw [h.visited, hp]
  split
  · exact .pure (.ok h)
  · simp only
    rw [h.reach.files.length_eq]
    cases s.options.fileLimit.filter (· ≤ b.reach.files.length) with
    | some limit => exact .pure (.error ⟨h.reach.entrypoint.path, rfl⟩)
    | none =>
        refine (load_ensures fixed p).bind fun found hfound => ?_
        rw [← fixed.read_congr hp]
        cases found with
        | error error =>
            simp only [Loader.Serves] at hfound
            rw [hfound]
            exact .pure (.ok ⟨h.reach.addFailure hp _, rfl, h.queue, h.loads⟩)
        | ok file =>
            have hloads := loads_of_serves fixed hfound
            obtain ⟨hfile, hread⟩ := hfound
            rw [hread]
            have halike : file.Alike ⟨q, file.contents⟩ := ⟨hfile.trans hp, rfl⟩
            refine .pure (.ok ⟨⟨h.reach.entrypoint, ?_, h.reach.missing, h.reach.unsupported,
              h.reach.failures⟩, rfl, ?_, ?_⟩)
            · exact List.rel_append h.reach.files (.cons halike .nil)
            · exact List.rel_append h.queue (.cons halike .nil)
            · intro other hother
              rcases List.mem_append.1 hother with hother | hother
              · exact h.loads other hother
              · rw [List.mem_singleton.1 hother]
                exact hloads

theorem meetAll_plain {ps qs : List Path}
    (hpaths : List.Forall₂ (fun p q : Path => p.parts = q.parts) ps qs) {a b : Frontier}
    (h : s.Tracks a b) :
    Ensures s.Sound (s.meetAll ps a) (Alike s.Tracks · (qs.foldlM s.meetPlain b)) := by
  induction hpaths generalizing a b with
  | nil => exact .pure (.ok h)
  | cons hpq _ ih =>
      rw [meetAll, List.foldlM_cons]
      refine (meet_plain fixed h hpq).bind fun found hfound => ?_
      generalize s.meetPlain b _ = other at hfound ⊢
      cases hfound with
      | error herror => exact .pure (.error herror)
      | ok hfound => exact ih hfound

theorem visit_plain {file other : SourceFile} (hloads : s.Loads file) (hfile : file.Alike other)
    {a b : Frontier} (h : s.Tracks a b) :
    Ensures s.Sound (s.visit file a) (Alike s.Tracks · (s.visitPlain other b)) := by
  unfold visit visitPlain
  refine (analyze_ensures fixed hloads hfile).bind fun found hfound => ?_
  generalize s.analysisOf other = reference at hfound ⊢
  cases hfound with
  | error herror => exact .pure (.error herror)
  | @ok found reference halike =>
      simp only
      rw [halike.failure]
      cases reference.failure with
      | some message =>
          exact .pure (.ok ⟨h.reach.addFailure hfile.path message, h.visited, h.queue, h.loads⟩)
      | none =>
          refine meetAll_plain fixed ?_
            ⟨h.reach.noteProblems s hfile.path halike, h.visited, h.queue, h.loads⟩
          exact List.rel_map (fun _ _ hlocal => hlocal.path) halike.locals

theorem traverse_plain (fuel : Nat) {a b : Frontier} (h : s.Tracks a b) :
    Ensures s.Sound (s.traverse fuel a) (Alike s.Tracks · (s.traversePlain fuel b)) := by
  induction fuel generalizing a b with
  | zero =>
      have hqueue := h.queue
      unfold traverse traversePlain
      generalize hq : a.queue = queue, b.queue = other at hqueue
      cases hqueue with
      | nil => exact .pure (.ok h)
      | cons _ _ => exact .pure (.error ⟨h.reach.entrypoint.path, rfl⟩)
  | succ fuel ih =>
      have hqueue := h.queue
      have hloads := h.loads
      unfold traverse traversePlain
      generalize a.queue = queue, b.queue = other at hqueue hloads
      cases hqueue with
      | nil => exact .pure (.ok h)
      | @cons file reference queue other hfile hrest =>
          have hstart : s.Tracks { a with queue } { b with queue := other } :=
            ⟨h.reach, h.visited, hrest, fun f hf => hloads f (by simp [hf])⟩
          refine (visit_plain fixed (hloads file (by simp)) hfile hstart).bind
            fun found hfound => ?_
          simp only
          generalize s.visitPlain reference _ = next at hfound ⊢
          cases hfound with
          | error herror => exact .pure (.error herror)
          | ok hfound => exact ih hfound

/-- A session finds what the plain walk finds, whatever it remembers. -/
theorem collect_plain {p q : Path} (hp : p.parts = q.parts) :
    Ensures s.Sound (s.collect p) (Alike Reach.Alike · (s.collectPlain q)) := by
  unfold collect collectPlain
  rw [Path.normalize_congr hp]
  refine (load_ensures fixed q.normalize).bind fun found hfound => ?_
  cases found with
  | error error =>
      simp only [Loader.Serves] at hfound
      simp only [hfound]
      exact .pure (.error ⟨rfl, rfl⟩)
  | ok file =>
      have hloads := loads_of_serves fixed hfound
      obtain ⟨hfile, hread⟩ := hfound
      have halike : file.Alike ⟨q.normalize, file.contents⟩ := ⟨hfile, rfl⟩
      have hstart : s.Tracks ⟨{ entrypoint := file }, [file.path.parts], [file]⟩
          ⟨{ entrypoint := ⟨q.normalize, file.contents⟩ }, [q.normalize.parts],
            [⟨q.normalize, file.contents⟩]⟩ :=
        ⟨⟨halike, .nil, .nil, .nil, .nil⟩, by simp [hfile], .cons halike .nil,
          by simpa using hloads⟩
      simp only [hread]
      refine (traverse_plain fixed _ hstart).bind fun result hresult => ?_
      generalize s.traversePlain _ _ = reference at hresult ⊢
      cases hresult with
      | error herror => exact .pure (.error herror)
      | ok hresult => exact .pure (.ok hresult.reach)

omit fixed

/-- Three files that lead to one another; the last one does not fit its grammar. -/
def sample : Session Id where
  loader := .ofTexts [([.root, .name "a.js"], "a"), ([.root, .name "b.js"], "b"),
    ([.root, .name "c.js"], "c")]
  extractor := .ofTexts [("a", .specifiers ["./b.js", "./gone.js", "fs", "lodash"]),
    ("b", .specifiers ["./a.js", "./c.js", "./b.js"]), ("c", .syntaxError "unexpected token")]
  options := {}
  workspace := none

theorem sample_fixed : sample.loader.Fixed :=
  Loader.ofTexts_fixed _

def sampleReach : Reach where
  entrypoint := ⟨⟨"/a.js"⟩, "a"⟩
  files := [⟨⟨"/b.js"⟩, "b"⟩, ⟨⟨"/c.js"⟩, "c"⟩]
  missing := [⟨"/gone.js"⟩]
  unsupported := [⟨⟨"/a.js"⟩, ["lodash"]⟩]
  failures := [⟨⟨"/c.js"⟩, "unexpected token"⟩]

theorem sample_collectPlain : sample.collectPlain ⟨"/x/../a.js"⟩ = .ok sampleReach := by
  decide +kernel

end Session

end ModuleTrace

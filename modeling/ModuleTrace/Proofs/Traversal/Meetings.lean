import ModuleTrace.Proofs.Traversal.Plain
import ModuleTrace.Proofs.Traversal.Trail

/-!
# Paths in the order in which they are met

What a traversal has visited in the end are the paths that it has met one by one, and the walk
without memory meets the same ones in the same order.
-/

namespace ModuleTrace

namespace Session

def startAt (entry : SourceFile) : Frontier :=
  ⟨{ entrypoint := entry }, [entry.path.parts], [entry]⟩

theorem exists_traversePlain {s : Session Id} {entrypoint : Path} {reach : Reach}
    (h : s.collectPlain entrypoint = .ok reach) :
    ∃ contents b, (s.loader.read entrypoint.normalize).run = .ok contents ∧
      s.traversePlain (s.loader.extent + 1) (startAt ⟨entrypoint.normalize, contents⟩) = .ok b ∧
      b.reach = reach := by
  unfold collectPlain at h
  simp only at h
  cases hread : (s.loader.read entrypoint.normalize).run with
  | error error =>
      rw [hread] at h
      cases h
  | ok contents =>
      simp only [hread] at h
      cases hrun : s.traversePlain (s.loader.extent + 1)
          (startAt ⟨entrypoint.normalize, contents⟩) with
      | error error =>
          rw [startAt] at hrun
          rw [hrun] at h
          cases h
      | ok b =>
          refine ⟨contents, b, rfl, hrun, ?_⟩
          rw [startAt] at hrun
          rw [hrun] at h
          cases h
          rfl

section

variable {m : Type → Type} [Monad m] [LawfulMonad m] (s : Session m)

/-- A walk on from a frontier notes the paths that join those met. -/
def Notes (a : Frontier)
    (y : StateT (List Path) (StateT Memory m) (Except ResolveError Frontier)) : Prop :=
  ∀ trail, Leads (fun _ => True) (y.run trail) fun result _ => ∀ b, result.1 = .ok b →
    ∃ more, result.2 = trail ++ more ∧ b.visited = (more.map Path.parts).reverse ++ a.visited

namespace Notes

theorem ok {a b : Frontier} (h : b.visited = a.visited) : Notes (m := m) a (pure (.ok b)) := by
  intro trail
  rw [StateT.run_pure]
  refine .pure fun _ _ => ?_
  rintro _ ⟨⟩
  exact ⟨[], by simp, by simpa using h⟩

theorem error (a : Frontier) (error : ResolveError) :
    Notes (m := m) a (pure (.error error)) := by
  intro trail
  rw [StateT.run_pure]
  refine .pure fun _ _ => ?_
  rintro _ ⟨⟩

theorem lift_bind {α : Type} {a : Frontier} (x : StateT Memory m α)
    {g : α → StateT (List Path) (StateT Memory m) (Except ResolveError Frontier)}
    (hg : ∀ value, Notes a (g value)) :
    Notes a (liftM x >>= g) := by
  intro trail
  have hrun : (liftM x >>= g : StateT (List Path) (StateT Memory m) _).run trail
      = x >>= fun value => (g value).run trail := by
    rw [StateT.run_bind]
    show (StateT.lift x).run trail >>= _ = _
    rw [StateT.run_lift, bind_assoc]
    simp
  rw [hrun]
  have htop : Leads (fun _ => True) x fun _ _ => True := fun _ _ => .top _
  exact htop.bind fun value => hg value trail

/-- A walk goes on from where it has come to. -/
theorem bind {a : Frontier}
    {y : StateT (List Path) (StateT Memory m) (Except ResolveError Frontier)}
    {g : Except ResolveError Frontier →
      StateT (List Path) (StateT Memory m) (Except ResolveError Frontier)}
    (hy : Notes a y) (hok : ∀ b, Notes b (g (.ok b)))
    (herror : ∀ error, g (.error error) = pure (.error error)) : Notes a (y >>= g) := by
  intro trail
  rw [StateT.run_bind]
  refine (hy trail).bind fun result => ?_
  obtain ⟨result, notes⟩ := result
  cases result with
  | error error =>
      rw [herror, StateT.run_pure]
      refine .pure fun _ _ => ?_
      rintro _ ⟨⟩
  | ok next =>
      intro memory hmemory
      obtain ⟨first, hfirst, hvisited⟩ := hmemory next rfl
      have hfirst : notes = trail ++ first := hfirst
      refine (hok next notes memory trivial).mono fun after hafter b hb => ?_
      obtain ⟨more, hmore, hmet⟩ := hafter b hb
      refine ⟨first ++ more, ?_, ?_⟩
      · rw [hmore, hfirst, List.append_assoc]
      · rw [hmet, hvisited]
        simp

end Notes

theorem meet_visited {a : Frontier} {path : Path} (h : a.visited.contains path.parts = false) :
    Leads (fun _ => True) (s.meet a path) fun result _ => ∀ b, result = .ok b →
      b.visited = path.parts :: a.visited := by
  unfold meet
  rw [h]
  simp only [Bool.false_eq_true, if_false]
  split
  · refine .pure fun _ _ => ?_
    rintro _ ⟨⟩
  · have htop : Leads (fun _ => True) (s.load path) fun _ _ => True := fun _ _ => .top _
    refine htop.bind fun found => ?_
    cases found with
    | ok file =>
        refine .pure fun _ _ => ?_
        rintro _ ⟨⟩
        rfl
    | error error =>
        refine .pure fun _ _ => ?_
        rintro _ ⟨⟩
        rfl

theorem meetNoted_notes (a : Frontier) (path : Path) : Notes a (s.meetNoted a path) := by
  unfold meetNoted
  split
  · rename_i hmet
    have hmeet : s.meet a path = pure (.ok a) := by simp only [meet, hmet, if_true]
    intro trail
    show Leads _ ((StateT.lift (s.meet a path)).run _) _
    rw [hmeet, StateT.run_lift, pure_bind]
    refine .pure fun _ _ => ?_
    rintro _ ⟨⟩
    exact ⟨[], by simp, rfl⟩
  · rename_i hnew
    intro trail
    rw [StateT.run_bind, note, StateT.run_modify, pure_bind]
    show Leads _ ((StateT.lift (s.meet a path)).run _) _
    rw [StateT.run_lift]
    refine (s.meet_visited (by simpa using hnew)).bind fun result => .pure fun _ hresult b hb => ?_
    refine ⟨[path], rfl, ?_⟩
    rw [hresult b hb]
    rfl

theorem meetAllNoted_notes (paths : List Path) (a : Frontier) :
    Notes a (s.meetAllNoted paths a) := by
  induction paths generalizing a with
  | nil => exact .ok rfl
  | cons path rest ih => exact (s.meetNoted_notes a path).bind ih fun _ => rfl

theorem visitNoted_notes (file : SourceFile) (a : Frontier) :
    Notes a (s.visitNoted file a) := by
  unfold visitNoted
  refine .lift_bind _ fun result => ?_
  cases result with
  | error error => exact .error _ _
  | ok analysis =>
      simp only
      split
      · exact .ok rfl
      · exact s.meetAllNoted_notes _ { a with reach := _ }

theorem traverseNoted_notes (fuel : Nat) (a : Frontier) :
    Notes a (s.traverseNoted fuel a) := by
  induction fuel generalizing a with
  | zero =>
      unfold traverseNoted
      split
      · exact .ok rfl
      · exact .error _ _
  | succ fuel ih =>
      unfold traverseNoted
      split
      · exact .ok rfl
      · rename_i file queue _
        exact (s.visitNoted_notes file { a with queue }).bind ih fun _ => rfl

end

section

variable (s : Session Id)

/-- The paths that a fresh session meets, the entrypoint first. -/
def met (entrypoint : Path) : List Path :=
  (((s.collectNoted entrypoint).run []).run {}).run.1.2

variable {s} (fixed : s.loader.Fixed)

include fixed

/-- What was visited in the end are the paths in the order in which they were met. -/
theorem met_of_traversePlain {entrypoint : Path} {contents : String} {b : Frontier}
    (hread : (s.loader.read entrypoint.normalize).run = .ok contents)
    (h : s.traversePlain (s.loader.extent + 1) (startAt ⟨entrypoint.normalize, contents⟩) = .ok b) :
    (s.met entrypoint).map Path.parts = b.visited.reverse := by
  have hnoted : Leads s.Sound ((s.collectNoted entrypoint).run []) fun result _ =>
      result.2.map Path.parts = b.visited.reverse := by
    unfold collectNoted
    rw [StateT.run_bind]
    show Leads s.Sound ((StateT.lift (s.load entrypoint.normalize)).run [] >>= _) _
    rw [StateT.run_lift, bind_assoc]
    refine (load_ensures fixed entrypoint.normalize).leads fun found hfound => ?_
    rw [pure_bind]
    cases found with
    | error error =>
        simp only [Loader.Serves, hread] at hfound
        cases hfound
    | ok file =>
        have hloads := loads_of_serves fixed hfound
        obtain ⟨hfile, hcontents⟩ := hfound
        have hcontents : file.contents = contents := by
          rw [hread] at hcontents
          exact (Except.ok.inj hcontents).symm
        have hstart : s.Tracks (startAt file) (startAt ⟨entrypoint.normalize, contents⟩) := by
          have halike : file.Alike ⟨entrypoint.normalize, contents⟩ := ⟨hfile, hcontents⟩
          exact ⟨⟨halike, .nil, .nil, .nil, .nil⟩, by simp [startAt, hfile], .cons halike .nil,
            by simpa [startAt] using hloads⟩
        have htracks := Forgets.leads_of_id
          (s.traverseNoted_forgets (s.loader.extent + 1) (startAt file))
          (traverse_plain fixed (s.loader.extent + 1) hstart) [file.path]
        have hnotes := (s.traverseNoted_notes (s.loader.extent + 1) (startAt file)
          [file.path]).weaken (J := s.Sound) fun _ _ => trivial
        simp only
        rw [StateT.run_bind, note, StateT.run_modify, pure_bind, StateT.run_bind]
        refine (Leads.and_of_id htracks hnotes).bind fun result => ?_
        rw [h]
        obtain ⟨result, notes⟩ := result
        cases result with
        | error error =>
            refine .pure fun memory hmemory => ?_
            cases hmemory.1
        | ok next =>
            refine .pure fun memory hmemory => ?_
            obtain ⟨halike, hmet⟩ := hmemory
            obtain ⟨more, hmore, hvisited⟩ := hmet next rfl
            cases halike with
            | ok hnext =>
                have hmore : notes = [file.path] ++ more := hmore
                show notes.map Path.parts = b.visited.reverse
                rw [← hnext.visited, hvisited, hmore]
                simp [startAt]
  exact leads_id.1 hnoted {} sound_empty

end

end Session

end ModuleTrace

import ModuleTrace.Proofs.Traversal.History
import ModuleTrace.Proofs.Traversal.Plain

/-!
# Sessions forget nothing that counts

Under a loader that never changes its answers, a session answers as a fresh one would, whatever it
was asked before and however that ended.
-/

namespace ModuleTrace

theorem SourceFile.Alike.of_common {a b c : SourceFile} (ha : a.Alike c) (hb : b.Alike c) :
    a.Alike b :=
  ⟨ha.path.trans hb.path.symm, ha.contents.trans hb.contents.symm⟩

theorem Reach.Alike.problems {a b : Reach} (h : a.Alike b) : a.problems.Alike b.problems :=
  ⟨h.entrypoint.path, h.missing, h.unsupported, h.failures⟩

theorem Reach.Alike.of_common {a b c : Reach} (ha : a.Alike c) (hb : b.Alike c) : a.Alike b := by
  have hproblems := ha.problems.of_common hb.problems
  have hfiles : List.Forall₂ SourceFile.Alike a.files b.files :=
    forall₂_of_common ha.files hb.files SourceFile.Alike.of_common
  exact ⟨ha.entrypoint.of_common hb.entrypoint, hfiles, hproblems.missing, hproblems.unsupported,
    hproblems.failures⟩

theorem Resolved.Alike.of_common {a b c : Resolved} (ha : a.Alike c) (hb : b.Alike c) :
    a.Alike b :=
  ⟨ha.entrypoint.of_common hb.entrypoint,
    forall₂_of_common ha.files hb.files SourceFile.Alike.of_common⟩

theorem Problems.Alike.isEmpty {a b : Problems} (h : a.Alike b) : a.isEmpty = b.isEmpty := by
  have hnil : ∀ {α β : Type} {R : α → β → Prop} {as : List α} {bs : List β},
      List.Forall₂ R as bs → as.isEmpty = bs.isEmpty := by
    intro α β R as bs hlist
    cases hlist <;> rfl
  rw [Problems.isEmpty, Problems.isEmpty, hnil h.missing, hnil h.unsupported, hnil h.failures]

theorem Reach.Alike.validate {a b : Reach} (h : a.Alike b) :
    ModuleTrace.Alike Resolved.Alike a.validate b.validate := by
  unfold Reach.validate
  rw [h.problems.isEmpty]
  split
  · exact .ok ⟨h.entrypoint, h.files⟩
  · exact .error h.problems

namespace Session

variable {s : Session Id} (fixed : s.loader.Fixed)

include fixed

/-- Every past leaves a memory that says what the loader says. -/
theorem memoryAfter_sound (calls : List (Call Id)) : s.Sound (s.memoryAfter calls) := by
  have hcollect : ∀ entrypoint, Ensures s.Sound (s.collect entrypoint) fun _ => True :=
    fun _ => (collect_plain fixed rfl).mono fun _ _ => trivial
  exact (ensures_id.1 (performAll_ensures hcollect calls) {} sound_empty).2

/-- Whatever its past, a session finds what the walk without memory finds. -/
theorem collect_memoryAfter (calls : List (Call Id)) (entrypoint : Path) :
    Alike Reach.Alike ((s.collect entrypoint).run (s.memoryAfter calls)).run.1
      (s.collectPlain entrypoint) :=
  (ensures_id.1 (collect_plain fixed rfl) _ (memoryAfter_sound fixed calls)).1

theorem exists_collect_alike (calls : List (Call Id)) {entrypoint : Path} {plain : Reach}
    (h : s.collectPlain entrypoint = .ok plain) :
    ∃ reach, ((s.collect entrypoint).run (s.memoryAfter calls)).run.1 = .ok reach ∧
      reach.Alike plain := by
  have halike := collect_memoryAfter fixed calls entrypoint
  rw [h] at halike
  generalize ((s.collect entrypoint).run (s.memoryAfter calls)).run.1 = result at halike
  cases halike with
  | ok hreach => exact ⟨_, rfl, hreach⟩

theorem exists_error_alike (calls : List (Call Id)) {entrypoint : Path} {cause : ResolveError}
    (h : s.collectPlain entrypoint = .error cause) :
    ∃ error, ((s.collect entrypoint).run (s.memoryAfter calls)).run.1 = .error error ∧
      error.Alike cause := by
  have halike := collect_memoryAfter fixed calls entrypoint
  rw [h] at halike
  generalize ((s.collect entrypoint).run (s.memoryAfter calls)).run.1 = result at halike
  cases halike with
  | error herror => exact ⟨_, rfl, herror⟩

/-- The files that are found have the paths that the plain walk gives. -/
theorem exists_collect_files (calls : List (Call Id)) {entrypoint : Path} {paths : List Path}
    (h : (s.collectPlain entrypoint).toOption.map (fun reach => reach.files.map SourceFile.path)
      = some paths) :
    ∃ reach, ((s.collect entrypoint).run (s.memoryAfter calls)).run.1 = .ok reach ∧
      List.Forall₂ (fun file path => file.path.parts = path.parts) reach.files paths := by
  obtain ⟨plain, hplain, rfl⟩ := Option.map_eq_some_iff.1 h
  have hok : s.collectPlain entrypoint = .ok plain := by
    cases hresult : s.collectPlain entrypoint with
    | error error => simp [hresult, Except.toOption] at hplain
    | ok reach => simpa [hresult, Except.toOption] using hplain
  obtain ⟨reach, hreach, halike⟩ := exists_collect_alike fixed calls hok
  refine ⟨reach, hreach, List.forall₂_map_right_iff.2 ?_⟩
  exact halike.files.imp fun _ _ hfile => hfile.path

theorem resolve_plain {p q : Path} (hp : p.parts = q.parts) : Ensures s.Sound (s.resolve p)
    (Alike Resolved.Alike · ((s.collectPlain q).bind Reach.validate)) := by
  unfold resolve
  refine (collect_plain fixed hp).bind fun result hresult => ?_
  generalize s.collectPlain q = reference at hresult ⊢
  cases hresult with
  | ok hreach => exact .pure hreach.validate
  | error herror => exact .pure (.error herror)

theorem collect_fresh (entrypoint : Path) : Ensures s.Sound (s.collect entrypoint)
    (Alike Reach.Alike · ((s.collect entrypoint).run {}).run.1) := by
  have hfresh := (ensures_id.1 (collect_plain fixed (p := entrypoint) rfl) {} sound_empty).1
  refine (collect_plain fixed rfl).mono fun result hresult => ?_
  exact hresult.of_common hfresh Reach.Alike.of_common

theorem resolve_fresh (entrypoint : Path) : Ensures s.Sound (s.resolve entrypoint)
    (Alike Resolved.Alike · ((s.resolve entrypoint).run {}).run.1) := by
  have hfresh := (ensures_id.1 (resolve_plain fixed (p := entrypoint) rfl) {} sound_empty).1
  refine (resolve_plain fixed rfl).mono fun result hresult => ?_
  exact hresult.of_common hfresh Resolved.Alike.of_common

/-- A session's past shows in no answer: traversals find what they find in a fresh session, and a
list of entrypoints gives item by item what a session for each would give. -/
theorem results_forget_past (calls : List (Call Id)) :
    (∀ entrypoint, Alike Reach.Alike
      ((s.collect entrypoint).run (s.memoryAfter calls)).run.1
      ((s.collect entrypoint).run {}).run.1) ∧
    (∀ entrypoint, Alike Resolved.Alike
      ((s.resolve entrypoint).run (s.memoryAfter calls)).run.1
      ((s.resolve entrypoint).run {}).run.1) ∧
    ∀ entrypoints, List.Forall₂ (Alike Resolved.Alike)
      ((s.resolveAll entrypoints).run (s.memoryAfter calls)).run.1
      (entrypoints.map fun entrypoint => ((s.resolve entrypoint).run {}).run.1) := by
  have hsound := memoryAfter_sound fixed calls
  refine ⟨fun entrypoint => ?_, fun entrypoint => ?_, fun entrypoints => ?_⟩
  · exact (ensures_id.1 (collect_fresh fixed entrypoint) _ hsound).1
  · exact (ensures_id.1 (resolve_fresh fixed entrypoint) _ hsound).1
  · have hall : Ensures s.Sound (s.resolveAll entrypoints) (List.Forall₂
        (fun result entrypoint =>
          Alike Resolved.Alike result ((s.resolve entrypoint).run {}).run.1) · entrypoints) :=
      Ensures.mapM (R := Eq) (fun entrypoint _ heq => heq ▸ resolve_fresh fixed entrypoint)
        (List.forall₂_same.2 fun _ _ => rfl)
    exact List.forall₂_map_right_iff.2 (ensures_id.1 hall _ hsound).1

omit fixed

theorem results_forget_past_sample : sample.loader.Fixed ∧
    Alike Reach.Alike
      ((sample.collect ⟨"/b.js"⟩).run (sample.memoryAfter
        [.resolve ⟨"/gone.js"⟩, .collect ⟨"/./a.js"⟩, .resolveAll [⟨"/c.js"⟩, ⟨"/b.js"⟩]])).run.1
      ((sample.collect ⟨"/b.js"⟩).run {}).run.1 :=
  ⟨sample_fixed, (results_forget_past sample_fixed _).1 _⟩

end Session

end ModuleTrace

import ModuleTrace.Proofs.Traversal.Steps

/-!
# Progress of a traversal

On the way, the files found are those taken apart and those that wait, each of them once, and what
was visited are the entrypoint and the targets of the files taken apart. In the end everything
found has been taken apart.
-/

namespace ModuleTrace

namespace Session

variable {s : Session Id}

/-! ## Loaded files -/

def Reads (s : Session Id) (path : Path) : Prop :=
  ∃ contents, (s.loader.read path).run = .ok contents

theorem Reads.congr (fixed : s.loader.Fixed) {p q : Path} (h : p.parts = q.parts)
    (hp : s.Reads p) : s.Reads q := by
  obtain ⟨contents, hcontents⟩ := hp
  exact ⟨contents, by rw [← fixed.read_congr h, hcontents]⟩

theorem mem_loaded {paths : List Path} {file : SourceFile} (h : file ∈ s.loaded paths) :
    s.Loads file ∧ file.path ∈ paths := by
  unfold loaded at h
  obtain ⟨path, hpath, hfile⟩ := List.mem_filterMap.1 h
  cases hread : (s.loader.read path).run with
  | error error => simp [hread, Except.toOption] at hfile
  | ok contents =>
      simp only [hread, Except.toOption, Option.map_some, Option.some.injEq] at hfile
      subst hfile
      exact ⟨hread, hpath⟩

theorem exists_mem_loaded {paths : List Path} {path : Path} (h : path ∈ paths)
    (hreads : s.Reads path) : ∃ file ∈ s.loaded paths, file.path = path := by
  obtain ⟨contents, hcontents⟩ := hreads
  refine ⟨⟨path, contents⟩, List.mem_filterMap.2 ⟨path, h, ?_⟩, rfl⟩
  simp [hcontents, Except.toOption]

theorem loaded_paths_sublist (paths : List Path) :
    ((s.loaded paths).map SourceFile.path).Sublist paths := by
  induction paths with
  | nil => exact .slnil
  | cons path rest ih =>
      cases hread : (s.loader.read path).run with
      | ok contents =>
          have hcons : s.loaded (path :: rest) = ⟨path, contents⟩ :: s.loaded rest := by
            simp [loaded, hread, Except.toOption]
          rw [hcons]
          exact ih.cons_cons path
      | error error =>
          have hcons : s.loaded (path :: rest) = s.loaded rest := by
            simp [loaded, hread, Except.toOption]
          rw [hcons]
          exact ih.cons path

/-! ## The invariant -/

/-- A frontier that has spread from an entrypoint over the files taken apart. -/
structure Spread (s : Session Id) (entry : SourceFile) (done : List SourceFile) (a : Frontier) :
    Prop where
  entrypoint : a.reach.entrypoint = entry
  files : entry :: a.reach.files = done ++ a.queue
  loads : ∀ f ∈ done ++ a.queue, s.Loads f
  distinct : ((done ++ a.queue).map fun f => f.path.parts).Nodup
  visited : ∀ key, key ∈ a.visited ↔
    key = entry.path.parts ∨ ∃ f ∈ done, ∃ p ∈ s.targets f, p.parts = key
  met : ∀ f ∈ done ++ a.queue, f.path.parts ∈ a.visited
  found : ∀ p : Path, p.parts ∈ a.visited → s.Reads p →
    ∃ f ∈ done ++ a.queue, f.path.parts = p.parts

namespace Spread

theorem start {entry : SourceFile} (h : s.Loads entry) :
    s.Spread entry [] ⟨{ entrypoint := entry }, [entry.path.parts], [entry]⟩ where
  entrypoint := rfl
  files := rfl
  loads := by simpa using h
  distinct := by simp
  visited := by simp
  met := by simp
  found p hp _ := by
    have hparts : p.parts = entry.path.parts := by simpa using hp
    exact ⟨entry, by simp, hparts.symm⟩

variable {entry file : SourceFile} {queue : List SourceFile} {a b : Frontier}

theorem next_files (done : List SourceFile) (hqueue : a.queue = file :: queue)
    (hvisits : s.Visits file { a with queue } b) :
    done ++ [file] ++ b.queue
      = done ++ a.queue ++ s.loaded (firstMet a.visited (s.targets file)) := by
  rw [hvisits.queue, hqueue]
  simp

theorem mem_visited_iff (hvisits : s.Visits file { a with queue } b) (key : List Path.Part) :
    key ∈ b.visited ↔ key ∈ (s.targets file).map Path.parts ∨ key ∈ a.visited := by
  have hvisited := hvisits.visited
  simp only at hvisited
  rw [hvisited, List.mem_append, List.mem_reverse, mem_firstMet_or_visited]

variable {done : List SourceFile} (h : s.Spread entry done a) (hqueue : a.queue = file :: queue)
  (hvisits : s.Visits file { a with queue } b)

include h hvisits

theorem step_visited (key : List Path.Part) : key ∈ b.visited ↔
    key = entry.path.parts ∨ ∃ f ∈ done ++ [file], ∃ p ∈ s.targets f, p.parts = key := by
  rw [mem_visited_iff hvisits, h.visited, List.mem_map]
  constructor
  · rintro (⟨p, hp, hparts⟩ | hkey | ⟨f, hf, hp⟩)
    · exact .inr ⟨file, by simp, p, hp, hparts⟩
    · exact .inl hkey
    · exact .inr ⟨f, by simp [hf], hp⟩
  · rintro (hkey | ⟨f, hf, hp⟩)
    · exact .inr (.inl hkey)
    · rcases List.mem_append.1 hf with hf | hf
      · exact .inr (.inr ⟨f, hf, hp⟩)
      · rw [List.mem_singleton.1 hf] at hp
        exact .inl hp

include hqueue

/-- What is loaded now was not met before, so it differs from all that was found. -/
theorem step_distinct : ((done ++ [file] ++ b.queue).map fun f => f.path.parts).Nodup := by
  rw [next_files done hqueue hvisits, List.map_append, List.nodup_append]
  refine ⟨h.distinct, ?_, ?_⟩
  · have hsublist := (loaded_paths_sublist (s := s)
      (firstMet a.visited (s.targets file))).map Path.parts
    rw [List.map_map] at hsublist
    exact hsublist.nodup (nodup_firstMet _ _)
  · intro key hkey other hother heq
    obtain ⟨f, hf, rfl⟩ := List.mem_map.1 hkey
    obtain ⟨g, hg, rfl⟩ := List.mem_map.1 hother
    refine notMem_of_mem_firstMet (mem_loaded hg).2 ?_
    rw [← heq]
    exact h.met f hf

theorem step_met : ∀ f ∈ done ++ [file] ++ b.queue, f.path.parts ∈ b.visited := by
  intro f hf
  rw [next_files done hqueue hvisits, List.mem_append] at hf
  rw [mem_visited_iff hvisits]
  rcases hf with hf | hf
  · exact .inr (h.met f hf)
  · exact .inl (List.mem_map_of_mem (mem_of_mem_firstMet (mem_loaded hf).2))

theorem step_found (fixed : s.loader.Fixed) (p : Path) (hp : p.parts ∈ b.visited)
    (hreads : s.Reads p) : ∃ f ∈ done ++ [file] ++ b.queue, f.path.parts = p.parts := by
  have hvisited := hvisits.visited
  simp only at hvisited
  rw [hvisited, List.mem_append, List.mem_reverse] at hp
  rw [next_files done hqueue hvisits]
  rcases hp with hp | hp
  · obtain ⟨q, hq, hparts⟩ := List.mem_map.1 hp
    obtain ⟨g, hg, hpath⟩ := exists_mem_loaded hq (hreads.congr fixed hparts.symm)
    exact ⟨g, List.mem_append_right _ hg, by rw [hpath, hparts]⟩
  · obtain ⟨f, hf, hparts⟩ := h.found p hp hreads
    exact ⟨f, List.mem_append_left _ hf, hparts⟩

/-- Visiting the first file that waits. -/
theorem step (fixed : s.loader.Fixed) : s.Spread entry (done ++ [file]) b := by
  have hnext := next_files done hqueue hvisits
  have hfiles : entry :: b.reach.files = done ++ [file] ++ b.queue := by
    have hfiles := hvisits.files
    simp only at hfiles
    rw [hnext, ← h.files, hfiles]
    rfl
  have hloads : ∀ f ∈ done ++ [file] ++ b.queue, s.Loads f := by
    intro f hf
    rw [hnext, List.mem_append] at hf
    rcases hf with hf | hf
    · exact h.loads f hf
    · exact (mem_loaded hf).1
  exact
    { entrypoint := hvisits.entrypoint.trans h.entrypoint
      files := hfiles
      loads := hloads
      distinct := h.step_distinct hqueue hvisits
      visited := h.step_visited hvisits
      met := h.step_met hqueue hvisits
      found := h.step_found hqueue hvisits fixed }

end Spread

end Session

end ModuleTrace

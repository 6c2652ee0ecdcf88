import Mathlib.Data.List.Perm.Subperm
import ModuleTrace.Proofs.Resolution.Nesting
import ModuleTrace.Proofs.Traversal.Progress
import ModuleTrace.Proofs.Traversal.Terrain
import ModuleTrace.Proofs.Traversal.Transparency

/-!
# Traversals end

The loop of a traversal is told without a bound. Everything that it takes from its queue is a file
of the loader and was not taken before, so it ends when the files are used up, whatever refers to
whatever. The bound that a session puts on its rounds is then never reached.
-/

namespace ModuleTrace

/-! ## Only files are found -/

namespace Loader

variable {loader : Loader Id}

theorem has_of_outcome {specifier : String} {attempt : Attempt} {d : LocalDependency}
    (h : loader.outcome specifier attempt = some d) : loader.has d.path = true := by
  obtain ⟨path, hpath, rfl⟩ := Option.map_eq_some_iff.1 h
  have hfound := List.find?_some hpath
  exact (Bool.and_eq_true_iff.1 hfound).1

theorem has_of_meaning {s : Surroundings} {file : SourceFile} {specifier : String}
    {d : LocalDependency} (h : loader.meaning s file specifier = .localFile d) :
    loader.has d.path = true := by
  unfold meaning at h
  split at h
  · cases h
  · simp only at h
    split at h
    · split at h
      · rename_i found hfound
        cases h
        exact has_of_outcome hfound
      · cases h
    · split at h
      · rename_i found hfound
        cases h
        obtain ⟨attempt, -, hattempt⟩ := List.exists_of_findSome?_eq_some hfound
        exact has_of_outcome hattempt
      · cases h

/-- The files of a loader of texts are where its texts are. -/
theorem exists_of_has_ofTexts {texts : List (List Path.Part × String)} {files : List Path}
    (h : texts.map Prod.fst = files.map Path.parts) (path : Path)
    (hpath : (ofTexts texts).has path = true) : ∃ file ∈ files, file.same path := by
  obtain ⟨text, htext⟩ := Option.isSome_iff_exists.1 hpath
  have hkey : path.parts ∈ texts.map Prod.fst := by
    obtain ⟨before, after, rfl, -⟩ := List.lookup_eq_some_iff.1 htext
    simp
  rw [h] at hkey
  obtain ⟨file, hfile, hparts⟩ := List.mem_map.1 hkey
  exact ⟨file, hfile, (Path.same_iff _ _).2 hparts⟩

end Loader

namespace Session

/-! ## The loop without a bound -/

section

variable (s : Session Id)

/-- The rounds of a traversal from a frontier and a memory: the files that are taken from the
queue one after another, until none waits or a visit ends in an error, and what is left then. -/
inductive Walks : Frontier → Memory → List SourceFile → Except ResolveError Frontier → Memory → Prop
  | done {frontier : Frontier} {memory : Memory} (hqueue : frontier.queue = []) :
      Walks frontier memory [] (.ok frontier) memory
  | stop {frontier : Frontier} {memory after : Memory} {file : SourceFile}
      {queue : List SourceFile} {error : ResolveError} (hqueue : frontier.queue = file :: queue)
      (hvisit : ((s.visit file { frontier with queue }).run memory).run = (.error error, after)) :
      Walks frontier memory [file] (.error error) after
  | step {frontier next : Frontier} {memory between after : Memory} {file : SourceFile}
      {queue taken : List SourceFile} {result : Except ResolveError Frontier}
      (hqueue : frontier.queue = file :: queue)
      (hvisit : ((s.visit file { frontier with queue }).run memory).run = (.ok next, between))
      (hrest : Walks next between taken result after) :
      Walks frontier memory (file :: taken) result after

end

variable {s : Session Id}

/-- With as many rounds as the loop needs, the bounded loop gives the same. -/
theorem Walks.traverse {frontier : Frontier} {memory after : Memory} {taken : List SourceFile}
    {result : Except ResolveError Frontier} (h : s.Walks frontier memory taken result after)
    {fuel : Nat} (hfuel : taken.length ≤ fuel) :
    ((s.traverse fuel frontier).run memory).run = (result, after) := by
  induction h generalizing fuel with
  | done hqueue =>
      cases fuel <;> simp [Session.traverse, hqueue]
  | stop hqueue hvisit =>
      cases fuel with
      | zero => simp at hfuel
      | succ fuel => simp [Session.traverse, hqueue, hvisit]
  | step hqueue hvisit hrest ih =>
      cases fuel with
      | zero => simp at hfuel
      | succ fuel =>
          have hrun := @ih fuel (by simpa using hfuel)
          simp [Session.traverse, hqueue, hvisit, hrun]

/-! ## Files that are taken -/

variable (fixed : s.loader.Fixed)

/-- What a loader that never changes its answers lets a session know, and that it finds only files
of the loader then. -/
def fileGround : s.Ground where
  Knows := Knowledge.Sound s.loader s.options.root
  Finds _ d := s.loader.has d.path = true
  finds_congr _ _ _ _ h := h
  classify file specifier := by
    refine (Classifier.classify_ensures fixed (s.surroundings file) rfl specifier).mono ?_
    intro answer h d hd
    rw [hd] at h
    obtain ⟨other, hother, halike⟩ := h.symm.exists_localFile
    rw [← fixed.has_congr halike.path]
    exact Loader.has_of_meaning hother

theorem load_gives (path : Path) : Ensures (fileGround fixed).Knows
    (Knowledge.load s.loader path) (GivesOrFails (fun _ => True) path) := by
  refine (Knowledge.load_ensures fixed path).mono fun answer h => ?_
  cases answer with
  | ok file => exact h.1
  | error error => trivial

def fileRegion : (fileGround fixed).Region where
  Start path := s.loader.has path = true
  Holds path := s.loader.has path = true
  Fails _ := True
  start_congr _ _ h hp := fixed.has_congr h ▸ hp
  holds_congr _ _ h hp := fixed.has_congr h ▸ hp
  load path _ := load_gives fixed path
  step _ _ _ _ h := h

/-- Files of the loader, all of different paths. -/
structure TakesFiles (s : Session Id) (taken : List SourceFile) : Prop where
  distinct : (taken.map (·.path.parts)).Nodup
  files : ∀ file ∈ taken, s.loader.has file.path = true

theorem TakesFiles.of_isPrefix {taken all : List SourceFile} (h : s.TakesFiles all)
    (hfront : taken <+: all) : s.TakesFiles taken := by
  constructor
  · exact (hfront.sublist.map _).nodup h.distinct
  · intro file hfile
    exact h.files file (hfront.subset hfile)

/-- They are no more than the loader has. -/
theorem TakesFiles.length_le {files : List Path}
    (hfiles : ∀ path, s.loader.has path = true → ∃ other ∈ files, other.same path)
    {taken : List SourceFile} (h : s.TakesFiles taken) : taken.length ≤ files.length := by
  have hsubset : taken.map (·.path.parts) ⊆ files.map Path.parts := by
    intro key hkey
    obtain ⟨file, hfile, rfl⟩ := List.mem_map.1 hkey
    obtain ⟨other, hother, hsame⟩ := hfiles file.path (h.files file hfile)
    exact List.mem_map.2 ⟨other, hother, (Path.same_iff _ _).1 hsame⟩
  have hle := (List.subperm_of_subset h.distinct hsubset).length_le
  rwa [List.length_map, List.length_map] at hle

variable {fixed}

/-- Those that were taken apart and those that wait are different files. -/
theorem takesFiles_of_onWay {before : List SourceFile} {frontier : Frontier} {memory : Memory}
    (h : (fileRegion fixed).OnWay before [] [] frontier memory) :
    s.TakesFiles (before ++ frontier.queue) := by
  have horder : frontier.reach.entrypoint :: frontier.reach.files = before ++ frontier.queue := by
    simpa using h.order
  constructor
  · rw [← horder]
    exact h.distinct
  · intro file hfile
    rw [← horder] at hfile
    exact (h.holds hfile).elim id id

/-- By induction on the files that are left: every round uses up one of them. -/
theorem exists_walks {files : List Path}
    (hfiles : ∀ path, s.loader.has path = true → ∃ other ∈ files, other.same path) (left : Nat)
    {before : List SourceFile} {frontier : Frontier} {memory : Memory}
    (h : (fileRegion fixed).OnWay before [] [] frontier memory)
    (hleft : files.length < before.length + left) :
    ∃ taken result after, s.Walks frontier memory taken result after ∧
      s.TakesFiles (before ++ taken) := by
  induction left generalizing before frontier memory with
  | zero =>
      have hle := (takesFiles_of_onWay h).length_le hfiles
      rw [List.length_append] at hle
      omega
  | succ left ih =>
      have htaken := takesFiles_of_onWay h
      cases hqueue : frontier.queue with
      | nil =>
          rw [hqueue] at htaken
          exact ⟨[], _, _, .done hqueue, htaken⟩
      | cons file queue =>
          have hleaves := always_id.1 (visit_onWay file _ memory (h.pop hqueue))
          cases hvisit : ((s.visit file { frontier with queue }).run memory).run with
          | mk result between =>
              rw [hvisit] at hleaves
              cases result with
              | error error =>
                  refine ⟨[file], _, _, .stop hqueue hvisit, htaken.of_isPrefix ?_⟩
                  rw [hqueue, List.prefix_append_right_inj]
                  exact List.prefix_append [file] queue
              | ok next =>
                  have hlength : files.length < (before ++ [file]).length + left := by
                    rw [List.length_append, List.length_singleton]
                    omega
                  obtain ⟨taken, result, after, hwalks, hall⟩ :=
                    ih (hleaves.2 next rfl) hlength
                  refine ⟨file :: taken, result, after, .step hqueue hvisit hwalks, ?_⟩
                  rwa [List.append_assoc, List.singleton_append] at hall

/-! ## Whole traversals -/

variable (fixed)

theorem memoryAfter_keeps (calls : List (Call Id)) :
    (fileGround fixed).Keeps (s.memoryAfter calls) := by
  have hempty : (fileGround fixed).Keeps {} := Ground.keeps_empty Knowledge.sound_empty
  exact (ensures_id.1 (performAll_keeps (load_gives fixed) calls) {} hempty).2

theorem load_serves {memory : Memory} (hkeeps : (fileGround fixed).Keeps memory) (path : Path) :
    s.loader.Serves path ((s.load path).run memory).run.1 ∧
      (fileGround fixed).Keeps ((s.load path).run memory).run.2 := by
  have hload : Ensures (fileGround fixed).Keeps (s.load path) (s.loader.Serves path) :=
    withKnowledge_keeps (Knowledge.load_ensures fixed path)
  exact ensures_id.1 hload memory hkeeps

/-- A file that the loader can read is loaded, and the walk starts at it. -/
theorem exists_start {memory : Memory} (hkeeps : (fileGround fixed).Keeps memory) {path : Path}
    (hreads : s.Reads path) :
    ∃ file after, ((s.load path).run memory).run = (.ok file, after) ∧
      (fileRegion fixed).OnWay [] [] [] ⟨{ entrypoint := file }, [file.path.parts], [file]⟩
        after := by
  obtain ⟨hserves, hafter⟩ := load_serves fixed hkeeps path
  cases hrun : ((s.load path).run memory).run with
  | mk found after =>
      rw [hrun] at hserves hafter
      cases found with
      | error error =>
          obtain ⟨contents, hcontents⟩ := hreads
          have hnone : (s.loader.read path).run = .error error := hserves
          rw [hcontents] at hnone
          cases hnone
      | ok file =>
          have hstart : s.loader.has file.path = true :=
            fixed.isFile_of_read file.path file.contents (loads_of_serves fixed hserves)
          exact ⟨file, after, rfl, Ground.Region.onWay_start hafter hstart⟩

/-- At an entrypoint that cannot be read there is nothing to walk. -/
theorem collect_unreadable {memory : Memory} (hkeeps : (fileGround fixed).Keeps memory)
    {entrypoint : Path} (hreads : ¬ s.Reads entrypoint.normalize) :
    ∃ cause, ((s.collect entrypoint).run memory).run.1
      = .error (.entrypointUnreadable entrypoint.normalize cause) := by
  obtain ⟨hserves, -⟩ := load_serves fixed hkeeps entrypoint.normalize
  cases hrun : ((s.load entrypoint.normalize).run memory).run with
  | mk found after =>
      rw [hrun] at hserves
      cases found with
      | error cause => exact ⟨cause, by simp [collect, hrun]⟩
      | ok file => exact absurd ⟨file.contents, hserves.2⟩ hreads

/-- The loop from a file that can be read, and what the session gives. -/
theorem collect_of_walks {entrypoint : Path} {memory between after : Memory} {file : SourceFile}
    {taken : List SourceFile} {result : Except ResolveError Frontier}
    (hload : ((s.load entrypoint.normalize).run memory).run = (.ok file, between))
    (h : s.Walks ⟨{ entrypoint := file }, [file.path.parts], [file]⟩ between taken result after)
    (hfuel : taken.length ≤ s.loader.extent + 1) :
    ((s.collect entrypoint).run memory).run = (result.map Frontier.reach, after) := by
  have hrun := h.traverse hfuel
  unfold collect
  cases result with
  | error error => simp [hload, hrun, Except.map]
  | ok frontier => simp [hload, hrun, Except.map]

include fixed

/-- Under a loader with finitely many files the loop from an entrypoint ends, whatever refers to
whatever and whatever was called before. It takes no path twice and no more files than there are,
and a session that counts on so many files gives what the loop gives. No lookup follows manifests
deeper than eight, and no load of a configuration follows extensions deeper than sixteen. -/
theorem collect_ends {files : List Path}
    (hfiles : ∀ path, s.loader.has path = true → ∃ other ∈ files, other.same path)
    (calls : List (Call Id)) (entrypoint : Path) :
    (¬ s.Reads entrypoint.normalize →
      ∃ cause, ((s.collect entrypoint).run (s.memoryAfter calls)).run.1
        = .error (.entrypointUnreadable entrypoint.normalize cause)) ∧
    (s.Reads entrypoint.normalize → ∃ file memory taken result after,
      ((s.load entrypoint.normalize).run (s.memoryAfter calls)).run = (.ok file, memory) ∧
      s.Walks ⟨{ entrypoint := file }, [file.path.parts], [file]⟩ memory taken result after ∧
      (taken.map (·.path.parts)).Nodup ∧ taken.length ≤ files.length ∧
      (files.length ≤ s.loader.extent + 1 →
        ((s.collect entrypoint).run (s.memoryAfter calls)).run
          = (result.map Frontier.reach, after))) ∧
    (∀ {m : Type → Type} [Monad m] [LawfulMonad m] (loader : Loader m)
      (surroundings : Surroundings) (target : Path) (config : Option ProjectConfig),
      Forgets (Classifier.lookupNoted loader surroundings Classifier.manifestDepth [] target config)
          (Classifier.lookup loader surroundings Classifier.manifestDepth target config) ∧
        Always (fun noted => NestsWithin 8 noted.2)
          ((Classifier.lookupNoted loader surroundings Classifier.manifestDepth [] target
            config).run [])) ∧
    ∀ {m : Type → Type} [Monad m] [LawfulMonad m] (read : Path → m (Option String)) (path : Path)
      (contents : String),
      Forgets
          (ProjectConfig.loadOptionsNoted read ProjectConfig.extensionDepth [] path contents)
          (ProjectConfig.loadOptions read ProjectConfig.extensionDepth path contents) ∧
        Always (fun noted => NestsWithin 16 noted.2)
          ((ProjectConfig.loadOptionsNoted read ProjectConfig.extensionDepth [] path
            contents).run []) := by
  have hkeeps := memoryAfter_keeps fixed calls
  refine ⟨collect_unreadable fixed hkeeps, fun hreads => ?_, Classifier.lookup_nests,
    ProjectConfig.loadOptions_nests⟩
  obtain ⟨file, memory, hload, hstart⟩ := exists_start fixed hkeeps hreads
  have hleft : files.length < ([] : List SourceFile).length + (files.length + 1) := by simp
  obtain ⟨taken, result, after, hwalks, htaken⟩ := exists_walks hfiles _ hstart hleft
  rw [List.nil_append] at htaken
  have hlength := htaken.length_le hfiles
  refine ⟨file, memory, taken, result, after, hload, hwalks, htaken.distinct, hlength, ?_⟩
  intro hextent
  exact collect_of_walks hload hwalks (by omega)

omit fixed

/-- Files, manifests and a configuration, each of which leads back to itself. -/
def circles : Session Id where
  loader := .ofTexts [([.root, .name "a.js"], "a"), ([.root, .name "b.js"], "b"),
    ([.root, .name "tsconfig.json"], "\x7b\"extends\": \"./tsconfig.json\"\x7d"),
    ([.root, .name "x", .name "package.json"], "\x7b\"main\": \"../y\"\x7d"),
    ([.root, .name "y", .name "package.json"], "\x7b\"main\": \"../x\"\x7d")]
  extractor := .ofTexts [("a", .specifiers ["./b.js", "./x"]), ("b", .specifiers ["./a.js"])]
  options := {}
  workspace := none

def circleFiles : List Path :=
  [⟨"/a.js"⟩, ⟨"/b.js"⟩, ⟨"/tsconfig.json"⟩, ⟨"/x/package.json"⟩, ⟨"/y/package.json"⟩]

theorem collect_ends_circles : circles.loader.Fixed ∧
    (∀ path, circles.loader.has path = true → ∃ other ∈ circleFiles, other.same path) ∧
    circles.Reads (Path.mk "/./a.js").normalize ∧
    ∃ file memory taken result after,
      ((circles.load (Path.mk "/./a.js").normalize).run
        (circles.memoryAfter [.collect ⟨"/b.js"⟩])).run = (.ok file, memory) ∧
      circles.Walks ⟨{ entrypoint := file }, [file.path.parts], [file]⟩ memory taken result after ∧
      ((circles.collect ⟨"/./a.js"⟩).run (circles.memoryAfter [.collect ⟨"/b.js"⟩])).run
        = (result.map Frontier.reach, after) := by
  have fixed : circles.loader.Fixed := Loader.ofTexts_fixed _
  have hfiles : ∀ path, circles.loader.has path = true → ∃ other ∈ circleFiles, other.same path :=
    Loader.exists_of_has_ofTexts (by decide)
  have hreads : circles.Reads (Path.mk "/./a.js").normalize := ⟨"a", by decide +kernel⟩
  obtain ⟨-, hwalks, -, -⟩ := collect_ends fixed hfiles [.collect ⟨"/b.js"⟩] ⟨"/./a.js"⟩
  obtain ⟨file, memory, taken, result, after, hload, hwalks, -, -, hcollect⟩ := hwalks hreads
  exact ⟨fixed, hfiles, hreads, file, memory, taken, result, after, hload, hwalks,
    hcollect (by decide)⟩

end Session

end ModuleTrace

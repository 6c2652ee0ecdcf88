import ModuleTrace.Proofs.Resolution.Contents
import ModuleTrace.Proofs.Traversal.Reachability
import ModuleTrace.Proofs.Traversal.Termination
import ModuleTrace.Proofs.Traversal.Zone

/-!
# Files of no kind

Nothing can be said of a file whose kind is not known, and a traversal that takes one from its
queue ends in an error, whatever the file contains. To be taken from the queue it must have been
loaded: of a file that cannot be read the kind is never asked.
-/

namespace ModuleTrace

namespace Session

/-! ## What is found without an error -/

section

variable {m : Type → Type} [Monad m] [LawfulMonad m] {s : Session m}

def openRegion {p : Path} (hopen : ∀ path : Path, path.parts = p.parts →
    Always (fun answer => ∃ contents, answer = .ok contents) (s.loader.read path)) :
    (confinement s).Region where
  Start _ := True
  Holds _ := True
  Fails path := path.parts ≠ p.parts
  start_congr _ _ _ h := h
  holds_congr _ _ _ h := h
  load path _ := by
    apply Knowledge.load_gives
    by_cases hpath : path.parts = p.parts
    · refine (hopen path hpath).mono ?_
      rintro _ ⟨contents, rfl⟩ error herror
      cases herror
    · exact (Always.top _).mono fun _ _ _ _ => hpath
  step _ _ _ _ _ := trivial

/-- A traversal without an error has met no file of no kind that can be read. -/
theorem collect_avoids {p : Path} (hkind : FileKind.ofPath? p = none)
    (hopen : ∀ path : Path, path.parts = p.parts →
      Always (fun answer => ∃ contents, answer = .ok contents) (s.loader.read path))
    (calls : List (Call m)) (e : Path) :
    Always (fun result => ∀ reach, result.1 = .ok reach →
        ∀ file ∈ reach.entrypoint :: reach.files, ¬ file.path.same p ∧
          ∃ analysis, result.2.analyses[file.path.parts]? = some analysis ∧
            ∀ d ∈ analysis.dependencies.locals, ¬ d.path.same p)
      ((do s.performAll calls; s.collect e).run {}) := by
  have hrun := performAll_collect confinement_load (openRegion hopen) Knowledge.tidy_nothing
    (e := e) trivial calls
  refine hrun.mono fun result h reach hreach => ?_
  have hcovers := h reach hreach
  have hknown : ∀ file ∈ reach.entrypoint :: reach.files, file.path.parts ≠ p.parts := by
    intro file hfile hparts
    obtain ⟨analysis, -, hrecords, -⟩ := hcovers.analyses file hfile
    exact hrecords.kind ((kind?_congr (g := ⟨p, ""⟩) hparts).trans hkind)
  intro file hfile
  obtain ⟨analysis, hanalysis, -, hlocals⟩ := hcovers.analyses file hfile
  refine ⟨fun hsame => hknown file hfile ((Path.same_iff _ _).1 hsame), analysis, hanalysis, ?_⟩
  intro d hd hsame
  have hparts := (Path.same_iff _ _).1 hsame
  rcases hlocals d hd with ⟨other, hother, hpath⟩ | ⟨path, hpath, hfails⟩
  · exact hknown other hother (hpath.trans hparts)
  · exact hfails (hpath.trans hparts)

end

/-! ## Where a walk without memory ends in an error -/

section

variable {s : Session Id}

theorem visitPlain_error (unlimited : s.options.fileLimit = none) {file : SourceFile} {a : Frontier}
    {error : ResolveError} (h : s.visitPlain file a = .error error) :
    ∃ cause, s.extractor file = .error cause ∧ error = .ofExtraction cause := by
  unfold visitPlain at h
  cases hanalysis : s.analysisOf file with
  | error other =>
      rw [hanalysis] at h
      cases h
      unfold analysisOf at hanalysis
      cases hfound : s.extractor file with
      | error cause =>
          rw [hfound] at hanalysis
          cases hanalysis
          exact ⟨cause, rfl, rfl⟩
      | ok found =>
          rw [hfound] at hanalysis
          cases found <;> cases hanalysis
  | ok analysis =>
      simp only [hanalysis, meetAllPlain_eq unlimited] at h
      split at h <;> cases h

/-- A file that is taken apart is of some kind. -/
theorem kind?_ne_none_of_analysisOf {file : SourceFile} {analysis : Analysis}
    (h : s.analysisOf file = .ok analysis) : file.kind? ≠ none := by
  intro hnone
  unfold analysisOf at h
  rw [s.extractor.find_of_kind?_eq_none file hnone] at h
  cases h

variable (fixed : s.loader.Fixed)

include fixed

/-- What a chain starts from can be read. -/
theorem Chain.reads_start {e p : Path} {n : Nat} (h : s.Chain e n p) (hp : s.Reads p) :
    s.Reads e := by
  induction h with
  | start hsame => exact hp.congr fixed ((Path.same_iff _ _).1 hsame)
  | step _ hstep ih =>
      obtain ⟨contents, hcontents, -⟩ := hstep
      exact ih ⟨contents, hcontents⟩

theorem Spread.takesFiles {entry : SourceFile} {done : List SourceFile} {a : Frontier}
    (h : s.Spread entry done a) : s.TakesFiles (done ++ a.queue) :=
  ⟨h.distinct, fun f hf => fixed.isFile_of_read f.path f.contents (h.loads f hf)⟩

/-- A walk that can reach a file of no kind ends in the error of the first file that is refused. -/
theorem collectPlain_refuses (unlimited : s.options.fileLimit = none) {files : List Path}
    (hfiles : ∀ path, s.loader.has path = true → ∃ other ∈ files, other.same path)
    (hextent : files.length ≤ s.loader.extent + 1) {p : Path} (hkind : FileKind.ofPath? p = none)
    (hreads : s.Reads p) {e : Path} {n : Nat} (hchain : s.Chain e.normalize n p) :
    ∃ f cause k, s.Loads f ∧ s.Chain e.normalize k f.path ∧ s.extractor f = .error cause ∧
      s.collectPlain e = .error (.ofExtraction cause) := by
  obtain ⟨contents, hcontents⟩ := hchain.reads_start fixed hreads
  have hstart : s.Advances ⟨e.normalize, contents⟩ []
      ⟨{ entrypoint := ⟨e.normalize, contents⟩ }, [e.normalize.parts],
        [⟨e.normalize, contents⟩]⟩ := Advances.start hcontents
  have hstep : ∀ done file queue a b, a.queue = file :: queue →
      s.Advances ⟨e.normalize, contents⟩ done a →
      s.visitPlain file { a with queue } = .ok b →
      s.Advances ⟨e.normalize, contents⟩ (done ++ [file]) b :=
    fun _ _ _ _ _ hqueue h => h.step fixed unlimited hqueue
  unfold collectPlain
  simp only [hcontents]
  cases hrun : s.traversePlain (s.loader.extent + 1)
      ⟨{ entrypoint := ⟨e.normalize, contents⟩ }, [e.normalize.parts],
        [⟨e.normalize, contents⟩]⟩ with
  | ok last =>
      -- every file at the end of a chain was taken apart, so it is of some kind
      obtain ⟨all, ⟨hspread, ⟨level, hranked⟩, hanalyzed⟩, hqueue⟩ :=
        traversePlain_rule hstep hstart hrun
      obtain ⟨f, hf, hparts, -⟩ := hranked.le_of_chain fixed hspread hqueue hchain hreads
      obtain ⟨analysis, hanalysis⟩ := hanalyzed f hf
      have hnone : f.kind? = none := (kind?_congr (g := ⟨p, ""⟩) hparts).trans hkind
      exact absurd hnone (kind?_ne_none_of_analysisOf hanalysis)
  | error error =>
      obtain ⟨all, last, file, queue, ⟨hspread, ⟨level, hranked⟩, -⟩, hqueue, hend⟩ :=
        traversePlain_error_rule hstep hstart hrun
      have hfile : file ∈ all ++ last.queue := by simp [hqueue]
      rcases hend with hvisit | hlength
      · obtain ⟨cause, hcause, rfl⟩ := visitPlain_error unlimited hvisit
        exact ⟨file, cause, level file, hspread.loads file hfile, hranked.chains file hfile,
          hcause, rfl⟩
      · -- one more round than there are files is never used up
        have hle := (hspread.takesFiles fixed).length_le hfiles
        rw [hqueue, List.length_append, List.length_cons, hlength, List.length_nil] at hle
        omega

end

/-! ## Contents of one file -/

end Session

/-- Loaders that differ in nothing but the contents of the file at one path. -/
structure Loader.DiffersAt (p : Path) (a b : Loader Id) : Prop where
  has : ∀ path, a.has path = b.has path
  read : ∀ path : Path, path.parts ≠ p.parts → a.read path = b.read path
  left : ∃ contents, (a.read p).run = .ok contents
  right : ∃ contents, (b.read p).run = .ok contents
  extent : a.extent = b.extent

/-- A file of both: what it contains is the same, or it is the one at the path. -/
structure SourceFile.DiffersAt (p : Path) (f g : SourceFile) : Prop where
  path : f.path = g.path
  contents : f.path.parts ≠ p.parts → f.contents = g.contents

theorem Loader.DiffersAt.sameDescriptors {p : Path} {a b : Loader Id} (h : a.DiffersAt p b)
    (hname : ¬ p.NamesDescriptor) : a.SameDescriptors b := by
  refine ⟨h.has, fun path ⟨text, htext, hjson⟩ => ?_⟩
  have hne : path.parts ≠ p.parts := by
    intro hparts
    exact hname ⟨text, (Path.name?_congr hparts).symm.trans htext, hjson⟩
  rw [Loader.text?, h.read path hne, Loader.text?]

/-- Both give files that differ at the path only, or the same error. -/
theorem Loader.DiffersAt.read_cases {p : Path} {a b : Loader Id} (h : a.DiffersAt p b)
    (fixed : a.Fixed) (fixed' : b.Fixed) (path : Path) :
    (∃ contents contents', (a.read path).run = .ok contents ∧ (b.read path).run = .ok contents' ∧
      SourceFile.DiffersAt p ⟨path, contents⟩ ⟨path, contents'⟩) ∨
    ∃ error, (a.read path).run = .error error ∧ (b.read path).run = .error error := by
  by_cases hpath : path.parts = p.parts
  · obtain ⟨contents, hleft⟩ := h.left
    obtain ⟨contents', hright⟩ := h.right
    rw [← fixed.read_congr hpath] at hleft
    rw [← fixed'.read_congr hpath] at hright
    exact .inl ⟨contents, contents', hleft, hright, rfl, fun hne => absurd hpath hne⟩
  · rw [← h.read path hpath]
    cases (a.read path).run with
    | error error => exact .inr ⟨error, rfl, rfl⟩
    | ok contents => exact .inl ⟨contents, contents, rfl, rfl, rfl, fun _ => rfl⟩

namespace Session

section

def reading (s : Session Id) (loader : Loader Id) : Session Id :=
  { s with loader }

/-- Frontiers of two walks that have met the same paths and wait for the same files. -/
structure Shares (p : Path) (a b : Frontier) : Prop where
  visited : a.visited = b.visited
  queue : List.Forall₂ (SourceFile.DiffersAt p) a.queue b.queue

variable {s : Session Id} {p : Path} {other : Loader Id}

theorem analysisOf_reading (hkind : FileKind.ofPath? p = none)
    (hsame : s.loader.SameDescriptors other) {f g : SourceFile} (h : f.DiffersAt p g) :
    s.analysisOf f = (s.reading other).analysisOf g := by
  obtain ⟨path, contents⟩ := f
  obtain ⟨path', contents'⟩ := g
  obtain ⟨hpath, hcontents⟩ := h
  simp only at hpath hcontents
  subst hpath
  by_cases hparts : path.parts = p.parts
  · have hrefuses : ∀ contents, s.extractor ⟨path, contents⟩ = .error (.unsupportedKind path) := by
      intro contents
      apply s.extractor.find_of_kind?_eq_none
      rw [SourceFile.kind?, FileKind.ofPath?, Path.extension?_congr hparts]
      exact hkind
    have hreading : (s.reading other).extractor = s.extractor := rfl
    unfold analysisOf
    rw [hreading, hrefuses, hrefuses]
  · rw [hcontents hparts]
    unfold analysisOf
    rw [hsame.meaning]
    rfl

variable (hkind : FileKind.ofPath? p = none) (hname : ¬ p.NamesDescriptor)
  (hdiffers : s.loader.DiffersAt p other) (fixed : s.loader.Fixed) (fixed' : other.Fixed)
  (unlimited : s.options.fileLimit = none)

include hdiffers fixed fixed'

theorem loaded_reading (paths : List Path) :
    List.Forall₂ (SourceFile.DiffersAt p) (s.loaded paths) ((s.reading other).loaded paths) := by
  have hreading : (s.reading other).loader = other := rfl
  refine List.rel_filterMap (R := Eq) ?_ (List.forall₂_same.2 fun _ _ => rfl)
  rintro path _ rfl
  rw [hreading]
  rcases hdiffers.read_cases fixed fixed' path with
    ⟨contents, contents', hleft, hright, hfile⟩ | ⟨error, hleft, hright⟩
  · simp only [hleft, hright]
    exact .some hfile
  · simp only [hleft, hright]
    exact .none

include hkind hname unlimited

/-- Both walks end a visit in the same error, or go on to frontiers that share what counts. -/
theorem visitPlain_reading {f g : SourceFile} (hfile : f.DiffersAt p g) {a b : Frontier}
    (h : Shares p a b) :
    (∃ error, s.visitPlain f a = .error error ∧ (s.reading other).visitPlain g b = .error error) ∨
      ∃ c d, s.visitPlain f a = .ok c ∧ (s.reading other).visitPlain g b = .ok d ∧
        Shares p c d := by
  have hanalysis := analysisOf_reading hkind (hdiffers.sameDescriptors hname) hfile
  have unlimited' : (s.reading other).options.fileLimit = none := unlimited
  unfold visitPlain
  rw [← hanalysis]
  cases s.analysisOf f with
  | error error => exact .inl ⟨error, rfl, rfl⟩
  | ok analysis =>
      right
      simp only
      cases analysis.failure with
      | some message => exact ⟨_, _, rfl, rfl, h.visited, h.queue⟩
      | none =>
          simp only [meetAllPlain_eq unlimited, meetAllPlain_eq unlimited']
          refine ⟨_, _, rfl, rfl, ?_, ?_⟩
          · simp only [extend, h.visited]
          · simp only [extend, h.visited]
            exact List.rel_append h.queue (loaded_reading hdiffers fixed fixed' _)

/-- By induction on the rounds, both walks side by side. -/
theorem traversePlain_reading (fuel : Nat) {a b : Frontier} (h : Shares p a b)
    {cause : ExtractionError} (hrun : s.traversePlain fuel a = .error (.ofExtraction cause)) :
    (s.reading other).traversePlain fuel b = .error (.ofExtraction cause) := by
  induction fuel generalizing a b with
  | zero =>
      unfold traversePlain at hrun
      split at hrun
      · cases hrun
      · cases cause <;> cases hrun
  | succ fuel ih =>
      have hshared := h.queue
      unfold traversePlain at hrun ⊢
      generalize hqueue : a.queue = queue, hqueue' : b.queue = queue' at hshared hrun
      cases hshared with
      | nil => cases hrun
      | @cons f g queue queue' hfile hrest =>
          have hstart : Shares p { a with queue } { b with queue := queue' } :=
            ⟨h.visited, hrest⟩
          rcases visitPlain_reading hkind hname hdiffers fixed fixed' unlimited hfile hstart with
            ⟨error, hleft, hright⟩ | ⟨c, d, hleft, hright, hnext⟩
          · simp only [hleft] at hrun
            simp only [hright]
            exact hrun
          · simp only [hleft] at hrun
            simp only [hright]
            exact ih hnext hrun

/-- What a refused file contains is not seen. -/
theorem collectPlain_reading {e : Path} {cause : ExtractionError}
    (hrun : s.collectPlain e = .error (.ofExtraction cause)) :
    (s.reading other).collectPlain e = .error (.ofExtraction cause) := by
  have hreading : (s.reading other).loader = other := rfl
  unfold collectPlain at hrun ⊢
  rw [hreading, ← hdiffers.extent]
  rcases hdiffers.read_cases fixed fixed' e.normalize with
    ⟨contents, contents', hleft, hright, hfile⟩ | ⟨error, hleft, hright⟩
  · simp only [hleft] at hrun
    simp only [hright]
    have hstart : Shares p
        ⟨{ entrypoint := ⟨e.normalize, contents⟩ }, [e.normalize.parts],
          [⟨e.normalize, contents⟩]⟩
        ⟨{ entrypoint := ⟨e.normalize, contents'⟩ }, [e.normalize.parts],
          [⟨e.normalize, contents'⟩]⟩ := ⟨rfl, .cons hfile .nil⟩
    cases hend : s.traversePlain (s.loader.extent + 1)
        ⟨{ entrypoint := ⟨e.normalize, contents⟩ }, [e.normalize.parts],
          [⟨e.normalize, contents⟩]⟩ with
    | ok last =>
        rw [hend] at hrun
        cases hrun
    | error error =>
        rw [hend] at hrun
        cases hrun
        rw [traversePlain_reading hkind hname hdiffers fixed fixed' unlimited _ hstart hend]
        rfl
  · simp only [hleft] at hrun
    cases cause <;> cases hrun

end

/-! ## The theorem -/

/-- A file of no kind that can be read is refused. Without an error no traversal has met it, under
any loader. Where a chain of dependencies leads to it, every traversal ends in the error of the
first file that is refused, whatever was called before and whatever the file of no kind contains. -/
theorem collect_refuses {p : Path} (hkind : FileKind.ofPath? p = none) :
    (∀ {m : Type → Type} [Monad m] [LawfulMonad m] (s : Session m),
      (∀ path : Path, path.parts = p.parts →
        Always (fun answer => ∃ contents, answer = .ok contents) (s.loader.read path)) →
      ∀ (calls : List (Call m)) (e : Path),
        Always (fun result => ∀ reach, result.1 = .ok reach →
            ∀ file ∈ reach.entrypoint :: reach.files, ¬ file.path.same p ∧
              ∃ analysis, result.2.analyses[file.path.parts]? = some analysis ∧
                ∀ d ∈ analysis.dependencies.locals, ¬ d.path.same p)
          ((do s.performAll calls; s.collect e).run {})) ∧
    ∀ s : Session Id, s.loader.Fixed → s.options.fileLimit = none → ∀ files : List Path,
      (∀ path, s.loader.has path = true → ∃ other ∈ files, other.same path) →
      files.length ≤ s.loader.extent + 1 → s.Reads p → ∀ (e : Path) (n : Nat),
      s.Chain e.normalize n p →
      ∃ f cause k, s.Loads f ∧ s.Chain e.normalize k f.path ∧ s.extractor f = .error cause ∧
        (∀ calls, ∃ error, ((s.collect e).run (s.memoryAfter calls)).run.1 = .error error ∧
          error.Alike (.ofExtraction cause)) ∧
        (p.name? ≠ some ".json" → ∀ other : Loader Id, other.Fixed →
          s.loader.DiffersAt p other → ∀ calls, ∃ error,
            (((s.reading other).collect e).run ((s.reading other).memoryAfter calls)).run.1
              = .error error ∧ error.Alike (.ofExtraction cause)) := by
  refine ⟨fun s hopen calls e => collect_avoids hkind hopen calls e, ?_⟩
  intro s fixed unlimited files hfiles hextent hreads e n hchain
  obtain ⟨f, cause, k, hloads, hreached, hcause, hplain⟩ :=
    collectPlain_refuses fixed unlimited hfiles hextent hkind hreads hchain
  refine ⟨f, cause, k, hloads, hreached, hcause, fun calls => ?_, ?_⟩
  · exact exists_error_alike fixed calls hplain
  · intro hname other fixed' hdiffers calls
    have hreading := collectPlain_reading hkind (Path.not_namesDescriptor hkind hname) hdiffers
      fixed fixed' unlimited hplain
    exact exists_error_alike fixed' calls hreading

def pictured (picture : Except ReadError String) : Session Id where
  loader :=
    { read := fun path =>
        if path.parts = [.root, .name "p", .name "a.js"] then .ok "a"
        else if path.parts = [.root, .name "p", .name "logo.png"] then picture
        else .error .notFound
      isFile := fun path =>
        [[.root, .name "p", .name "a.js"], [.root, .name "p", .name "logo.png"]].contains path.parts
      isDirectory := fun _ => false
      extent := 2 }
  extractor := .ofTexts [("a", .specifiers ["./logo.png"])]
  options := {}
  workspace := none

theorem pictured_fixed (picture : Except ReadError String) : (pictured picture).loader.Fixed where
  read_same p q h := by simp [pictured, (Path.same_iff p q).1 h]
  isFile_same p q h := by simp [pictured, (Path.same_iff p q).1 h]
  isFile_of_read path contents h := by
    unfold pictured at h ⊢
    by_cases hscript : path.parts = [.root, .name "p", .name "a.js"]
    · simp [hscript, Id.run]
    · by_cases hpicture : path.parts = [.root, .name "p", .name "logo.png"]
      · simp [hpicture, Id.run]
      · simp only [hscript, hpicture, if_false] at h
        cases h

def pictureFiles : List Path :=
  [⟨"/p/a.js"⟩, ⟨"/p/logo.png"⟩]

theorem exists_of_has_pictured (picture : Except ReadError String) (path : Path)
    (h : (pictured picture).loader.has path = true) : ∃ other ∈ pictureFiles, other.same path := by
  have hkeys : [[.root, .name "p", .name "a.js"], [.root, .name "p", .name "logo.png"]]
      = pictureFiles.map Path.parts := by decide
  have hmem : path.parts ∈ pictureFiles.map Path.parts := by
    rw [← hkeys]
    simpa [Loader.has, pictured, Id.run] using h
  obtain ⟨other, hother, hparts⟩ := List.mem_map.1 hmem
  exact ⟨other, hother, (Path.same_iff _ _).2 hparts⟩

theorem pictured_chain (picture : Except ReadError String)
    (htargets : (pictured picture).targets ⟨⟨"/p/a.js"⟩, "a"⟩ = [⟨"/p/logo.png"⟩]) :
    (pictured picture).Chain (Path.mk "/p/x/../a.js").normalize 1 ⟨"/p/logo.png"⟩ := by
  have hloads : (pictured picture).Loads ⟨⟨"/p/a.js"⟩, "a"⟩ := by
    have hparts : (Path.mk "/p/a.js").parts = [.root, .name "p", .name "a.js"] := by decide
    simp [Loads, pictured, hparts, Id.run]
  have hstart : (pictured picture).Chain (Path.mk "/p/x/../a.js").normalize 0 ⟨"/p/a.js"⟩ :=
    .start (by decide)
  refine hstart.step ((leadsTo_iff (pictured_fixed picture) hloads rfl _).2 ?_)
  rw [htargets]
  exact ⟨_, List.mem_cons_self, rfl⟩

theorem pictured_differsAt (left right : String) :
    (pictured (.ok left)).loader.DiffersAt ⟨"/p/logo.png"⟩ (pictured (.ok right)).loader where
  has _ := rfl
  read path h := by
    have hparts : (Path.mk "/p/logo.png").parts = [.root, .name "p", .name "logo.png"] := by decide
    rw [hparts] at h
    simp [pictured, h]
  left := ⟨left, rfl⟩
  right := ⟨right, rfl⟩
  extent := rfl

theorem collect_refuses_picture :
    FileKind.ofPath? ⟨"/p/logo.png"⟩ = none ∧ (pictured (.ok "")).loader.Fixed ∧
      (pictured (.ok "")).Reads ⟨"/p/logo.png"⟩ ∧
      (pictured (.ok "")).Chain (Path.mk "/p/x/../a.js").normalize 1 ⟨"/p/logo.png"⟩ ∧
      ∃ cause, ∀ calls, (∃ error,
        (((pictured (.ok "")).collect ⟨"/p/x/../a.js"⟩).run
          ((pictured (.ok "")).memoryAfter calls)).run.1 = .error error ∧
            error.Alike (.ofExtraction cause)) ∧
        ∃ error, (((pictured (.ok "pixels")).collect ⟨"/p/x/../a.js"⟩).run
          ((pictured (.ok "pixels")).memoryAfter calls)).run.1 = .error error ∧
            error.Alike (.ofExtraction cause) := by
  have hkind : FileKind.ofPath? ⟨"/p/logo.png"⟩ = none := by decide
  have fixed := pictured_fixed (.ok "")
  have hreads : (pictured (.ok "")).Reads ⟨"/p/logo.png"⟩ := ⟨"", rfl⟩
  have hchain := pictured_chain (.ok "") (by decide +kernel)
  have hname : (Path.mk "/p/logo.png").name? ≠ some ".json" := by decide
  obtain ⟨f, cause, k, -, -, -, hrefused, hreading⟩ := (collect_refuses hkind).2 (pictured (.ok ""))
    fixed rfl pictureFiles (exists_of_has_pictured _) (by decide) hreads ⟨"/p/x/../a.js"⟩ 1 hchain
  refine ⟨hkind, fixed, hreads, hchain, cause, fun calls => ⟨hrefused calls, ?_⟩⟩
  exact hreading hname (pictured (.ok "pixels")).loader (pictured_fixed _)
    (pictured_differsAt "" "pixels") calls

/-- A picture that cannot be read is let through: its kind is not asked. -/
theorem collect_refuses_unread :
    FileKind.ofPath? ⟨"/p/logo.png"⟩ = none ∧
      (pictured (.error .notText)).options.fileLimit = none ∧
      (pictured (.error .notText)).Chain (Path.mk "/p/x/../a.js").normalize 1 ⟨"/p/logo.png"⟩ ∧
      ∃ reach, (((pictured (.error .notText)).collect ⟨"/p/x/../a.js"⟩).run {}).run.1
        = .ok reach ∧ reach.files = [] := by
  have hplain : ((pictured (.error .notText)).collectPlain ⟨"/p/x/../a.js"⟩).toOption.map
      (fun reach => reach.files.map SourceFile.path) = some [] := by decide +kernel
  obtain ⟨reach, hreach, hfiles⟩ := exists_collect_files (pictured_fixed _) [] hplain
  refine ⟨by decide, rfl, pictured_chain _ (by decide +kernel), reach, hreach, ?_⟩
  exact List.forall₂_nil_right_iff.1 hfiles

end Session

end ModuleTrace

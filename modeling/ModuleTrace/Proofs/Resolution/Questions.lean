import ModuleTrace.Proofs.Resolution.Classification
import ModuleTrace.Proofs.Resolution.Confinement

/-!
# Questions to one memory

Files, descriptors, targets and specifiers are asked about in any order, by classifiers of several
boundaries, and every question leaves something in memory for the next one. What each question
keeps true of memory, every past keeps true.
-/

namespace ModuleTrace

inductive Question where
  | probe (path : Path)
  | load (path : Path)
  | read (path : Path)
  | manifest (directory : Path)
  | config (directory : Path)
  | target (boundary : Option Path) (depth : Nat) (target : Path) (config : Option ProjectConfig)
  | specifier (workspace : Option Workspace) (boundary : Option Path) (file : SourceFile)
      (text : String)

namespace Knowledge

section

variable {m : Type → Type} [Monad m] (loader : Loader m) (root : Option Path)

def ask (question : Question) : StateT Knowledge m PUnit := do
  match question with
  | .probe path => let _ ← isFile loader path
  | .load path => let _ ← load loader path
  | .read path => let _ ← readFresh loader path
  | .manifest directory => let _ ← manifestFor loader root directory
  | .config directory => let _ ← configFor loader root directory
  | .target boundary depth target config =>
      let _ ← Classifier.lookup loader { root, boundary } depth target config
  | .specifier workspace boundary file text =>
      let _ ← Classifier.classify loader { root, workspace, boundary } file text

def askAll : List Question → StateT Knowledge m PUnit
  | [] => return
  | question :: rest => do
      ask loader root question
      askAll rest

/-- What an action gives after some questions, and what is known then. -/
def runAfter {α : Type} (past : List Question) (x : StateT Knowledge m α) : m (α × Knowledge) :=
  (do askAll loader root past; x).run {}

end

def valueAfter {α : Type} (loader : Loader Id) (root : Option Path) (past : List Question)
    (x : StateT Knowledge Id α) : α :=
  (runAfter loader root past x).run.1

section

variable {m : Type → Type} [Monad m] [LawfulMonad m] {loader : Loader m} {root : Option Path}
  {I : Knowledge → Prop} (h : ∀ question, Ensures I (ask loader root question) fun _ => True)

include h

theorem askAll_ensures (past : List Question) :
    Ensures I (askAll loader root past) fun _ => True := by
  induction past with
  | nil => exact .pure trivial
  | cons question rest ih => exact (h question).bind fun _ _ => ih

theorem runAfter_leads (hempty : I {}) (past : List Question) {α : Type}
    {Q : α → Knowledge → Prop} {x : StateT Knowledge m α} (hx : Leads I x Q) :
    Always (fun result => Q result.1 result.2) (runAfter loader root past x) :=
  ((askAll_ensures h past).leads fun _ _ => hx) {} hempty

theorem runAfter_always (hempty : I {}) (past : List Question) {α : Type} {p : α → Prop}
    {x : StateT Knowledge m α} (hx : Ensures I x p) :
    Always (fun result => p result.1 ∧ I result.2) (runAfter loader root past x) :=
  runAfter_leads h hempty past hx

end

/-! ## Memory that says what the loader says -/

section

variable {loader : Loader Id} {root : Option Path} (fixed : loader.Fixed)

include fixed

theorem ask_sound (question : Question) :
    Ensures (Sound loader root) (ask loader root question) fun _ => True := by
  cases question with
  | probe path => exact (isFile_ensures fixed path).bind fun _ _ => .pure trivial
  | load path => exact (load_ensures fixed path).bind fun _ _ => .pure trivial
  | read path =>
      exact (withSources_ensures (SourceCache.readFresh_ensures path)).bind fun _ _ =>
        .pure trivial
  | manifest directory => exact (manifestFor_ensures fixed rfl).bind fun _ _ => .pure trivial
  | config directory => exact (configFor_ensures fixed rfl).bind fun _ _ => .pure trivial
  | target boundary depth target config =>
      exact (Classifier.lookup_ensures fixed { root, boundary } depth target
        (ProjectConfig.alike_self config)).bind fun _ _ => .pure trivial
  | specifier workspace boundary file text =>
      have hsame : file.path.parts = file.path.parts := rfl
      exact (Classifier.classify_ensures fixed { root, workspace, boundary } hsame text).bind
        fun _ _ => .pure trivial

/-- Under a loader that never changes its answers, an action that a sound memory gives the right
value gives it after every past. -/
theorem valueAfter_of_ensures (past : List Question) {α : Type} {p : α → Prop}
    {x : StateT Knowledge Id α} (hx : Ensures (Sound loader root) x p) :
    p (valueAfter loader root past x) :=
  (always_id.1 (runAfter_always (ask_sound fixed) sound_empty past hx)).1

theorem valueAfter_classify {s : Surroundings} (past : List Question) (file : SourceFile)
    (specifier : String) :
    (valueAfter loader s.root past (Classifier.classify loader s file specifier)).Alike
      (loader.meaning s file specifier) :=
  valueAfter_of_ensures fixed past (Classifier.classify_ensures fixed s rfl specifier)

end

/-! ## Memory that is clean for clean directories -/

section

variable {m : Type → Type} [Monad m] [LawfulMonad m] (loader : Loader m) (root : Option Path)

theorem tidy_nothing : Tidy {} :=
  ⟨fun _ _ h => by simp at h, fun _ _ h => by simp at h, fun _ _ h => by simp at h⟩

theorem ask_tidy (question : Question) :
    Ensures Tidy (ask loader root question) fun _ => True := by
  cases question with
  | probe path => exact (isFile_tidy loader path).bind fun _ _ => .pure trivial
  | load path => exact (load_tidy loader path).bind fun _ _ => .pure trivial
  | read path =>
      exact (withSources_tidy (SourceCache.readFresh_tidy loader path)).bind fun _ _ =>
        .pure trivial
  | manifest directory =>
      exact (manifestFor_tidy loader root directory).bind fun _ _ => .pure trivial
  | config directory => exact (configFor_tidy loader root directory).bind fun _ _ => .pure trivial
  | target boundary depth target config =>
      exact (Classifier.lookup_confined loader { root, boundary } depth target config).bind
        fun _ _ => .pure trivial
  | specifier workspace boundary file text =>
      exact (Classifier.classify_confined loader { root, workspace, boundary } file text).bind
        fun _ _ => .pure trivial

end

end Knowledge

end ModuleTrace

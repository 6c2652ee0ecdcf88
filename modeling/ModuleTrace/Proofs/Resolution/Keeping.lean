import ModuleTrace.Proofs.Resolution.Membership

/-!
# What all questions keep

Every question comes down to a few ways of asking for sources. What these keep true of the
sources in memory, all questions keep true, whatever else they remember.
-/

namespace ModuleTrace

variable {m : Type → Type} [Monad m] [LawfulMonad m]

/-- A fact about sources that no way of asking for them changes. -/
structure SourceCache.Kept (loader : Loader m) (J : SourceCache → Prop) : Prop where
  isFile : ∀ path, Ensures J (isFile loader path) fun _ => True
  load : ∀ path, Ensures J (load loader path) fun _ => True
  readFresh : ∀ path, Ensures J (readFresh loader path) fun _ => True

namespace Knowledge

def OfSources (J : SourceCache → Prop) (knowledge : Knowledge) : Prop :=
  J knowledge.sources

variable {loader : Loader m} {J : SourceCache → Prop} {root : Option Path}

theorem withSources_ofSources {α : Type} {p : α → Prop} {x : StateT SourceCache m α}
    (h : Ensures J x p) : Ensures (OfSources J) (withSources x) p :=
  h.withSources (fun _ hk => hk) fun _ _ _ hsources => hsources

/-- To remember an answer for a directory changes nothing about sources. -/
theorem nearest_kept {α : Type} {kind : Kind m α}
    (hremember : ∀ knowledge key answer,
      (kind.remember knowledge key answer).sources = knowledge.sources)
    (hfind : ∀ directory, Ensures (OfSources J) (kind.findIn directory) fun _ => True)
    (directory : Path) :
    Ensures (OfSources J) (nearest kind root directory) fun _ => True := by
  have hrecalls : kind.Recalls root (fun _ _ => True) (fun _ _ => True) (OfSources J) := by
    constructor
    case remember =>
      intro knowledge hknowledge directory answer _
      unfold OfSources
      rw [hremember]
      exact hknowledge
    case findIn => exact hfind
    all_goals intros; trivial
  exact nearest_ensures hrecalls directory

structure Kept (loader : Loader m) (I : Knowledge → Prop) : Prop where
  isFile : ∀ path, Ensures I (isFile loader path) fun _ => True
  read? : ∀ path, Ensures I (read? loader path) fun _ => True

namespace Kept

variable {I : Knowledge → Prop}

theorem ofSources (kept : SourceCache.Kept loader J) : Kept loader (OfSources J) where
  isFile path := withSources_ofSources (kept.isFile path)
  read? path := (withSources_ofSources (kept.readFresh path)).bind fun _ _ => .pure trivial

/-- What does not speak of sources is kept. -/
theorem ofDescriptors (h : ∀ knowledge sources, I knowledge → I { knowledge with sources }) :
    Kept loader I := by
  have hsources : ∀ {α : Type} (x : StateT SourceCache m α),
      Ensures I (Knowledge.withSources x) fun _ => True :=
    fun x => (Ensures.top x).withSources (fun _ _ => trivial) fun k sources hk _ => h k sources hk
  exact ⟨fun path => hsources _, fun path => (hsources _).bind fun _ _ => .pure trivial⟩

variable (kept : Kept loader I)

include kept

theorem manifestIn (directory : Path) :
    Ensures I (manifestIn loader directory) fun _ => True := by
  unfold Knowledge.manifestIn
  refine (kept.isFile _).bind fun found _ => ?_
  split
  · exact (kept.read? _).bind fun _ _ => .pure trivial
  · exact .pure trivial

theorem firstFile (paths : List Path) : Ensures I (firstFile loader paths) fun _ => True := by
  induction paths with
  | nil => exact .pure trivial
  | cons path rest ih =>
      unfold Knowledge.firstFile
      refine (kept.isFile path).bind fun found _ => ?_
      split
      · exact .pure trivial
      · exact ih

theorem configIn (directory : Path) : Ensures I (configIn loader directory) fun _ => True := by
  unfold Knowledge.configIn
  refine (kept.firstFile _).bind fun found _ => ?_
  cases found with
  | none => exact .pure trivial
  | some path =>
      exact (ProjectConfig.load_ensures kept.read? path).bind fun _ _ => .pure trivial

end Kept

variable (kept : SourceCache.Kept loader J)

include kept

theorem isFile_kept (path : Path) : Ensures (OfSources J) (isFile loader path) fun _ => True :=
  (Kept.ofSources kept).isFile path

theorem manifestFor_kept (directory : Path) :
    Ensures (OfSources J) (manifestFor loader root directory) fun _ => True :=
  nearest_kept (fun _ _ _ => rfl) (Kept.ofSources kept).manifestIn directory

theorem configFor_kept (directory : Path) :
    Ensures (OfSources J) (configFor loader root directory) fun _ => True :=
  nearest_kept (fun _ _ _ => rfl) (Kept.ofSources kept).configIn directory

end Knowledge

/-! ## Classification -/

namespace Classifier

open Knowledge (OfSources)

variable {loader : Loader m} {J : SourceCache → Prop}

def tryCandidate (loader : Loader m) (s : Surroundings) (depth : Nat)
    (config : Option ProjectConfig) : Candidate → StateT Knowledge m (Option Path)
  | .file path => do
      if ← Knowledge.isFile loader path then
        return if s.permits path then some path else none
      else return none
  | .manifest path =>
      match depth with
      | 0 => return none
      | depth + 1 => do
          if config.all fun config => config.moduleResolution.allowsManifests then
            match ← manifestAt loader s.root path with
            | none => return none
            | some (directory, manifest) =>
                let config ← Knowledge.configFor loader s.root directory
                firstSome (fun entry =>
                  lookup loader s depth (directory / entry).normalize config) manifest.entries
          else return none

omit [LawfulMonad m] in
theorem lookup_eq (loader : Loader m) (s : Surroundings) (depth : Nat) (target : Path)
    (config : Option ProjectConfig) : lookup loader s depth target config
      = firstSome (tryCandidate loader s depth config) (probes target config) := by
  have hsame : ∀ action, (∀ candidate, action candidate
      = tryCandidate loader s depth config candidate) →
      firstSome action (probes target config)
        = firstSome (tryCandidate loader s depth config) (probes target config) := by
    intro action h
    rw [funext h]
  cases depth with
  | zero =>
      rw [lookup]
      apply hsame
      intro candidate
      cases candidate <;> rfl
  | succ depth =>
      rw [lookup]
      apply hsame
      intro candidate
      cases candidate <;> rfl

theorem firstSome_kept {α β : Type} {I : Knowledge → Prop}
    {action : α → StateT Knowledge m (Option β)} {as : List α}
    (h : ∀ a ∈ as, Ensures I (action a) fun _ => True) :
    Ensures I (firstSome action as) fun _ => True := by
  have hrule : ∀ a ∈ as, Ensures I (action a) fun answer => ∀ b, answer = some b → True :=
    fun a ha => (h a ha).mono fun _ _ _ _ => trivial
  exact (firstSome_rule hrule).mono fun _ _ => trivial

variable (kept : SourceCache.Kept loader J) (s : Surroundings)

include kept

theorem manifestAt_kept (root : Option Path) (path : Path) :
    Ensures (OfSources J) (manifestAt loader root path) fun _ => True := by
  unfold manifestAt
  refine (Knowledge.isFile_kept kept path).bind fun answer _ => ?_
  split
  · split
    · exact .pure trivial
    · refine (Knowledge.manifestFor_kept kept _).bind fun manifest _ => ?_
      split <;> exact .pure trivial
  · exact .pure trivial

theorem tryCandidate_kept {depth : Nat} (config : Option ProjectConfig)
    (hfollow : ∀ deeper, depth = deeper + 1 → ∀ target config,
      Ensures (OfSources J) (lookup loader s deeper target config) fun _ => True)
    (candidate : Candidate) :
    Ensures (OfSources J) (tryCandidate loader s depth config candidate) fun _ => True := by
  cases candidate with
  | file path =>
      refine (Knowledge.isFile_kept kept path).bind fun answer _ => ?_
      split <;> exact .pure trivial
  | manifest path =>
      cases depth with
      | zero => exact .pure trivial
      | succ depth =>
          unfold tryCandidate
          simp only
          split
          · refine (manifestAt_kept kept s.root path).bind fun answer _ => ?_
            split
            · exact .pure trivial
            · refine (Knowledge.configFor_kept kept _).bind fun inner _ => ?_
              exact firstSome_kept fun entry _ => hfollow depth rfl _ inner
          · exact .pure trivial

/-- By induction on how far manifests are followed. -/
theorem lookup_kept (depth : Nat) (target : Path) (config : Option ProjectConfig) :
    Ensures (OfSources J) (lookup loader s depth target config) fun _ => True := by
  induction depth generalizing target config with
  | zero =>
      rw [lookup_eq]
      exact firstSome_kept fun candidate _ =>
        tryCandidate_kept kept s config (fun deeper h => by cases h) candidate
  | succ depth ih =>
      rw [lookup_eq]
      apply firstSome_kept
      intro candidate _
      apply tryCandidate_kept kept
      intro deeper h
      cases h
      exact ih

theorem byRule_kept (specifier : String) (config : Option ProjectConfig) (rule : Rule)
    (target : Path) :
    Ensures (OfSources J) (byRule loader s specifier config rule target) fun answer =>
      ∀ d, answer = some d → True :=
  (lookup_kept kept s manifestDepth target config).bind fun _ _ => .pure fun _ _ => trivial

theorem ownRules_kept (directory : Path) (config : Option ProjectConfig) (specifier : String) :
    Ensures (OfSources J) (ownRules loader s directory config specifier) fun _ => True := by
  have hrule := ownRules_rule (Knowledge.manifestFor_kept kept)
    (fun config rule target _ => byRule_kept kept s specifier config rule target) directory config
  exact hrule.mono fun _ _ => trivial

theorem classify_kept (file : SourceFile) (specifier : String) :
    Ensures (OfSources J) (classify loader s file specifier) fun _ => True := by
  have hworkspace : Ensures (OfSources J) (byWorkspace loader s specifier) fun answer =>
      ∀ d, answer = some d → True := by
    unfold byWorkspace
    simp only
    split
    · exact .pure fun _ _ => trivial
    · refine (Knowledge.configFor_kept kept _).bind fun config _ => ?_
      exact byRule_kept kept _ specifier config _ _
  have hrule := classify_rule (Knowledge.manifestFor_kept kept)
    (fun config rule target _ => byRule_kept kept s specifier config rule target)
    (Knowledge.configFor_kept kept) hworkspace file
  exact hrule.mono fun _ _ => trivial

end Classifier

theorem Knowledge.ask_kept {loader : Loader m} {J : SourceCache → Prop}
    (kept : SourceCache.Kept loader J) (root : Option Path) (question : Question) :
    Ensures (OfSources J) (ask loader root question) fun _ => True := by
  cases question with
  | probe path => exact (isFile_kept kept path).bind fun _ _ => .pure trivial
  | load path => exact (withSources_ofSources (kept.load path)).bind fun _ _ => .pure trivial
  | read path => exact (withSources_ofSources (kept.readFresh path)).bind fun _ _ => .pure trivial
  | manifest directory => exact (manifestFor_kept kept directory).bind fun _ _ => .pure trivial
  | config directory => exact (configFor_kept kept directory).bind fun _ _ => .pure trivial
  | target boundary depth target config =>
      exact (Classifier.lookup_kept kept { root, boundary } depth target config).bind fun _ _ =>
        .pure trivial
  | specifier workspace boundary file text =>
      exact (Classifier.classify_kept kept { root, workspace, boundary } file text).bind fun _ _ =>
        .pure trivial

end ModuleTrace

import Mathlib.Data.List.Infix
import ModuleTrace.Proofs.Resolution.Keeping

/-!
# Loaders that answer alike

A memory keeps a journal of the questions that it has put to its loader. As long as another loader
gives the same answers to these questions, a run over the one loader is a run over the other.
-/

namespace ModuleTrace

/-- The other loader gives the same answer to a question. -/
def Loader.AnswersAs (loader other : Loader Id) : Access → Prop
  | .read path => loader.read path = other.read path
  | .probe path => loader.isFile path = other.isFile path

/-! ## Actions that do the same -/

section

variable {α β γ σ : Type} {journal : σ → List Access} {P : Access → Prop}

/-- An action only adds to a journal, and the other one does the same if all questions in the
journal have a property. -/
structure Follows (journal : σ → List Access) (P : Access → Prop) (x y : StateT σ Id α) :
    Prop where
  grows : ∀ state, journal state <:+ journal (x.run state).run.2
  agrees : ∀ state, (∀ access ∈ journal (x.run state).run.2, P access) → x.run state = y.run state

namespace Follows

theorem of_quiet {x : StateT σ Id α} (h : ∀ state, journal (x.run state).run.2 = journal state) :
    Follows journal P x x :=
  ⟨fun state => by rw [h state], fun _ _ => rfl⟩

theorem pure (a : α) : Follows journal P (pure a : StateT σ Id α) (pure a) :=
  of_quiet fun _ => rfl

theorem get : Follows journal P (get : StateT σ Id σ) get :=
  of_quiet fun _ => rfl

theorem modify {f : σ → σ} (h : ∀ state, journal (f state) = journal state) :
    Follows journal P (modify f : StateT σ Id PUnit) (modify f) :=
  of_quiet fun state => h state

theorem lift (x : Id α) : Follows journal P (liftM x : StateT σ Id α) (liftM x) :=
  of_quiet fun _ => rfl

theorem bind {x y : StateT σ Id α} {f g : α → StateT σ Id β} (hx : Follows journal P x y)
    (hf : ∀ a, Follows journal P (f a) (g a)) : Follows journal P (x >>= f) (y >>= g) := by
  constructor
  · intro state
    exact (hx.grows state).trans ((hf _).grows _)
  · intro state hall
    have hfirst : x.run state = y.run state :=
      hx.agrees state fun access haccess => hall access (((hf _).grows _).subset haccess)
    have hrest := (hf (x.run state).run.1).agrees (x.run state).run.2 hall
    show (f (x.run state).run.1).run (x.run state).run.2
      = (g (y.run state).run.1).run (y.run state).run.2
    rw [← hfirst, hrest]

theorem mapM {f g : α → StateT σ Id β} (h : ∀ a, Follows journal P (f a) (g a)) (as : List α) :
    Follows journal P (as.mapM f) (as.mapM g) := by
  induction as with
  | nil => exact .pure _
  | cons a rest ih =>
      rw [List.mapM_cons, List.mapM_cons]
      exact (h a).bind fun _ => ih.bind fun _ => .pure _

theorem foldlM {f g : β → α → StateT σ Id β} (h : ∀ b a, Follows journal P (f b a) (g b a))
    (as : List α) (b : β) : Follows journal P (as.foldlM f b) (as.foldlM g b) := by
  induction as generalizing b with
  | nil => exact .pure _
  | cons a rest ih =>
      rw [List.foldlM_cons, List.foldlM_cons]
      exact (h b a).bind ih

end Follows

end

section

variable {α : Type} (a b : Loader Id)

/-- One action follows another as long as the loaders answer alike. -/
abbrev FollowsInSources (x y : StateT SourceCache Id α) : Prop :=
  Follows SourceCache.journal (a.AnswersAs b) x y

abbrev FollowsInKnowledge (x y : StateT Knowledge Id α) : Prop :=
  Follows (fun knowledge => knowledge.sources.journal) (a.AnswersAs b) x y

end

section

variable {a b : Loader Id} {α : Type}

/-! ## Sources -/

namespace SourceCache

theorem readFresh_follows (path : Path) :
    FollowsInSources a b (readFresh a path) (readFresh b path) := by
  constructor
  · intro cache
    exact List.suffix_cons _ _
  · intro cache hall
    have hanswer : a.read path = b.read path := hall (.read path) (by simp [readFresh])
    unfold readFresh
    rw [hanswer]

theorem load_follows (path : Path) : FollowsInSources a b (load a path) (load b path) := by
  unfold load
  refine Follows.get.bind fun cache => ?_
  split
  · exact .pure _
  · refine (readFresh_follows path).bind fun answer => ?_
    cases answer with
    | error error => exact .pure _
    | ok contents =>
        refine .bind (.modify ?_) fun _ => .pure _
        exact fun _ => rfl

theorem isFile_follows (path : Path) : FollowsInSources a b (isFile a path) (isFile b path) := by
  constructor
  · intro cache
    cases hknown : cache.existence[path.parts]? with
    | some answer => simp [isFile, hknown]
    | none => simp [isFile, hknown]
  · intro cache hall
    cases hknown : cache.existence[path.parts]? with
    | some answer => simp [isFile, hknown]
    | none =>
        have hanswer : a.isFile path = b.isFile path :=
          hall (.probe path) (by simp [isFile, hknown])
        simp [isFile, hknown, hanswer]

end SourceCache

/-! ## Descriptors -/

namespace Knowledge

theorem withSources_follows {x y : StateT SourceCache Id α} (h : FollowsInSources a b x y) :
    FollowsInKnowledge a b (withSources x) (withSources y) := by
  have hrun : ∀ (z : StateT SourceCache Id α) (knowledge : Knowledge),
      (withSources z).run knowledge
        = ((z.run knowledge.sources).run.1,
          { knowledge with sources := (z.run knowledge.sources).run.2 }) := fun _ _ => rfl
  constructor
  · intro knowledge
    exact h.grows knowledge.sources
  · intro knowledge hall
    rw [hrun, hrun, h.agrees knowledge.sources hall]

theorem isFile_follows (path : Path) : FollowsInKnowledge a b (isFile a path) (isFile b path) :=
  withSources_follows (SourceCache.isFile_follows path)

theorem load_follows (path : Path) : FollowsInKnowledge a b (load a path) (load b path) :=
  withSources_follows (SourceCache.load_follows path)

theorem read?_follows (path : Path) : FollowsInKnowledge a b (read? a path) (read? b path) :=
  (withSources_follows (SourceCache.readFresh_follows path)).bind fun _ => .pure _

theorem manifestIn_follows (directory : Path) :
    FollowsInKnowledge a b (manifestIn a directory) (manifestIn b directory) := by
  unfold manifestIn
  refine (isFile_follows _).bind fun found => ?_
  split
  · exact (read?_follows _).bind fun _ => .pure _
  · exact .pure _

theorem firstFile_follows (paths : List Path) :
    FollowsInKnowledge a b (firstFile a paths) (firstFile b paths) := by
  induction paths with
  | nil => exact .pure _
  | cons path rest ih =>
      unfold firstFile
      refine (isFile_follows path).bind fun found => ?_
      split
      · exact .pure _
      · exact ih

theorem loadOptions_follows (depth : Nat) (path : Path) (contents : String) :
    FollowsInKnowledge a b (ProjectConfig.loadOptions (read? a) depth path contents)
      (ProjectConfig.loadOptions (read? b) depth path contents) := by
  induction depth generalizing path contents with
  | zero =>
      unfold ProjectConfig.loadOptions
      cases Json.parse? (Json.strict contents) with
      | none => exact .pure _
      | some json => exact .pure _
  | succ depth ih =>
      unfold ProjectConfig.loadOptions
      cases Json.parse? (Json.strict contents) with
      | none => exact .pure _
      | some json =>
          refine .bind (.foldlM (fun inherited parent => ?_) _ _) fun _ => .pure _
          refine (read?_follows parent).bind fun answer => ?_
          cases answer with
          | none => exact .pure _
          | some contents =>
              refine (ih parent contents).bind fun options => ?_
              cases options <;> exact .pure _

theorem configIn_follows (directory : Path) :
    FollowsInKnowledge a b (configIn a directory) (configIn b directory) := by
  unfold configIn
  refine (firstFile_follows _).bind fun found => ?_
  cases found with
  | none => exact .pure _
  | some path =>
      refine .bind ?_ fun _ => .pure _
      unfold ProjectConfig.load
      refine (read?_follows path).bind fun answer => ?_
      cases answer with
      | none => exact .pure _
      | some contents =>
          unfold ProjectConfig.parseWith
          refine (loadOptions_follows _ path contents).bind fun options => ?_
          cases options <;> exact .pure _

section

variable (kind other : Kind Id α) (root : Option Path)

theorem search_follows (hknown : kind.known? = other.known?)
    (hfind : ∀ directory, FollowsInKnowledge a b (kind.findIn directory) (other.findIn directory))
    (directories passed : List Path) :
    FollowsInKnowledge a b (search kind root directories passed)
      (search other root directories passed) := by
  induction directories generalizing passed with
  | nil => exact .pure _
  | cons directory rest ih =>
      unfold search
      rw [← hknown]
      refine Follows.get.bind fun knowledge => ?_
      split
      · exact .pure _
      · refine (hfind directory).bind fun answer => ?_
        cases answer with
        | some found => exact .pure _
        | none =>
            simp only
            split
            · exact .pure _
            · exact ih _

/-- Two kinds of descriptors that are remembered in the same way and found in ways that follow
one another. -/
theorem nearest_follows (hknown : kind.known? = other.known?)
    (hremember : kind.remember = other.remember)
    (hquiet : ∀ knowledge key answer,
      (kind.remember knowledge key answer).sources = knowledge.sources)
    (hfind : ∀ directory, FollowsInKnowledge a b (kind.findIn directory) (other.findIn directory))
    (directory : Path) :
    FollowsInKnowledge a b (nearest kind root directory) (nearest other root directory) := by
  unfold nearest
  rw [← hremember]
  refine (search_follows kind other root hknown hfind _ _).bind fun result => ?_
  refine .bind (.modify ?_) fun _ => .pure _
  intro knowledge
  rw [sources_remembered hquiet]

end

variable (root : Option Path) (directory : Path)

theorem manifestFor_follows :
    FollowsInKnowledge a b (manifestFor a root directory) (manifestFor b root directory) :=
  nearest_follows (manifestKind a) (manifestKind b) root rfl rfl (fun _ _ _ => rfl)
    manifestIn_follows directory

theorem configFor_follows :
    FollowsInKnowledge a b (configFor a root directory) (configFor b root directory) :=
  nearest_follows (configKind a) (configKind b) root rfl rfl (fun _ _ _ => rfl)
    configIn_follows directory

end Knowledge

/-! ## Classification -/

namespace Classifier

theorem firstSome_follows {β : Type} {action other : α → StateT Knowledge Id (Option β)}
    (h : ∀ x, FollowsInKnowledge a b (action x) (other x)) (xs : List α) :
    FollowsInKnowledge a b (firstSome action xs) (firstSome other xs) := by
  induction xs with
  | nil => exact .pure _
  | cons x rest ih =>
      unfold firstSome
      refine (h x).bind fun found => ?_
      cases found with
      | some value => exact .pure _
      | none => exact ih

theorem firstSome_id_follows {xs ys : List (StateT Knowledge Id (Option α))}
    (h : List.Forall₂ (FollowsInKnowledge a b) xs ys) :
    FollowsInKnowledge a b (firstSome id xs) (firstSome id ys) := by
  induction h with
  | nil => exact .pure _
  | cons hxy _ ih =>
      unfold firstSome
      refine hxy.bind fun found => ?_
      cases found with
      | some value => exact .pure _
      | none => exact ih

theorem manifestAt_follows (root : Option Path) (path : Path) :
    FollowsInKnowledge a b (manifestAt a root path) (manifestAt b root path) := by
  unfold manifestAt
  refine (Knowledge.isFile_follows path).bind fun found => ?_
  split
  · split
    · exact .pure _
    · refine (Knowledge.manifestFor_follows root _).bind fun manifest => ?_
      split <;> exact .pure _
  · exact .pure _

variable (s : Surroundings)

/-- By induction on how far manifests are followed. -/
theorem lookup_follows (depth : Nat) (target : Path) (config : Option ProjectConfig) :
    FollowsInKnowledge a b (lookup a s depth target config) (lookup b s depth target config) := by
  have hfile : ∀ depth config path, FollowsInKnowledge a b
      (tryCandidate a s depth config (.file path))
      (tryCandidate b s depth config (.file path)) := by
    intro depth config path
    refine (Knowledge.isFile_follows path).bind fun found => ?_
    split <;> exact .pure _
  induction depth generalizing target config with
  | zero =>
      rw [lookup_eq, lookup_eq]
      refine firstSome_follows (fun candidate => ?_) _
      cases candidate with
      | file path => exact hfile 0 config path
      | manifest path => exact .pure _
  | succ depth ih =>
      rw [lookup_eq, lookup_eq]
      refine firstSome_follows (fun candidate => ?_) _
      cases candidate with
      | file path => exact hfile (depth + 1) config path
      | manifest path =>
          unfold tryCandidate
          simp only
          split
          · refine (manifestAt_follows s.root path).bind fun answer => ?_
            split
            · exact .pure _
            · refine (Knowledge.configFor_follows s.root _).bind fun inner => ?_
              exact firstSome_follows (fun entry => ih _ inner) _
          · exact .pure _

theorem byRule_follows (specifier : String) (config : Option ProjectConfig) (rule : Rule)
    (target : Path) :
    FollowsInKnowledge a b (byRule a s specifier config rule target)
      (byRule b s specifier config rule target) :=
  (lookup_follows s manifestDepth target config).bind fun _ => .pure _

theorem byAlias_follows (config : ProjectConfig) (specifier : String) :
    FollowsInKnowledge a b (byAlias a s config specifier) (byAlias b s config specifier) :=
  firstSome_follows (fun _ => byRule_follows s specifier _ _ _) _

theorem byBase_follows (config : ProjectConfig) (specifier : String) :
    FollowsInKnowledge a b (byBase a s config specifier) (byBase b s config specifier) := by
  unfold byBase
  split
  · exact .pure _
  · exact byRule_follows s specifier _ _ _

theorem byPackage_follows (directory : Path) (config : Option ProjectConfig) (specifier : String) :
    FollowsInKnowledge a b (byPackage a s directory config specifier)
      (byPackage b s directory config specifier) := by
  unfold byPackage
  refine (Knowledge.manifestFor_follows s.root directory).bind fun manifest => ?_
  cases manifest with
  | none => exact .pure _
  | some manifest =>
      simp only
      split
      · exact .pure _
      · exact byRule_follows s specifier config _ _

theorem byWorkspace_follows (specifier : String) :
    FollowsInKnowledge a b (byWorkspace a s specifier) (byWorkspace b s specifier) := by
  unfold byWorkspace
  simp only
  split
  · exact .pure _
  · refine (Knowledge.configFor_follows s.root _).bind fun config => ?_
    exact byRule_follows _ specifier config _ _

theorem bare_follows (directory : Path) (config : Option ProjectConfig) (specifier : String) :
    FollowsInKnowledge a b (bare a s directory config specifier)
      (bare b s directory config specifier) := by
  have hrest : List.Forall₂ (FollowsInKnowledge a b)
      [byPackage a s directory config specifier, byWorkspace a s specifier]
      [byPackage b s directory config specifier, byWorkspace b s specifier] :=
    .cons (byPackage_follows s directory config specifier)
      (.cons (byWorkspace_follows s specifier) .nil)
  unfold bare
  cases config with
  | none => exact firstSome_id_follows hrest
  | some config =>
      exact firstSome_id_follows (.cons (byAlias_follows s config specifier)
        (.cons (byBase_follows s config specifier) hrest))

theorem classify_follows (file : SourceFile) (specifier : String) :
    FollowsInKnowledge a b (classify a s file specifier) (classify b s file specifier) := by
  unfold classify
  split
  · exact .pure _
  · refine (Knowledge.configFor_follows s.root _).bind fun config => ?_
    simp only
    split
    · refine (byRule_follows s specifier config _ _).bind fun found => ?_
      cases found <;> exact .pure _
    · refine (bare_follows s _ config specifier).bind fun found => ?_
      cases found <;> exact .pure _

end Classifier

end

end ModuleTrace

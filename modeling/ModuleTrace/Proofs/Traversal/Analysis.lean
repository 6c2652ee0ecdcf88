import ModuleTrace.Proofs.Resolution.Classification

/-!
# Taking files apart

What is learned from a file in a session that has learned nothing before is what is learned from
it in any session over the same loader. Memory that came about in some way or other keeps this so.
-/

namespace ModuleTrace

/-! ## Like results -/

structure SourceFile.Alike (a b : SourceFile) : Prop where
  path : a.path.parts = b.path.parts
  contents : a.contents = b.contents

structure UnsupportedModules.Alike (a b : UnsupportedModules) : Prop where
  file : a.file.parts = b.file.parts
  names : a.names = b.names

structure FileFailure.Alike (a b : FileFailure) : Prop where
  file : a.file.parts = b.file.parts
  message : a.message = b.message

structure Problems.Alike (a b : Problems) : Prop where
  entrypoint : a.entrypoint.parts = b.entrypoint.parts
  missing : List.Forall₂ (fun p q : Path => p.parts = q.parts) a.missing b.missing
  unsupported : List.Forall₂ UnsupportedModules.Alike a.unsupported b.unsupported
  failures : List.Forall₂ FileFailure.Alike a.failures b.failures

def ResolveError.Alike : ResolveError → ResolveError → Prop
  | .entrypointUnreadable p cause, .entrypointUnreadable q cause' =>
      p.parts = q.parts ∧ cause = cause'
  | .unsupportedKind p, .unsupportedKind q => p.parts = q.parts
  | .typedUnavailable p, .typedUnavailable q => p.parts = q.parts
  | .limitExceeded p limit, .limitExceeded q limit' => p.parts = q.parts ∧ limit = limit'
  | .problems found, .problems found' => found.Alike found'
  | _, _ => False

inductive Alike {α β : Type} (R : α → β → Prop) :
    Except ResolveError α → Except ResolveError β → Prop
  | ok {a : α} {b : β} (h : R a b) : Alike R (.ok a) (.ok b)
  | error {error error' : ResolveError} (h : error.Alike error') :
      Alike R (.error error) (.error error')

structure Analysis.Alike (a b : Analysis) : Prop where
  specifiers : a.specifiers = b.specifiers
  locals : List.Forall₂ LocalDependency.Alike a.dependencies.locals b.dependencies.locals
  missing : a.dependencies.missing = b.dependencies.missing
  external : a.dependencies.external = b.dependencies.external
  failure : a.failure = b.failure

section

variable {α β : Type} {R : α → β → Prop} {as : List α} {bs : List β}

theorem exists_right (h : List.Forall₂ R as bs) {a : α} (ha : a ∈ as) : ∃ b ∈ bs, R a b := by
  induction h with
  | nil => cases ha
  | cons hab _ ih =>
      rcases List.mem_cons.1 ha with rfl | ha
      · exact ⟨_, List.mem_cons_self, hab⟩
      · obtain ⟨b, hb, hrel⟩ := ih ha
        exact ⟨b, List.mem_cons_of_mem _ hb, hrel⟩

theorem exists_left (h : List.Forall₂ R as bs) {b : β} (hb : b ∈ bs) : ∃ a ∈ as, R a b := by
  induction h with
  | nil => cases hb
  | cons hab _ ih =>
      rcases List.mem_cons.1 hb with rfl | hb
      · exact ⟨_, List.mem_cons_self, hab⟩
      · obtain ⟨a, ha, hrel⟩ := ih hb
        exact ⟨a, List.mem_cons_of_mem _ ha, hrel⟩

theorem exists_mem_congr (h : List.Forall₂ R as bs) {P : α → Prop} {Q : β → Prop}
    (hPQ : ∀ a b, R a b → (P a ↔ Q b)) : (∃ a ∈ as, P a) ↔ ∃ b ∈ bs, Q b := by
  induction h with
  | nil => simp
  | cons hab _ ih => simp [hPQ _ _ hab, ih]

theorem forall_mem_congr (h : List.Forall₂ R as bs) {P : α → Prop} {Q : β → Prop}
    (hPQ : ∀ a b, R a b → (P a ↔ Q b)) : (∀ a ∈ as, P a) ↔ ∀ b ∈ bs, Q b := by
  induction h with
  | nil => simp
  | cons hab _ ih => simp [hPQ _ _ hab, ih]

theorem pairwise_congr (h : List.Forall₂ R as bs) {P : α → α → Prop} {Q : β → β → Prop}
    (hPQ : ∀ a b a' b', R a b → R a' b' → (P a a' ↔ Q b b')) :
    as.Pairwise P ↔ bs.Pairwise Q := by
  induction h with
  | nil => simp
  | cons hab hrest ih =>
      rw [List.pairwise_cons, List.pairwise_cons, ih,
        forall_mem_congr hrest fun a' b' hab' => hPQ _ _ a' b' hab hab']

end

/-! ### What is like a third thing is alike -/

theorem forall₂_of_common {α γ : Type} {R : α → γ → Prop} {S : α → α → Prop} {as bs : List α}
    {cs : List γ} (ha : List.Forall₂ R as cs) (hb : List.Forall₂ R bs cs)
    (h : ∀ {a b c}, R a c → R b c → S a b) : List.Forall₂ S as bs := by
  induction ha generalizing bs with
  | nil =>
      cases hb
      exact .nil
  | cons hac _ ih =>
      cases hb with
      | cons hbc hrest => exact .cons (h hac hbc) (ih hrest)

theorem Problems.Alike.of_common {a b c : Problems} (ha : a.Alike c) (hb : b.Alike c) :
    a.Alike b where
  entrypoint := ha.entrypoint.trans hb.entrypoint.symm
  missing := forall₂_of_common ha.missing hb.missing fun h h' => h.trans h'.symm
  unsupported := forall₂_of_common ha.unsupported hb.unsupported fun h h' =>
    ⟨h.file.trans h'.file.symm, h.names.trans h'.names.symm⟩
  failures := forall₂_of_common ha.failures hb.failures fun h h' =>
    ⟨h.file.trans h'.file.symm, h.message.trans h'.message.symm⟩

theorem ResolveError.Alike.of_common {a b c : ResolveError} (ha : a.Alike c) (hb : b.Alike c) :
    a.Alike b := by
  cases c with
  | entrypointUnreadable p cause =>
      cases a <;> first | exact ha.elim | skip
      cases b <;> first | exact hb.elim | skip
      exact ⟨ha.1.trans hb.1.symm, ha.2.trans hb.2.symm⟩
  | unsupportedKind p =>
      cases a <;> first | exact ha.elim | skip
      cases b <;> first | exact hb.elim | skip
      exact Eq.trans ha hb.symm
  | typedUnavailable p =>
      cases a <;> first | exact ha.elim | skip
      cases b <;> first | exact hb.elim | skip
      exact Eq.trans ha hb.symm
  | limitExceeded p limit =>
      cases a <;> first | exact ha.elim | skip
      cases b <;> first | exact hb.elim | skip
      exact ⟨ha.1.trans hb.1.symm, ha.2.trans hb.2.symm⟩
  | problems found =>
      cases a <;> first | exact ha.elim | skip
      cases b <;> first | exact hb.elim | skip
      exact Problems.Alike.of_common ha hb

theorem Alike.of_common {α γ : Type} {R : α → γ → Prop} {S : α → α → Prop}
    {x y : Except ResolveError α} {z : Except ResolveError γ} (hx : ModuleTrace.Alike R x z)
    (hy : ModuleTrace.Alike R y z) (h : ∀ {a b c}, R a c → R b c → S a b) :
    ModuleTrace.Alike S x y := by
  cases hx with
  | ok hac =>
      cases hy with
      | ok hbc => exact .ok (h hac hbc)
  | error ha =>
      cases hy with
      | error hb => exact .error (ha.of_common hb)

/-! ## Extraction and surroundings -/

/-- A file's other spelling contains the same, or is refused with the same error. -/
theorem Extractor.find_alike (extractor : Extractor) {f g : SourceFile} (h : f.Alike g) :
    Alike Eq ((extractor f).mapError .ofExtraction) ((extractor g).mapError .ofExtraction) := by
  obtain ⟨p, contents⟩ := f
  obtain ⟨q, other⟩ := g
  obtain ⟨hparts, rfl⟩ := h
  have hself := extractor.find_congr p p contents rfl
  have hother := extractor.find_congr p q contents hparts
  cases hfound : extractor ⟨p, contents⟩ with
  | ok found =>
      rw [hother, hfound]
      exact .ok rfl
  | error error =>
      rw [hother, hfound]
      rw [hfound] at hself
      cases error with
      | unsupportedKind path =>
          have hpath : path = p := by simpa [Except.mapError, ExtractionError.about] using hself
          exact .error ((congrArg Path.parts hpath).trans hparts)
      | typedUnavailable path =>
          have hpath : path = p := by simpa [Except.mapError, ExtractionError.about] using hself
          exact .error ((congrArg Path.parts hpath).trans hparts)

/-- Finds in a file of some kind what its contents stand for. -/
def Extractor.ofTexts (found : List (String × Extraction)) : Extractor where
  find file :=
    match file.kind? with
    | none => .error (.unsupportedKind file.path)
    | some _ => .ok ((found.lookup file.contents).getD (.specifiers []))
  find_of_kind?_eq_none file h := by simp [h]
  find_congr p q contents h := by
    have hkind : SourceFile.kind? ⟨q, contents⟩ = SourceFile.kind? ⟨p, contents⟩ := by
      simp [SourceFile.kind?, FileKind.ofPath?, Path.extension?_congr h]
    simp only [hkind]
    cases SourceFile.kind? ⟨p, contents⟩ <;> rfl

theorem Workspace.byPath_congr (w : Workspace) {p q : Path} (h : p.parts = q.parts) :
    w.byPath p = w.byPath q := by
  unfold byPath contains
  simp only [Path.isUnder_congr h]

namespace Session

theorem surroundings_congr {m : Type → Type} (s : Session m) {f g : SourceFile}
    (h : f.path.parts = g.path.parts) : s.surroundings f = s.surroundings g := by
  unfold surroundings boundary
  simp only [Workspace.byPath_congr _ h]

variable (s : Session Id)

/-! ## Analyses -/

def Loads (file : SourceFile) : Prop :=
  (s.loader.read file.path).run = .ok file.contents

def analysisOf (file : SourceFile) : Except ResolveError Analysis :=
  match s.extractor file with
  | .error error => .error (.ofExtraction error)
  | .ok (.syntaxError message) => .ok { failure := some message }
  | .ok (.specifiers found) =>
      .ok ⟨found,
        .ofClassifications (found.map (s.loader.meaning (s.surroundings file) file)), none⟩

def learned (file : SourceFile) : Except ResolveError Analysis :=
  ((s.analyze file).run {}).run.1

/-- Everything that is remembered is what the loader says. -/
structure Sound (memory : Memory) : Prop where
  knowledge : memory.knowledge.Sound s.loader s.options.root
  analyses : ∀ (key : List Path.Part) (analysis : Analysis),
    memory.analyses[key]? = some analysis → ∀ file : SourceFile, file.path.parts = key →
      s.Loads file → Alike Analysis.Alike (.ok analysis) (s.analysisOf file)

variable {s}

theorem sound_empty : s.Sound {} :=
  ⟨Knowledge.sound_empty, fun _ _ h => by simp at h⟩

theorem withKnowledge_ensures {α : Type} {p : α → Prop} {x : StateT Knowledge Id α}
    (h : Ensures (Knowledge.Sound s.loader s.options.root) x p) :
    Ensures s.Sound (withKnowledge x) p :=
  h.withKnowledge (fun _ hmemory => hmemory.knowledge) fun _ _ hmemory hknowledge =>
    ⟨hknowledge, hmemory.analyses⟩

theorem load_ensures (fixed : s.loader.Fixed) (path : Path) :
    Ensures s.Sound (s.load path) (s.loader.Serves path) :=
  withKnowledge_ensures (Knowledge.load_ensures fixed path)

theorem loads_of_serves (fixed : s.loader.Fixed) {path : Path} {file : SourceFile}
    (h : s.loader.Serves path (.ok file)) : s.Loads file := by
  rw [Loads, fixed.read_congr h.1, h.2]

/-- Loaded files of one path are alike. -/
theorem alike_of_loads (fixed : s.loader.Fixed) {f g : SourceFile} (hf : s.Loads f) (hg : s.Loads g)
    (h : f.path.parts = g.path.parts) : f.Alike g := by
  rw [Loads, fixed.read_congr h, hg] at hf
  cases f
  cases hf
  exact ⟨h, rfl⟩

theorem classifyAll_ensures (fixed : s.loader.Fixed) {file other : SourceFile}
    (h : file.path.parts = other.path.parts) (specifiers : List String) :
    Ensures s.Sound (s.classifyAll file specifiers) (List.Forall₂ Classification.Alike ·
      (specifiers.map (s.loader.meaning (s.surroundings other) other))) := by
  unfold classifyAll
  rw [surroundings_congr s h]
  refine (Ensures.mapM (R := Eq)
    (S := fun c specifier => c.Alike (s.loader.meaning (s.surroundings other) other specifier))
    (fun specifier _ heq => ?_) (List.forall₂_same.2 fun _ _ => rfl)).mono fun found hfound => ?_
  · subst heq
    exact withKnowledge_ensures
      (Classifier.classify_ensures fixed (s.surroundings other) h specifier)
  · exact List.forall₂_map_right_iff.2 hfound

end Session

theorem Dependencies.ofClassifications_alike {cs ds : List Classification}
    (h : List.Forall₂ Classification.Alike cs ds) (specifiers : List String) :
    Analysis.Alike ⟨specifiers, .ofClassifications cs, none⟩
      ⟨specifiers, .ofClassifications ds, none⟩ := by
  refine ⟨rfl, ?_, ?_, ?_, rfl⟩
  · refine List.rel_filterMap (fun c d hcd => ?_) h
    cases c <;> cases d <;> first | exact .some hcd | exact .none | cases hcd
  · refine List.forall₂_eq_eq_eq ▸
      List.rel_filterMap (R := Classification.Alike) (fun c d hcd => ?_) h
    cases c <;> cases d <;> first | (cases hcd; exact .some rfl) | exact .none | cases hcd
  · refine List.forall₂_eq_eq_eq ▸
      List.rel_filterMap (R := Classification.Alike) (fun c d hcd => ?_) h
    cases c <;> cases d <;> first | (cases hcd; exact .some rfl) | exact .none | cases hcd

namespace Session

variable {s : Session Id}

theorem extractor_ok {f g : SourceFile} (h : f.Alike g) {found : Extraction}
    (hf : s.extractor f = .ok found) : s.extractor g = .ok found := by
  have halike := s.extractor.find_alike h
  rw [hf] at halike
  cases hg : s.extractor g with
  | error error =>
      rw [hg] at halike
      cases halike
  | ok other =>
      rw [hg] at halike
      cases halike with
      | ok heq => rw [heq]

theorem analysisOf_error {f g : SourceFile} (h : f.Alike g) {error : ExtractionError}
    (hf : s.extractor f = .error error) :
    Alike Analysis.Alike (.error (.ofExtraction error)) (s.analysisOf g) := by
  have halike := s.extractor.find_alike h
  rw [hf] at halike
  unfold analysisOf
  cases hg : s.extractor g with
  | error other =>
      rw [hg] at halike
      cases halike with
      | error herror => exact .error herror
  | ok found =>
      rw [hg] at halike
      cases halike

/-- An analysis that is right for every file that the loader has at a path may be remembered. -/
theorem Sound.insert {memory : Memory} (h : s.Sound memory) {key : List Path.Part}
    {analysis : Analysis} (hanalysis : ∀ file : SourceFile, file.path.parts = key →
      s.Loads file → Alike Analysis.Alike (.ok analysis) (s.analysisOf file)) :
    s.Sound { memory with analyses := memory.analyses.insert key analysis } := by
  refine ⟨h.knowledge, fun other found hfound => ?_⟩
  rcases insert_entry_cases hfound with ⟨rfl, rfl⟩ | hold
  · exact hanalysis
  · exact h.analyses other found hold

theorem keep_ensures {file other : SourceFile} (hfile : other.path.parts = file.path.parts)
    (hloads : s.Loads other) {analysis : Analysis}
    (h : ∀ g : SourceFile, g.path.parts = file.path.parts → s.Loads g →
      Alike Analysis.Alike (.ok analysis) (s.analysisOf g)) :
    Ensures s.Sound
      (do
        modify (fun memory : Memory =>
          { memory with analyses := memory.analyses.insert file.path.parts analysis })
        return .ok analysis : StateT Memory Id (Except ResolveError Analysis))
      (Alike Analysis.Alike · (s.analysisOf other)) :=
  (Ensures.modify fun _ hmemory => Sound.insert hmemory h).bind
    fun _ _ => .pure (h other hfile hloads)

theorem analyze_ensures (fixed : s.loader.Fixed) {file other : SourceFile} (hloads : s.Loads file)
    (h : file.Alike other) :
    Ensures s.Sound (s.analyze file) (Alike Analysis.Alike · (s.analysisOf other)) := by
  have hother : s.Loads other := by
    rw [Loads, ← fixed.read_congr h.path, hloads, h.contents]
  have halike : ∀ g : SourceFile, g.path.parts = file.path.parts → s.Loads g → file.Alike g :=
    fun g hg hgloads => alike_of_loads fixed hloads hgloads hg.symm
  unfold analyze
  refine Ensures.get.bind fun memory hmemory => ?_
  cases hknown : memory.analyses[file.path.parts]? with
  | some analysis => exact .pure (hmemory.analyses _ _ hknown other h.path.symm hother)
  | none =>
      cases hfound : s.extractor file with
      | error error => exact .pure (analysisOf_error h hfound)
      | ok found =>
          have hsame : ∀ g : SourceFile, g.path.parts = file.path.parts → s.Loads g →
              s.extractor g = .ok found := fun g hg hgloads =>
            extractor_ok (halike g hg hgloads) hfound
          cases found with
          | syntaxError message =>
              simp only [pure_bind]
              refine keep_ensures h.path.symm hother fun g hg hgloads => ?_
              rw [analysisOf, hsame g hg hgloads]
              exact .ok ⟨rfl, .nil, rfl, rfl, rfl⟩
          | specifiers specifiers =>
              simp only [pure_bind]
              have hspelled : ∃ g : SourceFile, g.path.parts = file.path.parts := ⟨file, rfl⟩
              refine (Ensures.forall_of_id hspelled fun g hg =>
                classifyAll_ensures fixed hg.symm specifiers).bind fun found hfound => ?_
              refine keep_ensures h.path.symm hother fun g hg hgloads => ?_
              rw [analysisOf, hsame g hg hgloads]
              exact .ok (Dependencies.ofClassifications_alike (hfound g hg) specifiers)

/-- What is learned from a file is what its analysis says, under every spelling. -/
theorem learned_alike (fixed : s.loader.Fixed) {f g : SourceFile} (hf : s.Loads f)
    (h : f.Alike g) : Alike Analysis.Alike (s.learned f) (s.analysisOf g) :=
  (ensures_id.1 (analyze_ensures fixed hf h) {} sound_empty).1

end Session

end ModuleTrace

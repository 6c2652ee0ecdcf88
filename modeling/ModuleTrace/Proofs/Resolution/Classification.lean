import ModuleTrace.Proofs.Resolution.Recall

/-!
# Classification and memory

Under a loader that never changes its answers, what a specifier means does not depend on what is
remembered, nor on how the path of the importing file is spelled.
-/

namespace ModuleTrace

structure LocalDependency.Alike (a b : LocalDependency) : Prop where
  specifier : a.specifier = b.specifier
  path : a.path.parts = b.path.parts
  rule : a.rule = b.rule

/-- The same meaning, up to the spelling of a file that was found. -/
def Classification.Alike : Classification → Classification → Prop
  | .localFile a, .localFile b => a.Alike b
  | a, b => a = b

theorem LocalDependency.Alike.symm {a b : LocalDependency} (h : a.Alike b) : b.Alike a :=
  ⟨h.specifier.symm, h.path.symm, h.rule.symm⟩

theorem LocalDependency.Alike.trans {a b c : LocalDependency} (h : a.Alike b) (h' : b.Alike c) :
    a.Alike c :=
  ⟨h.specifier.trans h'.specifier, h.path.trans h'.path, h.rule.trans h'.rule⟩

namespace Classification

theorem Alike.of_external {answer : Classification} {specifier : String}
    (h : answer.Alike (.external specifier)) : answer = .external specifier := by
  cases answer <;> exact h

theorem Alike.of_missing {answer : Classification} {dependency : MissingDependency}
    (h : answer.Alike (.missing dependency)) : answer = .missing dependency := by
  cases answer <;> exact h

/-- A local file is alike a local file only. -/
theorem Alike.exists_localFile {answer : Classification} {d : LocalDependency}
    (h : answer.Alike (.localFile d)) : ∃ e, answer = .localFile e ∧ e.Alike d := by
  cases answer with
  | localFile e => exact ⟨e, rfl, h⟩
  | missing e => cases h
  | external text => cases h

theorem Alike.symm {a b : Classification} (h : a.Alike b) : b.Alike a := by
  cases b with
  | localFile e =>
      obtain ⟨d, rfl, hd⟩ := h.exists_localFile
      exact LocalDependency.Alike.symm hd
  | missing e =>
      rw [h.of_missing]
      rfl
  | external text =>
      rw [h.of_external]
      rfl

theorem Alike.trans {a b c : Classification} (h : a.Alike b) (h' : b.Alike c) : a.Alike c := by
  cases c with
  | localFile e =>
      obtain ⟨d, rfl, hd⟩ := h'.exists_localFile
      obtain ⟨f, rfl, hf⟩ := h.exists_localFile
      exact LocalDependency.Alike.trans hf hd
  | missing e =>
      rw [h'.of_missing] at h
      exact h
  | external text =>
      rw [h'.of_external] at h
      exact h

end Classification

namespace Classifier

open Knowledge (Sound)

/-! ## The first value that is found -/

section

variable {α β γ δ : Type} {I : Knowledge → Prop} {S : β → γ → Prop}

theorem firstSome_ensures {R : α → δ → Prop} {action : α → StateT Knowledge Id (Option β)}
    {g : δ → Option γ} (h : ∀ a d, R a d → Ensures I (action a) (Option.Rel S · (g d)))
    {as : List α} {ds : List δ} (hlist : List.Forall₂ R as ds) :
    Ensures I (firstSome action as) (Option.Rel S · (ds.findSome? g)) := by
  induction hlist with
  | nil => exact .pure .none
  | @cons a d as ds had _ ih =>
      rw [firstSome, List.findSome?_cons]
      refine (h a d had).bind fun answer hanswer => ?_
      generalize g d = other at hanswer ⊢
      cases hanswer with
      | none => exact ih
      | some hbc => exact .pure (.some hbc)

theorem firstSome_cons_ensures {x : StateT Knowledge Id (Option β)}
    {rest : List (StateT Knowledge Id (Option β))} {o o' : Option γ}
    (hx : Ensures I x (Option.Rel S · o))
    (hrest : Ensures I (firstSome id rest) (Option.Rel S · o')) :
    Ensures I (firstSome id (x :: rest)) (Option.Rel S · (o.or o')) := by
  rw [firstSome]
  refine Ensures.bind hx fun answer hanswer => ?_
  cases hanswer with
  | none => exact hrest
  | some hbc => exact .pure (.some hbc)

end

/-! ## Looking for a target -/

variable {loader : Loader Id}

theorem manifestAt_ensures (fixed : loader.Fixed) {root : Option Path} {p q : Path}
    (h : p.parts = q.parts) :
    Ensures (Sound loader root) (manifestAt loader root p)
      (Option.Rel (fun x y => x.1.parts = y.1.parts ∧ x.2.Alike y.2) ·
        (loader.manifestAt root q)) := by
  unfold manifestAt Loader.manifestAt
  refine (Knowledge.isFile_ensures fixed p).bind fun answer hanswer => ?_
  rw [hanswer, fixed.has_congr h]
  split
  · have hrel := Path.parent?_congr h
    generalize p.parent? = x, q.parent? = y at hrel ⊢
    cases hrel with
    | none => exact .pure .none
    | @some d e hde =>
        refine (Knowledge.manifestFor_ensures fixed hde).bind fun found hfound => ?_
        simp only
        generalize loader.manifestFor root e = other at hfound ⊢
        cases hfound with
        | none => exact .pure .none
        | @some a b hab =>
            have hsame : a.path.same p = b.path.same q := by simp [Path.same, hab.path, h]
            refine .pure ?_
            simp only [hsame]
            split
            · exact .some ⟨hde, hab⟩
            · exact .none
  · exact .pure .none

theorem allowsManifests_congr {config other : Option ProjectConfig}
    (h : Option.Rel ProjectConfig.Alike config other) :
    (config.all fun config => config.moduleResolution.allowsManifests)
      = other.all fun config => config.moduleResolution.allowsManifests := by
  cases h with
  | none => rfl
  | some hconfig => simp [hconfig.moduleResolution]

theorem permits_congr (s : Surroundings) {p q : Path} (h : p.parts = q.parts) :
    s.permits p = s.permits q := by
  unfold Surroundings.permits
  cases s.boundary with
  | none => rfl
  | some boundary => exact Path.isUnder_congr h boundary

/-- The file of a candidate, if it is there and may be found. -/
theorem fileCandidate_ensures (fixed : loader.Fixed) (s : Surroundings) {p q : Path}
    (h : p.parts = q.parts) :
    Ensures (Sound loader s.root)
      (do if ← Knowledge.isFile loader p then return if s.permits p then some p else none
          else return none)
      (Option.Rel (fun p q : Path => p.parts = q.parts) ·
        ([q].find? fun path => loader.has path && s.permits path)) := by
  refine (Knowledge.isFile_ensures fixed p).bind fun answer hanswer => ?_
  rw [hanswer, fixed.has_congr h, List.find?_singleton, permits_congr s h]
  cases loader.has q with
  | false => exact .pure .none
  | true =>
      refine .pure ?_
      cases s.permits q with
      | false => exact .none
      | true => exact .some h

/-- By induction on how far manifests are followed, then candidate by candidate. -/
theorem lookup_ensures (fixed : loader.Fixed) (s : Surroundings) (depth : Nat) (target : Path)
    {config other : Option ProjectConfig} (h : Option.Rel ProjectConfig.Alike config other) :
    Ensures (Sound loader s.root) (lookup loader s depth target config)
      (Option.Rel (fun p q : Path => p.parts = q.parts) ·
        ((loader.scan s.root depth target other).find? fun path =>
          loader.has path && s.permits path)) := by
  induction depth generalizing target config other with
  | zero =>
      unfold lookup Loader.scan
      rw [List.find?_flatMap]
      refine firstSome_ensures (fun candidate reference halike => ?_) (probes_alike h target)
      cases candidate with
      | file p =>
          cases reference with
          | file q => exact fileCandidate_ensures fixed s halike
          | manifest q => exact halike.elim
      | manifest p =>
          cases reference with
          | file q => exact halike.elim
          | manifest q => exact .pure .none
  | succ depth ih =>
      unfold lookup Loader.scan
      rw [List.find?_flatMap]
      refine firstSome_ensures (fun candidate reference halike => ?_) (probes_alike h target)
      cases candidate with
      | file p =>
          cases reference with
          | file q => exact fileCandidate_ensures fixed s halike
          | manifest q => exact halike.elim
      | manifest p =>
          cases reference with
          | file q => exact halike.elim
          | manifest q =>
              simp only [allowsManifests_congr h]
              split
              · refine (manifestAt_ensures fixed halike).bind fun found hfound => ?_
                generalize loader.manifestAt s.root q = other at hfound ⊢
                cases hfound with
                | none => exact .pure .none
                | @some x y hxy =>
                    obtain ⟨d, a⟩ := x
                    obtain ⟨e, b⟩ := y
                    obtain ⟨hde, hab⟩ := hxy
                    refine (Knowledge.configFor_ensures fixed hde).bind fun inner hinner => ?_
                    simp only
                    rw [List.find?_flatMap, hab.entries]
                    refine firstSome_ensures (R := Eq) (fun entry _ heq => ?_)
                      (List.forall₂_same.2 fun _ _ => rfl)
                    subst heq
                    rw [Path.normalize_div_congr hde entry]
                    exact ih _ hinner
              · exact .pure .none

/-! ## The rules -/

section

variable (fixed : loader.Fixed) (s : Surroundings)

include fixed

theorem byRule_ensures (specifier : String) {config other : Option ProjectConfig}
    (h : Option.Rel ProjectConfig.Alike config other) (rule : Rule) (target : Path) :
    Ensures (Sound loader s.root) (byRule loader s specifier config rule target)
      (Option.Rel LocalDependency.Alike · (loader.outcome specifier ⟨rule, target, other, s⟩)) := by
  unfold byRule Loader.outcome
  refine (lookup_ensures fixed s manifestDepth target h).bind fun answer hanswer => .pure ?_
  simp only
  generalize (loader.scan s.root manifestDepth target other).find? _ = reference at hanswer ⊢
  cases hanswer with
  | none => exact .none
  | some hpath => exact .some ⟨rfl, hpath, rfl⟩

theorem byAlias_ensures {config other : ProjectConfig} (h : config.Alike other)
    (specifier : String) :
    Ensures (Sound loader s.root) (byAlias loader s config specifier)
      (Option.Rel LocalDependency.Alike ·
        ((Loader.aliasAttempts s other specifier).findSome? (loader.outcome specifier))) := by
  unfold byAlias Loader.aliasAttempts
  rw [List.findSome?_map]
  refine firstSome_ensures (fun candidate reference hcandidate => ?_)
    (Alias.allCandidates_alike h.aliases specifier)
  rw [hcandidate.pattern, hcandidate.target, Path.normalize_congr hcandidate.path]
  exact byRule_ensures fixed s specifier (.some h) _ _

theorem byBase_ensures {config other : ProjectConfig} (h : config.Alike other)
    (specifier : String) :
    Ensures (Sound loader s.root) (byBase loader s config specifier)
      (Option.Rel LocalDependency.Alike ·
        ((Loader.baseAttempts s other specifier).findSome? (loader.outcome specifier))) := by
  unfold byBase Loader.baseAttempts
  rw [h.baseUrl]
  cases other.baseUrl with
  | none => exact .pure .none
  | some base =>
      simpa using byRule_ensures fixed s specifier (.some h) .base (base / specifier).normalize

theorem byPackage_ensures {d e : Path} (hd : d.parts = e.parts)
    {config other : Option ProjectConfig} (h : Option.Rel ProjectConfig.Alike config other)
    (specifier : String) :
    Ensures (Sound loader s.root) (byPackage loader s d config specifier)
      (Option.Rel LocalDependency.Alike ·
        ((loader.packageAttempts s e other specifier).findSome? (loader.outcome specifier))) := by
  unfold byPackage Loader.packageAttempts
  refine (Knowledge.manifestFor_ensures fixed hd).bind fun found hfound => ?_
  generalize loader.manifestFor s.root e = reference at hfound ⊢
  cases hfound with
  | none => exact .pure .none
  | @some a b hab =>
      simp only [hab.hasExports]
      split
      · exact .pure .none
      · rw [hab.relativePath]
        simpa using byRule_ensures fixed s specifier h .package (b.relativePath specifier).normalize

theorem byWorkspace_ensures (specifier : String) :
    Ensures (Sound loader s.root) (byWorkspace loader s specifier)
      (Option.Rel LocalDependency.Alike ·
        ((loader.workspaceAttempts s specifier).findSome? (loader.outcome specifier))) := by
  unfold byWorkspace Loader.workspaceAttempts
  simp only
  cases s.workspace.bind fun workspace => workspace.byName (Specifier.packageName specifier) with
  | none => exact .pure .none
  | some package =>
      refine (Knowledge.configFor_ensures fixed rfl).bind fun config hconfig => ?_
      simp only [List.findSome?_singleton]
      exact byRule_ensures fixed (s.inside package) specifier hconfig (.workspace package.name) _

theorem bare_ensures {d e : Path} (hd : d.parts = e.parts)
    {config other : Option ProjectConfig} (h : Option.Rel ProjectConfig.Alike config other)
    (specifier : String) :
    Ensures (Sound loader s.root) (bare loader s d config specifier)
      (Option.Rel LocalDependency.Alike ·
        ((loader.bareAttempts s e other specifier).findSome? (loader.outcome specifier))) := by
  have hworkspace : Ensures (Sound loader s.root) (firstSome id [byWorkspace loader s specifier])
      (Option.Rel LocalDependency.Alike ·
        ((loader.workspaceAttempts s specifier).findSome? (loader.outcome specifier))) := by
    have hnil : Ensures (Sound loader s.root)
        (firstSome id ([] : List (StateT Knowledge Id (Option LocalDependency))))
        (Option.Rel LocalDependency.Alike · none) := .pure .none
    simpa using firstSome_cons_ensures (byWorkspace_ensures fixed s specifier) hnil
  have hpackage := firstSome_cons_ensures (byPackage_ensures fixed s hd h specifier) hworkspace
  unfold bare Loader.bareAttempts
  rw [List.findSome?_append, List.findSome?_append]
  cases h with
  | none => simpa using hpackage
  | some hconfig =>
      rw [List.findSome?_append, Option.or_assoc]
      exact firstSome_cons_ensures (byAlias_ensures fixed s hconfig specifier)
        (firstSome_cons_ensures (byBase_ensures fixed s hconfig specifier) hpackage)

theorem classify_ensures {file other : SourceFile} (h : file.path.parts = other.path.parts)
    (specifier : String) :
    Ensures (Sound loader s.root) (classify loader s file specifier)
      (·.Alike (loader.meaning s other specifier)) := by
  have hdirectory : file.directory.parts = other.directory.parts := Path.parts_getD_parent? h _
  unfold classify Loader.meaning
  split
  · exact .pure rfl
  · refine (Knowledge.configFor_ensures fixed hdirectory).bind fun config hconfig => ?_
    simp only
    split
    · rw [Path.normalize_div_congr hdirectory specifier]
      refine (byRule_ensures fixed s specifier hconfig .relative _).bind fun found hfound => ?_
      generalize loader.outcome specifier _ = reference at hfound ⊢
      cases hfound with
      | none => exact .pure rfl
      | some hdependency => exact .pure hdependency
    · refine (bare_ensures fixed s hdirectory hconfig specifier).bind fun found hfound => ?_
      generalize (loader.bareAttempts s other.directory _ specifier).findSome? _ = reference
        at hfound ⊢
      cases hfound with
      | none => exact .pure rfl
      | some hdependency => exact .pure hdependency

end

end Classifier

end ModuleTrace

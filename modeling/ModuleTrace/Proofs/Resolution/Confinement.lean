import ModuleTrace.Proofs.Resolution.CleanDescriptors
import ModuleTrace.Resolution.Classifier

/-!
# Confinement of what is found

Whatever rule finds a file, it lies within the boundary of the importing file, or within the
package that the specifier names. Every target is normalized before it is looked for, so what is
found for a clean file leads up in its last part at most, and the parts of its path say where it
lies.
-/

namespace ModuleTrace

open ModuleTrace.Path (Extends)

namespace Surroundings

/-- A dependency lies within the boundary, or was found by the name of a package of the workspace
and lies within that package. -/
def Admits (s : Surroundings) (d : LocalDependency) : Prop :=
  s.permits d.path = true ∨ ∃ package,
    (s.workspace.bind fun workspace => workspace.byName (Specifier.packageName d.specifier))
      = some package ∧ d.rule = .workspace package.name ∧ (s.inside package).permits d.path = true

/-- Packages that can be named have clean paths. -/
def Clean (s : Surroundings) : Prop :=
  ∀ workspace name package, s.workspace = some workspace →
    workspace.byName name = some package → package.path.Clean

end Surroundings

/-! ## Forms of a clean target -/

namespace Candidate

theorem extends_of_mem_addedExtensions {extension : String} (h : extension ∈ addedExtensions) :
    Extends extension := by
  have hall : ∀ extension ∈ addedExtensions,
      '/' ∉ extension.toList ∧ 2 ≤ extension.toList.length := by decide
  exact ⟨(hall extension h).1, (hall extension h).2⟩

theorem extends_of_lookup {extension source : String} {sources : List String}
    (h : substitutions.lookup extension = some sources) (hsource : source ∈ sources) :
    Extends source := by
  have hall : ∀ entry ∈ substitutions, ∀ source ∈ entry.2,
      '/' ∉ source.toList ∧ 2 ≤ source.toList.length := by decide
  obtain ⟨before, after, hentries, _⟩ := List.lookup_eq_some_iff.1 h
  have hmem : (extension, sources) ∈ substitutions := by simp [hentries]
  exact ⟨(hall _ hmem source hsource).1, (hall _ hmem source hsource).2⟩

/-- A file whose path leads up in its last part at most, or a manifest in a clean directory. -/
def Clean : Candidate → Prop
  | .file path => path.NearlyClean
  | .manifest path => path.Clean

theorem clean_added {path : Path} (h : path.Clean) : ∀ candidate ∈ added path, candidate.Clean := by
  intro candidate hcandidate
  obtain ⟨extension, hextension, rfl⟩ := List.mem_map.1 hcandidate
  exact (h.append (extends_of_mem_addedExtensions hextension)).nearly

theorem clean_withoutExtension {path : Path} (h : path.Clean) :
    ∀ candidate ∈ withoutExtension path, candidate.Clean := by
  intro candidate hcandidate
  have hindex : (path / "index").Clean := h.div ⟨_, rfl, by decide, by decide⟩
  rcases List.mem_append.1 hcandidate with hfile | hdirectory
  · exact clean_added h candidate hfile
  · rcases List.mem_cons.1 hdirectory with rfl | hfile
    · exact h.div Manifest.plain_fileName
    · exact clean_added hindex candidate hfile

theorem clean_of {path : Path} (h : path.Clean) : ∀ candidate ∈ of path, candidate.Clean := by
  intro candidate hcandidate
  unfold of at hcandidate
  split at hcandidate
  · exact clean_withoutExtension h candidate hcandidate
  · split at hcandidate
    · rename_i sources hsources
      obtain ⟨source, hsource, rfl⟩ := List.mem_map.1 hcandidate
      exact h.withExtension (extends_of_lookup hsources hsource)
    · split at hcandidate
      · obtain rfl : candidate = .file path := by simpa using hcandidate
        exact h.nearly
      · rcases List.mem_cons.1 hcandidate with rfl | hcandidate
        · exact h.nearly
        · exact clean_withoutExtension h candidate hcandidate

end Candidate

namespace ProjectConfig

theorem mem_of_mem_dropRepeats {path : Path} {paths : List Path} (h : path ∈ dropRepeats paths) :
    path ∈ paths := by
  induction paths with
  | nil => simp [dropRepeats] at h
  | cons p rest ih =>
      have hcases : path = p ∨ path ∈ dropRepeats rest := by
        unfold dropRepeats at h
        split at h
        · exact .inl (by simpa using h)
        · rename_i q kept hkept
          rw [hkept]
          split at h <;> simp only [List.mem_cons] at h ⊢ <;> tauto
      rcases hcases with rfl | hmem
      · exact List.mem_cons_self
      · exact List.mem_cons_of_mem _ (ih hmem)

/-- The directories in which the source of a path in the output directory may lie. -/
def sourceRoots (config : ProjectConfig) : List Path :=
  match config.rootDir.toList ++ config.rootDirs with
  | [] => [config.directory]
  | roots => roots

theorem mem_sourcePaths {config : ProjectConfig} {target place : Path}
    (h : place ∈ config.sourcePaths target) : place = target ∨ ∃ output relative,
      config.outDir = some output ∧ target.relativeTo? output = some relative ∧
        ∃ root ∈ config.sourceRoots, place = root.join relative := by
  rcases List.mem_append.1 (mem_of_mem_dropRepeats h) with hmapped | hself
  · right
    split at hmapped
    · simp at hmapped
    · rename_i relative hrelative
      obtain ⟨output, houtput, hrelative⟩ := Option.bind_eq_some_iff.1 hrelative
      refine ⟨output, relative, houtput, hrelative, ?_⟩
      unfold sourceRoots
      generalize config.rootDir.toList ++ config.rootDirs = roots at hmapped ⊢
      cases roots with
      | nil => exact ⟨config.directory, List.mem_singleton_self _, List.mem_singleton.1 hmapped⟩
      | cons first rest =>
          obtain ⟨root, hroot, rfl⟩ := List.mem_map.1 hmapped
          exact ⟨root, hroot, rfl⟩
  · exact .inl (List.mem_singleton.1 hself)

theorem Clean.of_mem_sourceRoots {config : ProjectConfig} (h : config.Clean) {root : Path}
    (hroot : root ∈ config.sourceRoots) : root.Clean := by
  unfold sourceRoots at hroot
  split at hroot
  · cases List.mem_singleton.1 hroot
    exact h.directory
  · rcases List.mem_append.1 hroot with hroot | hroot
    · exact h.rootDir root (Option.mem_toList.1 hroot)
    · exact h.rootDirs root hroot

/-- What lies in the output directory is looked for in clean directories of sources. -/
theorem Clean.sourcePaths {config : ProjectConfig} (h : config.Clean) {target : Path}
    (htarget : target.Clean) : ∀ path ∈ config.sourcePaths target, path.Clean := by
  intro path hpath
  rcases mem_sourcePaths hpath with rfl | ⟨output, relative, houtput, hrelative, root, hroot, rfl⟩
  · exact htarget
  · obtain ⟨hopen, hup⟩ := htarget.relativeTo? (h.outDir output houtput) hrelative
    exact (h.of_mem_sourceRoots hroot).join hopen hup

theorem Clean.isAbsolute_candidate {config : ProjectConfig} (h : config.Clean)
    {specifier : String} {candidate : AliasCandidate}
    (hcandidate : candidate ∈ Alias.allCandidates config.aliases specifier) :
    candidate.path.isAbsolute = true := by
  obtain ⟨a, ha, hcandidate⟩ := List.mem_flatMap.1 hcandidate
  unfold Alias.candidates at hcandidate
  split at hcandidate
  · simp at hcandidate
  · rename_i captured _
    obtain ⟨target, htarget, rfl⟩ := List.mem_map.1 hcandidate
    have hstart := h.aliases a ha target htarget
    simp only [AliasTarget.path]
    split
    · obtain ⟨cs, hcs⟩ := (Path.isAbsolute_iff _).1 hstart
      exact (Path.isAbsolute_iff _).2 ⟨cs ++ captured.toList ++ target.stop.toList, by simp [hcs]⟩
    · exact hstart

end ProjectConfig

theorem Manifest.Clean.isAbsolute_relativePath {manifest : Manifest} (h : manifest.Clean)
    (specifier : String) : (manifest.relativePath specifier).isAbsolute = true := by
  have hdirectory := h.directory.isAbsolute
  unfold Manifest.relativePath
  split
  · exact Path.isAbsolute_div hdirectory _
  · split
    · exact hdirectory
    · split <;> exact Path.isAbsolute_div hdirectory _

namespace Classifier

open Knowledge (Tidy)

theorem clean_probes {target : Path} (htarget : target.Clean) {config : Option ProjectConfig}
    (hconfig : ∀ c, config = some c → c.Clean) :
    ∀ candidate ∈ probes target config, candidate.Clean := by
  intro candidate hcandidate
  obtain ⟨place, hplace, hof⟩ := List.mem_flatMap.1 hcandidate
  refine Candidate.clean_of ?_ candidate hof
  cases config with
  | none =>
      obtain rfl : place = target := by simpa using hplace
      exact htarget
  | some c => exact (hconfig c rfl).sourcePaths htarget place hplace

/-! ## Looking for a target -/

section

variable {m : Type → Type} [Monad m] [LawfulMonad m] {α β : Type} {I : Knowledge → Prop}
  {p : β → Prop}

/-- What is found by one of several actions fits what each of them leads to. -/
theorem firstSome_leads {P : β → Knowledge → Prop} {action : α → StateT Knowledge m (Option β)}
    {as : List α}
    (h : ∀ a ∈ as, Leads I (action a) fun answer k => (∀ b, answer = some b → P b k) ∧ I k) :
    Leads I (firstSome action as) fun answer k => (∀ b, answer = some b → P b k) ∧ I k := by
  induction as with
  | nil => exact .pure fun k hk => ⟨by simp, hk⟩
  | cons a rest ih =>
      rw [firstSome]
      refine (h a List.mem_cons_self).bind fun answer => ?_
      cases answer with
      | none =>
          have hrest := ih fun other hother => h other (List.mem_cons_of_mem _ hother)
          exact hrest.weaken fun k hk => hk.2
      | some b => exact .pure fun k hk => hk

/-- What is found by one of several actions has what each of them gives. -/
theorem firstSome_rule {action : α → StateT Knowledge m (Option β)} {as : List α}
    (h : ∀ a ∈ as, Ensures I (action a) fun answer => ∀ b, answer = some b → p b) :
    Ensures I (firstSome action as) fun answer => ∀ b, answer = some b → p b :=
  firstSome_leads h

end

variable {m : Type → Type} [Monad m] [LawfulMonad m] (loader : Loader m)

theorem manifestAt_tidy (root : Option Path) (path : Path) :
    Ensures Tidy (manifestAt loader root path) fun answer =>
      ∀ found, answer = some found → path.Clean → found.1.Clean := by
  unfold manifestAt
  refine (Knowledge.isFile_tidy loader path).bind fun answer _ => ?_
  cases answer with
  | false => exact .pure (by simp)
  | true =>
      cases hparent : path.parent? with
      | none => exact .pure (by simp)
      | some directory =>
          refine (Knowledge.manifestFor_tidy loader root directory).bind fun manifest _ => ?_
          cases manifest with
          | none => exact .pure (by simp)
          | some manifest =>
              refine .pure fun found hfound h => ?_
              simp only [Option.ite_none_right_eq_some, Option.some.injEq] at hfound
              rw [← hfound.2]
              exact h.parent? hparent

/-- The only place where a path is given out holds it against the boundary. -/
theorem file_confined (s : Surroundings) {path : Path} {premise : Prop}
    (h : premise → path.NearlyClean) :
    Ensures Tidy (do
      if ← Knowledge.isFile loader path then return if s.permits path then some path else none
      else return none) fun answer => ∀ found, answer = some found →
        s.permits found = true ∧ (premise → found.NearlyClean) := by
  refine (Knowledge.isFile_tidy loader path).bind fun answer _ => ?_
  cases answer with
  | false => exact .pure (by simp)
  | true =>
      refine .pure fun found hfound => ?_
      simp only [Option.ite_none_right_eq_some, Option.some.injEq] at hfound
      obtain ⟨hpermits, rfl⟩ := hfound
      exact ⟨hpermits, h⟩

/-- A clean target, looked for under a clean configuration or under none. -/
def CleanLook (target : Path) (config : Option ProjectConfig) : Prop :=
  target.Clean ∧ ∀ c, config = some c → c.Clean

/-- By induction on how far manifests are followed: what a manifest names is a clean target again,
under the configuration of its own directory. -/
theorem lookup_confined (s : Surroundings) (depth : Nat) (target : Path)
    (config : Option ProjectConfig) :
    Ensures Tidy (lookup loader s depth target config) fun answer =>
      ∀ path, answer = some path →
        s.permits path = true ∧ (CleanLook target config → path.NearlyClean) := by
  induction depth generalizing target config with
  | zero =>
      unfold lookup
      refine firstSome_rule fun candidate hcandidate => ?_
      have hclean : CleanLook target config → candidate.Clean :=
        fun h => clean_probes h.1 h.2 candidate hcandidate
      cases candidate with
      | file path => exact file_confined loader s hclean
      | manifest path => exact .pure (by simp)
  | succ depth ih =>
      unfold lookup
      refine firstSome_rule fun candidate hcandidate => ?_
      have hclean : CleanLook target config → candidate.Clean :=
        fun h => clean_probes h.1 h.2 candidate hcandidate
      cases candidate with
      | file path => exact file_confined loader s hclean
      | manifest path =>
          simp only
          split
          · refine (manifestAt_tidy loader s.root path).bind fun answer hanswer => ?_
            cases answer with
            | none => exact .pure (by simp)
            | some found =>
                obtain ⟨directory, manifest⟩ := found
                refine (Knowledge.configFor_tidy loader s.root directory).bind
                  fun inner hinner => ?_
                refine firstSome_rule fun entry _ => (ih _ inner).mono fun answer hfound => ?_
                intro other hother
                obtain ⟨hpermits, hnearly⟩ := hfound other hother
                refine ⟨hpermits, fun h => ?_⟩
                have hdirectory : directory.Clean := hanswer _ rfl (hclean h)
                exact hnearly ⟨hdirectory.normalize_div entry, fun c hc => hinner c hc hdirectory⟩
          · exact .pure (by simp)

/-! ## The rules -/

section

variable (s : Surroundings) {premise : Prop}

theorem byRule_confined (specifier : String) (config : Option ProjectConfig) (rule : Rule)
    (target : Path) :
    Ensures Tidy (byRule loader s specifier config rule target) fun answer =>
      ∀ d, answer = some d → d.specifier = specifier ∧ d.rule = rule ∧
        s.permits d.path = true ∧ (CleanLook target config → d.path.NearlyClean) := by
  unfold byRule
  refine (lookup_confined loader s manifestDepth target config).bind fun answer hanswer =>
    .pure fun d hd => ?_
  obtain ⟨path, hpath, rfl⟩ := Option.map_eq_some_iff.1 hd
  exact ⟨rfl, rfl, hanswer path hpath⟩

theorem byAlias_confined {config : ProjectConfig} (hconfig : premise → config.Clean)
    (specifier : String) :
    Ensures Tidy (byAlias loader s config specifier) fun answer =>
      ∀ d, answer = some d → s.Admits d ∧ (premise → d.path.NearlyClean) := by
  unfold byAlias
  refine firstSome_rule fun candidate hcandidate =>
    (byRule_confined loader s specifier _ _ _).mono fun answer hanswer d hd => ?_
  obtain ⟨_, _, hpermits, hnearly⟩ := hanswer d hd
  refine ⟨.inl hpermits, fun h => hnearly ⟨?_, fun c hc => ?_⟩⟩
  · exact Path.clean_normalize ((hconfig h).isAbsolute_candidate hcandidate)
  · cases hc
    exact hconfig h

theorem byBase_confined {config : ProjectConfig} (hconfig : premise → config.Clean)
    (specifier : String) :
    Ensures Tidy (byBase loader s config specifier) fun answer =>
      ∀ d, answer = some d → s.Admits d ∧ (premise → d.path.NearlyClean) := by
  unfold byBase
  cases hbase : config.baseUrl with
  | none => exact .pure (by simp)
  | some base =>
      refine (byRule_confined loader s specifier _ _ _).mono fun answer hanswer d hd => ?_
      obtain ⟨_, _, hpermits, hnearly⟩ := hanswer d hd
      refine ⟨.inl hpermits, fun h => hnearly ⟨?_, fun c hc => ?_⟩⟩
      · exact ((hconfig h).baseUrl base hbase).normalize_div specifier
      · cases hc
        exact hconfig h

theorem byPackage_confined {directory : Path} {config : Option ProjectConfig}
    (hdirectory : premise → directory.Clean)
    (hconfig : premise → ∀ c, config = some c → c.Clean) (specifier : String) :
    Ensures Tidy (byPackage loader s directory config specifier) fun answer =>
      ∀ d, answer = some d → s.Admits d ∧ (premise → d.path.NearlyClean) := by
  unfold byPackage
  refine (Knowledge.manifestFor_tidy loader s.root directory).bind fun found hfound => ?_
  cases found with
  | none => exact .pure (by simp)
  | some manifest =>
      simp only
      split
      · exact .pure (by simp)
      · refine (byRule_confined loader s specifier _ _ _).mono fun answer hanswer d hd => ?_
        obtain ⟨_, _, hpermits, hnearly⟩ := hanswer d hd
        refine ⟨.inl hpermits, fun h => hnearly ⟨?_, hconfig h⟩⟩
        have hmanifest : manifest.Clean := hfound manifest rfl (hdirectory h)
        exact Path.clean_normalize (hmanifest.isAbsolute_relativePath specifier)

/-- The one rule that moves the boundary, to the package that it names. -/
theorem byWorkspace_located (specifier : String) :
    Ensures Tidy (byWorkspace loader s specifier) fun answer =>
      ∀ d, answer = some d → d.specifier = specifier ∧ ∃ package,
        (s.workspace.bind fun workspace => workspace.byName (Specifier.packageName specifier))
          = some package ∧ d.rule = .workspace package.name ∧
        (s.inside package).permits d.path = true ∧ (s.Clean → d.path.NearlyClean) := by
  unfold byWorkspace
  simp only
  cases hpackage : s.workspace.bind fun workspace =>
      workspace.byName (Specifier.packageName specifier) with
  | none => exact .pure (by simp)
  | some package =>
      refine (Knowledge.configFor_tidy loader s.root package.path).bind fun config hconfig => ?_
      refine (byRule_confined loader (s.inside package) specifier _ _ _).mono
        fun answer hanswer d hd => ?_
      obtain ⟨hspecifier, hrule, hpermits, hnearly⟩ := hanswer d hd
      refine ⟨hspecifier, package, rfl, hrule, hpermits, fun hs => ?_⟩
      obtain ⟨workspace, hworkspace, hname⟩ := Option.bind_eq_some_iff.1 hpackage
      have hpath : package.path.Clean := hs workspace _ package hworkspace hname
      refine hnearly ⟨?_, fun c hc => hconfig c hc hpath⟩
      split
      · exact hpath
      · exact hpath.normalize_div _

theorem byWorkspace_confined (hs : premise → s.Clean) (specifier : String) :
    Ensures Tidy (byWorkspace loader s specifier) fun answer =>
      ∀ d, answer = some d → s.Admits d ∧ (premise → d.path.NearlyClean) := by
  refine (byWorkspace_located loader s specifier).mono fun answer hanswer d hd => ?_
  obtain ⟨hspecifier, package, hpackage, hrule, hpermits, hnearly⟩ := hanswer d hd
  exact ⟨.inr ⟨package, by rw [hspecifier, hpackage], hrule, hpermits⟩, fun h => hnearly (hs h)⟩

theorem bare_confined {directory : Path} {config : Option ProjectConfig}
    (hdirectory : premise → directory.Clean)
    (hconfig : premise → ∀ c, config = some c → c.Clean) (hs : premise → s.Clean)
    (specifier : String) :
    Ensures Tidy (bare loader s directory config specifier) fun answer =>
      ∀ d, answer = some d → s.Admits d ∧ (premise → d.path.NearlyClean) := by
  unfold bare
  refine firstSome_rule fun action haction => ?_
  rcases List.mem_append.1 haction with hconfigured | hothers
  · cases config with
    | none => simp at hconfigured
    | some c =>
        have hc : premise → c.Clean := fun h => hconfig h c rfl
        simp only [List.mem_cons, List.not_mem_nil, or_false] at hconfigured
        rcases hconfigured with rfl | rfl
        · exact byAlias_confined loader s hc specifier
        · exact byBase_confined loader s hc specifier
  · simp only [List.mem_cons, List.not_mem_nil, or_false] at hothers
    rcases hothers with rfl | rfl
    · exact byPackage_confined loader s hdirectory hconfig specifier
    · exact byWorkspace_confined loader s hs specifier

/-- A local file is let through by the surroundings of the importing file. -/
theorem classify_confined (file : SourceFile) (specifier : String) :
    Ensures Tidy (classify loader s file specifier) fun answer =>
      ∀ d, answer = .localFile d →
        s.Admits d ∧ (file.path.Clean ∧ s.Clean → d.path.NearlyClean) := by
  unfold classify
  split
  · exact .pure (by simp)
  · have hdirectory : file.path.Clean ∧ s.Clean → file.directory.Clean := fun h => h.1.getD_parent?
    refine (Knowledge.configFor_tidy loader s.root file.directory).bind fun config hconfig => ?_
    have hconfig : file.path.Clean ∧ s.Clean → ∀ c, config = some c → c.Clean :=
      fun h c hc => hconfig c hc (hdirectory h)
    simp only
    split
    · refine (byRule_confined loader s specifier config .relative _).bind fun found hfound => ?_
      cases found with
      | none => exact .pure (by simp)
      | some dependency =>
          refine .pure fun d hd => ?_
          cases hd
          obtain ⟨_, _, hpermits, hnearly⟩ := hfound dependency rfl
          exact ⟨.inl hpermits, fun h =>
            hnearly ⟨(hdirectory h).normalize_div specifier, hconfig h⟩⟩
    · refine (bare_confined loader s hdirectory hconfig And.right specifier).bind
        fun found hfound => ?_
      cases found with
      | none => exact .pure (by simp)
      | some dependency =>
          refine .pure fun d hd => ?_
          cases hd
          exact hfound dependency rfl

end

end Classifier

end ModuleTrace

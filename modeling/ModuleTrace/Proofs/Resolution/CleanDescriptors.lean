import ModuleTrace.Proofs.Path.Clean
import ModuleTrace.Proofs.Resolution.Nearest

/-!
# Descriptors of clean directories

What a manifest or a configuration names is put behind its directory and normalized, so a
descriptor in a clean directory names clean paths only, and so does all that it extends. A session
may also look into directories that lead up; what it remembers for clean directories stays clean.
-/

namespace ModuleTrace

open ModuleTrace.Path (Clean Extends)

/-! ## Descriptors that name clean paths -/

structure ConfigOptions.Clean (options : ConfigOptions) : Prop where
  baseUrl : ∀ path, options.baseUrl = some path → path.Clean
  paths : ∀ entries directory, options.paths = some (entries, directory) → directory.Clean
  outDir : ∀ path, options.outDir = some path → path.Clean
  rootDir : ∀ path, options.rootDir = some path → path.Clean
  rootDirs : ∀ paths, options.rootDirs = some paths → ∀ path ∈ paths, path.Clean

structure ProjectConfig.Clean (config : ProjectConfig) : Prop where
  directory : config.directory.Clean
  baseUrl : ∀ path, config.baseUrl = some path → path.Clean
  /-- Targets of aliases are normalized only when they are used. -/
  aliases : ∀ a ∈ config.aliases, ∀ target ∈ a.targets, target.start.isAbsolute = true
  outDir : ∀ path, config.outDir = some path → path.Clean
  rootDir : ∀ path, config.rootDir = some path → path.Clean
  rootDirs : ∀ path ∈ config.rootDirs, path.Clean

def Manifest.Clean (manifest : Manifest) : Prop :=
  manifest.path.Clean

theorem Manifest.plain_fileName : Path.Part.Plain (.name Manifest.fileName) :=
  ⟨_, rfl, by decide, by decide⟩

theorem Manifest.Clean.directory {manifest : Manifest} (h : manifest.Clean) :
    manifest.directory.Clean :=
  h.getD_parent?

namespace ConfigOptions

theorem clean_empty : Clean {} := by
  constructor <;> simp

/-- Own options or inherited ones, each of them clean. -/
theorem Clean.extending {own inherited : ConfigOptions} (hown : own.Clean)
    (hinherited : inherited.Clean) : (own.extending inherited).Clean := by
  have hor : ∀ {α : Type} {a b : Option α} {x : α},
      (a <|> b) = some x → a = some x ∨ b = some x := by
    intro α a b x h
    cases a with
    | none => exact .inr (by simpa using h)
    | some y => exact .inl (by simpa using h)
  constructor
  · exact fun path h => (hor h).elim (hown.baseUrl path) (hinherited.baseUrl path)
  · exact fun entries directory h =>
      (hor h).elim (hown.paths entries directory) (hinherited.paths entries directory)
  · exact fun path h => (hor h).elim (hown.outDir path) (hinherited.outDir path)
  · exact fun path h => (hor h).elim (hown.rootDir path) (hinherited.rootDir path)
  · exact fun paths h => (hor h).elim (hown.rootDirs paths) (hinherited.rootDirs paths)

theorem clean_ofJson {directory : Path} (h : directory.Clean) (json : Json) :
    (ofJson directory json).Clean := by
  have hlocated : ∀ (value : Option String) (path : Path),
      (value.map fun text => (directory / text).normalize) = some path → path.Clean := by
    intro value path hvalue
    obtain ⟨text, _, rfl⟩ := Option.map_eq_some_iff.1 hvalue
    exact h.normalize_div text
  constructor
  · exact hlocated _
  · intro entries other hpaths
    obtain ⟨members, _, heq⟩ := Option.map_eq_some_iff.1 hpaths
    obtain rfl : directory = other := (Prod.mk.inj heq).2
    exact h
  · exact hlocated _
  · exact hlocated _
  · intro paths hpaths path hpath
    obtain ⟨items, _, rfl⟩ := Option.map_eq_some_iff.1 hpaths
    obtain ⟨text, _, rfl⟩ := List.mem_map.1 hpath
    exact h.normalize_div text

end ConfigOptions

namespace ProjectConfig

/-- A clean path with a name lies in a clean directory. -/
theorem clean_directoryOf {path : Path} (h : path.Clean) {text : String}
    (hname : path.name? = some text) : (directoryOf path).Clean := by
  obtain ⟨d, hd⟩ := Path.exists_parent?_of_name? hname
  rw [directoryOf, hd]
  exact h.parent? hd

theorem plain_of_mem_fileNames {name : String} (h : name ∈ fileNames) :
    Path.Part.Plain (.name name) := by
  have hall : ∀ name ∈ fileNames, '/' ∉ name.toList ∧
      Path.Part.ofPiece name.toList = some (.name name) := by decide
  exact ⟨name, rfl, (hall name h).1, (hall name h).2⟩

theorem extends_json : Extends "json" :=
  ⟨by decide, by decide⟩

theorem clean_extendedPath? {directory path : Path} (h : directory.Clean) {text : String}
    (hpath : extendedPath? directory text = some path) : (directoryOf path).Clean := by
  unfold extendedPath? at hpath
  split at hpath
  · have hnormal := h.normalize_div text
    simp only [Option.some.injEq] at hpath
    split at hpath
    · rename_i hextension
      subst hpath
      cases hname : (directory / text).normalize.name? with
      | none => simp [Path.extension?, hname] at hextension
      | some name => exact clean_directoryOf hnormal hname
    · subst hpath
      obtain ⟨name, hname⟩ := hnormal.name?_append extends_json
      exact clean_directoryOf (hnormal.append extends_json) hname
  · cases hpath

theorem mem_of_mem_order {a : Alias} {aliases : List Alias} (h : a ∈ Alias.order aliases) :
    a ∈ aliases :=
  (List.mergeSort_perm aliases Alias.precedes).mem_iff.1 h

theorem clean_ofOptions {path : Path} {options : ConfigOptions} (h : options.Clean)
    (hdirectory : (directoryOf path).Clean) : (ofOptions path options).Clean := by
  constructor
  · exact hdirectory
  · exact h.baseUrl
  · intro a ha target htarget
    cases hpaths : options.paths with
    | none => simp [ofOptions, aliasesOf, hpaths] at ha
    | some value =>
        obtain ⟨entries, directory⟩ := value
        have hbase : (options.baseUrl.getD directory).Clean := by
          cases hurl : options.baseUrl with
          | none => exact h.paths entries directory hpaths
          | some url => exact h.baseUrl url hurl
        simp only [ofOptions, aliasesOf, hpaths] at ha
        obtain ⟨entry, _, rfl⟩ := List.mem_map.1 (mem_of_mem_order ha)
        obtain ⟨raw, _, rfl⟩ := List.mem_map.1 htarget
        exact Path.isAbsolute_div hbase.isAbsolute _
  · exact h.outDir
  · exact h.rootDir
  · intro directory hmem
    cases hdirs : options.rootDirs with
    | none => simp [ofOptions, hdirs] at hmem
    | some paths =>
        simp only [ofOptions, hdirs, Option.getD_some] at hmem
        exact h.rootDirs paths hdirs directory hmem

section

variable {m : Type → Type} [Monad m] [LawfulMonad m] {σ : Type} {I : σ → Prop}
  {read : Path → StateT σ m (Option String)}
  (hread : ∀ path, Ensures I (read path) fun _ => True)

include hread

/-- By induction on how far extensions are followed, whatever is read. -/
theorem loadOptions_ensures (depth : Nat) (path : Path) (contents : String) :
    Ensures I (loadOptions read depth path contents) fun result =>
      ∀ options, result = .ok options → (directoryOf path).Clean → options.Clean := by
  induction depth generalizing path contents with
  | zero =>
      unfold loadOptions
      cases Json.parse? (Json.strict contents) with
      | none => exact .pure (by simp)
      | some json =>
          refine .pure fun options hoptions h => ?_
          cases hoptions
          exact ConfigOptions.clean_ofJson h _
  | succ depth ih =>
      unfold loadOptions
      cases Json.parse? (Json.strict contents) with
      | none => exact .pure (by simp)
      | some json =>
          refine (Ensures.foldlM (p := fun inherited =>
            (directoryOf path).Clean → ConfigOptions.Clean inherited) ?_
            fun _ => ConfigOptions.clean_empty).bind fun inherited hinherited => ?_
          · intro inherited parent hparent hclean
            obtain ⟨text, _, htext⟩ := List.mem_filterMap.1 hparent
            refine (hread parent).bind fun text _ => ?_
            cases text with
            | none => exact .pure hclean
            | some contents =>
                refine (ih parent contents).bind fun result hresult => ?_
                cases result with
                | error error => exact .pure hclean
                | ok options =>
                    refine .pure fun h => ?_
                    have hoptions := hresult options rfl (clean_extendedPath? h htext)
                    exact hoptions.extending (hclean h)
          · refine .pure fun options hoptions h => ?_
            cases hoptions
            exact (ConfigOptions.clean_ofJson h _).extending (hinherited h)

theorem load_ensures (path : Path) :
    Ensures I (load read path) fun result =>
      ∀ config, result = .ok config → (directoryOf path).Clean → config.Clean := by
  unfold load
  refine (hread path).bind fun contents _ => ?_
  cases contents with
  | none => exact .pure (by simp)
  | some contents =>
      unfold parseWith
      refine (loadOptions_ensures hread _ path contents).bind fun result hresult => ?_
      cases result with
      | error error => exact .pure (by simp)
      | ok options =>
          refine .pure fun config hconfig h => ?_
          cases hconfig
          exact clean_ofOptions (hresult options rfl h) h

end

end ProjectConfig

/-! ## What is remembered -/

/-- What a load of a path gives: a file of that path, or an error if the path may fail. -/
def GivesOrFails (Fails : Path → Prop) (path : Path) : Except ReadError SourceFile → Prop
  | .ok file => file.path.parts = path.parts
  | .error _ => Fails path

/-- Files are remembered under their own parts. -/
def SourceCache.Tidy (cache : SourceCache) : Prop :=
  ∀ (key : List Path.Part) (file : SourceFile), cache.files[key]? = some file →
    file.path.parts = key

section

variable {m : Type → Type} [Monad m] [LawfulMonad m] (loader : Loader m)

namespace SourceCache

/-- To read a file anew changes nothing about the files in memory. -/
theorem readFresh_files (P : Std.HashMap (List Path.Part) SourceFile → Prop) {path : Path}
    {p : Except ReadError String → Prop} (h : Always p (loader.read path)) :
    Ensures (fun cache => P cache.files) (readFresh loader path) p := by
  unfold readFresh
  exact (Ensures.modify fun _ hcache => by exact hcache).bind fun _ _ => .lift h

theorem isFile_files (P : Std.HashMap (List Path.Part) SourceFile → Prop) (path : Path) :
    Ensures (fun cache => P cache.files) (isFile loader path) fun _ => True := by
  unfold isFile
  refine Ensures.get.bind fun cache _ => ?_
  split
  · exact .pure trivial
  · refine (Ensures.lift (.top _)).bind fun answer _ => ?_
    exact (Ensures.modify fun _ hcache => by exact hcache).bind fun _ _ => .pure trivial

theorem readFresh_tidy (path : Path) :
    Ensures Tidy (readFresh loader path) fun _ => True :=
  readFresh_files loader (fun files => Tidy { files }) (.top _)

theorem isFile_tidy (path : Path) : Ensures Tidy (isFile loader path) fun _ => True :=
  isFile_files loader (fun files => Tidy { files }) path

/-- A load fails only where a read can fail. -/
theorem load_gives {path : Path} {Fails : Path → Prop}
    (h : Always (fun answer => ∀ error, answer = .error error → Fails path) (loader.read path)) :
    Ensures Tidy (load loader path) (GivesOrFails Fails path) := by
  unfold load
  refine Ensures.get.bind fun cache hcache => ?_
  split
  · rename_i known hknown
    exact .pure (hcache path.parts known hknown)
  · refine (readFresh_files loader (fun files => Tidy { files }) h).bind fun answer hanswer => ?_
    cases answer with
    | error error => exact .pure (hanswer error rfl)
    | ok contents =>
        refine (Ensures.modify fun cache h key file hfile => ?_).bind fun _ _ => .pure rfl
        rcases insert_entry_cases hfile with ⟨hkey, rfl⟩ | hold
        · exact hkey
        · exact h key file hold

end SourceCache

namespace Knowledge

/-- Files are remembered under their own parts, and what is remembered for clean directories is
clean. -/
structure Tidy (knowledge : Knowledge) : Prop where
  sources : knowledge.sources.Tidy
  manifests : ∀ (directory : Path) (manifest : Manifest),
    knowledge.manifests[directory.parts]? = some (some manifest) → directory.Clean → manifest.Clean
  configs : ∀ (directory : Path) (config : ProjectConfig),
    knowledge.configs[directory.parts]? = some (some config) → directory.Clean → config.Clean

theorem withSources_tidy {α : Type} {p : α → Prop} {x : StateT SourceCache m α}
    (h : Ensures SourceCache.Tidy x p) : Ensures Tidy (withSources x) p :=
  h.withSources (fun _ hk => hk.sources) fun _ _ hk hsources =>
    ⟨hsources, hk.manifests, hk.configs⟩

theorem isFile_tidy (path : Path) : Ensures Tidy (isFile loader path) fun _ => True :=
  withSources_tidy (SourceCache.isFile_tidy loader path)

theorem load_gives {path : Path} {Fails : Path → Prop}
    (h : Always (fun answer => ∀ error, answer = .error error → Fails path) (loader.read path)) :
    Ensures Tidy (load loader path) (GivesOrFails Fails path) :=
  withSources_tidy (SourceCache.load_gives loader h)

theorem load_tidy (path : Path) :
    Ensures Tidy (load loader path) (GivesOrFails (fun _ => True) path) :=
  load_gives loader ((Always.top _).mono fun _ _ _ _ => trivial)

theorem read?_tidy (path : Path) : Ensures Tidy (read? loader path) fun _ => True := by
  unfold read? readFresh
  exact (withSources_tidy (SourceCache.readFresh_tidy loader path)).bind fun _ _ => .pure trivial

theorem manifestIn_tidy (directory : Path) :
    Ensures Tidy (manifestIn loader directory) fun answer =>
      ∀ manifest, answer = some manifest → directory.Clean → manifest.Clean := by
  unfold manifestIn
  refine (isFile_tidy loader _).bind fun found _ => ?_
  split
  · refine (read?_tidy loader _).bind fun contents _ => .pure fun manifest hmanifest h => ?_
    obtain ⟨text, _, hparse⟩ := Option.bind_eq_some_iff.1 hmanifest
    obtain ⟨json, _, rfl⟩ := Option.map_eq_some_iff.1 hparse
    exact h.div Manifest.plain_fileName
  · exact .pure (by simp)

theorem firstFile_tidy (paths : List Path) :
    Ensures Tidy (firstFile loader paths) fun answer =>
      ∀ path, answer = some path → path ∈ paths := by
  induction paths with
  | nil => exact .pure (by simp)
  | cons path rest ih =>
      unfold firstFile
      refine (isFile_tidy loader path).bind fun found _ => ?_
      cases found with
      | true => exact .pure (by simp)
      | false => exact ih.mono fun answer h other hother => List.mem_cons_of_mem _ (h other hother)

theorem configIn_tidy (directory : Path) :
    Ensures Tidy (configIn loader directory) fun answer =>
      ∀ config, answer = some config → directory.Clean → config.Clean := by
  unfold configIn
  refine (firstFile_tidy loader _).bind fun found hfound => ?_
  cases found with
  | none => exact .pure (by simp)
  | some path =>
      refine (ProjectConfig.load_ensures (read?_tidy loader) path).bind fun result hresult =>
        .pure fun config hconfig h => ?_
      have hok : result = .ok config := by
        cases result with
        | error error => cases hconfig
        | ok other => simpa [Except.toOption] using hconfig
      obtain ⟨name, hname, rfl⟩ := List.mem_map.1 (hfound path rfl)
      refine hresult config hok ?_
      have hplain := ProjectConfig.plain_of_mem_fileNames hname
      exact ProjectConfig.clean_directoryOf (h.div hplain) (h.name?_div hplain)

/-- An answer for a directory has a property if the directory is clean. -/
def CleanlyHolds {α : Type} (Q : α → Prop) (answer : Option α) (directory : Path) : Prop :=
  ∀ found, answer = some found → directory.Clean → Q found

theorem cleanlyHolds_of_parent {α : Type} {Q : α → Prop} (answer : Option α) (directory : Path)
    (hparent : ∀ p, directory.parent? = some p → CleanlyHolds Q answer p)
    (hnone : directory.parent? = none → answer = none) : CleanlyHolds Q answer directory := by
  intro found hfound h
  cases hp : directory.parent? with
  | none =>
      rw [hnone hp] at hfound
      cases hfound
  | some p => exact hparent p hp found hfound (h.parent? hp)

variable (root : Option Path)

theorem manifestKind_tidy :
    (manifestKind loader).Recalls root (CleanlyHolds Manifest.Clean) (CleanlyHolds Manifest.Clean)
      Tidy where
  known knowledge h directory answer hanswer manifest hmanifest := by
    subst hmanifest
    exact h.manifests directory manifest hanswer
  remember knowledge h directory answer hanswer := by
    refine ⟨h.sources, fun other manifest hother hclean => ?_, h.configs⟩
    rcases insert_entry_cases hother with ⟨hkey, hvalue⟩ | hold
    · exact hanswer manifest hvalue (hclean.congr hkey.symm)
    · exact h.manifests other manifest hold hclean
  findIn directory := manifestIn_tidy loader directory
  found _ _ h := h
  atRoot _ h _ := h
  atParent answer directory _ _ := cleanlyHolds_of_parent answer directory

theorem configKind_tidy :
    (configKind loader).Recalls root (CleanlyHolds ProjectConfig.Clean)
      (CleanlyHolds ProjectConfig.Clean) Tidy where
  known knowledge h directory answer hanswer config hconfig := by
    subst hconfig
    exact h.configs directory config hanswer
  remember knowledge h directory answer hanswer := by
    refine ⟨h.sources, h.manifests, fun other config hother hclean => ?_⟩
    rcases insert_entry_cases hother with ⟨hkey, hvalue⟩ | hold
    · exact hanswer config hvalue (hclean.congr hkey.symm)
    · exact h.configs other config hold hclean
  findIn directory := configIn_tidy loader directory
  found _ _ h := h
  atRoot _ h _ := h
  atParent answer directory _ _ := cleanlyHolds_of_parent answer directory

theorem manifestFor_tidy (directory : Path) :
    Ensures Tidy (manifestFor loader root directory) fun answer =>
      ∀ manifest, answer = some manifest → directory.Clean → manifest.Clean :=
  nearest_ensures (manifestKind_tidy loader root) directory

theorem configFor_tidy (directory : Path) :
    Ensures Tidy (configFor loader root directory) fun answer =>
      ∀ config, answer = some config → directory.Clean → config.Clean :=
  nearest_ensures (configKind_tidy loader root) directory

end Knowledge

end

end ModuleTrace

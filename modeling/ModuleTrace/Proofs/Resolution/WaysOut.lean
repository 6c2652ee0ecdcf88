import ModuleTrace.Proofs.Resolution.Remembering
import ModuleTrace.Proofs.Resolution.SelfReferences
import ModuleTrace.Proofs.Resolution.Spellings
import ModuleTrace.Proofs.Workspace.Packages

/-!
# Ways out of a package

A package that is named stands for its directory, and what is looked for are forms of paths in
it. Where there is a boundary, it is drawn around the directory, and nothing beyond is found.
Without one a file beyond the directory is found in four ways only: it lies beside the directory,
whose path is taken for that of a file without its extension; the rest of the specifier climbs
out; a manifest in the package names an entry beyond it; or a configuration takes the directory
for one of compiled files.
-/

namespace ModuleTrace

/-! ## Beside a directory -/

namespace Path

/-- A path that differs from a directory in its last part. -/
def IsBeside (p base : Path) : Prop :=
  ∃ (front : List Part) (part other : Part),
    base.parts = front ++ [part] ∧ p.parts = front ++ [other] ∧ other ≠ part

/-- Another last part, or one more, leads beside a directory at most. -/
theorem isUnder_or_isBeside {p place base : Path} {front : List Part} {part : Option Part}
    {other : Part} (hplace : place.parts = front ++ part.toList) (hp : p.parts = front ++ [other])
    (h : place.isUnder base = true) : p.isUnder base = true ∨ p.IsBeside base := by
  rw [isUnder_iff, hplace] at h
  rw [isUnder_iff, hp]
  cases part with
  | none =>
      rw [Option.toList_none, List.append_nil] at h
      exact .inl (h.trans (List.prefix_append _ _))
  | some part =>
      rw [Option.toList_some, List.prefix_concat_iff] at h
      rcases h with hbase | h
      · by_cases hsame : other = part
        · exact .inl ⟨[], by rw [hbase, hsame, List.append_nil]⟩
        · exact .inr ⟨front, part, other, hbase, hp, hsame⟩
      · exact .inl (h.trans (List.prefix_append _ _))

theorem isAbsolute_of_isUnder {p base : Path} (hbase : base.isAbsolute = true)
    (h : p.isUnder base = true) : p.isAbsolute = true := by
  rw [isAbsolute_iff_head?] at hbase ⊢
  obtain ⟨rest, hrest⟩ := (isUnder_iff p base).1 h
  rw [← hrest, List.head?_append, hbase]
  rfl

theorem isUnder_div {p base : Path} (h : p.isUnder base = true) (hp : p.text ≠ "")
    {name : String} (hname : (⟨name⟩ : Path).isAbsolute = false) :
    (p / name).isUnder base = true := by
  rw [isUnder_iff] at h ⊢
  have hparts : (p / name).parts = p.parts ++ inner name.toList := parts_join hp hname
  rw [hparts]
  exact h.trans (List.prefix_append _ _)

theorem append_near {place base : Path} (hplace : place.isUnder base = true)
    (hdot : place.text ≠ ".") {extension : String} (he : Extends extension) :
    (place.append extension).isUnder base = true ∨ (place.append extension).IsBeside base := by
  obtain ⟨front, happend, hfront, -⟩ := exists_parts_append place
  exact isUnder_or_isBeside (hfront hdot) (happend extension he) hplace

theorem withExtension_near {place base : Path} (hplace : place.isUnder base = true)
    {name suffix : String} (hname : place.name? = some name)
    (hsuffix : (splitName name).2 = some suffix) (hne : suffix ≠ "") {extension : String}
    (he : Extends extension) :
    (place.withExtension extension).isUnder base = true ∨
      (place.withExtension extension).IsBeside base := by
  obtain ⟨front, hfront⟩ := List.getLast?_eq_some_iff.1 ((name?_eq_some_iff place name).1 hname)
  have hparts := parts_withExtension_of_name hname hsuffix hne he
  rw [hfront, List.dropLast_concat] at hparts
  have hlast : place.parts = front ++ (some (Part.name name)).toList := hfront
  exact isUnder_or_isBeside hlast hparts hplace

end Path

namespace Candidate

/-- The files that a place in a directory stands for lie in the directory or beside it. -/
theorem near_of_file_mem {place base path : Path} (hbase : base.isAbsolute = true)
    (hplace : place.isUnder base = true) (h : .file path ∈ of place) :
    path.isUnder base = true ∨ path.IsBeside base := by
  have habsolute : ∀ p : Path, p.isUnder base = true → p.text ≠ "" ∧ p.text ≠ "." := by
    intro p hp
    obtain ⟨cs, hcs⟩ := (Path.isAbsolute_iff p).1 (Path.isAbsolute_of_isUnder hbase hp)
    constructor <;> intro htext <;> simp [htext] at hcs
  have hadded : ∀ p : Path, p.isUnder base = true → .file path ∈ added p →
      path.isUnder base = true ∨ path.IsBeside base := by
    intro p hp hmem
    obtain ⟨extension, hextension, hfile⟩ := List.mem_map.1 hmem
    cases hfile
    exact Path.append_near hp (habsolute p hp).2 (extends_of_mem_addedExtensions hextension)
  have hopen : .file path ∈ withoutExtension place →
      path.isUnder base = true ∨ path.IsBeside base := by
    intro hmem
    have hindex : (place / "index").isUnder base = true :=
      Path.isUnder_div hplace (habsolute place hplace).1 (by decide)
    rcases List.mem_append.1 hmem with hmem | hmem
    · exact hadded place hplace hmem
    · rcases List.mem_cons.1 hmem with hmanifest | hmem
      · cases hmanifest
      · exact hadded _ hindex hmem
  unfold of at h
  split at h
  · exact hopen h
  · rename_i extension hextension
    split at h
    · rename_i sources hsources
      obtain ⟨source, hsource, hfile⟩ := List.mem_map.1 h
      obtain rfl := Candidate.file.inj hfile
      obtain ⟨name, hname, hsplit⟩ := exists_splitName_of_extension hextension
      have hwritten : ∀ entry ∈ substitutions, entry.1 ≠ "" := by decide
      exact Path.withExtension_near hplace hname hsplit
        (hwritten _ (mem_substitutions_of_lookup hsources)) (extends_of_lookup hsources hsource)
    · split at h
      · cases List.mem_singleton.1 h
        exact .inl hplace
      · rcases List.mem_cons.1 h with hself | hmem
        · cases hself
          exact .inl hplace
        · exact hopen hmem

end Candidate

/-! ## Descriptors that lead out -/

/-- A manifest that names a place outside a directory. -/
def Manifest.LeadsOut (manifest : Manifest) (base : Path) : Prop :=
  ∃ entry ∈ manifest.entries, (manifest.directory / entry).normalize.isUnder base = false

namespace ProjectConfig

/-- A configuration that takes places in a directory for compiled ones, and has sources of theirs
outside the directory. -/
def LeadsOut (config : ProjectConfig) (base : Path) : Prop :=
  ∃ output root rest, config.outDir = some output ∧ root ∈ config.sourceRoots ∧
    base.parts <+: output.parts ++ rest ∧ ¬ base.parts <+: root.parts ++ rest

end ProjectConfig

/-- What is left of an absolute path behind a directory has its parts put behind any other. -/
theorem Path.parts_join_relativeTo? {p output relative : Path} (hp : p.isAbsolute = true)
    (h : p.relativeTo? output = some relative) (root : Path) :
    (root.join relative).parts = p.parts ∨
      ∃ rest, p.parts = output.parts ++ rest ∧ (root.join relative).parts = root.parts ++ rest := by
  have hunder := isUnder_of_relativeTo? h
  obtain ⟨rest, hrest⟩ := (isUnder_iff p output).1 hunder
  by_cases hempty : output.parts = []
  · -- Behind nothing the whole path is left, and it stays where it is.
    left
    have hwhole : relative = ofCut p.cut.lead (trimRight p.cut.pieces) := by
      simpa [relativeTo?, hunder, hempty, eq_comm] using h
    have hparts : relative.parts = p.parts := by
      rw [hwhole, (trimRight_trimmed _ _).parts ((cut_sound p).of_isPrefix (trimRight_isPrefix _)),
        filterMap_trimRight]
      rfl
    have hrelative : relative.isAbsolute = true := by
      rwa [isAbsolute_iff_head?, hparts, ← isAbsolute_iff_head?]
    rw [join_of_absolute hrelative, hparts]
  · right
    have houtput : output.isAbsolute = true := by
      rw [isAbsolute_iff_head?, ← hrest] at hp
      rw [isAbsolute_iff_head?]
      rwa [List.head?_append_of_ne_nil _ hempty] at hp
    obtain ⟨other, hother, hparts, hrelative, hinner⟩ := exists_relativeTo? houtput hunder
    obtain rfl : relative = other := Option.some.inj (h.symm.trans hother)
    refine ⟨relative.parts, hparts, ?_⟩
    by_cases hroot : root.text = ""
    · obtain rfl : root = ⟨""⟩ := by cases root; simp_all
      have hjoin : (⟨""⟩ : Path).join relative = relative := by simp [join, hrelative]
      rw [hjoin, parts_empty, List.nil_append]
    · rw [parts_join hroot hrelative, hinner]

theorem ProjectConfig.isUnder_or_leadsOut {config : ProjectConfig} {target base place : Path}
    (hbase : base.isAbsolute = true) (htarget : target.isUnder base = true)
    (h : place ∈ config.sourcePaths target) : place.isUnder base = true ∨ config.LeadsOut base := by
  rcases mem_sourcePaths h with rfl | ⟨output, relative, houtput, hrelative, root, hroot, rfl⟩
  · exact .inl htarget
  · have habsolute := Path.isAbsolute_of_isUnder hbase htarget
    rcases Path.parts_join_relativeTo? habsolute hrelative root with hsame | ⟨rest, hrest, hparts⟩
    · left
      rwa [Path.isUnder_iff, hsame, ← Path.isUnder_iff]
    · by_cases hplace : base.parts <+: root.parts ++ rest
      · left
        rwa [Path.isUnder_iff, hparts]
      · refine .inr ⟨output, root, rest, houtput, hroot, ?_, hplace⟩
        rwa [← hrest, ← Path.isUnder_iff]

/-- Something that is remembered for a directory in a package leads out of the package: the
manifest of the directory, or the configuration that governs it. -/
def Knowledge.LeadsOut (knowledge : Knowledge) (base : Path) : Prop :=
  ∃ directory : Path, directory.isUnder base = true ∧
    ((∃ manifest, knowledge.manifests[directory.parts]? = some (some manifest) ∧
        manifest.directory.parts = directory.parts ∧ manifest.LeadsOut base) ∨
      ∃ config, knowledge.configs[directory.parts]? = some (some config) ∧ config.LeadsOut base)

theorem Knowledge.LeadsOut.grow {before after : Knowledge} {base : Path}
    (h : before.LeadsOut base) (hgrown : Grows before after) : after.LeadsOut base := by
  obtain ⟨directory, hdirectory, hleads⟩ := h
  refine ⟨directory, hdirectory, ?_⟩
  rcases hleads with ⟨manifest, hknown, hrest⟩ | ⟨config, hknown, hrest⟩
  · exact .inl ⟨manifest, hgrown.manifests _ _ hknown, hrest⟩
  · exact .inr ⟨config, hgrown.configs _ _ hknown, hrest⟩

theorem Manifest.parts_directory {manifest : Manifest} {path directory : Path}
    (hpath : manifest.path.parts = path.parts) (hparent : path.parent? = some directory) :
    manifest.directory.parts = directory.parts := by
  cases hown : manifest.path.parent? with
  | none =>
      have hnone : path.parent? = none := by
        rwa [Path.parent?_eq_none_iff, ← hpath, ← Path.parent?_eq_none_iff]
      rw [hnone] at hparent
      cases hparent
  | some other =>
      rw [Manifest.directory, hown, Option.getD_some, Path.parts_parent? hown, hpath,
        Path.parts_parent? hparent]

/-! ## Looking in a package -/

namespace Classifier

open Knowledge (Grows)

section

variable {m : Type → Type} [Monad m] [LawfulMonad m] (loader : Loader m) {before : Knowledge}

/-- A manifest that is found is the one of its own directory, and is remembered there. -/
theorem manifestAt_leads (root : Option Path) (path : Path) :
    Leads (Grows before) (manifestAt loader root path) fun answer k =>
      (∀ directory manifest, answer = some (directory, manifest) →
        path.parent? = some directory ∧ manifest.path.parts = path.parts ∧
          k.manifests[directory.parts]? = some (some manifest)) ∧ Grows before k := by
  unfold manifestAt
  refine (Knowledge.isFile_grows loader path).leads fun answer _ => ?_
  split
  · split
    · exact .pure fun k hk => ⟨by simp, hk⟩
    · rename_i directory hparent
      refine (Knowledge.manifestFor_leads loader root directory).bind fun found => ?_
      cases found with
      | none => exact .pure fun k hk => ⟨by simp, hk.1⟩
      | some manifest =>
          refine .pure fun k hk => ⟨fun other found hfound => ?_, hk.1⟩
          simp only [Option.ite_none_right_eq_some, Option.some.injEq, Prod.mk.injEq] at hfound
          obtain ⟨hsame, rfl, rfl⟩ := hfound
          exact ⟨hparent, (Path.same_iff _ _).1 hsame, hk.2⟩
  · exact .pure fun k hk => ⟨by simp, hk⟩

/-- A target in a directory, looked for under a configuration of a directory in it. -/
structure Within (knowledge : Knowledge) (base target : Path) (config : Option ProjectConfig) :
    Prop where
  target : target.isUnder base = true
  config : ∀ c, config = some c → ∃ directory : Path, directory.isUnder base = true ∧
    knowledge.configs[directory.parts]? = some (some c)

variable {base target : Path} {config : Option ProjectConfig} (hbase : base.isAbsolute = true)

include hbase

omit [Monad m] [LawfulMonad m] in
theorem exists_place_of_mem_probes (h : Within before base target config ∨ before.LeadsOut base)
    {candidate : Candidate} (hcandidate : candidate ∈ probes target config) :
    ∃ place, candidate ∈ Candidate.of place ∧
      (place.isUnder base = true ∨ before.LeadsOut base) := by
  obtain ⟨place, hplace, hof⟩ := List.mem_flatMap.1 hcandidate
  refine ⟨place, hof, ?_⟩
  rcases h with hwithin | hleads
  · cases config with
    | none =>
        cases List.mem_singleton.1 hplace
        exact .inl hwithin.target
    | some c =>
        have hcases := ProjectConfig.isUnder_or_leadsOut hbase hwithin.target hplace
        refine hcases.imp_right fun hleads => ?_
        obtain ⟨directory, hdirectory, hknown⟩ := hwithin.config c rfl
        exact ⟨directory, hdirectory, .inr ⟨c, hknown, hleads⟩⟩
  · exact .inr hleads

/-- What is found lies in a directory or beside it, or something that is remembered for a directory
in it leads out. -/
def StaysNear (base : Path) (answer : Option Path) (knowledge : Knowledge) : Prop :=
  ∀ path, answer = some path →
    path.isUnder base = true ∨ path.IsBeside base ∨ knowledge.LeadsOut base

omit [Monad m] [LawfulMonad m] hbase in
theorem staysNear_none (base : Path) (knowledge : Knowledge) : StaysNear base none knowledge := by
  simp [StaysNear]

omit hbase in
/-- What an entry of a manifest stands for lies in the directory, unless the manifest leads out. -/
theorem entry_leads (s : Surroundings) (depth : Nat) {place directory : Path}
    (hplace : place.isUnder base = true ∨ before.LeadsOut base)
    (hparent : (place / Manifest.fileName).parent? = some directory) {manifest : Manifest}
    (hpath : manifest.path.parts = (place / Manifest.fileName).parts)
    (hmanifest : before.manifests[directory.parts]? = some (some manifest))
    (hconfig : before.configs[directory.parts]? = some config)
    (hfollow : ∀ target, Within before base target config ∨ before.LeadsOut base →
      Leads (Grows before) (lookup loader s depth target config) fun answer k =>
        StaysNear base answer k ∧ Grows before k) :
    Leads (Grows before) (firstSome (fun entry =>
        lookup loader s depth (directory / entry).normalize config) manifest.entries)
      fun answer k => StaysNear base answer k ∧ Grows before k := by
  obtain ⟨other, hother, hparts⟩ := place.exists_parent?_div_fileName
  obtain rfl : directory = other := Option.some.inj (hparent.symm.trans hother)
  have hdirectory := Manifest.parts_directory hpath hparent
  refine firstSome_leads fun entry hentry => hfollow _ ?_
  rcases hplace with hunder | hleads
  · have hinside : directory.isUnder base = true := by
      rwa [Path.isUnder_iff, hparts, ← Path.isUnder_iff]
    cases htarget : (directory / entry).normalize.isUnder base with
    | true => exact .inl ⟨htarget, fun c hc => ⟨directory, hinside, hc ▸ hconfig⟩⟩
    | false =>
        refine .inr ⟨directory, hinside, .inl ⟨manifest, hmanifest, hdirectory, entry, hentry, ?_⟩⟩
        rwa [Path.normalize_div_congr hdirectory]
  · exact .inr hleads

theorem tryCandidate_leads (s : Surroundings) {depth : Nat} (config : Option ProjectConfig)
    {candidate : Candidate} {place : Path} (hof : candidate ∈ Candidate.of place)
    (hplace : place.isUnder base = true ∨ before.LeadsOut base)
    (hfollow : ∀ deeper, depth = deeper + 1 → ∀ later target config,
      Within later base target config ∨ later.LeadsOut base →
      Leads (Grows later) (lookup loader s deeper target config) fun answer k =>
        StaysNear base answer k ∧ Grows later k) :
    Leads (Grows before) (tryCandidate loader s depth config candidate) fun answer k =>
      StaysNear base answer k ∧ Grows before k := by
  have hnone : ∀ k, Grows before k → StaysNear base none k ∧ Grows before k :=
    fun k hk => ⟨staysNear_none base k, hk⟩
  cases candidate with
  | file path =>
      refine (Knowledge.isFile_grows loader path).leads fun answer _ => ?_
      split
      · refine .pure fun k hk => ⟨fun other hother => ?_, hk⟩
        obtain ⟨-, hsame⟩ := Option.ite_none_right_eq_some.1 hother
        cases hsame
        rcases hplace with hunder | hleads
        · have hnear := Candidate.near_of_file_mem hbase hunder hof
          exact hnear.imp_right .inl
        · exact .inr (.inr (hleads.grow hk))
      · exact .pure hnone
  | manifest path =>
      cases depth with
      | zero => exact .pure hnone
      | succ depth =>
          obtain rfl := Candidate.path_of_manifest_mem hof
          unfold tryCandidate
          simp only
          split
          · refine (manifestAt_leads loader s.root _).bind fun answer => ?_
            cases answer with
            | none => exact .pure fun k hk => hnone k hk.2
            | some found =>
                obtain ⟨directory, manifest⟩ := found
                -- What is known of the manifest and then of its directory only grows.
                refine Knowledge.leads_of_grows fun middle hmiddle => ?_
                obtain ⟨hfound, hgrown⟩ := hmiddle
                obtain ⟨hparent, hpath, hmanifest⟩ := hfound directory manifest rfl
                refine (Knowledge.configFor_leads loader s.root directory).bind fun inner => ?_
                refine Knowledge.leads_of_grows fun later hlater => ?_
                have hafter := hgrown.trans hlater.1
                have hentries := entry_leads loader s depth
                  (hplace.imp_right fun hleads => hleads.grow hafter) hparent hpath
                  (hlater.1.manifests _ _ hmanifest) hlater.2
                  fun target h => hfollow depth rfl later target inner h
                exact hentries.mono fun answer k hk => ⟨hk.1, hafter.trans hk.2⟩
          · exact .pure hnone

/-- By induction on how far manifests are followed. -/
theorem lookup_leads (s : Surroundings) (depth : Nat)
    (h : Within before base target config ∨ before.LeadsOut base) :
    Leads (Grows before) (lookup loader s depth target config) fun answer k =>
      StaysNear base answer k ∧ Grows before k := by
  induction depth generalizing before target config with
  | zero =>
      rw [lookup_eq]
      refine firstSome_leads fun candidate hcandidate => ?_
      obtain ⟨place, hof, hplace⟩ := exists_place_of_mem_probes hbase h hcandidate
      exact tryCandidate_leads loader hbase s config hof hplace fun deeper hdepth => by cases hdepth
  | succ depth ih =>
      rw [lookup_eq]
      refine firstSome_leads fun candidate hcandidate => ?_
      obtain ⟨place, hof, hplace⟩ := exists_place_of_mem_probes hbase h hcandidate
      refine tryCandidate_leads loader hbase s config hof hplace ?_
      rintro deeper ⟨⟩ later target config hlater
      exact ih hlater

end

end Classifier

/-! ## What stands behind a name -/

/-- What a specifier has behind the name of a package and slashes climbs out of the package. -/
def Package.LeadsOut (package : Package) (specifier : String) : Prop :=
  ∃ slashes rest : String, specifier = package.name ++ slashes ++ rest ∧
    (∀ c ∈ slashes.toList, c = '/') ∧ rest.toList.head? ≠ some '/' ∧
    (package.path / rest).normalize.isUnder package.path = false

namespace Classifier

open Knowledge (Grows)

theorem subpath_cases (name specifier : String) : subpath name specifier = "" ∨
    ∃ slashes : String, specifier = name ++ slashes ++ subpath name specifier ∧
      (∀ c ∈ slashes.toList, c = '/') ∧ (subpath name specifier).toList.head? ≠ some '/' := by
  cases hstart : Affix.dropStart? name specifier with
  | none => exact .inl (by simp [subpath, hstart, Affix.trimLeft])
  | some rest =>
      obtain rfl := Affix.dropStart?_eq_some_iff.1 hstart
      have hsubpath : (subpath name (name ++ rest)).toList = rest.toList.dropWhile (· = '/') := by
        rw [subpath_append, Affix.trimLeft, String.toList_ofList]
      refine .inr ⟨String.ofList (rest.toList.takeWhile (· = '/')), ?_, fun c hc => ?_, ?_⟩
      · apply String.toList_inj.1
        rw [String.toList_append, String.toList_append, String.toList_append, hsubpath,
          String.toList_ofList, List.append_assoc, List.takeWhile_append_dropWhile]
      · rw [String.toList_ofList] at hc
        simpa using List.all_eq_true.1 List.all_takeWhile c hc
      · intro hhead
        have hnot := List.head?_dropWhile_not (· = '/') rest.toList
        rw [hsubpath] at hhead
        simp [hhead] at hnot

section

variable {m : Type → Type} [Monad m] [LawfulMonad m] (loader : Loader m) (s : Surroundings)

theorem isUnder_targetIn_or (package : Package) (specifier : String) :
    (targetIn package package.name specifier).isUnder package.path = true ∨
      package.LeadsOut specifier := by
  have hself : package.path.isUnder package.path = true :=
    (Path.isUnder_iff _ _).2 (List.prefix_refl _)
  unfold targetIn
  rcases subpath_cases package.name specifier with hempty | ⟨slashes, hcut, hslashes, hhead⟩
  · rw [hempty]
    exact .inl hself
  · simp only
    split
    · exact .inl hself
    · cases hunder : (package.path / subpath package.name specifier).normalize.isUnder
          package.path with
      | true => exact .inl rfl
      | false => exact .inr ⟨slashes, _, hcut, hslashes, hhead, hunder⟩

/-- What a package is looked into for lies near it, unless the specifier leads out. -/
theorem lookupIn_leads {package : Package} (hbase : package.path.isAbsolute = true)
    (specifier : String) {before : Knowledge} {config : Option ProjectConfig}
    (hconfig : before.configs[package.path.parts]? = some config) :
    Leads (Grows before) (lookup loader s manifestDepth
        (targetIn package package.name specifier) config) fun answer k =>
      ∀ path, answer = some path → path.isUnder package.path = true ∨
        path.IsBeside package.path ∨ package.LeadsOut specifier ∨ k.LeadsOut package.path := by
  have hself : package.path.isUnder package.path = true :=
    (Path.isUnder_iff _ _).2 (List.prefix_refl _)
  rcases isUnder_targetIn_or package specifier with hunder | hout
  · have hwithin : Within before package.path (targetIn package package.name specifier) config :=
      ⟨hunder, fun c hc => ⟨package.path, hself, hc ▸ hconfig⟩⟩
    refine (lookup_leads loader hbase s manifestDepth (.inl hwithin)).mono fun answer k hk => ?_
    exact fun path hpath => (hk.1 path hpath).imp_right fun hnear => hnear.imp_right .inr
  · exact fun k _ => (Always.top _).mono fun _ _ _ _ => .inr (.inr (.inl hout))

/-- A dependency that is found by the name of a package lies in the package or beside it, or on one
of the ways out. -/
def NamedNear (specifier : String) (d : LocalDependency) (knowledge : Knowledge) : Prop :=
  ∃ package, (s.workspace.bind fun w => w.byName (Specifier.packageName specifier)) = some package ∧
    d.rule = .workspace package.name ∧
    (d.path.isUnder package.path = true ∨ d.path.IsBeside package.path ∨
      package.LeadsOut specifier ∨ knowledge.LeadsOut package.path)

variable {s} {specifier : String} (habsolute : ∀ package,
  (s.workspace.bind fun w => w.byName (Specifier.packageName specifier)) = some package →
    package.path.isAbsolute = true ∧ package.name = Specifier.packageName specifier)

include habsolute

theorem byWorkspace_leads :
    Leads (fun _ => True) (byWorkspace loader s specifier) fun answer k =>
      ∀ d, answer = some d → NamedNear s specifier d k := by
  cases hpackage : s.workspace.bind fun w => w.byName (Specifier.packageName specifier) with
  | none =>
      unfold byWorkspace
      simp only [hpackage]
      exact .pure fun k _ => by simp
  | some package =>
      obtain ⟨hbase, hname⟩ := habsolute package hpackage
      rw [byWorkspace_eq loader hpackage, ← hname]
      refine Knowledge.leads_of_grows fun before _ => ?_
      refine (Knowledge.configFor_leads loader s.root package.path).bind fun config => ?_
      refine Knowledge.leads_of_grows fun later hlater => ?_
      have hlookup := lookupIn_leads loader (s.inside package) hbase specifier hlater.2
      unfold byRule
      refine hlookup.bind fun answer => .pure fun k hk d hd => ?_
      obtain ⟨path, rfl, rfl⟩ := Option.map_eq_some_iff.1 hd
      exact ⟨package, hpackage, rfl, hk path rfl⟩

theorem classify_leads_named (file : SourceFile) :
    Leads (fun _ => True) (classify loader s file specifier) fun answer k =>
      ∀ d name, answer = .localFile d → d.rule = .workspace name → NamedNear s specifier d k := by
  apply classify_leads
  case p => exact fun d => ∀ name, d.rule ≠ .workspace name
  case hmanifest => exact fun _ => .top _
  case hconfig => exact fun _ => .top _
  case hrule =>
    intro config rule target hothers
    unfold byRule
    refine (Ensures.top _).bind fun answer _ => .pure fun d hd => ?_
    obtain ⟨path, -, rfl⟩ := Option.map_eq_some_iff.1 hd
    exact hothers
  case hnone => exact fun answer k hother _ d name hd => absurd hd (hother d)
  case hfound =>
    rintro d k hd - other name ⟨⟩ hrule
    exact absurd hrule (hd name)
  case hworkspace =>
    refine (byWorkspace_leads loader habsolute).mono fun answer k h => ?_
    cases answer with
    | none => trivial
    | some d =>
        rintro other name ⟨⟩ -
        exact h d rfl

end

end Classifier

/-! ## Resolution by the name of a package -/

/-- A file that is found by the name of a package belongs to the package of the workspace that has
this name, and so does the specifier. If there is a boundary, whichever it is, the file lies under
the path of that package: no sibling, no manifest and no subpath leads out. With a boundary or
without one, it lies there unless it is a sibling of the directory, the subpath leads out, or a
manifest or a configuration that is remembered for the package does. -/
theorem Classifier.classify_named_package {m : Type → Type} [Monad m] [LawfulMonad m]
    (loader : Loader m) {w : Workspace} (hw : w.Normal) (root boundary : Option Path)
    (past : List Question) (file : SourceFile) (specifier : String) :
    Always (fun result => ∀ d name, result.1 = .localFile d → d.rule = .workspace name →
        ∃ package ∈ w.packages, package.name = name ∧ w.byName name = some package ∧
          Specifier.packageName specifier = name ∧ d.path.NearlyClean ∧
          (boundary ≠ none → d.path.isUnder package.path = true))
      (Knowledge.runAfter loader root past
        (classify loader ⟨root, some w, boundary⟩ file specifier)) ∧
    Always (fun result => ∀ d name, result.1 = .localFile d → d.rule = .workspace name →
        ∃ package ∈ w.packages, package.name = name ∧ w.byName name = some package ∧
          (d.path.isUnder package.path = true ∨ d.path.IsBeside package.path ∨
            package.LeadsOut specifier ∨ result.2.LeadsOut package.path))
      (Knowledge.runAfter loader root past
        (classify loader ⟨root, some w, boundary⟩ file specifier)) := by
  let s : Surroundings := ⟨root, some w, boundary⟩
  have hs : s.Clean := by
    intro workspace name package hworkspace hname
    cases hworkspace
    exact hw.clean (Workspace.mem_of_byName hname)
  constructor
  · have hrun := Knowledge.runAfter_always (Knowledge.ask_tidy loader root) Knowledge.tidy_nothing
      past (classify_namedWithin loader s file specifier)
    refine hrun.mono fun result hresult d name hd hrule => ?_
    obtain ⟨package, hpackage, hname, hpermits, hnearly⟩ := hresult.1 d hd name hrule
    have hbyName : w.byName (Specifier.packageName specifier) = some package := hpackage
    have hspecifier : Specifier.packageName specifier = name :=
      (Workspace.name_of_byName hbyName).symm.trans hname
    refine ⟨package, Workspace.mem_of_byName hbyName, hname, by rw [← hspecifier, hbyName],
      hspecifier, hnearly hs, fun hboundary => ?_⟩
    -- Which boundary it is does not matter, since the rule puts the package in its place.
    obtain ⟨b, hb⟩ := Option.ne_none_iff_exists'.1 hboundary
    have hinside : (s.inside package).boundary = some package.path := by
      simp [s, Surroundings.inside, hb]
    rw [Surroundings.permits, hinside] at hpermits
    exact hpermits
  · have habsolute : ∀ package, (s.workspace.bind fun w => w.byName
        (Specifier.packageName specifier)) = some package →
        package.path.isAbsolute = true ∧ package.name = Specifier.packageName specifier :=
      fun package hpackage => ⟨(hw package (Workspace.mem_of_byName hpackage)).1,
        Workspace.name_of_byName hpackage⟩
    have hask : ∀ question, Ensures (fun _ => True) (Knowledge.ask loader root question)
        fun _ => True := fun question => .top _
    have hrun := Knowledge.runAfter_leads hask trivial past
      (classify_leads_named loader habsolute file)
    refine hrun.mono fun result hresult d name hd hrule => ?_
    obtain ⟨package, hpackage, hown, hnear⟩ := hresult d name hd hrule
    have hname : package.name = name := Rule.workspace.inj (hown.symm.trans hrule)
    have hbyName : w.byName (Specifier.packageName specifier) = some package := hpackage
    rw [← (habsolute package hpackage).2, hname] at hbyName
    exact ⟨package, Workspace.mem_of_byName hbyName, hname, hbyName, hnear⟩

namespace Loader

def uiWorkspace : Workspace :=
  ⟨⟨"w", ⟨"/w"⟩, none⟩, [⟨"ui", ⟨"/w/ui"⟩, none⟩]⟩

def uiProject : Loader Id :=
  .ofTexts [
    ([.root, .name "w", .name "apps", .name "a.js"], ""),
    ([.root, .name "w", .name "ui.ts"], ""),
    ([.root, .name "w", .name "ui", .name "index.js"], "")]

def uiImporter : SourceFile := ⟨⟨"/w/apps/a.js"⟩, ""⟩

theorem uiWorkspace_normal : uiWorkspace.Normal := by
  unfold Workspace.Normal
  decide +kernel

theorem uiProject_meaning :
    uiProject.meaning ⟨none, some uiWorkspace, some ⟨"/w"⟩⟩ uiImporter "ui"
        = .localFile ⟨"ui", ⟨"/w/ui/index.js"⟩, .workspace "ui"⟩ ∧
      uiProject.meaning ⟨none, some uiWorkspace, none⟩ uiImporter "ui"
        = .localFile ⟨"ui", ⟨"/w/ui.ts"⟩, .workspace "ui"⟩ := by
  decide +kernel

/-- What is found under a boundary, and what without one. -/
theorem exists_uiProject_localFile (boundary : Option Path) (h : boundary ∈ [some ⟨"/w"⟩, none])
    (past : List Question) : ∃ d,
      Knowledge.valueAfter uiProject none past
        (Classifier.classify uiProject ⟨none, some uiWorkspace, boundary⟩ uiImporter "ui")
          = .localFile d ∧ d.rule = .workspace "ui" ∧
      d.path.parts
        = (if boundary = none then (⟨"/w/ui.ts"⟩ : Path) else ⟨"/w/ui/index.js"⟩).parts := by
  have fixed : uiProject.Fixed := ofTexts_fixed _
  have hmeaning := Knowledge.valueAfter_classify fixed (s := ⟨none, some uiWorkspace, boundary⟩)
    past uiImporter "ui"
  simp only [List.mem_cons, List.not_mem_nil, or_false] at h
  rcases h with rfl | rfl
  · rw [uiProject_meaning.1] at hmeaning
    obtain ⟨d, hd, halike⟩ := hmeaning.exists_localFile
    exact ⟨d, hd, halike.rule, halike.path⟩
  · rw [uiProject_meaning.2] at hmeaning
    obtain ⟨d, hd, halike⟩ := hmeaning.exists_localFile
    exact ⟨d, hd, halike.rule, halike.path⟩

theorem classify_named_package_held :
    uiWorkspace.Normal ∧
    (∃ d, Knowledge.valueAfter uiProject none [.manifest ⟨"/w/./ui"⟩]
        (Classifier.classify uiProject ⟨none, some uiWorkspace, some ⟨"/w"⟩⟩ uiImporter "ui")
          = .localFile d ∧ d.rule = .workspace "ui" ∧
      ∃ package ∈ uiWorkspace.packages, package.name = "ui" ∧
        d.path.isUnder package.path = true) ∧
    ∃ d, Knowledge.valueAfter uiProject none []
        (Classifier.classify uiProject ⟨none, some uiWorkspace, none⟩ uiImporter "ui")
          = .localFile d ∧ d.rule = .workspace "ui" ∧
      ∃ package ∈ uiWorkspace.packages, package.name = "ui" ∧
        (d.path.isUnder package.path = true ∨ d.path.IsBeside package.path ∨
          package.LeadsOut "ui" ∨ (Knowledge.runAfter uiProject none []
            (Classifier.classify uiProject ⟨none, some uiWorkspace, none⟩ uiImporter
              "ui")).run.2.LeadsOut package.path) := by
  refine ⟨uiWorkspace_normal, ?_, ?_⟩
  · obtain ⟨d, hd, hrule, -⟩ := exists_uiProject_localFile (some ⟨"/w"⟩) (by simp)
      [.manifest ⟨"/w/./ui"⟩]
    have hnamed := always_id.1 (Classifier.classify_named_package uiProject uiWorkspace_normal none
      (some ⟨"/w"⟩) [.manifest ⟨"/w/./ui"⟩] uiImporter "ui").1
    obtain ⟨package, hmem, hname, -, -, -, hunder⟩ := hnamed d "ui" hd hrule
    exact ⟨d, hd, hrule, package, hmem, hname, hunder (by simp)⟩
  · obtain ⟨d, hd, hrule, -⟩ := exists_uiProject_localFile none (by simp) []
    have hnamed := always_id.1 (Classifier.classify_named_package uiProject uiWorkspace_normal none
      none [] uiImporter "ui").2
    obtain ⟨package, hmem, hname, -, hnear⟩ := hnamed d "ui" hd hrule
    exact ⟨d, hd, hrule, package, hmem, hname, hnear⟩

/-- Without a boundary a file beside the directory of a package is found by the package's name,
though the directory has an index. -/
theorem classify_named_package_beside :
    uiWorkspace.Normal ∧ uiProject.has ⟨"/w/ui/index.js"⟩ = true ∧ ∃ d,
      Knowledge.valueAfter uiProject none []
        (Classifier.classify uiProject ⟨none, some uiWorkspace, none⟩ uiImporter "ui")
          = .localFile d ∧ d.rule = .workspace "ui" ∧
      ∀ package ∈ uiWorkspace.packages, package.name = "ui" →
        d.path.isUnder package.path = false := by
  obtain ⟨d, hd, hrule, hpath⟩ := exists_uiProject_localFile none (by simp) []
  refine ⟨uiWorkspace_normal, by decide +kernel, d, hd, hrule, ?_⟩
  intro package hpackage hname
  rw [Path.isUnder_congr hpath]
  revert package
  decide +kernel

end Loader

end ModuleTrace

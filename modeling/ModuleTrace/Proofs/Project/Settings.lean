import Mathlib.Data.List.Forall2
import ModuleTrace.Project.Config
import ModuleTrace.Proofs.Path.Spelling
import ModuleTrace.Proofs.Project.Aliases

/-!
# What one configuration says

A file names what it extends by texts, of which those that are written as paths are followed. An
option is set by a value of the right kind only, and paths are meant from the directory of the
file. Each of these is told by a relation between the file and what it says, and agrees with what
is read out of the file.
-/

namespace ModuleTrace

/-- A configuration file that can be used: where it lies, and what it says. -/
structure ConfigFile where
  path : Path
  json : Json

/-! ## Kinds of module resolution -/

namespace ModuleResolution

def names : ModuleResolution → List String
  | .classic => ["classic"]
  | .node10 => ["node", "node10"]
  | .node16 => ["node16"]
  | .nodeNext => ["nodenext"]
  | .bundler => ["bundler"]

def Spells (text : String) (kind : ModuleResolution) : Prop :=
  ∃ name ∈ kind.names, text.toList.map Char.toLower = name.toList

theorem parse?_eq_some_iff {text : String} {kind : ModuleResolution} :
    parse? text = some kind ↔ Spells text kind := by
  have hlower : ∀ name : String,
      text.toList.map Char.toLower = name.toList ↔ Affix.lower text = name := by
    intro name
    rw [Affix.lower, ← String.toList_inj, String.toList_ofList]
  simp only [Spells, hlower, exists_eq_right', parse?]
  generalize Affix.lower text = name
  constructor
  · intro h
    split at h <;> cases h <;> simp [names]
  · intro h
    cases kind <;> simp only [names, List.mem_cons, List.not_mem_nil, or_false] at h
    case node10 => rcases h with rfl | rfl <;> rfl
    all_goals subst h; rfl

end ModuleResolution

/-! ## Places of aliases -/

/-- The text of a target with its first wildcard replaced, meant from a base. -/
inductive AliasTarget.Leads (base : Path) (captured : String) : String → Path → Prop
  | plain {raw : String} (h : Pattern.wildcard ∉ raw.toList) : Leads base captured raw (base / raw)
  | filled {start stop : String} (h : Pattern.wildcard ∉ start.toList) :
      Leads base captured (start ++ "*" ++ stop) ⟨(base / start).text ++ captured ++ stop⟩

theorem AliasTarget.leads_ofString (base : Path) (raw captured : String) :
    Leads base captured raw ((ofString base raw).path captured) := by
  rcases Pattern.wildcard_cases raw with h | ⟨start, stop, rfl, h⟩
  · have hpath : (ofString base raw).path captured = base / raw := by
      simp [ofString, Pattern.ofString_of_notMem h, path]
    rw [hpath]
    exact .plain h
  · have hpath : (ofString base (start ++ "*" ++ stop)).path captured
        = ⟨(base / start).text ++ captured ++ stop⟩ := by
      simp [ofString, Pattern.ofString_append h, path]
    rw [hpath]
    exact .filled h

namespace Alias

/-- An alias stands for a pattern with its targets: it applies to what fits the pattern, and gives
a place for each target. -/
structure StandsFor (base : Path) (entry : String × List String) (a : Alias) : Prop where
  text : a.text = entry.1
  exact : Pattern.wildcard ∉ entry.1.toList → ∀ specifier captured,
    a.pattern.capture? specifier = some captured ↔ specifier = entry.1 ∧ captured = ""
  wild : ∀ start stop : String, entry.1 = start ++ "*" ++ stop →
    Pattern.wildcard ∉ start.toList → ∀ specifier captured,
      a.pattern.capture? specifier = some captured ↔ specifier = start ++ captured ++ stop
  targets : List.Forall₂ (fun raw target => target.raw = raw ∧
    ∀ captured, AliasTarget.Leads base captured raw (target.path captured)) entry.2 a.targets

theorem of_standsFor (base : Path) (entry : String × List String) :
    (of base entry.1 entry.2).StandsFor base entry where
  text := rfl
  exact h specifier captured := by
    simp only [of, Pattern.ofString_of_notMem h, Pattern.capture?_exact]
  wild start stop hentry h specifier captured := by
    simp only [of, hentry, Pattern.ofString_append h, Pattern.capture?_wild]
  targets := by
    rw [of, List.forall₂_map_right_iff, List.forall₂_same]
    exact fun raw _ => ⟨rfl, AliasTarget.leads_ofString base raw⟩

end Alias

namespace ConfigFile

/-! ## What a file extends -/

/-- Extensions are one text, or the texts of a list. -/
inductive Named : Option Json → List String → Prop
  | one (text : String) : Named (some (.string text)) [text]
  | many {items : List Json} {texts : List String} (h : Json.Texts items texts) :
      Named (some (.array items)) texts
  | nothing {value : Option Json} (htext : ∀ text, value ≠ some (.string text))
      (hlist : ∀ items, value ≠ some (.array items)) : Named value []

/-- Whether a text is a path and not the name of a package. -/
def WrittenAsPath (text : String) : Prop :=
  ∃ rest, text = "." ++ rest ∨ text = "/" ++ rest

/-- A path without the extension `json` is that of the file with this extension behind it. -/
inductive Located (path : Path) : Path → Prop
  | whole {stem : String} (hstem : stem ≠ "") (h : path.name? = some (stem ++ ".json")) :
      Located path path
  | extended (h : ∀ stem, stem ≠ "" → path.name? ≠ some (stem ++ ".json")) :
      Located path ⟨path.text ++ ".json"⟩

/-- The files that some texts name from a directory; packages are left out. -/
inductive Followed (directory : Path) : List String → List Path → Prop
  | nil : Followed directory [] []
  | path {text : String} {path : Path} {texts : List String} {paths : List Path}
      (htext : WrittenAsPath text) (hpath : Located (directory / text).normalize path)
      (hrest : Followed directory texts paths) : Followed directory (text :: texts) (path :: paths)
  | package {text : String} {texts : List String} {paths : List Path}
      (htext : ¬ WrittenAsPath text) (hrest : Followed directory texts paths) :
      Followed directory (text :: texts) paths

theorem named_iff {json : Json} {texts : List String} :
    Named (json.member? "extends") texts ↔ texts = ProjectConfig.extensions json := by
  unfold ProjectConfig.extensions
  generalize json.member? "extends" = value
  constructor
  · intro h
    cases h with
    | one text => rfl
    | many h => exact Json.texts_iff.1 h
    | nothing htext hlist =>
        split
        · exact absurd rfl (htext _)
        · exact absurd rfl (hlist _)
        · rfl
  · rintro rfl
    split
    · exact .one _
    · exact .many (Json.texts_iff.2 rfl)
    · rename_i htext hlist
      exact .nothing htext hlist

theorem writtenAsPath_iff {text : String} : WrittenAsPath text ↔
    (text.toList.head? = some '.' || (Path.mk text).isAbsolute) = true := by
  simp only [WrittenAsPath, exists_or, ← Affix.begins_iff, Bool.or_eq_true, decide_eq_true_eq,
    Path.isAbsolute]
  cases h : text.toList with
  | nil => simp [Affix.begins, Affix.after?, h]
  | cons c cs => simp [Affix.begins, Affix.after?, h, @eq_comm Char c]

theorem extension?_eq_json_iff {path : Path} : path.extension? = some "json" ↔
    ∃ stem, stem ≠ "" ∧ path.name? = some (stem ++ ".json") := by
  rw [Path.extension?, Option.bind_eq_some_iff]
  constructor
  · rintro ⟨name, hname, hsplit⟩
    obtain ⟨hstem, -, htext⟩ := Path.splitName_eq_some hsplit
    refine ⟨_, hstem, hname.trans (congrArg some (String.toList_inj.1 ?_))⟩
    simpa using htext
  · rintro ⟨stem, hstem, hname⟩
    have hsplit : Path.splitName (stem ++ ".json") = (stem, some "json") :=
      Path.splitName_concat hstem (by decide) (by simp)
    exact ⟨_, hname, congrArg Prod.snd hsplit⟩

theorem located_iff {path file : Path} : Located path file ↔
    file = if path.extension? = some "json" then path else path.append "json" := by
  by_cases h : path.extension? = some "json"
  · rw [if_pos h]
    obtain ⟨stem, hstem, hname⟩ := extension?_eq_json_iff.1 h
    constructor
    · intro hlocated
      cases hlocated with
      | whole => rfl
      | extended hno => exact absurd hname (hno stem hstem)
    · rintro rfl
      exact .whole hstem hname
  · rw [if_neg h]
    have hno : ∀ stem, stem ≠ "" → path.name? ≠ some (stem ++ ".json") :=
      fun stem hstem hname => h (extension?_eq_json_iff.2 ⟨stem, hstem, hname⟩)
    have happend : path.append "json" = ⟨path.text ++ ".json"⟩ := by
      rw [Path.append, String.append_assoc]
      rfl
    rw [happend]
    constructor
    · intro hlocated
      cases hlocated with
      | whole hstem hname => exact absurd hname (hno _ hstem)
      | extended => rfl
    · rintro rfl
      exact .extended hno

theorem followed_iff {directory : Path} {texts : List String} {paths : List Path} :
    Followed directory texts paths
      ↔ paths = texts.filterMap (ProjectConfig.extendedPath? directory) := by
  induction texts generalizing paths with
  | nil =>
      constructor
      · intro h
        cases h
        rfl
      · rintro rfl
        exact .nil
  | cons text texts ih =>
      by_cases htext : WrittenAsPath text
      · rw [List.filterMap_cons, ProjectConfig.extendedPath?, if_pos (writtenAsPath_iff.1 htext)]
        constructor
        · intro h
          cases h with
          | path _ hpath hrest => rw [located_iff.1 hpath, ih.1 hrest]
          | package hno => exact absurd htext hno
        · rintro rfl
          exact .path htext (located_iff.2 rfl) (ih.2 rfl)
      · rw [List.filterMap_cons, ProjectConfig.extendedPath?,
          if_neg fun h => htext (writtenAsPath_iff.2 h)]
        constructor
        · intro h
          cases h with
          | path hyes => exact absurd hyes htext
          | package _ hrest => exact ih.1 hrest
        · rintro rfl
          exact .package htext (ih.2 rfl)

section

variable (file : ConfigFile)

def directory : Path :=
  ProjectConfig.directoryOf file.path

/-- The files that a file extends, in the order in which it names them. -/
def Parents (paths : List Path) : Prop :=
  ∃ texts, Named (file.json.member? "extends") texts ∧ Followed file.directory texts paths

def parents : List Path :=
  (ProjectConfig.extensions file.json).filterMap (ProjectConfig.extendedPath? file.directory)

theorem parents_iff {paths : List Path} : file.Parents paths ↔ paths = file.parents := by
  simp only [Parents, named_iff, followed_iff, exists_eq_left, parents]

/-! ## Options of a file -/

/-- What stands under a key of the compiler options. -/
def setting? (key : String) : Option Json :=
  (file.json.member? "compilerOptions").bind (·.member? key)

def place (text : String) : Path :=
  (file.directory / text).normalize

def SetsPath (key : String) (path : Path) : Prop :=
  ∃ text, file.setting? key = some (.string text) ∧ path = file.place text

def SetsPaths (key : String) (paths : List Path) : Prop :=
  ∃ items texts, file.setting? key = some (.array items) ∧ Json.Texts items texts ∧
    paths = texts.map file.place

def SetsFlag (key : String) (value : Bool) : Prop :=
  file.setting? key = some (.bool value)

def SetsResolution (kind : ModuleResolution) : Prop :=
  ∃ text, file.setting? "moduleResolution" = some (.string text) ∧ kind.Spells text

end

/-- Patterns with their targets; a pattern without a list of targets is left out. -/
inductive Entries : List (String × Json) → List (String × List String) → Prop
  | nil : Entries [] []
  | list {pattern : String} {items : List Json} {targets : List String}
      {members : List (String × Json)} {entries : List (String × List String)}
      (h : Json.Texts items targets) (hrest : Entries members entries) :
      Entries ((pattern, .array items) :: members) ((pattern, targets) :: entries)
  | other {pattern : String} {value : Json} {members : List (String × Json)}
      {entries : List (String × List String)} (h : ∀ items, value ≠ .array items)
      (hrest : Entries members entries) : Entries ((pattern, value) :: members) entries

theorem entries_iff {members : List (String × Json)} {entries : List (String × List String)} :
    Entries members entries ↔ entries = ConfigOptions.aliasEntries members := by
  induction members generalizing entries with
  | nil =>
      constructor
      · intro h
        cases h
        rfl
      · rintro rfl
        exact .nil
  | cons member members ih =>
      obtain ⟨pattern, value⟩ := member
      cases harray : value.array? with
      | some items =>
          obtain rfl : value = .array items := by
            cases value <;> simp_all [Json.array?]
          constructor
          · intro h
            cases h with
            | list htexts hrest => rw [Json.texts_iff.1 htexts, ih.1 hrest]; rfl
            | other hno => exact absurd rfl (hno items)
          · rintro rfl
            exact .list (Json.texts_iff.2 rfl) (ih.2 rfl)
      | none =>
          have hno : ∀ items, value ≠ .array items := by
            rintro items rfl
            cases harray
          have hcons : ConfigOptions.aliasEntries ((pattern, value) :: members)
              = ConfigOptions.aliasEntries members := by
            simp [ConfigOptions.aliasEntries, harray]
          rw [hcons]
          constructor
          · intro h
            cases h with
            | list => exact absurd rfl (hno _)
            | other _ hrest => exact ih.1 hrest
          · intro h
            exact .other hno (ih.2 h)

section

variable (file : ConfigFile)

/-- Patterns with their targets, and the directory of the file that has them. -/
def SetsAliases (value : List (String × List String) × Path) : Prop :=
  ∃ members, file.setting? "paths" = some (.object members) ∧ Entries members value.1 ∧
    value.2 = file.directory

/-! ## What is read out of a file -/

def place? (key : String) : Option Path :=
  ((file.setting? key).bind Json.string?).map file.place

def places? (key : String) : Option (List Path) :=
  ((file.setting? key).bind Json.array?).map fun items => (Json.strings items).map file.place

def flag? (key : String) : Option Bool :=
  (file.setting? key).bind Json.bool?

def moduleResolution? : Option ModuleResolution :=
  ((file.setting? "moduleResolution").bind Json.string?).bind ModuleResolution.parse?

def aliases? : Option (List (String × List String) × Path) :=
  ((file.setting? "paths").bind Json.object?).map fun members =>
    (ConfigOptions.aliasEntries members, file.directory)

def options : ConfigOptions where
  baseUrl := file.place? "baseUrl"
  paths := file.aliases?
  moduleResolution := file.moduleResolution?
  outDir := file.place? "outDir"
  rootDir := file.place? "rootDir"
  rootDirs := file.places? "rootDirs"
  composite := file.flag? "composite"

theorem ofJson_eq_options : ConfigOptions.ofJson file.directory
    ((file.json.member? "compilerOptions").getD .null) = file.options := by
  have hmember : ∀ key, ((file.json.member? "compilerOptions").getD .null).member? key
      = file.setting? key := by
    intro key
    unfold setting?
    cases file.json.member? "compilerOptions" <;> rfl
  simp only [ConfigOptions.ofJson, hmember, options]
  rfl

variable {file}

theorem setsPath_iff {key : String} {path : Path} :
    file.SetsPath key path ↔ file.place? key = some path := by
  simp only [SetsPath, place?, Option.map_eq_some_iff, Option.bind_eq_some_iff,
    Json.string?_eq_some_iff, exists_eq_right, eq_comm (a := path)]

theorem setsPaths_iff {key : String} {paths : List Path} :
    file.SetsPaths key paths ↔ file.places? key = some paths := by
  simp only [SetsPaths, places?, Option.map_eq_some_iff, Option.bind_eq_some_iff,
    Json.array?_eq_some_iff, exists_eq_right, Json.texts_iff, eq_comm (a := paths), exists_and_left,
    exists_eq_left]

theorem setsFlag_iff {key : String} {value : Bool} :
    file.SetsFlag key value ↔ file.flag? key = some value := by
  simp only [SetsFlag, flag?, Option.bind_eq_some_iff, Json.bool?_eq_some_iff, exists_eq_right]

theorem setsResolution_iff {kind : ModuleResolution} :
    file.SetsResolution kind ↔ file.moduleResolution? = some kind := by
  simp only [SetsResolution, moduleResolution?, Option.bind_eq_some_iff, Json.string?_eq_some_iff,
    exists_eq_right, ModuleResolution.parse?_eq_some_iff]

theorem setsAliases_iff {value : List (String × List String) × Path} :
    file.SetsAliases value ↔ file.aliases? = some value := by
  obtain ⟨entries, directory⟩ := value
  simp only [SetsAliases, aliases?, Option.map_eq_some_iff, Option.bind_eq_some_iff,
    Json.object?_eq_some_iff, exists_eq_right, entries_iff, Prod.mk.injEq, eq_comm (a := entries),
    eq_comm (a := directory)]

end

end ConfigFile

end ModuleTrace

import ModuleTrace.Workspace.Listing

/-!
# What files declare of a workspace

A manifest or a configuration names the package of its directory, and at a root it lists the globs
of the members. What it must hold for that is told by relations, and agrees with what is read out
of it.
-/

namespace ModuleTrace.Workspace

/-! ## Globs of members -/

inductive Listed (key : String) : Json → List Json → Prop
  | list (items : List Json) : Listed key (.array items) items
  | under {members : List (String × Json)} {items : List Json}
      (h : members.lookup key = some (.array items)) : Listed key (.object members) items

def ManifestGlobs (json : Json) (globs : List String) : Prop :=
  ∃ value items, json.member? "workspaces" = some value ∧ Listed "packages" value items ∧
    Json.Texts items globs

def DenoGlobs (json : Json) (globs : List String) : Prop :=
  ∃ value, json.member? "workspace" = some value ∧
    ((∃ items, Listed "members" value items ∧ Json.Texts items globs) ∨
      (∃ members, value = .object members) ∧ (∀ items, ¬ Listed "members" value items) ∧
        globs = [])

theorem listed_object_iff {key : String} {members : List (String × Json)} {items : List Json} :
    Listed key (.object members) items ↔ (members.lookup key).bind Json.array? = some items := by
  rw [Option.bind_eq_some_iff]
  constructor
  · intro h
    cases h with
    | under h => exact ⟨_, h, rfl⟩
  · rintro ⟨value, hlookup, harray⟩
    obtain rfl := Json.array?_eq_some_iff.1 harray
    exact .under hlookup

theorem manifestGlobs_iff {json : Json} {globs : List String} : ManifestGlobs json globs ↔
    (json.member? "workspaces").bind Manifest.workspacePatterns? = some globs := by
  have hvalue : ∀ value, Manifest.workspacePatterns? value = some globs ↔
      ∃ items, Listed "packages" value items ∧ Json.Texts items globs := by
    intro value
    cases value with
    | array items =>
        constructor
        · intro h
          exact ⟨items, .list items, Json.texts_iff.2 (Option.some.inj h).symm⟩
        · rintro ⟨_, ⟨_⟩, htexts⟩
          rw [Json.texts_iff.1 htexts]
          rfl
    | object members =>
        simp only [Manifest.workspacePatterns?, Json.member?, Option.map_eq_some_iff,
          listed_object_iff, Json.texts_iff, eq_comm (a := globs)]
    | _ =>
        constructor
        · intro h
          cases h
        · rintro ⟨_, ⟨⟩, -⟩
  simp only [ManifestGlobs, Option.bind_eq_some_iff, hvalue, exists_and_left]

theorem denoGlobs_iff {json : Json} {globs : List String} :
    DenoGlobs json globs ↔ denoPatterns? json = some globs := by
  unfold DenoGlobs denoPatterns?
  cases json.member? "workspace" with
  | none => simp
  | some value =>
      simp only [Option.some.injEq, exists_eq_left']
      cases value with
      | array items =>
          simp only [reduceCtorEq, exists_false, false_and, or_false, Option.some.injEq]
          constructor
          · rintro ⟨_, ⟨_⟩, htexts⟩
            exact (Json.texts_iff.1 htexts).symm
          · rintro rfl
            exact ⟨items, .list items, Json.texts_iff.2 rfl⟩
      | object members =>
          simp only [listed_object_iff, Json.texts_iff]
          cases (members.lookup "members").bind Json.array? with
          | none => simp [eq_comm]
          | some items => simp [eq_comm]
      | _ =>
          simp only [reduceCtorEq, exists_false, false_and, or_false, iff_false]
          rintro ⟨_, ⟨⟩, -⟩

/-! ## Names of packages -/

/-- The name that a file gives to a root; without one, that of the directory. -/
def NamesRoot (json : Json) (root : Path) (name : String) : Prop :=
  json.member? "name" = some (.string name) ∨
    (∀ other, json.member? "name" ≠ some (.string other)) ∧ name = root.name?.getD ""

theorem bind_string?_eq_some_iff {json : Option Json} {text : String} :
    json.bind Json.string? = some text ↔ json = some (.string text) := by
  simp only [Option.bind_eq_some_iff, Json.string?_eq_some_iff, exists_eq_right]

theorem namesRoot_iff {json : Json} {root : Path} {name : String} :
    NamesRoot json root name ↔ name = nameIn json root := by
  simp only [NamesRoot, ne_eq, ← bind_string?_eq_some_iff, nameIn, directoryName]
  cases (json.member? "name").bind Json.string? with
  | none => simp
  | some other => simp [eq_comm]

section

variable (fs : FileSystem Id)

/-- The package of a directory whose manifest is an object with a name. -/
def ManifestNames (d : Path) (package : Package) : Prop :=
  ∃ text json, (fs.read (d / "package.json")).run = .ok text ∧ Json.parse? text = some json ∧
    json.member? "name" = some (.string package.name) ∧ package.path = d ∧
      ∀ globs, package.patterns = some globs ↔ ManifestGlobs json globs

/-- A file says something in relaxed form. -/
def Says (path : Path) (json : Json) : Prop :=
  ∃ text, (fs.read path).run = .ok text ∧ Json.parse? (Json.strict text) = some json

/-- The first configuration of a directory that can be read and parsed. -/
def Configured (d : Path) (json : Json) : Prop :=
  Says fs (d / "deno.json") json ∨
    (∀ other, ¬ Says fs (d / "deno.json") other) ∧ Says fs (d / "deno.jsonc") json

/-- The package of a directory, named by its configuration or else by its manifest. -/
def DenoNames (d : Path) (package : Package) : Prop :=
  (∃ json name, Configured fs d json ∧ json.member? "name" = some (.string name) ∧
    package = ⟨name, d, none⟩) ∨
  (∀ json name, Configured fs d json → json.member? "name" ≠ some (.string name)) ∧
    ManifestNames fs d package

theorem DenoNames.path_eq {fs : FileSystem Id} {d : Path} {package : Package}
    (h : DenoNames fs d package) : package.path = d := by
  rcases h with ⟨json, name, -, -, rfl⟩ | ⟨-, _, _, -, -, -, hpath, -⟩
  · rfl
  · exact hpath

theorem readJson_eq_ok_iff {path : Path} {json : Json} :
    (readJson fs path).run = .ok json ↔
      ∃ text, (fs.read path).run = .ok text ∧ Json.parse? text = some json := by
  unfold readJson
  rw [Id.run_bind]
  cases (fs.read path).run with
  | error error => simp
  | ok text =>
      simp only [Except.ok.injEq, exists_eq_left']
      cases Json.parse? text <;> simp

theorem readMember?_eq_some_iff {d : Path} {package : Package} :
    (readMember? fs d).run = some package ↔ ManifestNames fs d package := by
  unfold readMember?
  rw [Id.run_bind]
  cases hread : (readJson fs (d / Manifest.fileName)).run with
  | error error =>
      constructor
      · intro h
        cases h
      · rintro ⟨text, json, htext, hjson, -⟩
        cases hread.symm.trans ((readJson_eq_ok_iff fs).2 ⟨text, htext, hjson⟩)
  | ok json =>
      obtain ⟨text, htext, hjson⟩ := (readJson_eq_ok_iff fs).1 hread
      simp only [Id.run_pure, Option.map_eq_some_iff, bind_string?_eq_some_iff]
      constructor
      · rintro ⟨name, hname, rfl⟩
        exact ⟨text, json, htext, hjson, hname, rfl, fun globs => manifestGlobs_iff.symm⟩
      · rintro ⟨other, found, hother, hfound, hname, hpath, hglobs⟩
        cases htext.symm.trans hother
        cases hjson.symm.trans hfound
        have hpatterns : package.patterns
            = (json.member? "workspaces").bind Manifest.workspacePatterns? :=
          Option.ext fun globs => (hglobs globs).trans manifestGlobs_iff
        exact ⟨package.name, hname, by rw [← hpath, ← hpatterns]⟩

def configuration? (path : Path) : Option Json :=
  match (fs.read path).run with
  | .error _ => none
  | .ok text => Json.parse? (Json.strict text)

theorem says_iff {path : Path} {json : Json} :
    Says fs path json ↔ configuration? fs path = some json := by
  unfold Says configuration?
  cases (fs.read path).run <;> simp

theorem denoConfig?_eq (d : Path) (names : List String) :
    (denoConfig? fs d names).run.map Prod.snd
      = names.findSome? fun name => configuration? fs (d / name) := by
  induction names with
  | nil => rfl
  | cons name names ih =>
      rw [denoConfig?, Id.run_bind, List.findSome?_cons, configuration?]
      cases (fs.read (d / name)).run with
      | error error => exact ih
      | ok text =>
          simp only
          cases Json.parse? (Json.strict text) with
          | none => exact ih
          | some json => rfl

theorem configured_iff {d : Path} {json : Json} :
    Configured fs d json ↔ (denoConfig? fs d denoFiles).run.map Prod.snd = some json := by
  rw [denoConfig?_eq]
  simp only [Configured, says_iff, denoFiles, List.findSome?_cons, List.findSome?_nil]
  cases configuration? fs (d / "deno.json") with
  | none => cases configuration? fs (d / "deno.jsonc") <;> simp
  | some own => simp

theorem readDenoMember?_eq_some_iff {d : Path} {package : Package} :
    (readDenoMember? fs d).run = some package ↔ DenoNames fs d package := by
  unfold readDenoMember? DenoNames
  simp only [configured_iff]
  rw [Id.run_bind]
  cases (denoConfig? fs d denoFiles).run with
  | none => simp [readMember?_eq_some_iff]
  | some found =>
      obtain ⟨path, json⟩ := found
      simp only [Option.map_some, Option.some.injEq]
      cases hname : (json.member? "name").bind Json.string? with
      | none =>
          have hnot : ∀ other name, json = other →
              other.member? "name" ≠ some (.string name) := by
            rintro _ name rfl heq
            cases hname.symm.trans (bind_string?_eq_some_iff.2 heq)
          rw [readMember?_eq_some_iff]
          refine ⟨fun h => .inr ⟨hnot, h⟩, fun h => h.elim ?_ And.right⟩
          rintro ⟨other, name, heq, hmember, -⟩
          exact absurd hmember (hnot other name heq)
      | some name =>
          have heq := bind_string?_eq_some_iff.1 hname
          constructor
          · intro h
            exact .inl ⟨json, name, rfl, heq, (Option.some.inj h).symm⟩
          · rintro (⟨_, other, rfl, hother, rfl⟩ | ⟨hnot, -⟩)
            · cases heq.symm.trans hother
              rfl
            · exact absurd heq (hnot json name rfl)

/-! ## Roots -/

/-- The name and the globs of a root that has a manifest. -/
def ManifestDeclares (root : Path) (name : String) (globs : List String) : Prop :=
  ∃ text json, (fs.read (root / "package.json")).run = .ok text ∧ Json.parse? text = some json ∧
    NamesRoot json root name ∧
      (ManifestGlobs json globs ∨ (∀ others, ¬ ManifestGlobs json others) ∧ globs = [])

/-- The name and the globs of a root whose first configuration is one of a workspace. -/
def DenoDeclares (root : Path) (name : String) (globs : List String) : Prop :=
  ∃ json, Configured fs root json ∧ NamesRoot json root name ∧ DenoGlobs json globs

theorem manifestDeclares_iff {root : Path} {name : String} {globs : List String} :
    ManifestDeclares fs root name globs ↔ ∃ json,
      (readJson fs (root / Manifest.fileName)).run = .ok json ∧ name = nameIn json root ∧
        globs = ((json.member? "workspaces").bind Manifest.workspacePatterns?).getD [] := by
  have hglobs : ∀ json : Json,
      (ManifestGlobs json globs ∨ (∀ others, ¬ ManifestGlobs json others) ∧ globs = []) ↔
        globs = ((json.member? "workspaces").bind Manifest.workspacePatterns?).getD [] := by
    intro json
    simp only [manifestGlobs_iff]
    cases (json.member? "workspaces").bind Manifest.workspacePatterns? with
    | none => simp
    | some others => simp [eq_comm]
  simp only [ManifestDeclares, readJson_eq_ok_iff, namesRoot_iff, hglobs]
  constructor
  · exact fun ⟨text, json, htext, hjson, hrest⟩ => ⟨json, ⟨text, htext, hjson⟩, hrest⟩
  · exact fun ⟨json, ⟨text, htext, hjson⟩, hrest⟩ => ⟨text, json, htext, hjson, hrest⟩

theorem denoDeclares_iff {root : Path} {name : String} {globs : List String} :
    DenoDeclares fs root name globs ↔ ∃ json,
      (denoConfig? fs root denoFiles).run.map Prod.snd = some json ∧ name = nameIn json root ∧
        denoPatterns? json = some globs := by
  simp only [DenoDeclares, configured_iff, namesRoot_iff, denoGlobs_iff]

end

end ModuleTrace.Workspace

import ModuleTrace.Proofs.Workspace.Choices
import ModuleTrace.Proofs.Workspace.Declarations

/-!
# Who is a member

The members of a workspace are the named packages in the directories that the patterns of its root
choose, one for each directory and in the order of their paths. What names a package, and where the
patterns stand, is all in which the ways of resolving differ.
-/

namespace ModuleTrace.Workspace

/-! ## Lists of members -/

/-- A list with one package for each chosen directory that holds a named one, in the order of their
paths. -/
structure Lists (reader : Glob.Reader) (fs : FileSystem Id) (root : Path) (globs : List String)
    (Names : Path → Package → Prop) (members : List Package) : Prop where
  ordered : members.Pairwise fun a b => a.path.compare b.path = .lt
  mem_iff : ∀ package, package ∈ members ↔ ∃ names, Reaches fs root names ∧
    Chooses reader globs (Affix.joinWith "/" names) ∧ Names (root.below names) package

theorem lists_filterMap {reader : Glob.Reader} {fs : FileSystem Id} (faithful : fs.Faithful)
    {root : Path} {globs : List String} {directories : List Path}
    (h : (memberDirectories fs root globs reader).run = .ok directories)
    {read : Path → Id (Option Package)} {Names : Path → Package → Prop}
    (hread : ∀ d package, (read d).run = some package ↔ Names d package)
    (hpath : ∀ d package, Names d package → package.path = d) :
    Lists reader fs root globs Names (directories.filterMap fun d => (read d).run) := by
  obtain ⟨hordered, hmem⟩ := memberDirectories_eq_ok faithful h
  constructor
  · rw [List.pairwise_filterMap]
    refine hordered.imp fun {p q} hlt a ha b hb => ?_
    rwa [hpath p a ((hread p a).1 ha), hpath q b ((hread q b).1 hb)]
  · intro package
    rw [List.mem_filterMap]
    constructor
    · rintro ⟨d, hd, hfound⟩
      obtain ⟨names, hreaches, hchooses, rfl⟩ := (hmem d).1 hd
      exact ⟨names, hreaches, hchooses, (hread _ _).1 hfound⟩
    · rintro ⟨names, hreaches, hchooses, hfound⟩
      exact ⟨_, (hmem _).2 ⟨names, hreaches, hchooses, rfl⟩, (hread _ _).2 hfound⟩

instance : Std.TransCmp fun a b : Package => a.path.compare b.path where
  eq_swap {a b} := by
    show a.path.compare b.path = (b.path.compare a.path).swap
    exact Std.OrientedCmp.eq_swap
  isLE_trans {a b c} hab hbc := by
    have htrans : (a.path.compare c.path).isLE = true := Std.TransCmp.isLE_trans hab hbc
    exact htrans

/-- File systems with the same directories below a root, and in these the same files. What the files
beside them in the root itself say may differ. -/
structure SameBelow (fs other : FileSystem Id) (root : Path) : Prop where
  kind : ∀ names, Path.PlainNames names →
    (fs.kind (root.below names)).run = (other.kind (root.below names)).run
  read : ∀ names, Path.PlainNames names → 2 ≤ names.length →
    (fs.read (root.below names)).run = (other.read (root.below names)).run

namespace SameBelow

/-- Trees whose roots hold the same, but for what the files in them say. -/
theorem of_find {tree other top top' : FileTree} {directory root : Path} (hroot : root.text ≠ "")
    (htop : tree.find directory root = .ok top) (htop' : other.find directory root = .ok top')
    (hkind : top.kind = top'.kind)
    (hholds : ∀ name, top.into name = top'.into name ∨ ∃ contents isExecutable contents'
      isExecutable', top.into name = .ok (.file contents isExecutable) ∧
        top'.into name = .ok (.file contents' isExecutable')) :
    SameBelow (tree.fileSystem directory) (other.fileSystem directory) root := by
  have hfind : ∀ names, Path.PlainNames names →
      tree.find directory (root.below names) = names.foldlM FileTree.into top ∧
        other.find directory (root.below names) = names.foldlM FileTree.into top' := by
    intro names hplain
    rw [FileTree.find_below hroot hplain, FileTree.find_below hroot hplain, htop, htop']
    exact ⟨rfl, rfl⟩
  have hrun : ∀ (tree : FileTree) (path : Path),
      ((tree.fileSystem directory).kind path).run
        = (tree.find directory path).map FileTree.kind := fun _ _ => rfl
  -- Behind a name there is one tree, or two files, and behind a file there is nothing.
  constructor
  · intro names hplain
    rw [hrun, hrun, (hfind names hplain).1, (hfind names hplain).2]
    cases names with
    | nil => exact congrArg Except.ok hkind
    | cons name names =>
        rw [List.foldlM_cons, List.foldlM_cons]
        rcases hholds name with heq | ⟨_, _, _, _, hfile, hfile'⟩
        · rw [heq]
        · rw [hfile, hfile']
          cases names <;> rfl
  · intro names hplain hlength
    refine FileTree.read_congr ?_
    rw [(hfind names hplain).1, (hfind names hplain).2]
    obtain _ | ⟨name, _ | ⟨next, names⟩⟩ := names
    · cases hlength
    · exact absurd hlength (by simp)
    · rw [List.foldlM_cons, List.foldlM_cons]
      rcases hholds name with heq | ⟨_, _, _, _, hfile, hfile'⟩
      · rw [heq]
      · rw [hfile, hfile']
        rfl

variable {fs other : FileSystem Id} {root : Path} (same : SameBelow fs other root)

include same

theorem reaches_iff (names : List String) : Reaches fs root names ↔ Reaches other root names := by
  have hroot := same.kind [] (by simp [Path.PlainNames])
  rw [Path.below_nil] at hroot
  constructor
  · exact fun h => ⟨hroot ▸ h.start, h.ne_nil, h.plain, h.unavoided, same.kind names h.plain ▸
      h.directory⟩
  · exact fun h => ⟨hroot ▸ h.start, h.ne_nil, h.plain, h.unavoided, same.kind names h.plain ▸
      h.directory⟩

theorem read_div {names : List String} (hne : names ≠ []) (hplain : Path.PlainNames names)
    {name : String} (hname : Path.Part.Plain (.name name)) :
    (fs.read (root.below names / name)).run = (other.read (root.below names / name)).run := by
  rw [← Path.below_concat]
  refine same.read _ (fun text htext => ?_) ?_
  · rcases List.mem_append.1 htext with htext | htext
    · exact hplain text htext
    · exact List.mem_singleton.1 htext ▸ hname
  · have hpos := List.length_pos_iff.2 hne
    rw [List.length_append, List.length_singleton]
    omega

theorem manifestNames_iff {names : List String} (hne : names ≠ [])
    (hplain : Path.PlainNames names) (package : Package) :
    ManifestNames fs (root.below names) package ↔
      ManifestNames other (root.below names) package := by
  rw [ManifestNames, ManifestNames, same.read_div hne hplain (by decide)]

theorem denoNames_iff {names : List String} (hne : names ≠ []) (hplain : Path.PlainNames names)
    (package : Package) :
    DenoNames fs (root.below names) package ↔ DenoNames other (root.below names) package := by
  have hsays : ∀ name, Path.Part.Plain (.name name) → ∀ json,
      Says fs (root.below names / name) json ↔ Says other (root.below names / name) json := by
    intro name hname json
    rw [Says, Says, same.read_div hne hplain hname]
  have hconfigured : ∀ json,
      Configured fs (root.below names) json ↔ Configured other (root.below names) json := by
    intro json
    simp only [Configured, hsays "deno.json" (by decide), hsays "deno.jsonc" (by decide)]
  simp only [DenoNames, hconfigured, same.manifestNames_iff hne hplain]

end SameBelow

theorem Lists.eq_of_same {reader : Glob.Reader} {fs other : FileSystem Id} {root : Path}
    (same : SameBelow fs other root) {globs others : List String}
    (hglobs : ∀ glob, glob ∈ globs ↔ glob ∈ others)
    {Names Names' : Path → Package → Prop}
    (hnames : ∀ names, names ≠ [] → Path.PlainNames names → ∀ package,
      (Names (root.below names) package ↔ Names' (root.below names) package))
    {members members' : List Package} (h : Lists reader fs root globs Names members)
    (h' : Lists reader other root others Names' members') : members' = members := by
  refine Path.eq_of_pairwise_lt h'.ordered h.ordered fun package => ?_
  rw [h.mem_iff, h'.mem_iff]
  refine exists_congr fun names => ?_
  rw [same.reaches_iff, chooses_congr hglobs]
  refine and_congr_right fun hreaches => and_congr_right fun _ => ?_
  exact (hnames names hreaches.ne_nil hreaches.plain package).symm

/-! ## Resolving -/

section

variable {reader : Glob.Reader}

def listed (reader : Glob.Reader) (fs : FileSystem Id) (root : Path) (name : String)
    (globs : List String) (read : Path → Id (Option Package)) : Except WorkspaceError Workspace :=
  (memberDirectories fs root globs reader).run.map fun directories =>
    ⟨⟨name, root, some globs⟩, directories.filterMap fun d => (read d).run⟩

theorem listed_eq_run (reader : Glob.Reader) (fs : FileSystem Id) (root : Path) (name : String)
    (globs : List String) (read : Path → Id (Option Package)) :
    Id.run (memberDirectories fs root globs reader >>= fun found =>
      match found with
      | .error error => pure (.error error)
      | .ok directories => directories.mapM read >>= fun members =>
          pure (.ok (Workspace.mk ⟨name, root, some globs⟩ (members.filterMap id))))
      = listed reader fs root name globs read := by
  rw [Id.run_bind, listed]
  cases (memberDirectories fs root globs reader).run with
  | error error => rfl
  | ok directories =>
      simp only [Id.run_bind, Id.run_pure, List.idRun_mapM, List.filterMap_map, Except.map]
      rfl

theorem listed_eq_ok_iff {fs : FileSystem Id} {root : Path} {name : String} {globs : List String}
    {read : Path → Id (Option Package)} {w : Workspace} :
    listed reader fs root name globs read = .ok w ↔ ∃ directories,
      (memberDirectories fs root globs reader).run = .ok directories ∧
        w = ⟨⟨name, root, some globs⟩, directories.filterMap fun d => (read d).run⟩ := by
  unfold listed
  cases (memberDirectories fs root globs reader).run <;> simp [Except.map, eq_comm]

/-- A way of resolving: what a root declares as its name and as globs, and what names the package
in a directory. -/
structure ResolvesBy (reader : Glob.Reader) (fs : FileSystem Id) (root : Path)
    (result : Except WorkspaceError Workspace) (Declares : String → List String → Prop)
    (read : Path → Id (Option Package)) (Names : Path → Package → Prop) : Prop where
  resolved_iff : ∀ w, result = .ok w ↔
    ∃ name globs, Declares name globs ∧ listed reader fs root name globs read = .ok w
  declared_eq : ∀ {name globs name' globs'}, Declares name globs → Declares name' globs' →
    globs = globs'
  names_iff : ∀ d package, (read d).run = some package ↔ Names d package
  path_eq : ∀ d package, Names d package → package.path = d

namespace ResolvesBy

variable {fs other : FileSystem Id} {root : Path} {result result' : Except WorkspaceError Workspace}
  {Declares Declares' : String → List String → Prop} {read read' : Path → Id (Option Package)}
  {Names Names' : Path → Package → Prop}

theorem lists (h : ResolvesBy reader fs root result Declares read Names) (faithful : fs.Faithful)
    {w : Workspace} (hw : result = .ok w) :
    ∃ name globs, Declares name globs ∧ w.root = ⟨name, root, some globs⟩ ∧
      Lists reader fs root globs Names w.members := by
  obtain ⟨name, globs, hdeclares, hlisted⟩ := (h.resolved_iff w).1 hw
  obtain ⟨directories, hdirectories, rfl⟩ := listed_eq_ok_iff.1 hlisted
  exact ⟨name, globs, hdeclares, rfl, lists_filterMap faithful hdirectories h.names_iff h.path_eq⟩

/-- Below roots that declare the same globs, in whatever order and however often, are the same
members. -/
theorem stable (h : ResolvesBy reader fs root result Declares read Names)
    (h' : ResolvesBy reader other root result' Declares' read' Names') (faithful : fs.Faithful)
    (faithful' : other.Faithful) (same : SameBelow fs other root)
    (hnames : ∀ names, names ≠ [] → Path.PlainNames names → ∀ package,
      (Names (root.below names) package ↔ Names' (root.below names) package))
    {name name' : String} {globs others : List String}
    (hglobs : ∀ glob, glob ∈ globs ↔ glob ∈ others) (hdeclares : Declares name globs)
    (hdeclares' : Declares' name' others) {w : Workspace} (hw : result = .ok w) :
    ∃ w', result' = .ok w' ∧ w'.members = w.members := by
  obtain ⟨own, found, hfound, hlisted⟩ := (h.resolved_iff w).1 hw
  obtain rfl := h.declared_eq hdeclares hfound
  obtain ⟨directories, hdirectories, rfl⟩ := listed_eq_ok_iff.1 hlisted
  obtain ⟨directories', hdirectories'⟩ :
      ∃ directories', (memberDirectories other root others reader).run = .ok directories' := by
    rw [exists_memberDirectories_iff, ← Selection.exists_parse_congr hglobs]
    exact exists_memberDirectories_iff.1 ⟨directories, hdirectories⟩
  refine ⟨_, (h'.resolved_iff _).2 ⟨name', others, hdeclares',
    listed_eq_ok_iff.2 ⟨directories', hdirectories', rfl⟩⟩, ?_⟩
  exact Lists.eq_of_same same hglobs hnames
    (lists_filterMap faithful hdirectories h.names_iff h.path_eq)
    (lists_filterMap faithful' hdirectories' h'.names_iff h'.path_eq)

end ResolvesBy

variable (reader)

theorem resolveManifest_resolvesBy (fs : FileSystem Id) (root : Path) :
    ResolvesBy reader fs root (resolveManifest fs root reader).run (ManifestDeclares fs root)
      (readMember? fs) (ManifestNames fs) where
  resolved_iff w := by
    simp only [manifestDeclares_iff]
    unfold resolveManifest
    rw [Id.run_bind]
    cases (readJson fs (root / Manifest.fileName)).run with
    | error error => simp
    | ok json =>
        have hrun := listed_eq_run reader fs root (nameIn json root)
          (((json.member? "workspaces").bind Manifest.workspacePatterns?).getD []) (readMember? fs)
        constructor
        · exact fun h => ⟨_, _, ⟨json, rfl, rfl, rfl⟩, hrun ▸ h⟩
        · rintro ⟨_, _, ⟨other, heq, rfl, rfl⟩, h⟩
          cases heq
          exact hrun.trans h
  declared_eq := by
    intro name globs name' globs' h h'
    obtain ⟨json, hjson, -, rfl⟩ := (manifestDeclares_iff fs).1 h
    obtain ⟨json', hjson', -, rfl⟩ := (manifestDeclares_iff fs).1 h'
    cases hjson.symm.trans hjson'
    rfl
  names_iff _ _ := readMember?_eq_some_iff fs
  path_eq _ _ h := by
    obtain ⟨_, _, -, -, -, hpath, -⟩ := h
    exact hpath

theorem resolveDeno_resolvesBy (fs : FileSystem Id) (root : Path) :
    ResolvesBy reader fs root (resolveDeno fs root reader).run (DenoDeclares fs root)
      (readDenoMember? fs) (DenoNames fs) where
  resolved_iff w := by
    simp only [denoDeclares_iff]
    unfold resolveDeno
    rw [Id.run_bind]
    cases (denoConfig? fs root denoFiles).run with
    | none => simp
    | some found =>
        obtain ⟨path, json⟩ := found
        simp only [Option.map_some, Option.some.injEq]
        cases hglobs : denoPatterns? json with
        | none =>
            constructor
            · intro h
              cases h
            · rintro ⟨name, globs, ⟨_, rfl, -, hother⟩, -⟩
              cases hglobs.symm.trans hother
        | some globs =>
            have hrun := listed_eq_run reader fs root (nameIn json root) globs
              (readDenoMember? fs)
            constructor
            · exact fun h => ⟨_, globs, ⟨json, rfl, rfl, hglobs⟩, hrun ▸ h⟩
            · rintro ⟨_, others, ⟨_, rfl, rfl, hother⟩, h⟩
              cases hglobs.symm.trans hother
              exact hrun.trans h
  declared_eq := by
    intro name globs name' globs' h h'
    obtain ⟨json, hjson, -, hglobs⟩ := (denoDeclares_iff fs).1 h
    obtain ⟨json', hjson', -, hglobs'⟩ := (denoDeclares_iff fs).1 h'
    cases hjson.symm.trans hjson'
    exact Option.some.inj (hglobs.symm.trans hglobs')
  names_iff _ _ := readDenoMember?_eq_some_iff fs
  path_eq _ _ := DenoNames.path_eq

/-- In every tree and whatever globs match, the members of a workspace are the named packages below
the root that its globs choose, in the order of their paths and each once. Roots that declare the
same globs, in whatever order and however often, have the same members. -/
theorem resolve_lists_members (tree : FileTree) (hplain : tree.namesPlainly = true)
    (honce : tree.namesOnce = true) (directory root : Path) :
    (∀ w, (resolveManifest (tree.fileSystem directory) root reader).run = .ok w → ∃ name globs,
      ManifestDeclares (tree.fileSystem directory) root name globs ∧
        w.root = ⟨name, root, some globs⟩ ∧ Lists reader (tree.fileSystem directory) root globs
          (ManifestNames (tree.fileSystem directory)) w.members) ∧
    (∀ w, (resolveDeno (tree.fileSystem directory) root reader).run = .ok w → ∃ name globs,
      DenoDeclares (tree.fileSystem directory) root name globs ∧
        w.root = ⟨name, root, some globs⟩ ∧ Lists reader (tree.fileSystem directory) root globs
          (DenoNames (tree.fileSystem directory)) w.members) ∧
    ∀ other : FileTree, other.namesPlainly = true → other.namesOnce = true →
      SameBelow (tree.fileSystem directory) (other.fileSystem directory) root →
      ∀ name name' globs others, (∀ glob, glob ∈ globs ↔ glob ∈ others) → ∀ w,
        (ManifestDeclares (tree.fileSystem directory) root name globs →
          ManifestDeclares (other.fileSystem directory) root name' others →
          (resolveManifest (tree.fileSystem directory) root reader).run = .ok w → ∃ w',
            (resolveManifest (other.fileSystem directory) root reader).run = .ok w' ∧
              w'.members = w.members) ∧
        (DenoDeclares (tree.fileSystem directory) root name globs →
          DenoDeclares (other.fileSystem directory) root name' others →
          (resolveDeno (tree.fileSystem directory) root reader).run = .ok w → ∃ w',
            (resolveDeno (other.fileSystem directory) root reader).run = .ok w' ∧
              w'.members = w.members) := by
  have faithful := FileTree.fileSystem_faithful hplain honce directory
  have hmanifest := resolveManifest_resolvesBy reader (tree.fileSystem directory) root
  have hdeno := resolveDeno_resolvesBy reader (tree.fileSystem directory) root
  refine ⟨fun w => hmanifest.lists faithful, fun w => hdeno.lists faithful, ?_⟩
  intro other hplain' honce' same name name' globs others hglobs w
  have faithful' := FileTree.fileSystem_faithful hplain' honce' directory
  constructor
  · intro hdeclares hdeclares' hw
    exact hmanifest.stable (resolveManifest_resolvesBy reader _ root) faithful faithful' same
      (fun _ hne hnames => same.manifestNames_iff hne hnames) hglobs hdeclares hdeclares' hw
  · intro hdeclares hdeclares' hw
    exact hdeno.stable (resolveDeno_resolvesBy reader _ root) faithful faithful' same
      (fun _ hne hnames => same.denoNames_iff hne hnames) hglobs hdeclares hdeclares' hw

end

/-- A workspace of two managers, with a package that is taken out again and one below what is
passed by. -/
def sharedTree (globs : String) : FileTree :=
  .directory [("p", .directory [
    ("package.json", .file (.ok ("\x7b\"workspaces\":" ++ globs ++ "\x7d")) false),
    ("deno.json", .file (.ok ("\x7b\"workspace\":\x7b\"members\":" ++ globs ++ "\x7d\x7d")) false),
    ("lib", .directory [
      ("b", .directory [("package.json", .file (.ok "\x7b\"name\":\"b\"\x7d") false)]),
      ("a", .directory [("package.json", .file (.ok "\x7b\"name\":\"a\"\x7d") false),
        ("deno.json", .file (.ok "\x7b\"name\":\"x\"\x7d") false)]),
      ("node_modules", .directory [
        ("package.json", .file (.ok "\x7b\"name\":\"c\"\x7d") false)])])])]

def sharedFiles : FileSystem Id :=
  (sharedTree "[\"./lib/*/\",\"!./lib/b/\"]").fileSystem ⟨"/"⟩

def repeatedFiles : FileSystem Id :=
  (sharedTree "[\"!./lib/b/\",\"./lib/*/\",\"./lib/*/\"]").fileSystem ⟨"/"⟩

theorem exists_of_members {result : Except WorkspaceError Workspace} {members : List Package}
    {globs : List String} (h : result.toOption.map (fun w => (w.members, w.root.patterns))
      = some (members, some globs)) :
    ∃ w, result = .ok w ∧ w.members = members ∧ w.root.patterns = some globs := by
  cases result with
  | error error => cases h
  | ok w =>
      obtain ⟨hmembers, hglobs⟩ := Prod.mk.inj (Option.some.inj h)
      exact ⟨w, rfl, hmembers, hglobs⟩

theorem sameBelow_sharedFiles : SameBelow sharedFiles repeatedFiles ⟨"/p"⟩ := by
  refine SameBelow.of_find (by decide) rfl rfl rfl fun name => ?_
  by_cases hmanifest : name = "package.json"
  · subst hmanifest
    exact .inr ⟨_, _, _, _, rfl, rfl⟩
  · by_cases hdeno : name = "deno.json"
    · subst hdeno
      exact .inr ⟨_, _, _, _, rfl, rfl⟩
    · have hother : (name == "package.json") = false := beq_false_of_ne hmanifest
      have hother' : (name == "deno.json") = false := beq_false_of_ne hdeno
      exact .inl (by simp only [FileTree.into, List.lookup_cons, hother, hother'])

theorem resolve_lists_members_shared : ∃ w w' v,
    (resolveManifest sharedFiles ⟨"/p"⟩).run = .ok w ∧
      (resolveManifest repeatedFiles ⟨"/p"⟩).run = .ok w' ∧
      (resolveDeno sharedFiles ⟨"/p"⟩).run = .ok v ∧
      w.members = [⟨"a", ⟨"/p/lib/a"⟩, none⟩] ∧ w'.members = w.members ∧
      v.members = [⟨"x", ⟨"/p/lib/a"⟩, none⟩] ∧
      Lists Glob.reader sharedFiles ⟨"/p"⟩ ["./lib/*/", "!./lib/b/"] (ManifestNames sharedFiles)
        w.members ∧
      Lists Glob.reader sharedFiles ⟨"/p"⟩ ["./lib/*/", "!./lib/b/"] (DenoNames sharedFiles)
        v.members := by
  obtain ⟨w, hresolved, hmembers, hglobs⟩ := exists_of_members
    (show (resolveManifest sharedFiles ⟨"/p"⟩).run.toOption.map _
      = some ([⟨"a", ⟨"/p/lib/a"⟩, none⟩], some ["./lib/*/", "!./lib/b/"]) by decide +kernel)
  obtain ⟨w', hresolved', -, hglobs'⟩ := exists_of_members
    (show (resolveManifest repeatedFiles ⟨"/p"⟩).run.toOption.map _
      = some ([⟨"a", ⟨"/p/lib/a"⟩, none⟩], some ["!./lib/b/", "./lib/*/", "./lib/*/"]) by
        decide +kernel)
  obtain ⟨v, hdeno, hnamed, hlisted⟩ := exists_of_members
    (show (resolveDeno sharedFiles ⟨"/p"⟩).run.toOption.map _
      = some ([⟨"x", ⟨"/p/lib/a"⟩, none⟩], some ["./lib/*/", "!./lib/b/"]) by decide +kernel)
  obtain ⟨hmanifest, hconfigured, hstable⟩ := resolve_lists_members Glob.reader
    (sharedTree "[\"./lib/*/\",\"!./lib/b/\"]") (by decide +kernel) (by decide +kernel)
    ⟨"/"⟩ ⟨"/p"⟩
  obtain ⟨hmanifest', -⟩ := resolve_lists_members Glob.reader
    (sharedTree "[\"!./lib/b/\",\"./lib/*/\",\"./lib/*/\"]") (by decide +kernel)
    (by decide +kernel) ⟨"/"⟩ ⟨"/p"⟩
  obtain ⟨name, globs, hdeclares, hroot, hlists⟩ := hmanifest w hresolved
  obtain ⟨name', globs', hdeclares', hroot', -⟩ := hmanifest' w' hresolved'
  obtain ⟨own, others, -, hown, hlists'⟩ := hconfigured v hdeno
  obtain rfl : globs = ["./lib/*/", "!./lib/b/"] := by simpa [hroot] using hglobs
  obtain rfl : globs' = ["!./lib/b/", "./lib/*/", "./lib/*/"] := by simpa [hroot'] using hglobs'
  obtain rfl : others = ["./lib/*/", "!./lib/b/"] := by simpa [hown] using hlisted
  obtain ⟨found, hfound, hsame⟩ := (hstable _ (by decide +kernel) (by decide +kernel)
    sameBelow_sharedFiles name name' _ _ (by simp [or_comm]) w).1 hdeclares hdeclares' hresolved
  obtain rfl : found = w' := Except.ok.inj (hfound.symm.trans hresolved')
  exact ⟨w, found, v, hresolved, hfound, hdeno, hmembers, hsame, hnamed, hlists, hlists'⟩

end ModuleTrace.Workspace

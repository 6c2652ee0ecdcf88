import ModuleTrace.FileSystem.Tree
import ModuleTrace.FileSystem.Walk
import ModuleTrace.Proofs.Memory.Ensures
import ModuleTrace.Proofs.Path.Clean

/-!
# Where walks go

A walk puts the names of entries behind the path that it starts from, one by one. All that it
visits therefore lies in that path as it is written, with steps up where that has some.
-/

namespace ModuleTrace

namespace Path

/-- A path is another one with some names behind it. -/
def LiesIn (p base : Path) : Prop :=
  ∃ names : List Part, (∀ part ∈ names, part.Plain) ∧ p.parts = base.parts ++ names

namespace LiesIn

variable {p q base : Path}

theorem refl (p : Path) : p.LiesIn p :=
  ⟨[], by simp, by simp⟩

theorem trans (hp : p.LiesIn q) (hq : q.LiesIn base) : p.LiesIn base := by
  obtain ⟨names, hnames, hp⟩ := hp
  obtain ⟨outer, houter, hq⟩ := hq
  refine ⟨outer ++ names, fun part hpart => ?_, by rw [hp, hq, List.append_assoc]⟩
  exact (List.mem_append.1 hpart).elim (houter part) (hnames part)

theorem div (p : Path) {name : String} (hname : Part.Plain (.name name)) : (p / name).LiesIn p :=
  ⟨[.name name], by simpa using hname, parts_div_plain p hname⟩

theorem isAbsolute (h : p.LiesIn base) (hbase : base.isAbsolute = true) : p.isAbsolute = true := by
  obtain ⟨names, -, hp⟩ := h
  rw [isAbsolute_iff_head?] at hbase ⊢
  rw [hp, List.head?_append, hbase]
  rfl

/-- Names lead nowhere else. -/
theorem clean (h : p.LiesIn base) (hbase : base.Clean) : p.Clean := by
  refine ⟨(isAbsolute_iff_head? p).1 (h.isAbsolute hbase.isAbsolute), fun hup => ?_⟩
  obtain ⟨names, hnames, hp⟩ := h
  rw [hp] at hup
  rcases List.mem_append.1 hup with hup | hup
  · exact hbase.no_up hup
  · obtain ⟨text, hname, -⟩ := hnames _ hup
    cases hname

end LiesIn

end Path

/-! ## Walks -/

def Visit.path : Visit → Path
  | .entry path _ => path
  | .failure path _ => path

theorem Visit.exists_of_mem_paths {kind : EntryKind} {visits : List Visit} {path : Path}
    (h : path ∈ Visit.paths kind visits) : ∃ visit ∈ visits, visit.path = path := by
  obtain ⟨visit, hvisit, hpath⟩ := List.mem_filterMap.1 h
  refine ⟨visit, hvisit, ?_⟩
  cases visit with
  | entry place found =>
      simp only at hpath
      split at hpath
      · exact Option.some.inj hpath
      · cases hpath
  | failure place error => cases hpath

/-- The paths of a walk lie in what it starts from. -/
theorem Visit.paths_liesIn {kind : EntryKind} {visits : List Visit} {root : Path}
    (h : ∀ visit ∈ visits, visit.path.LiesIn root) :
    ∀ path ∈ Visit.paths kind visits, path.LiesIn root := by
  intro path hpath
  obtain ⟨visit, hvisit, rfl⟩ := Visit.exists_of_mem_paths hpath
  exact h visit hvisit

namespace FileSystem

variable {m : Type → Type} [Monad m] [LawfulMonad m]

/-- The entries of a directory have names that are parts of paths, none a dot or two. -/
def NamesPlainly (fs : FileSystem m) : Prop :=
  ∀ directory, Always (fun found => ∀ entries, found = .ok entries →
    ∀ entry ∈ entries, Path.Part.Plain (.name entry.1)) (fs.entries directory)

variable {fs : FileSystem m} (hnames : fs.NamesPlainly) {σ : Type} (guide : Guide m σ)

include hnames

theorem walkBelow_liesIn (fuel : Nat) (around : σ) (directory : Path) :
    Always (fun visits => ∀ visit ∈ visits, visit.path.LiesIn directory)
      (fs.walkBelow guide fuel around directory) := by
  induction fuel generalizing around directory with
  | zero => exact .pure (by simp)
  | succ fuel ih =>
      unfold walkBelow
      refine (hnames directory).bind fun found hfound => ?_
      cases found with
      | error error => exact .pure (by simpa [Visit.path] using .refl directory)
      | ok entries =>
          refine (Always.top _).bind fun here _ => ?_
          refine (Always.forall_mapM (p := fun visits : List Visit =>
            ∀ visit ∈ visits, visit.path.LiesIn directory) fun entry hentry => ?_).bind
              fun visits hvisits => .pure ?_
          · have hplain := hfound entries rfl entry (List.mem_of_mem_filter hentry)
            have hwhole : ∀ below : List Visit,
                (∀ visit ∈ below, visit.path.LiesIn (directory / entry.1)) →
                ∀ visit ∈ Visit.entry (directory / entry.1) entry.2 :: below,
                  visit.path.LiesIn directory := by
              intro below hbelow visit hvisit
              rcases List.mem_cons.1 hvisit with rfl | hvisit
              · exact .div directory hplain
              · exact (hbelow visit hvisit).trans (.div directory hplain)
            simp only [pure_bind]
            split
            · exact (ih here _).bind fun below hbelow => .pure (hwhole below hbelow)
            · exact .pure (hwhole [] (by simp))
          · intro visit hvisit
            obtain ⟨below, hbelow, hvisit⟩ := List.mem_flatten.1 hvisit
            exact hvisits below hbelow visit hvisit

theorem walk_liesIn (start : σ) (root : Path) :
    Always (fun visits => ∀ visit ∈ visits, visit.path.LiesIn root)
      (fs.walk guide start root) := by
  unfold walk
  refine (Always.top _).bind fun kind _ => ?_
  have hroot : ∀ visit : Visit, visit.path = root → visit.path.LiesIn root :=
    fun visit hvisit => hvisit ▸ .refl _
  split
  · exact .pure fun visit hvisit => hroot visit (by rw [List.mem_singleton.1 hvisit]; rfl)
  · refine (walkBelow_liesIn hnames guide _ start root).bind fun below hbelow =>
      .pure fun visit hvisit => ?_
    rcases List.mem_cons.1 hvisit with rfl | hvisit
    · exact hroot _ rfl
    · exact hbelow visit hvisit
  · exact .pure fun visit hvisit => hroot visit (by rw [List.mem_singleton.1 hvisit]; rfl)

end FileSystem

/-! ## Trees whose names are plain -/

namespace FileTree

instance (name : String) : Decidable (Path.Part.Plain (.name name)) :=
  decidable_of_iff ('/' ∉ name.toList ∧ Path.Part.ofPiece name.toList = some (.name name))
    ⟨fun h => ⟨name, rfl, h⟩, fun ⟨_, heq, h⟩ => by cases heq; exact h⟩

/-- Every name in a tree is a part of a path. -/
def namesPlainly : FileTree → Bool
  | .file _ _ => true
  | .directory children => allNamePlainly children
where
  allNamePlainly : List (String × FileTree) → Bool
    | [] => true
    | entry :: rest =>
        decide (Path.Part.Plain (.name entry.1)) && namesPlainly entry.2 && allNamePlainly rest

theorem allNamePlainly_iff (children : List (String × FileTree)) :
    namesPlainly.allNamePlainly children = true ↔
      ∀ entry ∈ children, Path.Part.Plain (.name entry.1) ∧ entry.2.namesPlainly = true := by
  induction children with
  | nil => simp [namesPlainly.allNamePlainly]
  | cons entry rest ih => simp [namesPlainly.allNamePlainly, ih, and_assoc]

theorem namesPlainly_directory (children : List (String × FileTree)) :
    (FileTree.directory children).namesPlainly = true ↔
      ∀ entry ∈ children, Path.Part.Plain (.name entry.1) ∧ entry.2.namesPlainly = true := by
  rw [← allNamePlainly_iff, namesPlainly]

/-- Properties of a directory that all that lies in it has, too. -/
def Inherited (P : FileTree → Prop) : Prop :=
  ∀ children, P (.directory children) → ∀ entry ∈ children, P entry.2

theorem inherited_namesPlainly : Inherited fun tree => tree.namesPlainly = true :=
  fun children h entry hentry => ((namesPlainly_directory children).1 h entry hentry).2

/-- A place in a tree, with a property of what is there and of all that this lies in. -/
def Everywhere (P : FileTree → Prop) (place : FileTree × List FileTree) : Prop :=
  ∀ tree ∈ place.1 :: place.2, P tree

variable {P : FileTree → Prop} (hP : Inherited P)

include hP

theorem step_everywhere {place next : FileTree × List FileTree} {piece : List Char}
    (h : Everywhere P place) (hstep : step place piece = .ok next) : Everywhere P next := by
  obtain ⟨tree, around⟩ := place
  cases tree with
  | file contents isExecutable => cases hstep
  | directory children =>
      simp only [step] at hstep
      split at hstep
      · cases hstep
        exact h
      · split at hstep <;> cases hstep
        · exact h
        · exact fun tree htree => h tree (List.mem_cons_of_mem _ htree)
      · split at hstep <;> cases hstep
        rename_i child hchild
        obtain ⟨before, after, rfl, -⟩ := List.lookup_eq_some_iff.1 hchild
        intro tree htree
        rcases List.mem_cons.1 htree with rfl | htree
        · exact hP _ (h _ List.mem_cons_self) _ (List.mem_append_right before List.mem_cons_self)
        · exact h tree htree

theorem foldlM_step_everywhere {pieces : List (List Char)} {place last : FileTree × List FileTree}
    (h : Everywhere P place) (hfollow : pieces.foldlM step place = .ok last) :
    Everywhere P last := by
  induction pieces generalizing place with
  | nil =>
      cases hfollow
      exact h
  | cons piece rest ih =>
      rw [List.foldlM_cons] at hfollow
      cases hstep : step place piece with
      | error error => rw [hstep] at hfollow; cases hfollow
      | ok next =>
          rw [hstep] at hfollow
          exact ih (step_everywhere hP h hstep) hfollow

theorem follow_everywhere {root : FileTree} (hroot : P root) {here last : FileTree × List FileTree}
    (hhere : Everywhere P here) {path : Path} (hfollow : root.follow here path = .ok last) :
    Everywhere P last := by
  have hstart : Everywhere P (root, []) := by simpa [Everywhere] using hroot
  unfold follow at hfollow
  split at hfollow
  · cases hfollow
  · split at hfollow
    · exact foldlM_step_everywhere hP hstart hfollow
    · exact foldlM_step_everywhere hP hhere hfollow

omit hP

/-- The place in which relative paths start. -/
def startIn (root : FileTree) (directory : Path) : FileTree × List FileTree :=
  ((root.follow (root, []) directory).toOption).getD (root, [])

def find (root : FileTree) (directory path : Path) : Except ReadError FileTree :=
  (root.follow (root.startIn directory) path).map Prod.fst

include hP

/-- What is found at a path has what the whole tree has. -/
theorem of_find {root tree : FileTree} (hroot : P root) {directory path : Path}
    (hfind : root.find directory path = .ok tree) : P tree := by
  have hstart : Everywhere P (root, []) := by simpa [Everywhere] using hroot
  have hhere : Everywhere P (root.startIn directory) := by
    unfold startIn
    cases hdirectory : root.follow (root, []) directory with
    | error error => exact hstart
    | ok place => exact follow_everywhere hP hroot hstart hdirectory
  unfold find at hfind
  cases hfollow : root.follow (root.startIn directory) path with
  | error error =>
      rw [hfollow] at hfind
      cases hfind
  | ok place =>
      rw [hfollow] at hfind
      cases hfind
      exact follow_everywhere hP hroot hhere hfollow _ List.mem_cons_self

omit hP

theorem entries_eq_ok_iff {root : FileTree} {directory path : Path}
    {found : List (String × EntryKind)} :
    ((root.fileSystem directory).entries path).run = .ok found ↔ ∃ children,
      root.find directory path = .ok (.directory children) ∧
        found = children.map fun entry => (entry.1, entry.2.kind) := by
  simp only [fileSystem, find, startIn, Id.run]
  generalize (root.follow _ path).map Prod.fst = result
  cases result with
  | error error => simp
  | ok tree => cases tree <;> simp [eq_comm]

/-- What is read depends on what is found only. -/
theorem read_congr {tree other : FileTree} {directory path : Path}
    (h : tree.find directory path = other.find directory path) :
    ((tree.fileSystem directory).read path).run = ((other.fileSystem directory).read path).run := by
  simp only [fileSystem, find, startIn] at h ⊢
  rw [h]

theorem fileSystem_namesPlainly {root : FileTree} (hroot : root.namesPlainly = true)
    (directory : Path) : (root.fileSystem directory).NamesPlainly := by
  intro path
  rw [always_id]
  intro entries hentries entry hentry
  obtain ⟨children, hfind, rfl⟩ := entries_eq_ok_iff.1 hentries
  obtain ⟨child, hchild, rfl⟩ := List.mem_map.1 hentry
  have htree := of_find inherited_namesPlainly hroot hfind
  exact ((namesPlainly_directory children).1 htree child hchild).1

end FileTree

end ModuleTrace

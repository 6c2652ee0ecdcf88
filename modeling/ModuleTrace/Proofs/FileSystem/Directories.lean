import Mathlib.Data.List.Nodup
import ModuleTrace.Proofs.FileSystem.Walks
import ModuleTrace.Proofs.Path.Descent

/-!
# Directories below a directory

A walk that passes by some names comes to each directory that can be reached by other names, and
to each once. This takes no more than that a file system lists under a directory what it finds
there, each name once, as one does that is made of a tree.
-/

namespace ModuleTrace

namespace FileTree

/-! ## Trees in which every name stands once -/

def namesOnce : FileTree → Bool
  | .file _ _ => true
  | .directory children => decide (children.map Prod.fst).Nodup && allNameOnce children
where
  allNameOnce : List (String × FileTree) → Bool
    | [] => true
    | entry :: rest => namesOnce entry.2 && allNameOnce rest

theorem allNameOnce_iff (children : List (String × FileTree)) :
    namesOnce.allNameOnce children = true ↔ ∀ entry ∈ children, entry.2.namesOnce = true := by
  induction children with
  | nil => simp [namesOnce.allNameOnce]
  | cons entry rest ih => simp [namesOnce.allNameOnce, ih]

theorem namesOnce_directory (children : List (String × FileTree)) :
    (FileTree.directory children).namesOnce = true ↔
      (children.map Prod.fst).Nodup ∧ ∀ entry ∈ children, entry.2.namesOnce = true := by
  rw [← allNameOnce_iff, namesOnce, Bool.and_eq_true, decide_eq_true_iff]

theorem inherited_namesOnce : Inherited fun tree => tree.namesOnce = true :=
  fun children h entry hentry => ((namesOnce_directory children).1 h).2 entry hentry

theorem size_lt_of_mem {children : List (String × FileTree)} {entry : String × FileTree}
    (h : entry ∈ children) : entry.2.size < (FileTree.directory children).size := by
  have hall : entry.2.size ≤ size.sizeAll children := by
    induction children with
    | nil => cases h
    | cons first rest ih =>
        rw [size.sizeAll]
        rcases List.mem_cons.1 h with rfl | h
        · omega
        · have := ih h
          omega
  rw [size]
  omega

theorem inherited_size_le (n : Nat) : Inherited fun tree => tree.size ≤ n :=
  fun _ h _ hentry => Nat.le_trans (Nat.le_of_lt (size_lt_of_mem hentry)) h

/-! ## One more name -/

/-- A step that a slash stands for asks for a directory, which a step to a name does anyway. -/
theorem step_blank (place : FileTree × List FileTree) (piece : List Char) :
    (step place [] >>= fun place => step place piece) = step place piece := by
  obtain ⟨tree, around⟩ := place
  cases tree <;> rfl

theorem foldlM_step_concat {front pieces : List (List Char)}
    (h : pieces = front ∨ pieces = front ++ [[]]) (place : FileTree × List FileTree)
    (piece : List Char) :
    (front ++ [piece]).foldlM step place
      = pieces.foldlM step place >>= fun place => step place piece := by
  have hone : ∀ (place : FileTree × List FileTree) (piece : List Char),
      [piece].foldlM step place = step place piece := fun place piece => by
    rw [List.foldlM_cons]
    exact bind_pure _
  rcases h with rfl | rfl
  · rw [List.foldlM_append]
    exact bind_congr fun place => hone place piece
  · rw [List.foldlM_append, List.foldlM_append, bind_assoc]
    exact bind_congr fun place => by rw [hone, hone, step_blank]

theorem follow_div (root : FileTree) (here : FileTree × List FileTree) {path : Path}
    (hpath : path.text ≠ "") {name : String} (hname : Path.Part.Plain (.name name)) :
    root.follow here (path / name)
      = root.follow here path >>= fun place => step place name.toList := by
  obtain ⟨front, hfront, hpieces, hdiv⟩ := Path.splitSlashes_div hpath
  have hempty : path.text.isEmpty = false := by simpa using hpath
  have hempty' : (path / name).text.isEmpty = false := by
    simpa using path.text_div_ne hname
  unfold follow
  rw [hempty, hempty', Path.isAbsolute_div_eq hpath hname, hdiv name hname]
  cases path.isAbsolute with
  | false => exact foldlM_step_concat hpieces here name.toList
  | true =>
      have htail : (Path.splitSlashes path.text.toList).tail = front.tail ∨
          (Path.splitSlashes path.text.toList).tail = front.tail ++ [[]] := by
        rcases hpieces with hpieces | hpieces <;> rw [hpieces]
        · exact .inl rfl
        · exact .inr (List.tail_append_of_ne_nil hfront)
      simp only [if_true, Bool.false_eq_true, if_false]
      rw [List.tail_append_of_ne_nil hfront]
      exact foldlM_step_concat htail (root, []) name.toList

def into (tree : FileTree) (name : String) : Except ReadError FileTree :=
  match tree with
  | .file _ _ => .error .notDirectory
  | .directory children =>
      match children.lookup name with
      | none => .error .notFound
      | some child => .ok child

theorem into_eq_ok_iff {tree child : FileTree} {name : String} :
    tree.into name = .ok child ↔
      ∃ children, tree = .directory children ∧ children.lookup name = some child := by
  cases tree with
  | file contents isExecutable => simp [into]
  | directory children =>
      simp only [into, FileTree.directory.injEq, exists_eq_left']
      cases children.lookup name <;> simp

theorem map_fst_step (place : FileTree × List FileTree) {name : String}
    (hname : Path.Part.Plain (.name name)) :
    (step place name.toList).map Prod.fst = place.1.into name := by
  obtain ⟨tree, around⟩ := place
  obtain ⟨text, heq, -, hpiece⟩ := hname
  cases heq
  cases tree with
  | file contents isExecutable => rfl
  | directory children =>
      simp only [step, into, hpiece, Path.Part.text]
      cases children.lookup name <;> rfl

section

variable {root : FileTree} {directory d : Path}

/-- What is found behind one more name depends on what is found before it, and on nothing around
that. -/
theorem find_div (hd : d.text ≠ "") {name : String} (hname : Path.Part.Plain (.name name)) :
    root.find directory (d / name) = root.find directory d >>= fun tree => tree.into name := by
  rw [find, find, follow_div root _ hd hname]
  cases root.follow (root.startIn directory) d with
  | error error => rfl
  | ok place => exact map_fst_step place hname

theorem find_below (hd : d.text ≠ "") {names : List String} (hplain : Path.PlainNames names) :
    root.find directory (d.below names)
      = root.find directory d >>= fun tree => names.foldlM into tree := by
  induction names generalizing d with
  | nil => exact (bind_pure _).symm
  | cons name names ih =>
      obtain ⟨hname, hnames⟩ := Path.PlainNames.cons_iff.1 hplain
      rw [Path.below_cons, ih (d.text_div_ne hname) hnames, find_div hd hname, bind_assoc]
      exact bind_congr fun tree => List.foldlM_cons.symm

theorem find_div_eq_ok_iff (hd : d.text ≠ "") {name : String}
    (hname : Path.Part.Plain (.name name)) {child : FileTree} :
    root.find directory (d / name) = .ok child ↔ ∃ children,
      root.find directory d = .ok (.directory children) ∧ children.lookup name = some child := by
  rw [find_div hd hname]
  cases root.find directory d with
  | error error => simp [bind, Except.bind]
  | ok tree =>
      show tree.into name = .ok child ↔ _
      rw [into_eq_ok_iff]
      simp

theorem text_ne_of_find {tree : FileTree} (h : root.find directory d = .ok tree) :
    d.text ≠ "" := by
  intro hempty
  rw [find, follow, hempty] at h
  cases h

/-- Each name leads to a smaller tree. -/
theorem size_foldlM_into {tree last : FileTree} {names : List String}
    (h : names.foldlM into tree = .ok last) : last.size + names.length ≤ tree.size := by
  induction names generalizing tree with
  | nil =>
      cases h
      exact Nat.le_refl _
  | cons name names ih =>
      rw [List.foldlM_cons] at h
      cases hchild : tree.into name with
      | error error =>
          rw [hchild] at h
          cases h
      | ok child =>
          rw [hchild] at h
          obtain ⟨children, rfl, hlookup⟩ := into_eq_ok_iff.1 hchild
          obtain ⟨before, after, rfl, -⟩ := List.lookup_eq_some_iff.1 hlookup
          have hmem : (name, child) ∈ before ++ (name, child) :: after := by simp
          have hsmaller : child.size < _ := size_lt_of_mem hmem
          have hrest := ih h
          rw [List.length_cons]
          omega

end

end FileTree

/-! ## File systems that list what they find -/

/-- What a directory lists is what is found behind its path, each name once, and no directory lies
deeper than the extent of the file system. -/
structure FileSystem.Faithful (fs : FileSystem Id) : Prop where
  text_ne : ∀ (d : Path) kind, (fs.kind d).run = .ok kind → d.text ≠ ""
  listed : ∀ d, (fs.kind d).run = .ok .directory ↔ ∃ found, (fs.entries d).run = .ok found
  plain : ∀ d found, (fs.entries d).run = .ok found →
    ∀ entry ∈ found, Path.Part.Plain (.name entry.1)
  once : ∀ d found, (fs.entries d).run = .ok found → (found.map Prod.fst).Nodup
  found_iff : ∀ d found name kind, (fs.entries d).run = .ok found →
    Path.Part.Plain (.name name) →
    ((name, kind) ∈ found ↔ (fs.kind (d / name)).run = .ok kind)
  above : ∀ (d : Path) name kind, d.text ≠ "" → Path.Part.Plain (.name name) →
    (fs.kind (d / name)).run = .ok kind → (fs.kind d).run = .ok .directory
  bounded : ∀ (d : Path) names, d.text ≠ "" → Path.PlainNames names →
    (fs.kind (d.below names)).run = .ok .directory → names.length ≤ fs.extent

namespace FileTree

theorem kind_eq_ok_iff {root : FileTree} {directory path : Path} {kind : EntryKind} :
    ((root.fileSystem directory).kind path).run = .ok kind ↔
      ∃ tree, root.find directory path = .ok tree ∧ tree.kind = kind := by
  show (root.find directory path).map FileTree.kind = _ ↔ _
  cases root.find directory path <;> simp [Except.map]

theorem lookup_eq_some_iff_mem {children : List (String × FileTree)}
    (honce : (children.map Prod.fst).Nodup) {name : String} {child : FileTree} :
    children.lookup name = some child ↔ (name, child) ∈ children := by
  constructor
  · intro h
    obtain ⟨before, after, rfl, -⟩ := List.lookup_eq_some_iff.1 h
    simp
  · intro h
    obtain ⟨before, after, rfl⟩ := List.append_of_mem h
    refine List.lookup_eq_some_iff.2 ⟨before, after, rfl, fun entry hentry => ?_⟩
    rw [List.map_append, List.nodup_append] at honce
    have hne := honce.2.2 entry.1 (List.mem_map_of_mem hentry) name (by simp)
    exact bne_iff_ne.2 hne.symm

theorem fileSystem_faithful {root : FileTree} (hplain : root.namesPlainly = true)
    (honce : root.namesOnce = true) (directory : Path) :
    (root.fileSystem directory).Faithful where
  text_ne d kind hkind := by
    obtain ⟨tree, hfind, -⟩ := kind_eq_ok_iff.1 hkind
    exact text_ne_of_find hfind
  listed d := by
    rw [kind_eq_ok_iff]
    constructor
    · rintro ⟨tree, hfind, hkind⟩
      cases tree with
      | file contents isExecutable => cases hkind
      | directory children => exact ⟨_, entries_eq_ok_iff.2 ⟨children, hfind, rfl⟩⟩
    · rintro ⟨found, hfound⟩
      obtain ⟨children, hfind, -⟩ := entries_eq_ok_iff.1 hfound
      exact ⟨_, hfind, rfl⟩
  plain d found hfound entry hentry := by
    obtain ⟨children, hfind, rfl⟩ := entries_eq_ok_iff.1 hfound
    have hnames := of_find inherited_namesPlainly hplain hfind
    obtain ⟨child, hchild, rfl⟩ := List.mem_map.1 hentry
    exact ((namesPlainly_directory children).1 hnames child hchild).1
  once d found hfound := by
    obtain ⟨children, hfind, rfl⟩ := entries_eq_ok_iff.1 hfound
    have hnames := of_find inherited_namesOnce honce hfind
    rw [List.map_map]
    exact ((namesOnce_directory children).1 hnames).1
  found_iff d found name kind hfound hname := by
    obtain ⟨children, hfind, rfl⟩ := entries_eq_ok_iff.1 hfound
    have hnames := of_find inherited_namesOnce honce hfind
    have hlookup : ∀ child, children.lookup name = some child ↔ (name, child) ∈ children :=
      fun child => lookup_eq_some_iff_mem ((namesOnce_directory children).1 hnames).1
    rw [kind_eq_ok_iff]
    constructor
    · intro hmem
      obtain ⟨⟨text, child⟩, hchild, heq⟩ := List.mem_map.1 hmem
      cases heq
      exact ⟨child, (find_div_eq_ok_iff (text_ne_of_find hfind) hname).2
        ⟨children, hfind, (hlookup child).2 hchild⟩, rfl⟩
    · rintro ⟨child, hchild, rfl⟩
      obtain ⟨others, hother, hmem⟩ :=
        (find_div_eq_ok_iff (text_ne_of_find hfind) hname).1 hchild
      cases hfind.symm.trans hother
      exact List.mem_map.2 ⟨_, (hlookup child).1 hmem, rfl⟩
  above d name kind hd hname hkind := by
    rw [kind_eq_ok_iff] at hkind ⊢
    obtain ⟨child, hchild, -⟩ := hkind
    obtain ⟨children, hfind, -⟩ := (find_div_eq_ok_iff hd hname).1 hchild
    exact ⟨_, hfind, rfl⟩
  bounded d names hd hnames hkind := by
    rw [kind_eq_ok_iff] at hkind
    obtain ⟨last, hlast, -⟩ := hkind
    rw [find_below hd hnames] at hlast
    cases hfind : root.find directory d with
    | error error =>
        rw [hfind] at hlast
        cases hlast
    | ok tree =>
        rw [hfind] at hlast
        have hsize := size_foldlM_into hlast
        have hbound : tree.size ≤ root.size :=
          of_find (inherited_size_le root.size) (Nat.le_refl _) hfind
        show names.length ≤ root.size + 1
        omega

end FileTree

/-! ## Walks to directories -/

namespace FileSystem

variable (fs : FileSystem Id) (avoided : List String)

/-- The names by which a walk comes to directories, in the order of the walk. -/
def directoriesBelow : Nat → Path → List (List String)
  | 0, _ => []
  | fuel + 1, d =>
      match (fs.entries d).run with
      | .error _ => []
      | .ok found =>
          (found.filter fun entry => !avoided.contains entry.1).flatMap fun entry =>
            if entry.2 = .directory then
              [entry.1] :: (directoriesBelow fuel (d / entry.1)).map (entry.1 :: ·)
            else []

theorem Visit.paths_flatten (kind : EntryKind) (visits : List (List Visit)) :
    Visit.paths kind visits.flatten = visits.flatMap (Visit.paths kind) := by
  rw [Visit.paths, List.filterMap_flatten, List.flatMap_def]
  rfl

theorem paths_walkBelow (fuel : Nat) (d : Path) :
    Visit.paths .directory (fs.walkBelow (Guide.avoiding avoided) fuel () d).run
      = (fs.directoriesBelow avoided fuel d).map d.below := by
  induction fuel generalizing d with
  | zero => rfl
  | succ fuel ih =>
      unfold walkBelow directoriesBelow
      rw [Id.run_bind]
      cases hentries : (fs.entries d).run with
      | error error => rfl
      | ok found =>
          simp only [Id.run_bind, List.idRun_mapM, Id.run_pure]
          rw [Visit.paths_flatten, List.flatMap_map, List.map_flatMap]
          refine List.flatMap_congr fun entry _ => ?_
          obtain ⟨name, kind⟩ := entry
          cases kind with
          | directory =>
              simp only [if_true, List.map_cons, List.map_map]
              exact congrArg (d / name :: ·) (ih (d / name))
          | file => rfl
          | other => rfl

theorem paths_walk {root : Path} (hroot : (fs.kind root).run = .ok .directory) :
    Visit.paths .directory (fs.walk (Guide.avoiding avoided) () root).run
      = root :: (fs.directoriesBelow avoided fs.extent root).map root.below := by
  rw [← paths_walkBelow, walk, Id.run_bind, hroot]
  rfl

theorem paths_walk_of_ne {root : Path} (hroot : (fs.kind root).run ≠ .ok .directory) :
    Visit.paths .directory (fs.walk (Guide.avoiding avoided) () root).run = [] := by
  rw [walk, Id.run_bind]
  cases hkind : (fs.kind root).run with
  | error error => rfl
  | ok kind =>
      cases kind with
      | directory => exact absurd hkind hroot
      | file => rfl
      | other => rfl

variable {fs avoided}

theorem nil_notMem_directoriesBelow (fuel : Nat) (d : Path) :
    [] ∉ fs.directoriesBelow avoided fuel d := by
  cases fuel with
  | zero => exact List.not_mem_nil
  | succ fuel =>
      rw [directoriesBelow]
      split
      · exact List.not_mem_nil
      · intro hmem
        obtain ⟨entry, -, hmem⟩ := List.mem_flatMap.1 hmem
        split at hmem <;> simp at hmem

variable (faithful : fs.Faithful)

include faithful

/-- What lies above a directory is a directory. -/
theorem kind_of_below {d : Path} (hd : d.text ≠ "") {names : List String}
    (hplain : Path.PlainNames names)
    (hkind : (fs.kind (d.below names)).run = .ok .directory) :
    (fs.kind d).run = .ok .directory := by
  induction names generalizing d with
  | nil => exact hkind
  | cons name names ih =>
      obtain ⟨hname, hnames⟩ := Path.PlainNames.cons_iff.1 hplain
      exact faithful.above d name _ hd hname (ih (d.text_div_ne hname) hnames hkind)

/-- One step of a walk. -/
theorem cons_mem_directoriesBelow {fuel : Nat} {d : Path} {name : String} {names : List String} :
    name :: names ∈ fs.directoriesBelow avoided (fuel + 1) d ↔
      (fs.kind d).run = .ok .directory ∧ Path.Part.Plain (.name name) ∧ name ∉ avoided ∧
        (fs.kind (d / name)).run = .ok .directory ∧
        (names = [] ∨ names ∈ fs.directoriesBelow avoided fuel (d / name)) := by
  rw [directoriesBelow]
  cases hentries : (fs.entries d).run with
  | error error =>
      have hnot : (fs.kind d).run ≠ .ok .directory := fun hkind => by
        obtain ⟨found, hfound⟩ := (faithful.listed d).1 hkind
        cases hentries.symm.trans hfound
      simp [hnot]
  | ok found =>
      have hkind := (faithful.listed d).2 ⟨found, hentries⟩
      constructor
      · intro hmem
        obtain ⟨entry, hentry, hmem⟩ := List.mem_flatMap.1 hmem
        obtain ⟨hfound, havoided⟩ := List.mem_filter.1 hentry
        split at hmem
        · rename_i hdirectory
          have hplain := faithful.plain d found hentries entry hfound
          have hstep := (faithful.found_iff d found entry.1 entry.2 hentries hplain).1 hfound
          rw [hdirectory] at hstep
          rcases List.mem_cons.1 hmem with heq | hmem
          · obtain ⟨rfl, rfl⟩ := List.cons.inj heq
            exact ⟨hkind, hplain, by simpa using havoided, hstep, .inl rfl⟩
          · obtain ⟨rest, hrest, heq⟩ := List.mem_map.1 hmem
            obtain ⟨rfl, rfl⟩ := List.cons.inj heq
            exact ⟨hkind, hplain, by simpa using havoided, hstep, .inr hrest⟩
        · cases hmem
      · rintro ⟨-, hplain, havoided, hstep, hrest⟩
        have hfound := (faithful.found_iff d found name .directory hentries hplain).2 hstep
        refine List.mem_flatMap.2 ⟨_, List.mem_filter.2 ⟨hfound, by simpa using havoided⟩, ?_⟩
        rw [if_pos rfl]
        rcases hrest with rfl | hrest
        · exact List.mem_cons_self
        · exact List.mem_cons_of_mem _ (List.mem_map_of_mem hrest)

/-- By induction on how far the walk goes. -/
theorem mem_directoriesBelow (fuel : Nat) {d : Path} (hd : d.text ≠ "") (names : List String) :
    names ∈ fs.directoriesBelow avoided fuel d ↔ names ≠ [] ∧ names.length ≤ fuel ∧
      Path.PlainNames names ∧ (∀ name ∈ names, name ∉ avoided) ∧
        (fs.kind (d.below names)).run = .ok .directory := by
  induction fuel generalizing d names with
  | zero => cases names <;> simp [directoriesBelow]
  | succ fuel ih =>
      cases names with
      | nil => simp [nil_notMem_directoriesBelow]
      | cons name names =>
          rw [cons_mem_directoriesBelow faithful, Path.PlainNames.cons_iff, List.forall_mem_cons,
            List.length_cons, Nat.add_le_add_iff_right, Path.below_cons]
          constructor
          · rintro ⟨-, hname, havoided, hstep, rfl | hrest⟩
            · exact ⟨List.cons_ne_nil _ _, Nat.zero_le _, ⟨hname, by simp [Path.PlainNames]⟩,
                ⟨havoided, by simp⟩, hstep⟩
            · have hbelow := (ih (d.text_div_ne hname) names).1 hrest
              obtain ⟨-, hlength, hnames, hothers, hkind⟩ := hbelow
              exact ⟨List.cons_ne_nil _ _, hlength, ⟨hname, hnames⟩, ⟨havoided, hothers⟩, hkind⟩
          · rintro ⟨-, hlength, ⟨hname, hnames⟩, ⟨havoided, hothers⟩, hkind⟩
            have hstep := kind_of_below faithful (d.text_div_ne hname) hnames hkind
            refine ⟨faithful.above d name _ hd hname hstep, hname, havoided, hstep, ?_⟩
            by_cases hnil : names = []
            · exact .inl hnil
            · exact .inr ((ih (d.text_div_ne hname) names).2
                ⟨hnil, hlength, hnames, hothers, hkind⟩)

/-- Names that start differently are different, and each name is listed once. -/
theorem nodup_directoriesBelow (fuel : Nat) (d : Path) :
    (fs.directoriesBelow avoided fuel d).Nodup := by
  induction fuel generalizing d with
  | zero => exact List.nodup_nil
  | succ fuel ih =>
      rw [directoriesBelow]
      split
      · exact List.nodup_nil
      · rename_i found hentries
        have honce := faithful.once d found hentries
        rw [List.nodup_flatMap]
        constructor
        · intro entry _
          split
          · rw [List.nodup_cons, List.nodup_map_iff (List.cons_injective)]
            refine ⟨fun hmem => ?_, ih _⟩
            obtain ⟨rest, hrest, heq⟩ := List.mem_map.1 hmem
            obtain rfl := (List.cons.inj heq).2
            exact nil_notMem_directoriesBelow _ _ hrest
          · exact List.nodup_nil
        · refine ((List.pairwise_map.1 honce).filter _).imp fun {entry other} hne => ?_
          intro names hfirst hsecond
          have hhead : ∀ (name : String) (kind : EntryKind) (rest : List (List String)),
              names ∈ (if kind = .directory then [name] :: rest.map (name :: ·) else []) →
                names.head? = some name := by
            intro name kind rest hmem
            split at hmem
            · rcases List.mem_cons.1 hmem with rfl | hmem
              · rfl
              · obtain ⟨more, -, rfl⟩ := List.mem_map.1 hmem
                rfl
            · cases hmem
          exact hne (Option.some.inj ((hhead _ _ _ hfirst).symm.trans (hhead _ _ _ hsecond)))

end FileSystem

end ModuleTrace

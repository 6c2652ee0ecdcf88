import Mathlib.Data.List.Nodup
import ModuleTrace.Proofs.Resolution.Keeping

/-!
# Climbing to a descriptor

A directory has the descriptor of the first directory on its way up that has a usable one, and the
way ends at the root, so from inside the root nothing outside is reached. On the way only manifests
of directories that were not known before are read, and all these directories are known at its end.
-/

namespace ModuleTrace

/-! ## The way up -/

namespace Loader

/-- The directories that are looked into, the nearest first: none behind the root. -/
def climb (root : Option Path) : List Path → List Path
  | [] => []
  | directory :: rest => directory :: (if root.any directory.same then [] else climb root rest)

theorem nearest_eq_findSome? {α : Type} (findIn : Path → Option α) (root : Option Path)
    (directories : List Path) :
    nearest findIn root directories = (climb root directories).findSome? findIn := by
  induction directories with
  | nil => rfl
  | cons directory rest ih =>
      rw [nearest, climb, List.findSome?_cons]
      cases findIn directory with
      | some found => rfl
      | none =>
          simp only
          split
          · rfl
          · exact ih

/-- Inside a root the way up does not leave it. By induction on the depth: a directory that is not
the root lies in one that is inside, too. -/
theorem isUnder_of_mem_climb {root d x : Path} (hd : d.isUnder root = true)
    (hx : x ∈ climb (some root) d.ancestors) : x.isUnder root = true := by
  induction hlength : d.parts.length using Nat.strongRecOn generalizing d with
  | ind length ih =>
      subst hlength
      rw [Path.ancestors_eq, climb] at hx
      rcases List.mem_cons.1 hx with rfl | hx
      · exact hd
      · split at hx
        · simp at hx
        · rename_i hroot
          cases hparent : d.parent? with
          | none => simp [hparent, climb] at hx
          | some parent =>
              rw [hparent] at hx
              have hshort := Path.length_parts_parent? hparent
              have hne : root.parts ≠ d.parts := by
                intro hsame
                exact hroot (by simp [Path.same, hsame])
              have hinside : parent.isUnder root = true := by
                rw [Path.isUnder_iff] at hd ⊢
                rw [Path.parts_parent? hparent]
                obtain ⟨more, hmore⟩ := hd
                have hmore' : more ≠ [] := by
                  rintro rfl
                  exact hne (by simpa using hmore)
                rw [← hmore, List.dropLast_append_of_ne_nil hmore']
                exact List.prefix_append _ _
              exact ih parent.parts.length (by omega) hinside hx rfl

theorem directory_manifestIn {loader : Loader Id} {d : Path} {manifest : Manifest}
    (h : loader.manifestIn d = some manifest) : manifest.directory.parts = d.parts := by
  have hpath : manifest.path = d / Manifest.fileName := path_of_manifestOf h
  obtain ⟨directory, hdirectory, hparts⟩ := d.exists_parent?_div_fileName
  rw [Manifest.directory, hpath, hdirectory]
  exact hparts

end Loader

theorem ProjectConfig.path_of_load {read : Path → Id (Option String)} {path : Path}
    {config : ProjectConfig} (h : (ProjectConfig.load read path).run = .ok config) :
    config.path = path := by
  unfold ProjectConfig.load at h
  simp only [Id.run_bind] at h
  cases hcontents : (read path).run with
  | none =>
      rw [hcontents] at h
      cases h
  | some contents =>
      rw [hcontents] at h
      simp only [parseWith, Id.run_bind] at h
      cases hoptions : (loadOptions read extensionDepth path contents).run with
      | error error =>
          rw [hoptions] at h
          cases h
      | ok options =>
          rw [hoptions] at h
          cases h
          rfl

theorem Loader.directory_configIn {loader : Loader Id} {d : Path} {config : ProjectConfig}
    (h : loader.configIn d = some config) : config.directory.parts = d.parts := by
  unfold Loader.configIn at h
  split at h
  · cases h
  · rename_i path hfirst
    obtain ⟨name, hname, rfl⟩ := List.mem_map.1 (List.mem_of_find?_eq_some hfirst)
    have hload : (ProjectConfig.load loader.text? (d / name)).run = .ok config := by
      cases hload : (ProjectConfig.load loader.text? (d / name)).run with
      | error error => rw [hload] at h; cases h
      | ok other => rw [hload] at h; cases h; rfl
    obtain ⟨directory, hdirectory, hparts⟩ :=
      d.exists_parent?_div (ProjectConfig.plain_of_mem_fileNames hname)
    rw [ProjectConfig.directory, ProjectConfig.directoryOf, ProjectConfig.path_of_load hload,
      hdirectory]
    exact hparts

/-! ## Files read on the way -/

def Access.readPath? : Access → Option Path
  | .read path => some path
  | .probe _ => none

namespace Knowledge

/-- What is known later, when only files of some paths were read since, the latest first. -/
structure Reading (before : Knowledge) (paths : List Path) (after : Knowledge) : Prop where
  manifests : after.manifests = before.manifests
  journal : ∃ asked : List Access, after.sources.journal = asked ++ before.sources.journal ∧
    asked.filterMap Access.readPath? = paths

section

variable {m : Type → Type} [Monad m] [LawfulMonad m] {before : Knowledge} {paths : List Path}

theorem reading_self : Reading before [] before :=
  ⟨rfl, [], rfl, rfl⟩

theorem isFile_reading (loader : Loader m) (path : Path) :
    Ensures (Reading before paths) (isFile loader path) fun _ => True := by
  have hsources : Ensures (fun cache : SourceCache => ∃ asked : List Access,
      cache.journal = asked ++ before.sources.journal ∧ asked.filterMap Access.readPath? = paths)
      (SourceCache.isFile loader path) fun _ => True := by
    unfold SourceCache.isFile
    refine Ensures.get.bind fun cache _ => ?_
    split
    · exact .pure trivial
    · refine (Ensures.lift (.top _)).bind fun answer _ => ?_
      refine (Ensures.modify fun cache hcache => ?_).bind fun _ _ => .pure trivial
      obtain ⟨asked, hjournal, hpaths⟩ := hcache
      exact ⟨.probe path :: asked, by rw [List.cons_append, ← hjournal], by
        rw [List.filterMap_cons_none rfl, hpaths]⟩
  exact hsources.withSources (fun _ h => h.journal) fun _ _ h hjournal => ⟨h.manifests, hjournal⟩

theorem read?_reading (loader : Loader m) (path : Path) :
    Leads (Reading before paths) (read? loader path) fun _ =>
      Reading before (path :: paths) := by
  intro knowledge h
  have hrun : (read? loader path).run knowledge = (do
      let answer ← loader.read path
      return (answer.toOption, { knowledge with
        sources := { knowledge.sources with
          journal := .read path :: knowledge.sources.journal } }) :
        m (Option String × Knowledge)) := by
    simp [read?, readFresh, withSources, SourceCache.readFresh]
  rw [hrun]
  refine (Always.top _).bind fun answer _ => .pure ?_
  obtain ⟨asked, hjournal, hpaths⟩ := h.journal
  exact ⟨h.manifests, .read path :: asked, by rw [List.cons_append, ← hjournal], by
    simp [Access.readPath?, hpaths]⟩

/-- In a directory only its own manifest is read, and only once. -/
theorem manifestIn_reading (loader : Loader m) (directory : Path) :
    Leads (Reading before paths) (manifestIn loader directory) fun _ after =>
      ∃ more, more.Sublist [directory / Manifest.fileName] ∧
        Reading before (more ++ paths) after := by
  unfold manifestIn
  refine (isFile_reading loader _).leads fun answer _ => ?_
  split
  · refine (read?_reading loader _).bind fun contents => Leads.pure fun after h => ?_
    exact ⟨_, List.Sublist.refl _, h⟩
  · exact Leads.pure fun after h => ⟨[], List.nil_sublist _, h⟩

/-- The manifests read on a climb are those of directories passed on it, of which none was
remembered. By induction on the directories left. -/
theorem search_reading (loader : Loader m) (root : Option Path) (directories passed : List Path)
    (hreads : paths.Sublist (passed.map (· / Manifest.fileName)))
    (hnew : ∀ x ∈ passed, before.manifests[x.parts]? = none) :
    Leads (Reading before paths) (search (manifestKind loader) root directories passed)
      fun result after => ∃ front reads, front <+: directories ∧
        result.2 = front.reverse ++ passed ∧
        (∀ x ∈ result.2, before.manifests[x.parts]? = none) ∧
        reads.Sublist (result.2.map (· / Manifest.fileName)) ∧ Reading before reads after := by
  induction directories generalizing passed paths with
  | nil =>
      rw [search]
      exact Leads.pure fun after h => ⟨[], paths, List.prefix_refl _, rfl, hnew, hreads, h⟩
  | cons directory rest ih =>
      rw [search]
      refine Ensures.get.leads fun knowledge hknowledge => ?_
      cases hknown : (manifestKind loader).known? knowledge directory.parts with
      | some answer =>
          exact Leads.pure fun after h => ⟨[], paths, List.nil_prefix, rfl, hnew, hreads, h⟩
      | none =>
          have hdirectory : before.manifests[directory.parts]? = none := by
            rw [← hknowledge.manifests]
            exact hknown
          have hnew' : ∀ x ∈ directory :: passed, before.manifests[x.parts]? = none := by
            intro x hx
            rcases List.mem_cons.1 hx with rfl | hx
            · exact hdirectory
            · exact hnew x hx
          have hpassed : directory :: passed = [directory].reverse ++ passed := rfl
          have hfront : [directory] <+: directory :: rest := ⟨rest, rfl⟩
          refine (manifestIn_reading loader directory).bind fun answer => ?_
          refine Leads.of_exists fun more hmore => ?_
          have hreads' : (more ++ paths).Sublist
              ((directory :: passed).map (· / Manifest.fileName)) := hmore.append hreads
          cases answer with
          | some found =>
              exact Leads.pure fun after h =>
                ⟨[directory], _, hfront, hpassed, hnew', hreads', h⟩
          | none =>
              simp only
              split
              · exact Leads.pure fun after h =>
                  ⟨[directory], _, hfront, hpassed, hnew', hreads', h⟩
              · refine (ih (directory :: passed) hreads' hnew').mono ?_
                rintro result after ⟨front, reads, ⟨others, rfl⟩, hresult, hrest⟩
                refine ⟨directory :: front, reads, ⟨others, rfl⟩, ?_, hrest⟩
                rw [hresult, List.reverse_cons, List.append_assoc]
                rfl

omit [LawfulMonad m] in
theorem manifests_remembered (loader : Loader m) (answer : Option Manifest) (passed : List Path)
    (knowledge : Knowledge) (key : List Path.Part) :
    (passed.foldl (fun knowledge directory =>
      (manifestKind loader).remember knowledge directory.parts answer) knowledge).manifests[key]?
        = none ↔ knowledge.manifests[key]? = none ∧ ∀ x ∈ passed, x.parts ≠ key := by
  induction passed generalizing knowledge with
  | nil => simp
  | cons directory rest ih =>
      have hinsert : (knowledge.manifests.insert directory.parts answer)[key]? = none ↔
          directory.parts ≠ key ∧ knowledge.manifests[key]? = none := by
        rw [Std.HashMap.getElem?_insert]
        by_cases hkey : directory.parts = key <;> simp [hkey]
      rw [List.foldl_cons, ih]
      simp only [manifestKind, hinsert, List.forall_mem_cons]
      tauto

/-- Files read between two states of knowledge, the latest first. -/
def readSince (before after : Knowledge) : List Path :=
  let asked := after.sources.journal.length - before.sources.journal.length
  (after.sources.journal.take asked).filterMap Access.readPath?

omit [Monad m] [LawfulMonad m] in
theorem Reading.readSince {after : Knowledge} (h : Reading before paths after) :
    readSince before after = paths := by
  obtain ⟨asked, hjournal, hpaths⟩ := h.journal
  rw [Knowledge.readSince, hjournal]
  simp [hpaths]

/-- What a climb does about manifests: it forgets none, and each one that it reads is that of a
directory that becomes known on it. -/
structure Climbed (before after : Knowledge) : Prop where
  kept : ∀ key : List Path.Part, after.manifests[key]? = none → before.manifests[key]? = none
  fresh : ∀ path ∈ readSince before after, ∃ key : List Path.Part,
    path.parts = key ++ [.name Manifest.fileName] ∧
      before.manifests[key]? = none ∧ after.manifests[key]? ≠ none
  once : ((readSince before after).map Path.parts).Nodup

theorem manifestFor_climbed (loader : Loader m) (root : Option Path) (directory : Path) :
    Leads (· = before) (manifestFor loader root directory) fun _ after => Climbed before after := by
  unfold manifestFor nearest
  have hsearch : Leads (Reading before [])
      (search (manifestKind loader) root directory.ancestors []) _ :=
    search_reading loader root directory.ancestors [] (List.nil_sublist _) (by simp)
  have hstart : ∀ state, state = before → Reading before [] state := by
    rintro state rfl
    exact reading_self
  refine (hsearch.weaken hstart).bind fun result => ?_
  refine (Leads.modify fun state hstate => ?_).bind fun _ => Leads.pure fun state hstate => hstate
  obtain ⟨front, reads, hfront, hresult, hnew, hreads, hreading⟩ := hstate
  have hdistinct : (result.2.map Path.parts).Nodup := by
    have hsublist : (front.map Path.parts).Sublist (directory.ancestors.map Path.parts) :=
      hfront.sublist.map _
    have hnodup := hsublist.nodup directory.nodup_parts_ancestors
    rw [hresult, List.append_nil, List.map_reverse]
    exact (List.reverse_perm _).nodup_iff.2 hnodup
  have hsame : readSince before (result.2.foldl (fun knowledge directory =>
      (manifestKind loader).remember knowledge directory.parts result.1) state) = reads := by
    rw [readSince, sources_remembered fun _ _ _ => rfl]
    exact hreading.readSince
  constructor
  · intro key hkey
    rw [manifests_remembered, hreading.manifests] at hkey
    exact hkey.1
  · intro path hpath
    rw [hsame] at hpath
    obtain ⟨x, hx, rfl⟩ := List.mem_map.1 (hreads.subset hpath)
    refine ⟨x.parts, x.parts_div_fileName, hnew x hx, fun hnone => ?_⟩
    exact ((manifests_remembered _ _ _ _ _).1 hnone).2 x hx rfl
  · rw [hsame]
    have hsublist := hreads.map Path.parts
    refine hsublist.nodup ?_
    have hparts : (result.2.map (· / Manifest.fileName)).map Path.parts
        = (result.2.map Path.parts).map (· ++ [.name Manifest.fileName]) := by
      simp [Path.parts_div_fileName]
    rw [hparts]
    exact List.Nodup.map (fun a b hab => List.append_cancel_right hab) hdistinct

/-! Looking for a configuration changes nothing about manifests. -/

variable {known : Std.HashMap (List Path.Part) (Option Manifest)}

theorem configFor_manifests (loader : Loader m) (root : Option Path) (directory : Path) :
    Ensures (·.manifests = known) (configFor loader root directory) fun _ => True := by
  have hrecalls : (configKind loader).Recalls root (fun _ _ => True) (fun _ _ => True)
      (·.manifests = known) := by
    constructor
    case findIn => exact (Kept.ofDescriptors fun _ _ h => h).configIn
    case remember => exact fun knowledge h _ _ _ => h
    all_goals intros; trivial
  exact nearest_ensures hrecalls directory

end

end Knowledge

end ModuleTrace

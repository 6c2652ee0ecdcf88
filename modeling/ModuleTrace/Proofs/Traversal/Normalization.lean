import ModuleTrace.Proofs.Traversal.Transparency
import ModuleTrace.Proofs.Traversal.Zone
import ModuleTrace.Proofs.Workspace.Packages

/-!
# Normalized paths on the way of a traversal

A traversal compares paths by their parts, so it knows a file again only if every rule gives it
the same spelling. All rules normalize what they look for, but for one: the name of a package
alone stands for the path of the package as the workspace tells it.
-/

namespace ModuleTrace

namespace Session

section

variable {m : Type → Type} {s : Session m}

/-- The packages that a name can stand for have absolute normalized paths. -/
def NamesNormalPackages (s : Session m) : Prop :=
  ∀ workspace name package, s.workspace = some workspace →
    workspace.byName name = some package →
      package.path.isAbsolute = true ∧ package.path.IsNormal

/-- Normalized paths of different files, the one of the entrypoint among them. -/
structure Distinguishes (reach : Reach) : Prop where
  normal : ∀ file ∈ reach.entrypoint :: reach.files, file.path.IsNormal
  distinct : ((reach.entrypoint :: reach.files).map fun file => file.path.normalize.parts).Nodup

/-- Paths that lead up in their last part at most. -/
def nearlyCleanZone (hnamed : s.NamesNormalPackages) : s.Zone where
  Start := Path.NearlyClean
  Holds := Path.NearlyClean
  start_congr p q h hp := hp.congr h
  holds_congr p q h hp := hp.congr h
  step file analysis hfile h d hd := by
    have hnearly : file.path.NearlyClean := hfile.elim id id
    have hs : (s.surroundings file).Clean := by
      intro workspace name package hworkspace hname
      obtain ⟨habsolute, hnormal⟩ := hnamed workspace name package hworkspace hname
      exact Path.clean_of_isNormal habsolute hnormal
    exact h.clean (clean_of_kind? hnearly h.kind) hs d hd

end

section

variable {m : Type → Type} [Monad m] [LawfulMonad m] {s : Session m}

theorem distinguishes_of_covers {hnamed : s.NamesNormalPackages} {reach : Reach} {memory : Memory}
    (h : (nearlyCleanZone hnamed).region.Covers reach memory) : Distinguishes reach := by
  have hnormal : ∀ file ∈ reach.entrypoint :: reach.files, file.path.IsNormal := by
    intro file hfile
    have hnearly : file.path.NearlyClean := by
      rcases List.mem_cons.1 hfile with rfl | hfile
      · exact h.start
      · exact h.files file hfile
    obtain ⟨analysis, -, hrecords, -⟩ := h.analyses file hfile
    exact (clean_of_kind? hnearly hrecords.kind).isNormal
  refine ⟨hnormal, ?_⟩
  have hkeys : (reach.entrypoint :: reach.files).map (fun file => file.path.normalize.parts)
      = (reach.entrypoint :: reach.files).map fun file => file.path.parts :=
    List.map_congr_left fun file hfile => hnormal file hfile
  rw [hkeys]
  exact h.distinct

/-- Every path that joins those met, also on the way to an error, is normalized or leads up in its
last part, which can come of putting another extension to two dots. The files that are found are
different ones, and none is the entrypoint again. -/
theorem collect_normalizes (hnamed : s.NamesNormalPackages) {e : Path}
    (habsolute : e.isAbsolute = true) (calls : List (Call m)) :
    Forgets (s.collectNoted e) (s.collect e) ∧
      Always (fun result => ∀ path ∈ result.1.2,
          path.IsNormal ∨ path.parts.getLast? = some .up)
        ((do s.performAll calls; (s.collectNoted e).run []).run {}) ∧
      Always (fun result => ∀ reach, result.1 = .ok reach → Distinguishes reach)
        ((do s.performAll calls; s.collect e).run {}) := by
  have hstart : (nearlyCleanZone hnamed).Start e.normalize :=
    (Path.clean_normalize habsolute).nearly
  refine ⟨s.collectNoted_forgets e, ?_, ?_⟩
  · have hrun := performAll_collectNoted confinement_load (nearlyCleanZone hnamed).region
      Knowledge.tidy_nothing hstart calls
    refine hrun.mono fun result h path hpath => ?_
    have hnearly : path.NearlyClean := (h.1 path hpath).elim id id
    exact hnearly.isNormal_or
  · have hrun := performAll_collect confinement_load (nearlyCleanZone hnamed).region
      Knowledge.tidy_nothing hstart calls
    exact hrun.mono fun result h reach hreach => distinguishes_of_covers (h reach hreach)

end

/-- A workspace whose one member has the given path. The first file asks for the member by its
name, and for the file of the member by its path. -/
def spelled (path : Path) : Session Id where
  loader := .ofTexts [([.root, .name "w", .name "a.js"], "a"),
    ([.root, .name "w", .name "ui", .name "index.js"], "ui"),
    ([.root, .name "w", .name "tools", .up, .name "ui", .name "index.js"], "ui")]
  extractor := .ofTexts [("a", .specifiers ["ui", "./ui/index.js"])]
  options := {}
  workspace := some ⟨⟨"w", ⟨"/w"⟩, none⟩, [⟨"ui", path, none⟩]⟩

theorem spelled_collectPlain :
    ((spelled ⟨"/w/ui"⟩).collectPlain ⟨"/w/a.js"⟩).toOption.map
        (fun reach => reach.files.map SourceFile.path) = some [⟨"/w/ui/index.js"⟩] ∧
      ((spelled ⟨"/w/tools/../ui"⟩).collectPlain ⟨"/w/a.js"⟩).toOption.map
        (fun reach => reach.files.map SourceFile.path)
          = some [⟨"/w/tools/../ui/index.js"⟩, ⟨"/w/ui/index.js"⟩] := by
  decide +kernel

theorem spelled_namesNormalPackages : (spelled ⟨"/w/ui"⟩).NamesNormalPackages := by
  intro workspace name package hworkspace hname
  cases hworkspace
  have hall : ∀ package ∈ (⟨⟨"w", ⟨"/w"⟩, none⟩, [⟨"ui", ⟨"/w/ui"⟩, none⟩]⟩ : Workspace).packages,
      package.path.isAbsolute = true ∧ package.path.normalize.parts = package.path.parts := by
    decide
  exact hall package (Workspace.mem_of_byName hname)

theorem collect_normalizes_once :
    (spelled ⟨"/w/ui"⟩).NamesNormalPackages ∧ (Path.mk "/w/a.js").isAbsolute = true ∧
      ∃ reach, (((spelled ⟨"/w/ui"⟩).collect ⟨"/w/a.js"⟩).run
          ((spelled ⟨"/w/ui"⟩).memoryAfter [.collect ⟨"../a.js"⟩])).run.1 = .ok reach ∧
        reach.files.length = 1 ∧ Distinguishes reach := by
  have habsolute : (Path.mk "/w/a.js").isAbsolute = true := by decide
  obtain ⟨reach, hreach, hfiles⟩ := exists_collect_files (Loader.ofTexts_fixed _)
    [.collect ⟨"../a.js"⟩] spelled_collectPlain.1
  obtain ⟨-, -, hnormal⟩ := collect_normalizes spelled_namesNormalPackages habsolute
    [.collect ⟨"../a.js"⟩]
  exact ⟨spelled_namesNormalPackages, habsolute, reach, hreach, hfiles.length_eq,
    always_id.1 hnormal reach hreach⟩

/-- A member whose path leads up on the way is found under two spellings. -/
theorem collect_normalizes_twice :
    ∃ reach, (((spelled ⟨"/w/tools/../ui"⟩).collect ⟨"/w/a.js"⟩).run {}).run.1 = .ok reach ∧
      (∃ file ∈ reach.files, ¬ file.path.IsNormal) ∧
      ¬ ((reach.entrypoint :: reach.files).map fun file => file.path.normalize.parts).Nodup := by
  obtain ⟨reach, hreach, hfiles⟩ := exists_collect_files (Loader.ofTexts_fixed _) []
    spelled_collectPlain.2
  refine ⟨reach, hreach, ?_, fun hnodup => ?_⟩
  · have hspelled : (⟨"/w/tools/../ui/index.js"⟩ : Path)
        ∈ [⟨"/w/tools/../ui/index.js"⟩, ⟨"/w/ui/index.js"⟩] := List.mem_cons_self
    obtain ⟨file, hmem, hfile⟩ := exists_left hfiles hspelled
    refine ⟨file, hmem, fun hnormal => ?_⟩
    rw [Path.IsNormal, Path.normalize_congr hfile, hfile] at hnormal
    revert hnormal
    decide
  · have hkeys : reach.files.map (fun file => file.path.normalize.parts)
        = [⟨"/w/tools/../ui/index.js"⟩, ⟨"/w/ui/index.js"⟩].map fun path : Path =>
          path.normalize.parts := by
      refine List.forall₂_eq_eq_eq ▸ List.rel_map (fun file path hpath => ?_) hfiles
      rw [Path.normalize_congr hpath]
    have hrest := (List.nodup_cons.1 hnodup).2
    rw [hkeys] at hrest
    revert hrest
    decide

end Session

end ModuleTrace

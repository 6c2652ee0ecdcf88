import Mathlib.Data.List.Nodup
import ModuleTrace.Proofs.Traversal.Progress
import ModuleTrace.Proofs.Traversal.Transparency

/-!
# Files that are reached

A traversal reaches the files that can be read and to which a chain of dependencies leads from the
entrypoint, each of them once, and those at the end of shorter chains first.
-/

namespace ModuleTrace

namespace Session

/-! ## Chains of dependencies -/

section

variable (s : Session Id)

/-- The file at a path can be read, fits its grammar, and has a dependency at another path. -/
def LeadsTo (p q : Path) : Prop :=
  ∃ contents, (s.loader.read p).run = .ok contents ∧ ∃ analysis : Analysis,
    s.learned ⟨p, contents⟩ = .ok analysis ∧ analysis.failure = none ∧
      ∃ dependency ∈ analysis.dependencies.locals, dependency.path.same q

/-- Chains of dependencies of some length from an entrypoint to a path. -/
inductive Chain (entrypoint : Path) : Nat → Path → Prop
  | start {p : Path} (h : p.same entrypoint) : Chain entrypoint 0 p
  | step {n : Nat} {p q : Path} (h : Chain entrypoint n p) (hstep : s.LeadsTo p q) :
      Chain entrypoint (n + 1) q

/-- The length of the shortest chains. -/
def Distance (entrypoint path : Path) (n : Nat) : Prop :=
  s.Chain entrypoint n path ∧ ∀ k, s.Chain entrypoint k path → n ≤ k

/-- Some files are those that an entrypoint reaches, each once, in breadth-first order. -/
structure ReachesInOrder (entrypoint : Path) (files : List SourceFile) : Prop where
  distinct : files.Pairwise fun f g => ¬ f.path.same g.path
  apart : ∀ f ∈ files, ¬ f.path.same entrypoint
  mem_iff : ∀ p, (∃ f ∈ files, f.path.same p) ↔
    s.Reads p ∧ ¬ p.same entrypoint ∧ ∃ n, s.Chain entrypoint n p
  sorted : files.Pairwise fun f g => ∀ m n, s.Distance entrypoint f.path m →
    s.Distance entrypoint g.path n → m ≤ n

end

variable {s : Session Id} (fixed : s.loader.Fixed)

include fixed

theorem leadsTo_iff {file : SourceFile} (hfile : s.Loads file) {p : Path}
    (hp : file.path.parts = p.parts) (q : Path) :
    s.LeadsTo p q ↔ ∃ t ∈ s.targets file, t.parts = q.parts := by
  have hread : (s.loader.read p).run = .ok file.contents := by
    rw [← fixed.read_congr hp]
    exact hfile
  have hother : s.Loads ⟨p, file.contents⟩ := hread
  have halike := learned_alike fixed hother (g := file) ⟨hp.symm, rfl⟩
  have hlearned : s.LeadsTo p q ↔ ∃ analysis, s.learned ⟨p, file.contents⟩ = .ok analysis ∧
      analysis.failure = none ∧ ∃ d ∈ analysis.dependencies.locals, d.path.same q := by
    unfold LeadsTo
    rw [hread]
    constructor
    · rintro ⟨contents, heq, h⟩
      cases heq
      exact h
    · exact fun h => ⟨_, rfl, h⟩
  rw [hlearned]
  simp only [mem_targets_iff]
  generalize s.learned ⟨p, file.contents⟩ = x, s.analysisOf file = y at halike ⊢
  cases halike with
  | error _ => simp
  | @ok a b hab =>
      have hlocals := exists_mem_congr hab.locals
        (P := fun d => d.path.same q) (Q := fun d => d.path.parts = q.parts)
        fun d e hde => by rw [Path.same_iff, hde.path]
      simp [hlocals, hab.failure, and_assoc]

omit fixed

/-! ## Files in the order of their distance -/

/-- A frontier whose files have levels: the lengths of chains to them, in the order in which they
were met. A file taken apart has put what it leads to at most one level further. -/
structure Ranked (s : Session Id) (entry : SourceFile) (level : SourceFile → Nat)
    (done : List SourceFile) (a : Frontier) : Prop where
  first : level entry = 0
  chains : ∀ f ∈ done ++ a.queue, s.Chain entry.path (level f) f.path
  sorted : (done ++ a.queue).Pairwise fun f g => level f ≤ level g
  near : ∀ f ∈ a.queue, ∀ g ∈ a.queue, level g ≤ level f + 1
  closed : ∀ f ∈ done, ∀ p ∈ s.targets f, s.Reads p →
    ∃ g ∈ done ++ a.queue, g.path.parts = p.parts ∧ level g ≤ level f + 1

namespace Ranked

variable {entry file : SourceFile} {level other : SourceFile → Nat} {done queue : List SourceFile}
  {a b : Frontier}

/-- Only levels of files found count. -/
theorem congr (h : s.Ranked entry level done a) (hspread : s.Spread entry done a)
    (heq : ∀ f ∈ done ++ a.queue, other f = level f) : s.Ranked entry other done a := by
  have hentry : entry ∈ done ++ a.queue := by simp [← hspread.files]
  have hqueue : ∀ f ∈ a.queue, other f = level f := fun f hf =>
    heq f (List.mem_append_right _ hf)
  refine ⟨?_, fun f hf => ?_, ?_, fun f hf g hg => ?_, fun f hf p hp hreads => ?_⟩
  · rw [heq entry hentry, h.first]
  · rw [heq f hf]
    exact h.chains f hf
  · refine h.sorted.imp_of_mem fun {f g} hf hg hle => ?_
    rw [heq f hf, heq g hg]
    exact hle
  · rw [hqueue f hf, hqueue g hg]
    exact h.near f hf g hg
  · obtain ⟨g, hg, hparts, hle⟩ := h.closed f hf p hp hreads
    refine ⟨g, hg, hparts, ?_⟩
    rw [heq g hg, heq f (List.mem_append_left _ hf)]
    exact hle

theorem start (entry : SourceFile) :
    s.Ranked entry (fun _ => 0) [] ⟨{ entrypoint := entry }, [entry.path.parts], [entry]⟩ where
  first := rfl
  chains := by simpa using Chain.start (Path.same_refl _)
  sorted := by simp
  near := by simp
  closed := by simp

/-- No file is more than one level beyond the first that waits. -/
theorem le_succ (h : s.Ranked entry level done a) (hqueue : a.queue = file :: queue) :
    ∀ f ∈ done ++ a.queue, level f ≤ level file + 1 := by
  have hsorted := h.sorted
  have hnear := h.near
  rw [hqueue] at hsorted hnear ⊢
  intro f hf
  rcases List.mem_append.1 hf with hf | hf
  · have hle := (List.pairwise_append.1 hsorted).2.2 f hf file (by simp)
    omega
  · exact hnear file (by simp) f hf

/-- Visiting the first file that waits puts what it leads to one level beyond it. -/
theorem step (fixed : s.loader.Fixed) (hspread : s.Spread entry done a)
    (h : s.Ranked entry level done a) (hqueue : a.queue = file :: queue)
    (hvisits : s.Visits file { a with queue } b)
    (hlevel : ∀ f ∈ s.loaded (firstMet a.visited (s.targets file)), level f = level file + 1) :
    s.Ranked entry level (done ++ [file]) b := by
  have hnext := Spread.next_files done hqueue hvisits
  have hle := h.le_succ hqueue
  have hloads : s.Loads file := hspread.loads file (by simp [hqueue])
  have hchain := h.chains file (by simp [hqueue])
  have hqueue' : b.queue = queue ++ s.loaded (firstMet a.visited (s.targets file)) := hvisits.queue
  have hsorted : (done ++ file :: queue).Pairwise fun f g => level f ≤ level g := by
    rw [← hqueue]
    exact h.sorted
  have hall : ∀ f ∈ done ++ [file] ++ b.queue, level f ≤ level file + 1 := by
    intro f hf
    rw [hnext, List.mem_append] at hf
    rcases hf with hf | hf
    · exact hle f hf
    · exact Nat.le_of_eq (hlevel f hf)
  refine ⟨h.first, fun f hf => ?_, ?_, fun f hf g hg => ?_, fun f hf p hp hreads => ?_⟩
  · rw [hnext, List.mem_append] at hf
    rcases hf with hf | hf
    · exact h.chains f hf
    · rw [hlevel f hf]
      refine hchain.step ((leadsTo_iff fixed hloads rfl f.path).2 ⟨f.path, ?_, rfl⟩)
      exact mem_of_mem_firstMet (mem_loaded hf).2
  · rw [hnext, List.pairwise_append]
    refine ⟨h.sorted, ?_, fun f hf g hg => ?_⟩
    · exact List.pairwise_of_forall_mem_list fun f hf g hg => by simp [hlevel f hf, hlevel g hg]
    · rw [hlevel g hg]
      exact hle f hf
  · have hg := hall g (List.mem_append_right _ hg)
    rw [hqueue', List.mem_append] at hf
    rcases hf with hf | hf
    · have := (List.pairwise_cons.1 (List.pairwise_append.1 hsorted).2.1).1 f hf
      omega
    · rw [hlevel f hf]
      omega
  · rcases List.mem_append.1 hf with hf | hf
    · obtain ⟨g, hg, hparts, hlevel⟩ := h.closed f hf p hp hreads
      refine ⟨g, ?_, hparts, hlevel⟩
      rw [hnext]
      exact List.mem_append_left _ hg
    · rw [List.mem_singleton.1 hf] at hp ⊢
      have hspread' := hspread.step hqueue hvisits fixed
      have hmet : p.parts ∈ b.visited :=
        (hspread'.visited p.parts).2 (.inr ⟨file, by simp, p, hp, rfl⟩)
      obtain ⟨g, hg, hparts⟩ := hspread'.found p hmet hreads
      exact ⟨g, hg, hparts, hall g hg⟩

/-- Levels of the files found before stay; those found now get the next one. -/
theorem exists_step (fixed : s.loader.Fixed) (hspread : s.Spread entry done a)
    (h : s.Ranked entry level done a) (hqueue : a.queue = file :: queue)
    (hvisits : s.Visits file { a with queue } b) :
    ∃ next, s.Ranked entry next (done ++ [file]) b := by
  let new := s.loaded (firstMet a.visited (s.targets file))
  let next := fun f => if f ∈ new then level file + 1 else level f
  have hold : ∀ f ∈ done ++ a.queue, next f = level f := by
    intro f hf
    have hnew : f ∉ new := fun hnew =>
      notMem_of_mem_firstMet (mem_loaded hnew).2 (hspread.met f hf)
    exact if_neg hnew
  have hfile : next file = level file := hold file (by simp [hqueue])
  refine ⟨next, (h.congr hspread hold).step fixed hspread hqueue hvisits fun f hf => ?_⟩
  rw [hfile]
  exact if_pos hf

/-- When all files are taken apart, no chain is shorter than the level of its end. -/
theorem le_of_chain (fixed : s.loader.Fixed) (hspread : s.Spread entry done a)
    (h : s.Ranked entry level done a) (hqueue : a.queue = []) {n : Nat} {p : Path}
    (hchain : s.Chain entry.path n p) (hreads : s.Reads p) :
    ∃ f ∈ done, f.path.parts = p.parts ∧ level f ≤ n := by
  have hloads := hspread.loads
  have hfiles := hspread.files
  rw [hqueue, List.append_nil] at hloads hfiles
  induction hchain with
  | start hp =>
      have hparts := (Path.same_iff _ _).1 hp
      exact ⟨entry, by simp [← hfiles], hparts.symm, by simp [h.first]⟩
  | @step n p q _ hstep ih =>
      obtain ⟨contents, hcontents, _⟩ := id hstep
      obtain ⟨f, hf, hparts, hlevel⟩ := ih ⟨contents, hcontents⟩
      obtain ⟨t, ht, htparts⟩ := (leadsTo_iff fixed (hloads f hf) hparts q).1 hstep
      obtain ⟨g, hg, hgparts, hle⟩ := h.closed f hf t ht (hreads.congr fixed htparts.symm)
      rw [hqueue, List.append_nil] at hg
      exact ⟨g, hg, hgparts.trans htparts, by omega⟩

end Ranked

/-- A walk on its way: it has spread over the files taken apart, in the order of their distance,
and nothing was refused. -/
structure Advances (s : Session Id) (entry : SourceFile) (done : List SourceFile) (a : Frontier) :
    Prop where
  spread : s.Spread entry done a
  ranked : ∃ level, s.Ranked entry level done a
  analyzed : ∀ f ∈ done, ∃ analysis, s.analysisOf f = .ok analysis

theorem exists_analysisOf_of_visitPlain {file : SourceFile} {a b : Frontier}
    (h : s.visitPlain file a = .ok b) : ∃ analysis, s.analysisOf file = .ok analysis := by
  unfold visitPlain at h
  cases hanalysis : s.analysisOf file with
  | error error =>
      rw [hanalysis] at h
      cases h
  | ok analysis => exact ⟨analysis, rfl⟩

theorem Advances.start {entry : SourceFile} (h : s.Loads entry) :
    s.Advances entry [] ⟨{ entrypoint := entry }, [entry.path.parts], [entry]⟩ :=
  ⟨.start h, ⟨_, .start entry⟩, by simp⟩

theorem Advances.step (fixed : s.loader.Fixed) (unlimited : s.options.fileLimit = none)
    {entry file : SourceFile} {done queue : List SourceFile} {a b : Frontier}
    (h : s.Advances entry done a) (hqueue : a.queue = file :: queue)
    (hvisit : s.visitPlain file { a with queue } = .ok b) :
    s.Advances entry (done ++ [file]) b := by
  obtain ⟨hspread, ⟨level, hranked⟩, hanalyzed⟩ := h
  have hvisits := visitPlain_spec unlimited hvisit
  refine ⟨hspread.step hqueue hvisits fixed,
    hranked.exists_step fixed hspread hqueue hvisits, fun f hf => ?_⟩
  rcases List.mem_append.1 hf with hf | hf
  · exact hanalyzed f hf
  · rw [List.mem_singleton.1 hf]
    exact exists_analysisOf_of_visitPlain hvisit

/-- The walk without memory ends with ranked files, all of them taken apart. -/
theorem collectPlain_ranked (fixed : s.loader.Fixed) (unlimited : s.options.fileLimit = none)
    {entrypoint : Path} {reach : Reach} (h : s.collectPlain entrypoint = .ok reach) :
    ∃ a level, a.reach = reach ∧ a.queue = [] ∧
      reach.entrypoint.path = entrypoint.normalize ∧
      s.Spread reach.entrypoint (reach.entrypoint :: reach.files) a ∧
      s.Ranked reach.entrypoint level (reach.entrypoint :: reach.files) a := by
  obtain ⟨entry, all, a, hpath, ⟨hspread, ⟨level, hranked⟩, -⟩, hqueue, rfl⟩ :=
    collectPlain_rule (fun _ => Advances.start)
      (fun _ _ _ _ _ _ hqueue h => h.step fixed unlimited hqueue) h
  have hfiles := hspread.files
  rw [hqueue, List.append_nil] at hfiles
  rw [hspread.entrypoint, hfiles]
  exact ⟨a, level, rfl, hqueue, hpath, hspread, hranked⟩

/-! ## The theorem -/

theorem LeadsTo.congr {p q r : Path} (h : s.LeadsTo p q) (hr : q.parts = r.parts) :
    s.LeadsTo p r := by
  obtain ⟨contents, hcontents, analysis, hlearned, hfailure, d, hd, hsame⟩ := h
  have hparts := (Path.same_iff _ _).1 hsame
  exact ⟨contents, hcontents, analysis, hlearned, hfailure, d, hd,
    (Path.same_iff _ _).2 (hparts.trans hr)⟩

theorem Chain.congr {p q e f : Path} {n : Nat} (h : s.Chain e n p) (he : e.parts = f.parts)
    (hp : p.parts = q.parts) : s.Chain f n q := by
  induction h generalizing q with
  | start hsame =>
      have hparts := (Path.same_iff _ _).1 hsame
      exact .start ((Path.same_iff _ _).2 (hp.symm.trans (hparts.trans he)))
  | step _ hstep ih => exact .step (ih rfl) (hstep.congr hp)

theorem chain_congr {p q e f : Path} (he : e.parts = f.parts) (hp : p.parts = q.parts) (n : Nat) :
    s.Chain e n p ↔ s.Chain f n q :=
  ⟨fun h => h.congr he hp, fun h => h.congr he.symm hp.symm⟩

theorem distance_congr {p q e f : Path} (he : e.parts = f.parts) (hp : p.parts = q.parts)
    (n : Nat) : s.Distance e p n ↔ s.Distance f q n := by
  unfold Distance
  simp only [chain_congr he hp]

theorem collectPlain_reaches (fixed : s.loader.Fixed) (unlimited : s.options.fileLimit = none)
    {entrypoint : Path} {reach : Reach} (h : s.collectPlain entrypoint = .ok reach) :
    s.ReachesInOrder reach.entrypoint.path reach.files := by
  obtain ⟨a, level, -, hqueue, -, hspread, hranked⟩ := collectPlain_ranked fixed unlimited h
  have hdistinct := hspread.distinct
  have hloads := hspread.loads
  have hchains := hranked.chains
  have hsorted := hranked.sorted
  rw [hqueue, List.append_nil] at hdistinct hloads hchains hsorted
  have hcons := List.nodup_cons.1 hdistinct
  have hentry : ∀ f ∈ reach.files, ¬ f.path.same reach.entrypoint.path := by
    intro f hf hsame
    exact hcons.1 (List.mem_map.2 ⟨f, hf, (Path.same_iff _ _).1 hsame⟩)
  have hreads : ∀ f ∈ reach.files, s.Reads f.path := fun f hf =>
    ⟨f.contents, hloads f (List.mem_cons_of_mem _ hf)⟩
  refine ⟨?_, hentry, fun p => ⟨?_, ?_⟩, ?_⟩
  · refine (List.pairwise_map.1 hcons.2).imp fun {f g} hne hsame => hne ?_
    exact (Path.same_iff _ _).1 hsame
  · rintro ⟨f, hf, hsame⟩
    have hparts := (Path.same_iff _ _).1 hsame
    refine ⟨(hreads f hf).congr fixed hparts, fun hp => hentry f hf ?_, level f, ?_⟩
    · exact (Path.same_iff _ _).2 (hparts.trans ((Path.same_iff _ _).1 hp))
    · exact (hchains f (List.mem_cons_of_mem _ hf)).congr rfl hparts
  · rintro ⟨hp, hne, n, hchain⟩
    obtain ⟨f, hf, hparts, -⟩ := hranked.le_of_chain fixed hspread hqueue hchain hp
    rcases List.mem_cons.1 hf with rfl | hf
    · exact absurd ((Path.same_iff _ _).2 hparts.symm) hne
    · exact ⟨f, hf, (Path.same_iff _ _).2 hparts⟩
  · refine (List.pairwise_cons.1 hsorted).2.imp_of_mem fun {f g} hf hg hle m n hm hn => ?_
    have hf := List.mem_cons_of_mem reach.entrypoint hf
    have hg' := List.mem_cons_of_mem reach.entrypoint hg
    obtain ⟨g', hmem, hparts, hlevel⟩ :=
      hranked.le_of_chain fixed hspread hqueue hn.1 (hreads g hg)
    obtain rfl := List.inj_on_of_nodup_map hdistinct hmem hg' hparts
    have := hm.2 _ (hchains f hf)
    omega

theorem ReachesInOrder.congr {p q : Path} (hp : p.parts = q.parts) {fs gs : List SourceFile}
    (hfiles : List.Forall₂ SourceFile.Alike fs gs) (h : s.ReachesInOrder q gs) :
    s.ReachesInOrder p fs := by
  refine ⟨?_, ?_, fun r => ?_, ?_⟩
  · refine (pairwise_congr hfiles fun f f' g g' hf hg => ?_).2 h.distinct
    simp [Path.same_iff, hf.path, hg.path]
  · refine (forall_mem_congr hfiles fun f f' hf => ?_).2 h.apart
    simp [Path.same_iff, hf.path, hp]
  · have hiff := exists_mem_congr hfiles (P := fun f => f.path.same r)
      (Q := fun f => f.path.same r) fun f f' hf => by simp [Path.same_iff, hf.path]
    rw [hiff, h.mem_iff]
    simp [Path.same_iff, hp, chain_congr hp rfl]
  · refine (pairwise_congr hfiles fun f f' g g' hf hg => ?_).2 h.sorted
    simp [distance_congr hp hf.path, distance_congr hp hg.path]

/-- What is found like the walk without memory is reached in order. -/
theorem reachesInOrder_of_alike (fixed : s.loader.Fixed) (unlimited : s.options.fileLimit = none)
    {entrypoint : Path} {reach : Reach}
    (h : Alike Reach.Alike (.ok reach) (s.collectPlain entrypoint)) :
    reach.entrypoint.path.same entrypoint.normalize ∧
      s.ReachesInOrder reach.entrypoint.path reach.files := by
  generalize hother : s.collectPlain entrypoint = other at h
  cases h with
  | @ok _ plain halike =>
      have hentry := halike.entrypoint.path
      obtain ⟨-, -, -, -, hpath, -⟩ := collectPlain_ranked fixed unlimited hother
      refine ⟨(Path.same_iff _ _).2 (by rw [hentry, hpath]), ?_⟩
      exact (collectPlain_reaches fixed unlimited hother).congr hentry halike.files

/-- The files that a traversal reaches without a limit are, each once and none of them the
entrypoint, the readable paths at the end of a chain of dependencies from it, and those at the end
of a shorter chain come first. -/
theorem collect_reaches (fixed : s.loader.Fixed) (unlimited : s.options.fileLimit = none)
    (calls : List (Call Id)) (entrypoint : Path) (reach : Reach)
    (h : ((s.collect entrypoint).run (s.memoryAfter calls)).run.1 = .ok reach) :
    reach.entrypoint.path.same entrypoint.normalize ∧
      s.ReachesInOrder reach.entrypoint.path reach.files := by
  have hplain := collect_memoryAfter fixed calls entrypoint
  rw [h] at hplain
  exact reachesInOrder_of_alike fixed unlimited hplain

theorem collect_reaches_sample :
    sample.loader.Fixed ∧ sample.options.fileLimit = none ∧
      ∃ reach, ((sample.collect ⟨"/x/../a.js"⟩).run
          (sample.memoryAfter [.resolve ⟨"/gone.js"⟩, .collect ⟨"/b.js"⟩])).run.1 = .ok reach ∧
        reach.Alike sampleReach ∧
        reach.entrypoint.path.same (Path.mk "/x/../a.js").normalize ∧
        sample.ReachesInOrder reach.entrypoint.path reach.files := by
  obtain ⟨reach, hreach, halike⟩ := exists_collect_alike sample_fixed
    [.resolve ⟨"/gone.js"⟩, .collect ⟨"/b.js"⟩] sample_collectPlain
  exact ⟨sample_fixed, rfl, reach, hreach, halike,
    collect_reaches sample_fixed rfl _ _ reach hreach⟩

end Session

end ModuleTrace

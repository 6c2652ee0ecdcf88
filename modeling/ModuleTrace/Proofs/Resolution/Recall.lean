import ModuleTrace.Proofs.Resolution.Nearest
import ModuleTrace.Proofs.Resolution.Scan

/-!
# What is remembered of files and descriptors

Under a loader that never changes its answers, everything that is remembered is what the loader
says, up to spelling. Each question keeps this so and is answered by it, whatever was asked
before.
-/

namespace ModuleTrace

/-! ## Sources -/

/-- Everything in a cache is what the loader says. -/
structure SourceCache.Sound (loader : Loader Id) (cache : SourceCache) : Prop where
  files : ∀ (key : List Path.Part) (file : SourceFile), cache.files[key]? = some file →
    file.path.parts = key ∧ (loader.read file.path).run = .ok file.contents
  existence : ∀ (path : Path) (answer : Bool), cache.existence[path.parts]? = some answer →
    loader.has path = answer

def Loader.Serves (loader : Loader Id) (path : Path) : Except ReadError SourceFile → Prop
  | .ok file => file.path.parts = path.parts ∧ (loader.read path).run = .ok file.contents
  | .error error => (loader.read path).run = .error error

namespace Loader.Fixed

variable {loader : Loader Id} (fixed : loader.Fixed)

include fixed

theorem read_congr {p q : Path} (h : p.parts = q.parts) : loader.read p = loader.read q :=
  fixed.read_same p q ((Path.same_iff p q).2 h)

theorem has_congr {p q : Path} (h : p.parts = q.parts) : loader.has p = loader.has q := by
  rw [Loader.has, fixed.isFile_same p q ((Path.same_iff p q).2 h), Loader.has]

theorem text?_congr {p q : Path} (h : p.parts = q.parts) : loader.text? p = loader.text? q := by
  rw [Loader.text?, fixed.read_congr h, Loader.text?]

end Loader.Fixed

namespace SourceCache

variable {loader : Loader Id}

theorem sound_empty : Sound loader {} :=
  ⟨fun _ _ h => by simp at h, fun _ _ h => by simp at h⟩

theorem readFresh_ensures (path : Path) :
    Ensures (Sound loader) (readFresh loader path) (· = (loader.read path).run) := by
  unfold readFresh
  refine (Ensures.modify fun cache h => ⟨h.files, h.existence⟩).bind fun _ _ => ?_
  exact .lift (always_id.2 rfl)

theorem isFile_ensures (fixed : loader.Fixed) (path : Path) :
    Ensures (Sound loader) (isFile loader path) (· = loader.has path) := by
  unfold isFile
  refine Ensures.get.bind fun cache hcache => ?_
  split
  · rename_i answer hanswer
    exact .pure (hcache.existence path answer hanswer).symm
  · have hanswer : Always (· = loader.has path) (loader.isFile path) := always_id.2 rfl
    refine (Ensures.lift hanswer).bind fun answer ha => ?_
    subst ha
    refine (Ensures.modify fun cache h => ⟨h.files, ?_⟩).bind fun _ _ => .pure rfl
    intro other answer hanswer
    rcases insert_entry_cases hanswer with ⟨hparts, rfl⟩ | hold
    · exact fixed.has_congr hparts.symm
    · exact h.existence other answer hold

theorem load_ensures (fixed : loader.Fixed) (path : Path) :
    Ensures (Sound loader) (load loader path) (loader.Serves path) := by
  unfold load
  refine Ensures.get.bind fun cache hcache => ?_
  split
  · rename_i file hfile
    obtain ⟨hparts, hread⟩ := hcache.files path.parts file hfile
    exact .pure ⟨hparts, by rw [← fixed.read_congr hparts, hread]⟩
  · refine (readFresh_ensures path).bind fun answer hanswer => ?_
    cases answer with
    | error error => exact .pure hanswer.symm
    | ok contents =>
        have hread := hanswer.symm
        refine (Ensures.modify fun cache h => ⟨?_, ?_⟩).bind fun _ _ => .pure ⟨rfl, hread⟩
        · intro key file hfile
          rcases insert_entry_cases hfile with ⟨hparts, rfl⟩ | hold
          · exact ⟨hparts, hread⟩
          · exact h.files key file hold
        · intro other answer hother
          rcases insert_entry_cases hother with ⟨hparts, rfl⟩ | hold
          · rw [← fixed.has_congr hparts]
            exact fixed.isFile_of_read path contents hread
          · exact h.existence other answer hold

end SourceCache

/-! ## Descriptors -/

namespace Knowledge

/-- Everything that is known is what the loader says. -/
structure Sound (loader : Loader Id) (root : Option Path) (knowledge : Knowledge) : Prop where
  sources : knowledge.sources.Sound loader
  manifests : ∀ (directory : Path) (answer : Option Manifest),
    knowledge.manifests[directory.parts]? = some answer →
    Option.Rel Manifest.Alike answer (loader.manifestFor root directory)
  configs : ∀ (directory : Path) (answer : Option ProjectConfig),
    knowledge.configs[directory.parts]? = some answer →
    Option.Rel ProjectConfig.Alike answer (loader.configFor root directory)

variable {loader : Loader Id} {root : Option Path}

theorem sound_empty : Sound loader root {} :=
  ⟨SourceCache.sound_empty, fun _ _ h => by simp at h, fun _ _ h => by simp at h⟩

theorem withSources_ensures {α : Type} {p : α → Prop} {x : StateT SourceCache Id α}
    (h : Ensures (SourceCache.Sound loader) x p) : Ensures (Sound loader root) (withSources x) p :=
  h.withSources (fun _ hk => hk.sources) fun _ _ hk hsources =>
    ⟨hsources, hk.manifests, hk.configs⟩

theorem isFile_ensures (fixed : loader.Fixed) (path : Path) :
    Ensures (Sound loader root) (isFile loader path) (· = loader.has path) :=
  withSources_ensures (SourceCache.isFile_ensures fixed path)

theorem load_ensures (fixed : loader.Fixed) (path : Path) :
    Ensures (Sound loader root) (load loader path) (loader.Serves path) :=
  withSources_ensures (SourceCache.load_ensures fixed path)

theorem read?_ensures (path : Path) :
    Ensures (Sound loader root) (read? loader path) (· = (loader.text? path).run) := by
  unfold read? readFresh Loader.text?
  exact (withSources_ensures (SourceCache.readFresh_ensures path)).bind_eq fun _ => .pure rfl

theorem manifestIn_ensures (fixed : loader.Fixed) {d e : Path} (h : d.parts = e.parts) :
    Ensures (Sound loader root) (manifestIn loader d)
      (Option.Rel Manifest.Alike · (loader.manifestIn e)) := by
  have hpath : (d / Manifest.fileName).parts = (e / Manifest.fileName).parts :=
    Path.parts_div_congr h _
  unfold manifestIn Loader.manifestIn
  refine (isFile_ensures fixed _).bind fun answer hanswer => ?_
  rw [hanswer, fixed.has_congr hpath]
  simp only
  split
  · refine (read?_ensures _).bind fun contents hcontents => .pure ?_
    rw [hcontents, fixed.text?_congr hpath]
    cases (loader.text? (e / Manifest.fileName)).run with
    | none => exact .none
    | some contents => exact Manifest.parse?_alike hpath contents
  · exact .pure .none

theorem firstFile_ensures (fixed : loader.Fixed) (paths : List Path) :
    Ensures (Sound loader root) (firstFile loader paths) (· = paths.find? loader.has) := by
  induction paths with
  | nil => exact .pure rfl
  | cons path rest ih =>
      unfold firstFile
      refine (isFile_ensures fixed path).bind fun answer hanswer => ?_
      subst hanswer
      cases hpath : loader.has path with
      | true => exact .pure (by simp [hpath])
      | false => simpa [hpath] using ih

theorem loadOptions_ensures (depth : Nat) (path : Path) (contents : String) :
    Ensures (Sound loader root) (ProjectConfig.loadOptions (read? loader) depth path contents)
      (· = (ProjectConfig.loadOptions loader.text? depth path contents).run) := by
  induction depth generalizing path contents with
  | zero =>
      unfold ProjectConfig.loadOptions
      cases Json.parse? (Json.strict contents) with
      | none => exact .pure rfl
      | some json => exact .pure rfl
  | succ depth ih =>
      unfold ProjectConfig.loadOptions
      cases Json.parse? (Json.strict contents) with
      | none => exact .pure rfl
      | some json =>
          refine (Ensures.foldlM_eq (fun inherited parent => ?_) _ _).bind_eq
            fun inherited => .pure rfl
          refine (read?_ensures parent).bind_eq fun text => ?_
          cases text with
          | none => exact .pure rfl
          | some contents =>
              refine (ih parent contents).bind_eq fun options => ?_
              cases options with
              | error error => exact .pure rfl
              | ok options => exact .pure rfl

theorem loadConfig_ensures (path : Path) :
    Ensures (Sound loader root) (ProjectConfig.load (read? loader) path)
      (· = (ProjectConfig.load loader.text? path).run) := by
  unfold ProjectConfig.load
  refine (read?_ensures path).bind_eq fun contents => ?_
  cases contents with
  | none => exact .pure rfl
  | some contents =>
      unfold ProjectConfig.parseWith
      refine (loadOptions_ensures _ path contents).bind_eq fun options => ?_
      cases options with
      | error error => exact .pure rfl
      | ok options => exact .pure rfl

theorem find?_has_alike (fixed : loader.Fixed) {ps qs : List Path}
    (h : List.Forall₂ (fun p q : Path => p.parts = q.parts) ps qs) :
    Option.Rel (fun p q : Path => p.parts = q.parts) (ps.find? loader.has)
      (qs.find? loader.has) := by
  induction h with
  | nil => exact .none
  | @cons p q ps qs hpq _ ih =>
      rw [List.find?_cons, List.find?_cons, fixed.has_congr hpq]
      cases loader.has q with
      | true => exact .some hpq
      | false => exact ih

theorem configIn_ensures (fixed : loader.Fixed) {d e : Path} (h : d.parts = e.parts) :
    Ensures (Sound loader root) (configIn loader d)
      (Option.Rel ProjectConfig.Alike · (loader.configIn e)) := by
  have hnames : List.Forall₂ (fun p q : Path => p.parts = q.parts)
      (ProjectConfig.fileNames.map (d / ·)) (ProjectConfig.fileNames.map (e / ·)) := by
    rw [List.forall₂_map_left_iff, List.forall₂_map_right_iff, List.forall₂_same]
    exact fun name _ => Path.parts_div_congr h name
  have hfirst := find?_has_alike fixed hnames
  unfold configIn Loader.configIn
  refine (firstFile_ensures fixed _).bind fun found hfound => ?_
  rw [← hfound] at hfirst
  generalize (ProjectConfig.fileNames.map (e / ·)).find? loader.has = other at hfirst ⊢
  cases hfirst with
  | none => exact .pure .none
  | @some p q hpq =>
      refine (loadConfig_ensures p).bind fun config hconfig => .pure ?_
      rw [hconfig]
      refine ProjectConfig.load_alike hpq ?_
      rw [Loader.text?, fixed.read_congr hpq, Loader.text?]

/-! ## The nearest descriptor -/

section

variable {α : Type} (R : α → α → Prop) (findIn : Path → Option α) (root : Option Path)

/-- What is found in a directory itself, under every spelling of it. -/
def Finds (answer : Option α) (directory : Path) : Prop :=
  ∀ e : Path, e.parts = directory.parts → Option.Rel R answer (findIn e)

/-- An answer for a directory, under every spelling of it. -/
def Settles (answer : Option α) (directory : Path) : Prop :=
  ∀ e : Path, e.parts = directory.parts →
    Option.Rel R answer (Loader.nearest findIn root e.ancestors)

variable {R findIn root}

theorem settles_found (found : α) (d : Path) (h : Finds R findIn (some found) d) :
    Settles R findIn root (some found) d := by
  intro e he
  have hfind := h e he
  rw [Path.ancestors_eq, Loader.nearest]
  generalize findIn e = other at hfind ⊢
  cases hfind with
  | some hfound => exact .some hfound

theorem settles_root (d : Path) (h : Finds R findIn none d)
    (hroot : root.any d.same = true) : Settles R findIn root none d := by
  intro e he
  have hfind := h e he
  have hroot : root.any e.same = true := by
    have hsame : e.same = d.same := funext fun x => by simp [Path.same, he]
    rw [hsame, hroot]
  rw [Path.ancestors_eq, Loader.nearest, if_pos hroot]
  generalize findIn e = other at hfind ⊢
  cases hfind with
  | none => exact .none

/-- A directory without a descriptor has that of its parent. -/
theorem settles_parent (answer : Option α) (d : Path) (h : Finds R findIn none d)
    (hroot : root.any d.same = false)
    (hparent : ∀ p, d.parent? = some p → Settles R findIn root answer p)
    (hnone : d.parent? = none → answer = none) : Settles R findIn root answer d := by
  intro e he
  have hfind := h e he
  have hroot : root.any e.same = false := by
    have hsame : e.same = d.same := funext fun x => by simp [Path.same, he]
    rw [hsame, hroot]
  rw [Path.ancestors_eq, Loader.nearest, hroot]
  generalize findIn e = other at hfind ⊢
  cases hfind with
  | none =>
      have hrel := Path.parent?_congr he
      generalize he' : e.parent? = eparent, hd : d.parent? = dparent at hrel hparent hnone ⊢
      cases hrel with
      | none =>
          rw [hnone rfl]
          exact .none
      | @some p p' hpp => exact hparent p' rfl p hpp

end

section

variable {loader : Loader Id} {root : Option Path}

theorem manifestKind_recalls (fixed : loader.Fixed) :
    (manifestKind loader).Recalls root (Finds Manifest.Alike loader.manifestIn)
      (Settles Manifest.Alike loader.manifestIn root) (Sound loader root) where
  known knowledge h directory answer hanswer e he := by
    have hanswer : knowledge.manifests[e.parts]? = some answer := by rw [he]; exact hanswer
    exact h.manifests e answer hanswer
  remember knowledge h directory answer hanswer := by
    refine ⟨h.sources, fun e other hother => ?_, h.configs⟩
    rcases insert_entry_cases hother with ⟨hkey, rfl⟩ | hold
    · exact hanswer e hkey.symm
    · exact h.manifests e other hold
  findIn directory := .forall_of_id ⟨directory, rfl⟩ fun _ he => manifestIn_ensures fixed he.symm
  found := settles_found
  atRoot := settles_root
  atParent := settles_parent

theorem configKind_recalls (fixed : loader.Fixed) :
    (configKind loader).Recalls root (Finds ProjectConfig.Alike loader.configIn)
      (Settles ProjectConfig.Alike loader.configIn root) (Sound loader root) where
  known knowledge h directory answer hanswer e he := by
    have hanswer : knowledge.configs[e.parts]? = some answer := by rw [he]; exact hanswer
    exact h.configs e answer hanswer
  remember knowledge h directory answer hanswer := by
    refine ⟨h.sources, h.manifests, fun e other hother => ?_⟩
    rcases insert_entry_cases hother with ⟨hkey, rfl⟩ | hold
    · exact hanswer e hkey.symm
    · exact h.configs e other hold
  findIn directory := .forall_of_id ⟨directory, rfl⟩ fun _ he => configIn_ensures fixed he.symm
  found := settles_found
  atRoot := settles_root
  atParent := settles_parent

theorem manifestFor_ensures (fixed : loader.Fixed) {d e : Path} (h : d.parts = e.parts) :
    Ensures (Sound loader root) (manifestFor loader root d)
      (Option.Rel Manifest.Alike · (loader.manifestFor root e)) :=
  (nearest_ensures (manifestKind_recalls fixed) d).mono fun _ hanswer => hanswer e h.symm

theorem configFor_ensures (fixed : loader.Fixed) {d e : Path} (h : d.parts = e.parts) :
    Ensures (Sound loader root) (configFor loader root d)
      (Option.Rel ProjectConfig.Alike · (loader.configFor root e)) :=
  (nearest_ensures (configKind_recalls fixed) d).mono fun _ hanswer => hanswer e h.symm

end

end Knowledge

end ModuleTrace

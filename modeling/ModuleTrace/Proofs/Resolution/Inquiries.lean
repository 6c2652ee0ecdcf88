import ModuleTrace.Proofs.Resolution.Climbing

/-!
# Descriptors asked about in any order

Memory does not change what is found for a directory, in whatever order directories are asked
about: what one climb remembers is what another one would find. And since a climb remembers every
directory that it looks into, no manifest is read on two of them.
-/

namespace ModuleTrace

inductive Inquiry where
  | manifest (directory : Path)
  | config (directory : Path)

/-- The answer to an inquiry. One for a manifest goes with the files that were read for it. -/
inductive Reply where
  | manifest (found : Option Manifest) (reads : List Path)
  | config (found : Option ProjectConfig)

namespace Reply

def manifestReads : Reply → List Path
  | .manifest _ reads => reads
  | .config _ => []

end Reply

namespace Inquiry

section

variable (loader : Loader Id) (root : Option Path)

def answer (knowledge : Knowledge) : Inquiry → Reply × Knowledge
  | .manifest directory =>
      let result := ((Knowledge.manifestFor loader root directory).run knowledge).run
      (.manifest result.1 (Knowledge.readSince knowledge result.2), result.2)
  | .config directory =>
      let result := ((Knowledge.configFor loader root directory).run knowledge).run
      (.config result.1, result.2)

def answerAll (knowledge : Knowledge) : List Inquiry → List Reply
  | [] => []
  | inquiry :: rest =>
      let (reply, after) := answer loader root knowledge inquiry
      reply :: answerAll after rest

end

/-- A descriptor found for a directory is the first one on its way up, and inside the root none
is found outside. -/
structure Found {α : Type} (R : α → α → Prop) (findIn : Path → Option α) (placeOf : α → Path)
    (root : Option Path) (directory : Path) (found : Option α) : Prop where
  first : Option.Rel R found ((Loader.climb root directory.ancestors).findSome? findIn)
  inside : ∀ boundary, root = some boundary → directory.isUnder boundary = true →
    ∀ descriptor, found = some descriptor → (placeOf descriptor).isUnder boundary = true

def Exact (loader : Loader Id) (root : Option Path) : Inquiry → Reply → Prop
  | .manifest directory, .manifest found _ =>
      Found Manifest.Alike loader.manifestIn Manifest.directory root directory found
  | .config directory, .config found =>
      Found ProjectConfig.Alike loader.configIn ProjectConfig.directory root directory found
  | _, _ => False

theorem found_of_nearest {α : Type} {R : α → α → Prop} {findIn : Path → Option α}
    {placeOf : α → Path} {root : Option Path} {directory : Path} {found : Option α}
    (hplace : ∀ a b, R a b → (placeOf a).parts = (placeOf b).parts)
    (hfind : ∀ d descriptor, findIn d = some descriptor → (placeOf descriptor).parts = d.parts)
    (h : Option.Rel R found (Loader.nearest findIn root directory.ancestors)) :
    Found R findIn placeOf root directory found := by
  rw [Loader.nearest_eq_findSome?] at h
  refine ⟨h, ?_⟩
  rintro boundary rfl hinside descriptor rfl
  cases hother : (Loader.climb (some boundary) directory.ancestors).findSome? findIn with
  | none =>
      rw [hother] at h
      cases h
  | some other =>
      rw [hother] at h
      cases h with
      | some halike =>
          obtain ⟨d, hd, hfound⟩ := List.exists_of_findSome?_eq_some hother
          have hparts : (placeOf descriptor).parts = d.parts :=
            (hplace _ _ halike).trans (hfind d other hfound)
          rw [Path.isUnder_congr hparts]
          exact Loader.isUnder_of_mem_climb hinside hd

section

variable {loader : Loader Id} {root : Option Path}

theorem answer_exact (fixed : loader.Fixed) {knowledge : Knowledge}
    (hsound : knowledge.Sound loader root) (inquiry : Inquiry) :
    Exact loader root inquiry (answer loader root knowledge inquiry).1 ∧
      (answer loader root knowledge inquiry).2.Sound loader root := by
  cases inquiry with
  | manifest directory =>
      have hrun := ensures_id.1
        (Knowledge.manifestFor_ensures fixed (rfl : directory.parts = _)) knowledge hsound
      refine ⟨found_of_nearest ?_ (fun _ _ => Loader.directory_manifestIn) hrun.1, hrun.2⟩
      exact fun a b h => Path.parts_getD_parent? h.path _
  | config directory =>
      have hrun := ensures_id.1
        (Knowledge.configFor_ensures fixed (rfl : directory.parts = _)) knowledge hsound
      refine ⟨found_of_nearest ?_ (fun _ _ => Loader.directory_configIn) hrun.1, hrun.2⟩
      exact fun a b h => Path.parts_getD_parent? h.path _

theorem answerAll_exact (fixed : loader.Fixed) (inquiries : List Inquiry) {knowledge : Knowledge}
    (hsound : knowledge.Sound loader root) :
    List.Forall₂ (Exact loader root) inquiries (answerAll loader root knowledge inquiries) := by
  induction inquiries generalizing knowledge with
  | nil => exact .nil
  | cons inquiry rest ih =>
      have hanswer := answer_exact fixed hsound inquiry
      exact .cons hanswer.1 (ih hanswer.2)

/-- No manifest is read whose directory was known before, and none is read twice. By induction on
the inquiries: what is read for the first one is known to those after it. -/
theorem reads_answerAll (loader : Loader Id) (root : Option Path) (inquiries : List Inquiry)
    (knowledge : Knowledge) :
    (((answerAll loader root knowledge inquiries).flatMap Reply.manifestReads).map
        Path.parts).Nodup ∧
      ∀ path ∈ (answerAll loader root knowledge inquiries).flatMap Reply.manifestReads,
        ∃ key : List Path.Part, path.parts = key ++ [.name Manifest.fileName] ∧
          knowledge.manifests[key]? = none := by
  induction inquiries generalizing knowledge with
  | nil => exact ⟨.nil, by simp [answerAll]⟩
  | cons inquiry rest ih =>
      cases inquiry with
      | config directory =>
          have hmanifests : (answer loader root knowledge (.config directory)).2.manifests
              = knowledge.manifests :=
            (ensures_id.1 (Knowledge.configFor_manifests loader root directory) knowledge rfl).2
          have hrest := ih (answer loader root knowledge (.config directory)).2
          rw [hmanifests] at hrest
          exact hrest
      | manifest directory =>
          have hclimbed : Knowledge.Climbed knowledge
              (answer loader root knowledge (.manifest directory)).2 := by
            have hrun := always_id.1
              (Knowledge.manifestFor_climbed loader root directory knowledge rfl)
            exact hrun
          obtain ⟨hrest, hunknown⟩ := ih (answer loader root knowledge (.manifest directory)).2
          have hreads : (answerAll loader root knowledge
              (.manifest directory :: rest)).flatMap Reply.manifestReads
              = Knowledge.readSince knowledge
                  (answer loader root knowledge (.manifest directory)).2
                ++ (answerAll loader root (answer loader root knowledge (.manifest directory)).2
                  rest).flatMap Reply.manifestReads := rfl
          rw [hreads]
          constructor
          · rw [List.map_append, List.nodup_append]
            refine ⟨hclimbed.once, hrest, ?_⟩
            rintro parts hfirst other hlater rfl
            obtain ⟨path, hpath, hparts⟩ := List.mem_map.1 hfirst
            obtain ⟨later, hmem, hsame⟩ := List.mem_map.1 hlater
            obtain ⟨key, hkey, -, hknown⟩ := hclimbed.fresh path hpath
            obtain ⟨key', hkey', hnone⟩ := hunknown later hmem
            have hkeys : key = key' := by
              rw [← hparts, hkey, hkey'] at hsame
              exact (List.append_cancel_right hsame).symm
            exact hknown (hkeys ▸ hnone)
          · intro path hpath
            rcases List.mem_append.1 hpath with hpath | hpath
            · obtain ⟨key, hkey, hnone, -⟩ := hclimbed.fresh path hpath
              exact ⟨key, hkey, hnone⟩
            · obtain ⟨key, hkey, hnone⟩ := hunknown path hpath
              exact ⟨key, hkey, hclimbed.kept key hnone⟩

/-- Under a loader that never changes its answers, descriptors asked for in any order are those of
the first directories on the way up that have usable ones, none comes from outside the root to the
inside, and no manifest is read twice to find them. -/
theorem replies_exact (fixed : loader.Fixed) (root : Option Path) (inquiries : List Inquiry) :
    List.Forall₂ (Exact loader root) inquiries (answerAll loader root {} inquiries) ∧
      (((answerAll loader root {} inquiries).flatMap Reply.manifestReads).map
        Path.parts).Nodup :=
  ⟨answerAll_exact fixed inquiries Knowledge.sound_empty,
    (reads_answerAll loader root inquiries {}).1⟩

/-- What alike descriptors agree on can be read off the first one on the way up. -/
theorem Found.exists_of_map {α β : Type} {R : α → α → Prop} {findIn : Path → Option α}
    {placeOf : α → Path} {root : Option Path} {directory : Path} {found : Option α}
    (h : Found R findIn placeOf root directory found) {read : α → β} {value : β}
    (hread : ∀ a b, R a b → read a = read b)
    (hfirst : ((Loader.climb root directory.ancestors).findSome? findIn).map read = some value) :
    ∃ descriptor, found = some descriptor ∧ read descriptor = value := by
  obtain ⟨other, hother, rfl⟩ := Option.map_eq_some_iff.1 hfirst
  have hrel := h.first
  rw [hother] at hrel
  cases hrel with
  | @some descriptor _ halike => exact ⟨descriptor, rfl, hread _ _ halike⟩

/-- A project inside another one. The descriptors in its directory `a` cannot be parsed. -/
def nestedProject : Loader Id :=
  .ofTexts [
    ([.root, .name "package.json"], "\x7b\"name\":\"outside\"\x7d"),
    ([.root, .name "p", .name "package.json"], "\x7b\"name\":\"p\"\x7d"),
    ([.root, .name "p", .name "jsconfig.json"], "\x7b\x7d"),
    ([.root, .name "p", .name "a", .name "package.json"], "\x7b"),
    ([.root, .name "p", .name "a", .name "tsconfig.json"], "\x7b"),
    ([.root, .name "p", .name "a", .name "jsconfig.json"], "\x7b\x7d")]

theorem replies_exact_nested :
    nestedProject.Fixed ∧ ∃ manifest config above reads more,
      answerAll nestedProject (some ⟨"/p"⟩) {}
          [.manifest ⟨"/p/a/b"⟩, .config ⟨"/p/a"⟩, .manifest ⟨"/p/./a"⟩]
        = [.manifest (some manifest) reads, .config (some config), .manifest (some above) more] ∧
      manifest.name = some "p" ∧ config.path.parts = (⟨"/p/jsconfig.json"⟩ : Path).parts ∧
      above.name = some "p" ∧ ((reads ++ more).map Path.parts).Nodup := by
  have fixed : nestedProject.Fixed := Loader.ofTexts_fixed _
  refine ⟨fixed, ?_⟩
  have hreplies := replies_exact fixed (some ⟨"/p"⟩)
    [.manifest ⟨"/p/a/b"⟩, .config ⟨"/p/a"⟩, .manifest ⟨"/p/./a"⟩]
  generalize answerAll nestedProject (some ⟨"/p"⟩) {} _ = replies at hreplies ⊢
  obtain ⟨hexact, hreads⟩ := hreplies
  obtain _ | ⟨hfirst, _ | ⟨hsecond, _ | ⟨hthird, _ | _⟩⟩⟩ := hexact
  rename_i first second third
  cases first with
  | config _ => exact hfirst.elim
  | manifest found reads =>
      cases second with
      | manifest _ _ => exact hsecond.elim
      | config config =>
          cases third with
          | config _ => exact hthird.elim
          | manifest above more =>
              have hname : ((Loader.climb (some ⟨"/p"⟩) (⟨"/p/a/b"⟩ : Path).ancestors).findSome?
                  nestedProject.manifestIn).map Manifest.name = some (some "p") := by
                decide +kernel
              have hconfig : ((Loader.climb (some ⟨"/p"⟩) (⟨"/p/a"⟩ : Path).ancestors).findSome?
                  nestedProject.configIn).map (·.path.parts)
                  = some (⟨"/p/jsconfig.json"⟩ : Path).parts := by
                decide +kernel
              have habove : ((Loader.climb (some ⟨"/p"⟩) (⟨"/p/./a"⟩ : Path).ancestors).findSome?
                  nestedProject.manifestIn).map Manifest.name = some (some "p") := by
                decide +kernel
              obtain ⟨manifest, rfl, hmanifest⟩ := hfirst.exists_of_map (fun _ _ h => h.name) hname
              obtain ⟨config, rfl, hfile⟩ := hsecond.exists_of_map (fun _ _ h => h.path) hconfig
              obtain ⟨above, rfl, hsame⟩ := hthird.exists_of_map (fun _ _ h => h.name) habove
              exact ⟨manifest, config, above, reads, more, rfl, hmanifest, hfile, hsame, by
                simpa [Reply.manifestReads] using hreads⟩

end

end Inquiry

end ModuleTrace

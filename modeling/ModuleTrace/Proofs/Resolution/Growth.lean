import ModuleTrace.Proofs.Resolution.CleanDescriptors
import ModuleTrace.Proofs.Resolution.Keeping

/-!
# Files that stay in memory

Whatever is asked, a file that was read stays in memory as it was read. Only a load adds to the
files, and only where none was before.
-/

namespace ModuleTrace

namespace SourceCache

def Grows (before after : SourceCache) : Prop :=
  ∀ (key : List Path.Part) (file : SourceFile),
    before.files[key]? = some file → after.files[key]? = some file

theorem Grows.refl (cache : SourceCache) : Grows cache cache :=
  fun _ _ h => h

/-- The cache has grown and keeps files under their own parts. -/
def GrownFrom (before cache : SourceCache) : Prop :=
  cache.Tidy ∧ Grows before cache

/-- Only a file under a new key may join the files. -/
theorem GrownFrom.insert {before cache : SourceCache} (h : GrownFrom before cache)
    (file : SourceFile) (hnew : cache.files[file.path.parts]? = none)
    {existence : Std.HashMap (List Path.Part) Bool} {readCount : Nat} {journal : List Access} :
    GrownFrom before
      ⟨cache.files.insert file.path.parts file, existence, readCount, journal⟩ := by
  refine ⟨fun key found hfound => ?_, fun key found hfound => ?_⟩
  · rcases insert_entry_cases hfound with ⟨hkey, rfl⟩ | hold
    · exact hkey
    · exact h.1 key found hold
  · have hold := h.2 key found hfound
    have hne : file.path.parts ≠ key := by
      rintro rfl
      rw [hnew] at hold
      cases hold
    simpa [Std.HashMap.getElem?_insert, hne] using hold

section

variable {m : Type → Type} [Monad m] [LawfulMonad m] (loader : Loader m)

/-- A file that is loaded is in memory then. -/
theorem load_grows (before : SourceCache) (path : Path) :
    Leads (GrownFrom before) (load loader path) fun answer cache => GrownFrom before cache ∧
      ∀ file, answer = .ok file →
        file.path.parts = path.parts ∧ cache.files[file.path.parts]? = some file := by
  unfold load
  refine Leads.get.bind fun known => ?_
  cases hknown : known.files[path.parts]? with
  | some file =>
      refine .pure fun cache h => ⟨h.2, fun other hother => ?_⟩
      cases hother
      obtain ⟨rfl, hgrown⟩ := h
      have hparts := hgrown.1 path.parts file hknown
      exact ⟨hparts, hparts ▸ hknown⟩
  | none =>
      -- To read adds no file, so the place that was free before is free behind it.
      have hread := readFresh_files loader
        (fun files => GrownFrom before { files } ∧ files[path.parts]? = none)
        (.top (loader.read path))
      refine Leads.weaken (hread.leads fun answer _ => ?_) ?_
      · cases answer with
        | error error => exact .pure fun cache h => ⟨h.1, by simp⟩
        | ok contents =>
            refine (Leads.modify (J := fun cache => GrownFrom before cache ∧
              cache.files[path.parts]? = some ⟨path, contents⟩) fun cache h => ?_).bind
                fun _ => .pure fun cache h => ⟨h.1, ?_⟩
            · exact ⟨h.1.insert ⟨path, contents⟩ h.2, by simp⟩
            · rintro file ⟨⟩
              exact ⟨rfl, h.2⟩
      · rintro cache ⟨rfl, hgrown⟩
        exact ⟨hgrown, hknown⟩

theorem grownFrom_kept (before : SourceCache) : Kept loader (GrownFrom before) where
  isFile := isFile_files loader fun files => GrownFrom before { files }
  load path := (load_grows loader before path).mono fun _ _ h => ⟨trivial, h.1⟩
  readFresh _ := readFresh_files loader (fun files => GrownFrom before { files }) (.top _)

end

end SourceCache

end ModuleTrace

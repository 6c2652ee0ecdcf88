import ModuleTrace.Proofs.Resolution.Probing

/-!
# Contents that count for resolution

Resolution asks of most paths only whether they are files. It reads the contents of manifests and
of configurations, and their names end in the same way; the contents of any other file have no
bearing on what a specifier means.
-/

namespace ModuleTrace

namespace Path

def NamesDescriptor (p : Path) : Prop :=
  ∃ text, p.name? = some text ∧ ".json".toList <:+ text.toList

theorem namesDescriptor_of_last {p : Path} {text : String}
    (hlast : p.parts.getLast? = some (.name text)) (hjson : ".json".toList <:+ text.toList) :
    p.NamesDescriptor :=
  ⟨text, (name?_eq_some_iff p text).2 hlast, hjson⟩

theorem namesDescriptor_div (d : Path) {name : String}
    (hname : name ∈ Manifest.fileName :: ProjectConfig.fileNames) : (d / name).NamesDescriptor := by
  have hjson : ∀ name ∈ Manifest.fileName :: ProjectConfig.fileNames,
      ".json".toList <:+ name.toList := by decide
  have hempty : ∀ name ∈ Manifest.fileName :: ProjectConfig.fileNames,
      ((⟨""⟩ : Path) / name).parts.getLast? = some (.name name) := by decide
  have hplain : Part.Plain (.name name) := by
    rcases List.mem_cons.1 hname with rfl | hname
    · exact Manifest.plain_fileName
    · exact ProjectConfig.plain_of_mem_fileNames hname
  refine namesDescriptor_of_last ?_ (hjson name hname)
  obtain ⟨text⟩ := d
  by_cases htext : text = ""
  · rw [htext]
    exact hempty name hname
  · have hparts : ((⟨text⟩ : Path) / name).parts = (⟨text⟩ : Path).parts ++ [.name name] :=
      parts_join_name htext hplain
    rw [hparts, List.getLast?_concat]

theorem namesDescriptor_append (p : Path) : (p.append "json").NamesDescriptor := by
  obtain ⟨front, last, -, hinner⟩ :=
    inner_append_extension p.text.toList ProjectConfig.extends_json
  refine @namesDescriptor_of_last _ (String.ofList (last ++ '.' :: "json".toList)) ?_ ?_
  · have happend : (p.append "json").text.toList = p.text.toList ++ '.' :: "json".toList := by
      simp [Path.append]
    rw [parts_eq, happend, hinner, ← List.append_assoc, List.getLast?_concat]
  · exact ⟨last, by simp⟩

theorem namesDescriptor_of_extension {p : Path} (h : p.extension? = some "json") :
    p.NamesDescriptor := by
  obtain ⟨text, htext, hsplit⟩ := Option.bind_eq_some_iff.1 h
  obtain ⟨-, -, hstem⟩ := splitName_eq_some hsplit
  exact ⟨text, htext, (splitName text).1.toList, hstem.symm⟩

/-- A path of no kind has no such name, but for the name that is nothing else. -/
theorem not_namesDescriptor {p : Path} (hkind : FileKind.ofPath? p = none)
    (hname : p.name? ≠ some ".json") : ¬ p.NamesDescriptor := by
  rintro ⟨text, htext, stem, hstem⟩
  have hne : String.ofList stem ≠ "" := by
    intro hempty
    have hnil : stem = [] := by simpa using hempty
    have htext' : text = ".json" := String.toList_inj.1 (by rw [← hstem, hnil, List.nil_append])
    exact hname (htext' ▸ htext)
  have hsplit : (splitName text).2 = some "json" :=
    congrArg Prod.snd (splitName_concat hne (by decide) (by simpa using hstem.symm))
  have hextension : p.extension? = some "json" := by
    rw [extension?, htext]
    exact hsplit
  rw [FileKind.ofPath?, hextension] at hkind
  revert hkind
  decide

end Path

theorem ProjectConfig.namesDescriptor_of_extendedPath? {directory path : Path} {text : String}
    (h : extendedPath? directory text = some path) : path.NamesDescriptor := by
  unfold extendedPath? at h
  split at h
  · simp only [Option.some.injEq] at h
    split at h
    · rename_i hextension
      exact h ▸ Path.namesDescriptor_of_extension hextension
    · exact h ▸ Path.namesDescriptor_append _
  · cases h

/-! ## Loaders that differ in other contents -/

/-- Loaders of the same files, with the same contents where descriptors may be. -/
structure Loader.SameDescriptors (a b : Loader Id) : Prop where
  has : ∀ path, a.has path = b.has path
  text? : ∀ path : Path, path.NamesDescriptor → a.text? path = b.text? path

theorem foldlM_congr {α β : Type} {f g : β → α → Id β} {as : List α}
    (h : ∀ b, ∀ a ∈ as, f b a = g b a) (b : β) : as.foldlM f b = as.foldlM g b := by
  induction as generalizing b with
  | nil => rfl
  | cons a rest ih =>
      rw [List.foldlM_cons, List.foldlM_cons, h b a List.mem_cons_self]
      have hrest : ∀ b, ∀ other ∈ rest, f b other = g b other :=
        fun b other hother => h b other (List.mem_cons_of_mem _ hother)
      exact bind_congr fun c => ih hrest c

namespace ProjectConfig

variable {read other : Path → Id (Option String)}
  (h : ∀ path : Path, path.NamesDescriptor → read path = other path)

include h

/-- By induction on how far configurations are followed: all that they extend are descriptors. -/
theorem loadOptions_congr (depth : Nat) (path : Path) (contents : String) :
    loadOptions read depth path contents = loadOptions other depth path contents := by
  induction depth generalizing path contents with
  | zero =>
      unfold loadOptions
      rfl
  | succ depth ih =>
      unfold loadOptions
      cases Json.parse? (Json.strict contents) with
      | none => rfl
      | some json =>
          refine congrArg (· >>= _) (foldlM_congr (fun inherited parent hparent => ?_) _)
          obtain ⟨text, -, hextended⟩ := List.mem_filterMap.1 hparent
          rw [h parent (namesDescriptor_of_extendedPath? hextended)]
          simp only [ih]

theorem load_congr {path : Path} (hpath : path.NamesDescriptor) :
    load read path = load other path := by
  unfold load parseWith
  rw [h path hpath]
  simp only [loadOptions_congr h]

end ProjectConfig

namespace Loader.SameDescriptors

variable {a b : Loader Id} (h : a.SameDescriptors b)

include h

theorem manifestIn : a.manifestIn = b.manifestIn := by
  funext directory
  have hpath := Path.namesDescriptor_div directory (List.mem_cons_self (a := Manifest.fileName))
  unfold Loader.manifestIn
  simp only [h.has, h.text? _ hpath]

theorem configIn : a.configIn = b.configIn := by
  funext directory
  have hhas : a.has = b.has := funext h.has
  unfold Loader.configIn
  rw [hhas]
  split
  · rfl
  · rename_i path hfound
    obtain ⟨name, hname, rfl⟩ := List.mem_map.1 (List.mem_of_find?_eq_some hfound)
    have hpath := Path.namesDescriptor_div directory (List.mem_cons_of_mem _ hname)
    rw [ProjectConfig.load_congr h.text? hpath]

theorem manifestFor (root : Option Path) : a.manifestFor root = b.manifestFor root := by
  funext directory
  unfold Loader.manifestFor
  rw [h.manifestIn]

theorem configFor (root : Option Path) : a.configFor root = b.configFor root := by
  funext directory
  unfold Loader.configFor
  rw [h.configIn]

theorem manifestAt (root : Option Path) : a.manifestAt root = b.manifestAt root := by
  funext path
  unfold Loader.manifestAt
  rw [h.has, h.manifestFor]

theorem scan (root : Option Path) (depth : Nat) (target : Path) (config : Option ProjectConfig) :
    a.scan root depth target config = b.scan root depth target config := by
  induction depth generalizing target config with
  | zero =>
      unfold Loader.scan
      rfl
  | succ depth ih =>
      unfold Loader.scan
      rw [h.manifestAt, h.configFor]
      simp only [ih]

theorem outcome (specifier : String) : a.outcome specifier = b.outcome specifier := by
  funext attempt
  unfold Loader.outcome
  simp only [h.has, h.scan]

/-- A specifier means the same under both. -/
theorem meaning (s : Surroundings) (file : SourceFile) : a.meaning s file = b.meaning s file := by
  funext specifier
  unfold Loader.meaning Loader.bareAttempts Loader.packageAttempts Loader.workspaceAttempts
  rw [h.outcome, h.manifestFor, h.configFor]

end Loader.SameDescriptors

end ModuleTrace

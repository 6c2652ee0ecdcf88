import ModuleTrace.Proofs.Path.Clean
import ModuleTrace.Proofs.Resolution.BareNames

/-!
# Packages that name themselves

A package may be named inside itself, and then its manifest says what the specifier means; from
elsewhere the workspace says it. Each cuts the name off in its own way. Both look in the same place
as long as one slash follows the name: of several, the workspace drops all, and the manifest takes
what follows the first for an absolute path.
-/

namespace ModuleTrace

namespace Manifest

/-! ## What a manifest makes of a specifier with its name -/

theorem relativePath_name {manifest : Manifest} {name : String} (h : manifest.name = some name) :
    manifest.relativePath name = manifest.directory := by
  simp [relativePath, h]

theorem relativePath_append {manifest : Manifest} {name : String} (h : manifest.name = some name)
    (rest : String) : manifest.relativePath (name ++ "/" ++ rest) = manifest.directory / rest := by
  have hne : name ++ "/" ++ rest ≠ name := by
    intro heq
    have hlength := congrArg String.length heq
    simp only [String.length_append] at hlength
    have hslash : "/".length = 1 := rfl
    omega
  have hafter : Affix.after? (name ++ "/").toList (name ++ "/" ++ rest).toList
      = some rest.toList := Affix.after?_eq_some_iff.2 (by simp)
  have hdrop : Affix.dropStart? (name ++ "/") (name ++ "/" ++ rest) = some rest := by
    rw [Affix.dropStart?, hafter, Option.map_some, String.ofList_toList]
  simp only [relativePath, h, hne, if_false, hdrop]

end Manifest

theorem Path.Clean.parts_div_relative {d : Path} (hd : d.Clean) {rest : String}
    (hrest : (⟨rest⟩ : Path).isAbsolute = false) :
    (d / rest).parts = d.parts ++ Path.inner rest.toList :=
  Path.parts_join hd.text_ne hrest

namespace Classifier

/-! ## What the workspace makes of it -/

/-- Where a package is looked into for a specifier that begins with its name. -/
def targetIn (package : Package) (name specifier : String) : Path :=
  let rest := subpath name specifier
  if rest.isEmpty then package.path else (package.path / rest).normalize

theorem byWorkspace_eq {m : Type → Type} [Monad m] (loader : Loader m) {s : Surroundings}
    {package : Package} {specifier : String}
    (h : (s.workspace.bind fun w => w.byName (Specifier.packageName specifier)) = some package) :
    byWorkspace loader s specifier = (do
      let config ← Knowledge.configFor loader s.root package.path
      byRule loader (s.inside package) specifier config (.workspace package.name)
        (targetIn package (Specifier.packageName specifier) specifier)) := by
  unfold byWorkspace
  simp only [h]
  rfl

theorem trimLeft_slash {rest : String} (h : (⟨rest⟩ : Path).isAbsolute = false) :
    Affix.trimLeft (· = '/') ("/" ++ rest) = rest := by
  have hhead : rest.toList.head? ≠ some '/' := by simpa [Path.isAbsolute] using h
  apply String.toList_inj.1
  cases hrest : rest.toList with
  | nil => simp [Affix.trimLeft, hrest]
  | cons c cs =>
      have hc : c ≠ '/' := by simpa [hrest] using hhead
      simp [Affix.trimLeft, hrest, hc]

section

variable {manifest : Manifest} {package : Package} {name : String}
  (hname : manifest.name = some name) (hpath : package.path = manifest.directory)
  (hnormal : manifest.directory.normalize = manifest.directory)

include hname hpath hnormal

theorem targetIn_name :
    targetIn package name name = (manifest.relativePath name).normalize := by
  rw [targetIn, subpath_self, Manifest.relativePath_name hname, hnormal, hpath]
  rfl

theorem targetIn_append (hclean : manifest.directory.Clean) {rest : String}
    (hrest : (⟨rest⟩ : Path).isAbsolute = false) :
    targetIn package name (name ++ "/" ++ rest)
      = (manifest.relativePath (name ++ "/" ++ rest)).normalize := by
  rw [targetIn, String.append_assoc, subpath_append, trimLeft_slash hrest, ← String.append_assoc,
    Manifest.relativePath_append hname, hpath]
  by_cases hempty : rest = ""
  · -- A slash at the end goes on to nothing, and the directory is meant.
    have hparts : (manifest.directory / "").parts = manifest.directory.parts := by
      rw [hclean.parts_div_relative rfl]
      simp
    rw [hempty, Path.normalize_congr hparts, hnormal]
    rfl
  · have hnonempty : rest.isEmpty = false := by simpa using hempty
    simp only [hnonempty, Bool.false_eq_true, if_false]

end

theorem isAbsolute_rest {name rest : String}
    (h : Affix.begins (name ++ "//") (name ++ "/" ++ rest) = false) :
    (⟨rest⟩ : Path).isAbsolute = false := by
  cases habsolute : (⟨rest⟩ : Path).isAbsolute with
  | false => rfl
  | true =>
      obtain ⟨cs, hcs⟩ := (Path.isAbsolute_iff _).1 habsolute
      have hafter : Affix.after? (name ++ "//").toList (name ++ "/" ++ rest).toList = some cs := by
        rw [Affix.after?_eq_some_iff]
        simp [show rest.toList = '/' :: cs from hcs]
      rw [Affix.begins, hafter] at h
      cases h

/-- With at most one slash behind the name, both look in one place, and it is in the package. -/
theorem relativePath_meets {manifest : Manifest} {name specifier : String}
    (hname : manifest.name = some name) (hclean : manifest.directory.Clean)
    (hnormal : manifest.directory.normalize = manifest.directory)
    (hsplit : specifier = name ∨ ∃ rest, specifier = name ++ "/" ++ rest)
    (hslash : Affix.begins (name ++ "//") specifier = false) :
    (manifest.relativePath specifier).isUnder manifest.directory = true ∧
      ∀ package : Package, package.path = manifest.directory →
        targetIn package name specifier = (manifest.relativePath specifier).normalize := by
  rw [Path.isUnder_iff]
  rcases hsplit with rfl | ⟨rest, rfl⟩
  · rw [Manifest.relativePath_name hname]
    refine ⟨List.prefix_refl _, fun package hpath => ?_⟩
    rw [targetIn_name hname hpath hnormal, Manifest.relativePath_name hname]
  · have hrest := isAbsolute_rest hslash
    rw [Manifest.relativePath_append hname, hclean.parts_div_relative hrest]
    refine ⟨List.prefix_append _ _, fun package hpath => ?_⟩
    rw [targetIn_append hname hpath hnormal hclean hrest, Manifest.relativePath_append hname]

/-- A package that names itself with at most one slash behind its name means a path in its own
directory, and from elsewhere it is looked for in the same place. Where two slashes follow the name,
the directory is lost, and an absolute path is meant. -/
theorem self_reference_agrees {manifest : Manifest} {specifier : String}
    (hscheme : Specifier.hasScheme specifier = false)
    (hname : manifest.name = some (Specifier.packageName specifier))
    (habsolute : manifest.directory.isAbsolute = true)
    (hnormal : manifest.directory.normalize = manifest.directory) :
    (Affix.begins (Specifier.packageName specifier ++ "//") specifier = false →
      (manifest.relativePath specifier).isUnder manifest.directory = true ∧
      ∀ {m : Type → Type} [Monad m] (loader : Loader m) (s : Surroundings) (package : Package),
        (s.workspace.bind fun w => w.byName (Specifier.packageName specifier)) = some package →
        package.path = manifest.directory →
        byWorkspace loader s specifier = (do
          let config ← Knowledge.configFor loader s.root package.path
          byRule loader (s.inside package) specifier config (.workspace package.name)
            (manifest.relativePath specifier).normalize)) ∧
    ∀ rest, specifier = Specifier.packageName specifier ++ "//" ++ rest →
      manifest.relativePath specifier = ⟨"/" ++ rest⟩ := by
  have hclean : manifest.directory.Clean := hnormal ▸ Path.clean_normalize habsolute
  refine ⟨fun hslash => ?_, fun rest hrest => ?_⟩
  · obtain ⟨hunder, htarget⟩ := relativePath_meets hname hclean hnormal
      (Specifier.eq_packageName_or hscheme) hslash
    refine ⟨hunder, fun loader s package hpackage hpath => ?_⟩
    rw [byWorkspace_eq loader hpackage, htarget package hpath]
  · have hdoubled : Specifier.packageName specifier ++ "//" ++ rest
        = Specifier.packageName specifier ++ "/" ++ ("/" ++ rest) := by
      apply String.toList_inj.1
      simp
    have habsolute' : (⟨"/" ++ rest⟩ : Path).isAbsolute = true := by simp [Path.isAbsolute]
    have hrelative := Manifest.relativePath_append hname ("/" ++ rest)
    rw [← hdoubled, ← hrest] at hrelative
    rw [hrelative]
    exact Path.join_of_absolute habsolute'

def buttonsManifest : Manifest :=
  ⟨⟨"/w/ui/package.json"⟩, some "@w/ui", [Manifest.defaultEntry], false, none⟩

def buttonsPackage : Package := ⟨"@w/ui", ⟨"/w/ui"⟩, none⟩

/-- What is known where the package is a member of a workspace. -/
def buttonsAround : Surroundings :=
  ⟨none, some ⟨⟨"w", ⟨"/w"⟩, none⟩, [buttonsPackage]⟩, none⟩

theorem self_reference_agrees_buttons :
    (buttonsManifest.relativePath "@w/ui/lib//button/").isUnder buttonsManifest.directory = true ∧
      byWorkspace (.ofTexts []) buttonsAround "@w/ui/lib//button/" = (do
        let config ← Knowledge.configFor (.ofTexts []) none buttonsPackage.path
        byRule (.ofTexts []) (buttonsAround.inside buttonsPackage) "@w/ui/lib//button/" config
          (.workspace "@w/ui") ⟨"/w/ui/lib/button"⟩) ∧
      buttonsManifest.relativePath "@w/ui//button" = ⟨"/button"⟩ := by
  have hslash : Affix.begins "@w/ui//" "@w/ui/lib//button/" = false := by decide
  have htarget : (buttonsManifest.relativePath "@w/ui/lib//button/").normalize
      = ⟨"/w/ui/lib/button"⟩ := by decide +kernel
  obtain ⟨hunder, hworkspace⟩ :=
    (@self_reference_agrees buttonsManifest "@w/ui/lib//button/" (by decide) (by decide +kernel)
      (by decide) (by decide +kernel)).1 hslash
  have hlost := (@self_reference_agrees buttonsManifest "@w/ui//button" (by decide)
    (by decide +kernel) (by decide) (by decide +kernel)).2 "button" (by decide +kernel)
  have hprobes := hworkspace (.ofTexts []) buttonsAround buttonsPackage (by decide +kernel)
    (by decide)
  rw [htarget] at hprobes
  exact ⟨hunder, hprobes, hlost⟩

/-- Behind two slashes a package that names itself is led out of its directory, while from elsewhere
the same specifier is looked for in the package. -/
theorem self_reference_agrees_doubled :
    (Specifier.hasScheme "@w/ui//lib/x.js" = false ∧
      Specifier.isLocal "@w/ui//lib/x.js" = false ∧
      buttonsManifest.name = some (Specifier.packageName "@w/ui//lib/x.js") ∧
      buttonsManifest.directory = buttonsPackage.path) ∧
    (buttonsManifest.relativePath "@w/ui//lib/x.js").isUnder buttonsManifest.directory = false ∧
    (buttonsManifest.relativePath "@w/ui//lib/x.js").normalize = ⟨"/lib/x.js"⟩ ∧
    byWorkspace (.ofTexts []) buttonsAround "@w/ui//lib/x.js" = (do
      let config ← Knowledge.configFor (.ofTexts []) none buttonsPackage.path
      byRule (.ofTexts []) (buttonsAround.inside buttonsPackage) "@w/ui//lib/x.js" config
        (.workspace "@w/ui") ⟨"/w/ui/lib/x.js"⟩) := by
  have hpackage : (buttonsAround.workspace.bind fun w =>
      w.byName (Specifier.packageName "@w/ui//lib/x.js")) = some buttonsPackage := by
    decide +kernel
  have htarget : targetIn buttonsPackage (Specifier.packageName "@w/ui//lib/x.js")
      "@w/ui//lib/x.js" = ⟨"/w/ui/lib/x.js"⟩ := by decide +kernel
  have hprobes := byWorkspace_eq (.ofTexts []) hpackage
  rw [htarget] at hprobes
  exact ⟨by decide +kernel, by decide +kernel, by decide +kernel, hprobes⟩

end Classifier

end ModuleTrace

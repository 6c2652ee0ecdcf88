import Mathlib.Data.List.Basic
import Mathlib.Data.List.TakeWhile
import ModuleTrace.Proofs.Path.Clean
import ModuleTrace.Suite.Rule

/-!
# Places of snapshots

The names of a template are replaced one after another, each in the text that the ones before it
have left. As long as no opening brace comes in with what they stand for, this is as if all were
replaced at once: the text goes on up to the first brace of the template that opens no known name.
A brace that comes in is taken for one of the template.
-/

namespace ModuleTrace

namespace MatchRule

/-! ## Templates taken apart -/

def knownNames : List String :=
  ["testDir", "snapshotDir", "testFileDir", "testFileName", "testFilePath", "projectName",
    "platform"]

theorem map_fst_placeholders (rule : MatchRule) (directory file : Path) :
    (rule.placeholders directory file).map Prod.fst = knownNames := rfl

def meaning (rule : MatchRule) (directory file : Path) (name : String) : List Char :=
  (((rule.placeholders directory file).lookup name).getD "").toList

def written (name : String) : List Char :=
  (placeholder name).toList

inductive Piece where
  | plain (c : Char)
  | known (name : String)
  deriving DecidableEq, Repr

/-- The pieces of a template, and what begins with the first brace that opens no known name. -/
structure Template where
  pieces : List Piece
  rest : List Char
  deriving DecidableEq, Repr

/-- The known name that a text starts with, and what follows it. -/
def nameAt? (cs : List Char) : Option (String × List Char) :=
  knownNames.findSome? fun name => (Affix.after? (written name) cs).map (name, ·)

theorem written_eq (name : String) : written name = '\x7b' :: (name.toList ++ ['\x7d']) := by
  simp [written, placeholder]

theorem nameAt?_eq_some {cs rest : List Char} {name : String} (h : nameAt? cs = some (name, rest)) :
    name ∈ knownNames ∧ cs = written name ++ rest := by
  obtain ⟨known, hknown, hafter⟩ := List.exists_of_findSome?_eq_some h
  obtain ⟨after, hfound, heq⟩ := Option.map_eq_some_iff.1 hafter
  cases heq
  exact ⟨hknown, Affix.after?_eq_some_iff.1 hfound⟩

theorem nameAt?_eq_none {cs : List Char} (h : nameAt? cs = none) {name : String}
    (hname : name ∈ knownNames) : ¬ written name <+: cs := by
  rintro ⟨rest, rfl⟩
  have hnone := List.findSome?_eq_none_iff.1 h name hname
  rw [Affix.after?_eq_some_iff.2 rfl] at hnone
  cases hnone

namespace Template

def ofChars (cs : List Char) : Template :=
  match h : nameAt? cs with
  | some (name, rest) =>
      have : rest.length < cs.length := by
        rw [(nameAt?_eq_some h).2, written_eq]
        simp
        omega
      let template := ofChars rest
      ⟨.known name :: template.pieces, template.rest⟩
  | none =>
      match cs with
      | [] => ⟨[], []⟩
      | c :: cs =>
          if c = '\x7b' then ⟨[], c :: cs⟩
          else
            let template := ofChars cs
            ⟨.plain c :: template.pieces, template.rest⟩
termination_by cs.length

/-- Characters of a piece whose name is told in some way. -/
def told (tell : String → List Char) : Piece → List Char
  | .plain c => [c]
  | .known name => tell name

def render (tell : String → List Char) (pieces : List Piece) : List Char :=
  pieces.flatMap (told tell)

/-- Pieces that a text can be taken apart into. -/
structure Sound (t : Template) : Prop where
  plain : ∀ c, .plain c ∈ t.pieces → c ≠ '\x7b'
  known : ∀ name, .known name ∈ t.pieces → name ∈ knownNames
  rest : t.rest = [] ∨ (t.rest.head? = some '\x7b' ∧ nameAt? t.rest = none)

theorem sound_ofChars (cs : List Char) : (ofChars cs).Sound := by
  fun_induction ofChars cs with
  | case1 cs name rest h _ template ih =>
      refine ⟨fun c hc => ih.plain c (by simpa using hc), fun other hother => ?_, ih.rest⟩
      rcases List.mem_cons.1 hother with heq | hother
      · cases heq
        exact (nameAt?_eq_some h).1
      · exact ih.known other hother
  | case2 h => exact ⟨by simp, by simp, .inl rfl⟩
  | case3 cs h => exact ⟨by simp, by simp, .inr ⟨rfl, h⟩⟩
  | case4 c cs h hbrace template ih =>
      refine ⟨fun other hother => ?_, fun name hname => ih.known name (by simpa using hname),
        ih.rest⟩
      rcases List.mem_cons.1 hother with heq | hother
      · cases heq
        exact hbrace
      · exact ih.plain other hother

/-- Nothing of the text is lost. -/
theorem render_ofChars (cs : List Char) :
    render written (ofChars cs).pieces ++ (ofChars cs).rest = cs := by
  fun_induction ofChars cs with
  | case1 cs name rest h _ template ih =>
      rw [(nameAt?_eq_some h).2]
      simpa [render, told] using ih
  | case2 h => rfl
  | case3 cs h => rfl
  | case4 c cs h hbrace template ih => simpa [render, told] using ih

end Template

/-! ## One name after another -/

theorem brace_notMem_of_known {name : String} (h : name ∈ knownNames) :
    '\x7b' ∉ name.toList ∧ '\x7d' ∉ name.toList := by
  revert name
  decide

/-- A name that is being replaced is not found where there is no opening brace. -/
theorem replaceAll_of_notMem {cs : List Char} (h : '\x7b' ∉ cs) (name : String)
    (new tail : List Char) :
    Affix.replaceAll (written name) new (cs ++ tail)
      = cs ++ Affix.replaceAll (written name) new tail := by
  induction cs with
  | nil => rfl
  | cons c cs ih =>
      have hc : c ≠ '\x7b' := fun hc => h (by simp [hc])
      have hcs : '\x7b' ∉ cs := fun hcs => h (by simp [hcs])
      have hprefix : ¬ written name <+: c :: (cs ++ tail) := by
        rw [written_eq, List.cons_prefix_cons]
        exact fun hboth => hc hboth.1.symm
      rw [List.cons_append, Affix.replaceAll_cons hprefix, ih hcs, List.cons_append]

/-- A name is written in front of a text with a brace only if the name stands in the braces. -/
theorem written_isPrefix_iff {name : String} (hname : '\x7d' ∉ name.toList)
    {inside rest : List Char} (hinside : '\x7d' ∉ inside)
    (hrest : rest = [] ∨ rest.head? = some '\x7d') :
    written name <+: '\x7b' :: (inside ++ rest) ↔ name.toList = inside ∧ rest ≠ [] := by
  have hall : ∀ cs : List Char, '\x7d' ∉ cs → ∀ c ∈ cs, (c != '\x7d') = true := by
    intro cs hcs c hc
    simpa using fun heq : c = '\x7d' => hcs (heq ▸ hc)
  rw [written_eq, List.cons_prefix_cons]
  constructor
  · rintro ⟨-, more, hmore⟩
    have hinside' : (inside ++ rest).takeWhile (· != '\x7d') = inside := by
      rw [List.takeWhile_append_of_pos (hall _ hinside)]
      rcases hrest with rfl | hhead
      · simp
      · obtain ⟨tail, rfl⟩ := List.head?_eq_some_iff.1 hhead
        simp
    have hname' : (inside ++ rest).takeWhile (· != '\x7d') = name.toList := by
      rw [← hmore, List.append_assoc, List.takeWhile_append_of_pos (hall _ hname)]
      simp
    refine ⟨hname'.symm.trans hinside', ?_⟩
    rintro rfl
    refine hinside ?_
    rw [← List.append_nil inside, ← hmore]
    simp
  · rintro ⟨rfl, hne⟩
    obtain ⟨tail, rfl⟩ := List.head?_eq_some_iff.1 (hrest.resolve_left hne)
    exact ⟨rfl, tail, by simp⟩

/-- Other names stay as they are written. -/
theorem replaceAll_other {name other : String} (hname : name ∈ knownNames)
    (hother : other ∈ knownNames) (hne : other ≠ name) (new tail : List Char) :
    Affix.replaceAll (written name) new (written other ++ tail)
      = written other ++ Affix.replaceAll (written name) new tail := by
  have hsplit : written other ++ tail = '\x7b' :: ((other.toList ++ ['\x7d']) ++ tail) := by
    simp [written_eq]
  have hprefix : ¬ written name <+: '\x7b' :: ((other.toList ++ ['\x7d']) ++ tail) := by
    rw [List.append_assoc, written_isPrefix_iff (brace_notMem_of_known hname).2
      (brace_notMem_of_known hother).2 (.inr rfl)]
    exact fun hboth => hne (String.toList_inj.1 hboth.1.symm)
  have hbrace : '\x7b' ∉ other.toList ++ ['\x7d'] := by
    simpa using (brace_notMem_of_known hother).1
  rw [hsplit, Affix.replaceAll_cons hprefix, replaceAll_of_notMem hbrace, written_eq other,
    List.cons_append]

/-- Pieces that are told apart from what replaces a name. -/
theorem replaceAll_render {pieces : List Piece} (hplain : ∀ c, .plain c ∈ pieces → c ≠ '\x7b')
    {tell told : String → List Char} (name : String) (new : List Char)
    (hknown : ∀ other, .known other ∈ pieces → ∀ tail,
      Affix.replaceAll (written name) new (tell other ++ tail)
        = told other ++ Affix.replaceAll (written name) new tail) (tail : List Char) :
    Affix.replaceAll (written name) new (Template.render tell pieces ++ tail)
      = Template.render told pieces ++ Affix.replaceAll (written name) new tail := by
  induction pieces with
  | nil => rfl
  | cons piece pieces ih =>
      have hrest := ih (fun c hc => hplain c (by simp [hc]))
        fun other hother => hknown other (by simp [hother])
      simp only [Template.render, List.flatMap_cons, List.append_assoc] at hrest ⊢
      cases piece with
      | plain c =>
          have hc : '\x7b' ∉ [c] := by simpa using (hplain c (by simp)).symm
          simp only [Template.told]
          rw [replaceAll_of_notMem hc, hrest]
      | known other =>
          simp only [Template.told]
          rw [hknown other (by simp), hrest]

/-- What begins with a brace that opens no known name, and will open none: before another opening
brace there is a closing one. -/
def Sealed (cs : List Char) : Prop :=
  cs = [] ∨ ∃ inside rest, cs = '\x7b' :: (inside ++ rest) ∧ '\x7b' ∉ inside ∧ '\x7d' ∉ inside ∧
    (rest = [] ∨ (rest.head? = some '\x7d' ∧ ∀ name ∈ knownNames, name.toList ≠ inside))

theorem Sealed.replaceAll {cs : List Char} (h : Sealed cs) {name : String}
    (hname : name ∈ knownNames) (new : List Char) :
    Sealed (Affix.replaceAll (written name) new cs) := by
  obtain rfl | ⟨inside, rest, rfl, hopen, hclose, hrest⟩ := h
  · exact .inl rfl
  · have hhead : rest = [] ∨ rest.head? = some '\x7d' := hrest.imp_right And.left
    have hprefix : ¬ written name <+: '\x7b' :: (inside ++ rest) := by
      rw [written_isPrefix_iff (brace_notMem_of_known hname).2 hclose hhead]
      rintro ⟨heq, hne⟩
      exact (hrest.resolve_left hne).2 name hname heq
    rw [Affix.replaceAll_cons hprefix, replaceAll_of_notMem hopen]
    refine .inr ⟨inside, _, rfl, hopen, hclose, ?_⟩
    rcases hrest with rfl | ⟨hrest, hunknown⟩
    · exact .inl rfl
    · obtain ⟨tail, rfl⟩ := List.head?_eq_some_iff.1 hrest
      refine .inr ⟨?_, hunknown⟩
      have hbrace : '\x7b' ∉ ['\x7d'] := by decide
      rw [← List.singleton_append, replaceAll_of_notMem hbrace]
      rfl

def isBrace (c : Char) : Bool :=
  c = '\x7b' || c = '\x7d'

/-- The brace that a template leaves over is not followed by another opening one before it is
closed. -/
def EnclosesNone (rest : List Char) : Prop :=
  (rest.drop 1).find? isBrace ≠ some '\x7b'

instance (rest : List Char) : Decidable (EnclosesNone rest) :=
  inferInstanceAs (Decidable (_ ≠ _))

theorem Template.Sound.sealed {t : Template} (h : t.Sound) (hrest : EnclosesNone t.rest) :
    Sealed t.rest := by
  rcases h.rest with hnil | ⟨hhead, hnone⟩
  · exact .inl hnil
  obtain ⟨cs, hcs⟩ := List.head?_eq_some_iff.1 hhead
  rw [hcs] at hrest hnone ⊢
  have hsplit : cs.takeWhile (!isBrace ·) ++ cs.dropWhile (!isBrace ·) = cs :=
    List.takeWhile_append_dropWhile
  have hfind : (cs.dropWhile (!isBrace ·)).head? = cs.find? isBrace :=
    (List.find?_eq_head?_dropWhile_not isBrace cs).symm
  have hfree : ∀ c ∈ cs.takeWhile (!isBrace ·), c ≠ '\x7b' ∧ c ≠ '\x7d' := by
    intro c hc
    simpa [isBrace] using List.all_eq_true.1 List.all_takeWhile c hc
  generalize cs.takeWhile (!isBrace ·) = inside at hsplit hfree
  generalize cs.dropWhile (!isBrace ·) = more at hsplit hfind
  have hopen : '\x7b' ∉ inside := fun hmem => (hfree _ hmem).1 rfl
  have hclose : '\x7d' ∉ inside := fun hmem => (hfree _ hmem).2 rfl
  refine .inr ⟨inside, more, by rw [hsplit], hopen, hclose, ?_⟩
  cases more with
  | nil => exact .inl rfl
  | cons c more =>
      have hc : c = '\x7b' ∨ c = '\x7d' := by
        simpa [isBrace] using List.find?_some hfind.symm
      rcases hc with rfl | rfl
      · exact absurd hfind.symm hrest
      · refine .inr ⟨rfl, fun name hname heq => nameAt?_eq_none hnone hname ?_⟩
        rw [← hsplit, written_isPrefix_iff (brace_notMem_of_known hname).2 hclose (.inr rfl)]
        exact ⟨heq, by simp⟩

/-- The known names that were replaced stand for something, and the others as they are written. -/
def partly (tell : String → List Char) (done : List String) (name : String) : List Char :=
  if name ∈ done then tell name else written name

theorem replaceAll_partly {t : Template} (h : t.Sound) {tell : String → List Char}
    (hbraceless : ∀ name, .known name ∈ t.pieces → '\x7b' ∉ tell name) {done : List String}
    {name : String} (hname : name ∈ knownNames) (hnew : name ∉ done) (tail : List Char) :
    Affix.replaceAll (written name) (tell name)
        (Template.render (partly tell done) t.pieces ++ tail)
      = Template.render (partly tell (done ++ [name])) t.pieces
        ++ Affix.replaceAll (written name) (tell name) tail := by
  refine replaceAll_render h.plain name (tell name) (fun other hother tail => ?_) tail
  by_cases hdone : other ∈ done
  · simpa [partly, hdone] using replaceAll_of_notMem (hbraceless other hother) name (tell name) tail
  · by_cases heq : other = name
    · subst heq
      have hne : written other ≠ [] := by simp [written_eq]
      simpa [partly, hdone] using Affix.replaceAll_append hne (tell other) tail
    · simpa [partly, hdone, heq] using
        replaceAll_other hname (h.known other hother) heq (tell name) tail

/-- By induction on the names to come, those that were replaced growing. -/
theorem foldl_replace {t : Template} (h : t.Sound) {tell : String → List Char}
    (hbraceless : ∀ name, .known name ∈ t.pieces → '\x7b' ∉ tell name)
    {entries : List (String × String)} {done : List String}
    (hentries : ∀ entry ∈ entries, entry.1 ∈ knownNames ∧ entry.2.toList = tell entry.1)
    (hfresh : (done ++ entries.map Prod.fst).Nodup) {tail : List Char} (htail : Sealed tail) :
    ∃ rest, Sealed rest ∧ entries.foldl
        (fun text entry => Affix.replace (placeholder entry.1) entry.2 text)
        (String.ofList (Template.render (partly tell done) t.pieces ++ tail))
      = String.ofList (Template.render (partly tell (done ++ entries.map Prod.fst)) t.pieces
          ++ rest) := by
  induction entries generalizing done tail with
  | nil => exact ⟨tail, htail, by simp⟩
  | cons entry entries ih =>
      obtain ⟨hname, hvalue⟩ := hentries entry (by simp)
      have hnew : entry.1 ∉ done := by
        have hdisjoint := (List.nodup_append.1 hfresh).2.2
        exact fun hmem => hdisjoint _ hmem _ (by simp) rfl
      have hfirst : Affix.replace (placeholder entry.1) entry.2
            (String.ofList (Template.render (partly tell done) t.pieces ++ tail))
          = String.ofList (Template.render (partly tell (done ++ [entry.1])) t.pieces
            ++ Affix.replaceAll (written entry.1) (tell entry.1) tail) := by
        rw [Affix.replace, hvalue, String.toList_ofList, ← written,
          replaceAll_partly h hbraceless hname hnew]
      have hsplit : done ++ (entry :: entries).map Prod.fst
          = (done ++ [entry.1]) ++ entries.map Prod.fst := by simp
      rw [List.foldl_cons, hfirst, hsplit]
      exact ih (fun other hother => hentries other (by simp [hother])) (hsplit ▸ hfresh)
        (htail.replaceAll hname _)

/-! ## The place of snapshots -/

def template (rule : MatchRule) : Template :=
  .ofChars (rule.snapshotTemplate.getD usualTemplate).toList

/-- The template with all its known names replaced at once, up to the first brace that opens none
of them. -/
def filled (rule : MatchRule) (directory file : Path) : List Char :=
  Template.render (rule.meaning directory file) rule.template.pieces

/-- What stands before the last slash. -/
def beforeLastSlash (cs : List Char) : Path :=
  ⟨String.ofList ((cs.reverse.dropWhile (· ≠ '/')).drop 1).reverse⟩

/-- Where the snapshots of a test lie if all known names are replaced at once. -/
def filledDirectory (rule : MatchRule) (directory file : Path) : Path :=
  (directory.join (beforeLastSlash (rule.filled directory file))).normalize

theorem directoryPart_eq {cs rest : List Char} (h : '\x7b' ∉ cs) (hrest : Sealed rest) :
    directoryPart (String.ofList (cs ++ rest)) = beforeLastSlash cs := by
  have hkept : (cs ++ rest).takeWhile (· ≠ '\x7b') = cs := by
    rw [List.takeWhile_append_of_pos]
    · obtain rfl | ⟨inside, more, rfl, -⟩ := hrest <;> simp
    · intro c hc
      simpa using fun heq : c = '\x7b' => h (heq ▸ hc)
  simp only [directoryPart, String.toList_ofList, hkept, beforeLastSlash]

theorem snapshotDirectory_eq {rule : MatchRule} {directory file : Path}
    (hbraceless : '\x7b' ∉ rule.filled directory file) (hrest : EnclosesNone rule.template.rest) :
    rule.snapshotDirectory directory file = rule.filledDirectory directory file := by
  have hsound : rule.template.Sound := Template.sound_ofChars _
  have hvalues : ∀ name, .known name ∈ rule.template.pieces →
      '\x7b' ∉ rule.meaning directory file name := by
    intro name hname hmem
    exact hbraceless (List.mem_flatMap.2 ⟨_, hname, hmem⟩)
  have hentries : ∀ entry ∈ rule.placeholders directory file, entry.1 ∈ knownNames ∧
      entry.2.toList = rule.meaning directory file entry.1 := by
    simp [placeholders, knownNames, meaning, List.lookup_cons]
  have hnames : (([] : List String) ++ (rule.placeholders directory file).map Prod.fst).Nodup := by
    rw [map_fst_placeholders]
    decide
  obtain ⟨rest, hsealed, hfold⟩ := foldl_replace hsound hvalues hentries hnames
    (hsound.sealed hrest)
  have hstart : String.ofList (Template.render (partly (rule.meaning directory file) [])
      rule.template.pieces ++ rule.template.rest) = rule.snapshotTemplate.getD usualTemplate := by
    have hwritten : partly (rule.meaning directory file) [] = written := by
      funext name
      simp [partly]
    rw [hwritten, template, Template.render_ofChars, String.ofList_toList]
  have hend : Template.render (partly (rule.meaning directory file)
      ([] ++ (rule.placeholders directory file).map Prod.fst)) rule.template.pieces
        = rule.filled directory file := by
    refine List.flatMap_congr fun piece hpiece => ?_
    cases piece with
    | plain c => rfl
    | known name => simp [Template.told, partly, map_fst_placeholders, hsound.known name hpiece]
  rw [hstart, hend] at hfold
  rw [snapshotDirectory, hfold, directoryPart_eq hbraceless hsealed, filledDirectory]

/-! ## The usual template -/

theorem pieces_usualTemplate : Template.ofChars usualTemplate.toList
    = ⟨[.known "testDir", .plain '/', .known "testFileDir", .plain '/', .known "testFileName"]
        ++ "-snapshots/".toList.map .plain, []⟩ := by
  decide +kernel

theorem beforeLastSlash_concat (cs : List Char) :
    beforeLastSlash (cs ++ ['/']) = Path.ofChars cs := by
  simp [beforeLastSlash, Path.ofChars]

/-- What the usual template is filled with, in front of its last slash. -/
theorem filled_usual {rule : MatchRule} (hrule : rule.snapshotTemplate.getD usualTemplate
    = usualTemplate) {directory file relative : Path}
    (hrelative : file.relativeTo? directory = some relative) :
    rule.filled directory file = (directory.text.toList ++ '/' ::
      (((relative.parent?.map Path.text).getD "").toList ++ '/' ::
        ((relative.name?.getD "") ++ "-snapshots").toList)) ++ ['/'] := by
  rw [filled, template, hrule, pieces_usualTemplate]
  simp [Template.render, Template.told, meaning, placeholders, hrelative, List.lookup_cons]

/-- A path of names and steps up only. -/
theorem parts_of_subset_inner {p : Path} {cs : List Char}
    (h : ∀ part ∈ p.parts, part ∈ Path.inner cs) : p.parts = Path.inner p.text.toList := by
  refine Path.parts_eq_inner (fun hroot => ?_) fun hhere => ?_
  · rcases Path.mem_inner (h _ hroot) with hup | ⟨text, hname, -⟩
    · cases hup
    · cases hname
  · rcases Path.mem_inner (h _ hhere) with hup | ⟨text, hname, -⟩
    · cases hup
    · cases hname

/-- What is left of a file behind a directory, taken apart into the directory in it and its
name. -/
theorem exists_relative {directory file parent : Path} {name : String}
    (habsolute : directory.isAbsolute = true) (hunder : file.isUnder directory = true)
    (hbelow : file.parts ≠ directory.parts) (hparent : file.parent? = some parent)
    (hname : file.name? = some name) :
    ∃ relative inside, file.relativeTo? directory = some relative ∧
      relative.parent? = some inside ∧ relative.name? = some name ∧
      parent.parts = directory.parts ++ Path.inner inside.text.toList := by
  obtain ⟨relative, hrelative, hparts, -, -⟩ := Path.exists_relativeTo? habsolute hunder
  have hne : relative.parts ≠ [] := fun hnil => hbelow (by rw [hparts, hnil, List.append_nil])
  have hlast : relative.parts.getLast? = some (.name name) := by
    have hfile := (Path.name?_eq_some_iff file name).1 hname
    rwa [hparts, List.getLast?_append_of_ne_nil _ hne] at hfile
  have hrelativeName := (Path.name?_eq_some_iff relative name).2 hlast
  obtain ⟨inside, hinside⟩ := Path.exists_parent?_of_name? hrelativeName
  have hdropped := Path.parts_parent? hinside
  obtain ⟨cs, rfl⟩ := Path.isAbsolute_ofChars directory habsolute
  have hfile : file.isAbsolute = true := by
    rw [Path.isAbsolute_iff_head?, hparts, Path.parts_root_slash]
    rfl
  obtain ⟨ds, rfl⟩ := Path.isAbsolute_ofChars file hfile
  rw [Path.parts_root_slash, Path.parts_root_slash, List.cons_append, List.cons.injEq] at hparts
  have hmem : ∀ part ∈ inside.parts, part ∈ Path.inner ds := by
    intro part hpart
    rw [hdropped] at hpart
    rw [hparts.2]
    exact List.mem_append_right _ (List.dropLast_subset _ hpart)
  refine ⟨relative, inside, hrelative, hinside, hrelativeName, ?_⟩
  rw [Path.parts_parent? hparent, ← parts_of_subset_inner hmem, hdropped,
    Path.parts_root_slash, Path.parts_root_slash, hparts.2, ← List.cons_append,
    List.dropLast_append_of_ne_nil hne]

theorem snapshotDirectory_usual {rule : MatchRule} {directory file parent : Path} {name : String}
    (hrule : rule.snapshotTemplate.getD usualTemplate = usualTemplate)
    (hbraceless : '\x7b' ∉ rule.filled directory file) (habsolute : directory.isAbsolute = true)
    (hunder : file.isUnder directory = true) (hbelow : file.parts ≠ directory.parts)
    (hparent : file.parent? = some parent) (hname : file.name? = some name) :
    rule.snapshotDirectory directory file = parent.normalize / (name ++ "-snapshots") := by
  obtain ⟨relative, inside, hrelative, hinside, hrelativeName, hparts⟩ :=
    exists_relative habsolute hunder hbelow hparent hname
  have hrest : EnclosesNone rule.template.rest := by
    rw [template, hrule, pieces_usualTemplate]
    decide
  obtain ⟨cs, hcs⟩ := (Path.isAbsolute_iff directory).1 habsolute
  have hne : directory.text.toList ≠ [] := by simp [hcs]
  have hfree : '/' ∉ (name ++ "-snapshots").toList := by
    have hmem := List.mem_of_getLast? ((Path.name?_eq_some_iff file name).1 hname)
    have hslash := Path.slash_notMem_name hmem
    simpa using hslash
  have hlong : 3 ≤ (name ++ "-snapshots").toList.length := by simp
  rw [snapshotDirectory_eq hbraceless hrest, filledDirectory, filled_usual hrule hrelative,
    beforeLastSlash_concat, hinside, hrelativeName, Option.map_some, Option.getD_some,
    Option.getD_some, Path.join_of_absolute]
  · refine Path.normalize_concat ?_
    rw [Path.parts_append_slash hne, Path.inner_append_slash, Path.ofChars_toList,
      Path.inner_of_notMem hfree, Path.ofPiece_of_three_le hlong, hparts, String.ofList_toList,
      List.append_assoc]
    rfl
  · simp [Path.isAbsolute, hcs]

/-- As long as no opening brace comes in with what the names stand for, a template is filled as if
all names were replaced at once, and counts up to the first brace that opens no known name. The
usual template then puts the snapshots of a test beside it. -/
theorem snapshotDirectory_fills {rule : MatchRule} {directory file : Path}
    (hbraceless : '\x7b' ∉ rule.filled directory file) :
    (EnclosesNone rule.template.rest →
      rule.snapshotDirectory directory file = rule.filledDirectory directory file) ∧
    (rule.snapshotTemplate.getD usualTemplate = usualTemplate → directory.isAbsolute = true →
      file.isUnder directory = true → file.parts ≠ directory.parts →
      ∀ parent name, file.parent? = some parent → file.name? = some name →
        rule.snapshotDirectory directory file = parent.normalize / (name ++ "-snapshots")) :=
  ⟨snapshotDirectory_eq hbraceless, fun hrule habsolute hunder hbelow _ _ hparent hname =>
    snapshotDirectory_usual hrule hbraceless habsolute hunder hbelow hparent hname⟩

/-- A rule that keeps screenshots for each project and test. -/
def screenshots : MatchRule where
  name := some "chromium"
  snapshotTemplate := some ("\x7btestDir\x7d/../shots/\x7bprojectName\x7d-\x7bplatform\x7d"
    ++ "/\x7btestFilePath\x7d/\x7barg\x7d\x7btestDir\x7d")

theorem snapshotDirectory_fills_screenshots :
    '\x7b' ∉ screenshots.filled ⟨"/p/e2e"⟩ ⟨"/p/e2e/in/home.spec.ts"⟩ ∧
      EnclosesNone screenshots.template.rest ∧
      screenshots.snapshotDirectory ⟨"/p/e2e"⟩ ⟨"/p/e2e/in/home.spec.ts"⟩
        = ⟨"/p/shots/chromium-linux/in/home.spec.ts"⟩ ∧
      MatchRule.snapshotDirectory {} ⟨"/p/e2e"⟩ ⟨"/p/e2e/in/home.spec.ts"⟩
        = ⟨"/p/e2e/in/home.spec.ts-snapshots"⟩ := by
  have hfilled : '\x7b' ∉ screenshots.filled ⟨"/p/e2e"⟩ ⟨"/p/e2e/in/home.spec.ts"⟩ := by
    decide +kernel
  have husual : '\x7b' ∉ MatchRule.filled {} ⟨"/p/e2e"⟩ ⟨"/p/e2e/in/home.spec.ts"⟩ := by
    decide +kernel
  have hrest : EnclosesNone screenshots.template.rest := by decide +kernel
  refine ⟨hfilled, hrest, ?_, ?_⟩
  · rw [(snapshotDirectory_fills hfilled).1 hrest]
    decide +kernel
  · rw [(snapshotDirectory_fills husual).2 rfl (by decide) (by decide) (by decide)
      ⟨"/p/e2e/in"⟩ "home.spec.ts" (by decide) (by decide)]
    decide +kernel

/-- A rule whose template has a known name inside other braces. -/
def nested : MatchRule where
  name := some "platform"
  snapshotTemplate := some "shots/\x7b\x7bprojectName\x7d\x7d/"

/-- Braces of a directory are taken for those of the template: the text is cut there, or a known
name is replaced once more. And a brace that the template leaves over can come to open a name. -/
theorem snapshotDirectory_fills_braces :
    (MatchRule.filledDirectory {} ⟨"/p/\x7bx\x7d"⟩ ⟨"/p/\x7bx\x7d/a.spec.ts"⟩
        = ⟨"/p/\x7bx\x7d/a.spec.ts-snapshots"⟩ ∧
      MatchRule.snapshotDirectory {} ⟨"/p/\x7bx\x7d"⟩ ⟨"/p/\x7bx\x7d/a.spec.ts"⟩ = ⟨"/p"⟩) ∧
    (MatchRule.filledDirectory {} ⟨"/p"⟩ ⟨"/p/\x7bplatform\x7d/a.spec.ts"⟩
        = ⟨"/p/\x7bplatform\x7d/a.spec.ts-snapshots"⟩ ∧
      MatchRule.snapshotDirectory {} ⟨"/p"⟩ ⟨"/p/\x7bplatform\x7d/a.spec.ts"⟩
        = ⟨"/p/linux/a.spec.ts-snapshots"⟩) ∧
    (MatchRule.filledDirectory nested ⟨"/p"⟩ ⟨"/p/a.spec.ts"⟩ = ⟨"/p/shots"⟩ ∧
      MatchRule.snapshotDirectory nested ⟨"/p"⟩ ⟨"/p/a.spec.ts"⟩ = ⟨"/p/shots/linux"⟩) := by
  decide +kernel

end MatchRule

end ModuleTrace

import ModuleTrace.Affix
import ModuleTrace.Path

/-!
# Specifiers

A specifier is the text by which one module names another: a local path, the name of a package
with or without a path inside it, or the name of a built-in module.
-/

namespace ModuleTrace.Specifier

/-- Scheme of the modules that ship with the runtime. -/
def scheme : String := "node:"

def hasScheme (specifier : String) : Bool :=
  Affix.begins scheme specifier

private def notSlash (c : Char) : Bool :=
  c ≠ '/'

/-- The part of a bare specifier that names a package: up to the first slash, or up to the
second one when the package has a scope. -/
def packagePart (cs : List Char) : List Char :=
  if cs.head? = some '@' then
    let scope := cs.takeWhile notSlash
    match cs.dropWhile notSlash with
    | [] => scope
    | slash :: rest => scope ++ slash :: rest.takeWhile notSlash
  else cs.takeWhile notSlash

private theorem cut_at_slash (cs : List Char) :
    cs = cs.takeWhile notSlash ++ cs.dropWhile notSlash ∧
      (cs.dropWhile notSlash = [] ∨ ∃ after, cs.dropWhile notSlash = '/' :: after) := by
  refine ⟨List.takeWhile_append_dropWhile.symm, ?_⟩
  have hhead := List.head?_dropWhile_not notSlash cs
  cases hdrop : cs.dropWhile notSlash with
  | nil => exact .inl rfl
  | cons c after =>
      have hc : c = '/' := by simpa [hdrop, notSlash] using hhead
      exact .inr ⟨after, by rw [hc]⟩

/-- Where a text goes on behind the part that names a package, it goes on with a slash. -/
theorem exists_packagePart_append (cs : List Char) :
    ∃ rest, cs = packagePart cs ++ rest ∧ (rest = [] ∨ ∃ after, rest = '/' :: after) := by
  obtain ⟨hsplit, hrest⟩ := cut_at_slash cs
  unfold packagePart
  split
  · rcases hrest with hnil | ⟨after, hafter⟩
    · rw [hnil, List.append_nil] at hsplit
      exact ⟨[], by simp [hnil, ← hsplit], .inl rfl⟩
    · -- The name has a scope, and ends at the slash behind that one.
      obtain ⟨hsplit', hrest'⟩ := cut_at_slash after
      refine ⟨after.dropWhile notSlash, ?_, hrest'⟩
      simp only [hafter]
      rw [List.append_assoc, List.cons_append, ← hsplit', ← hafter, ← hsplit]
  · exact ⟨cs.dropWhile notSlash, hsplit, hrest⟩

private theorem notSlash_of_mem_takeWhile (cs : List Char) :
    ∀ c ∈ cs.takeWhile notSlash, notSlash c = true :=
  fun c hc => List.all_eq_true.1 List.all_takeWhile c hc

private theorem cut_before_slash {cs : List Char} (h : ∀ c ∈ cs, notSlash c = true)
    (rest : List Char) : (cs ++ '/' :: rest).takeWhile notSlash = cs ∧
      (cs ++ '/' :: rest).dropWhile notSlash = '/' :: rest := by
  rw [List.takeWhile_append_of_pos h, List.dropWhile_append_of_pos h]
  simp [notSlash]

/-- A whole name ends where a slash follows it. A scope alone is not whole. -/
theorem packagePart_append_slash {name : List Char} (hname : packagePart name = name)
    (hscope : name.head? = some '@' → '/' ∈ name) (rest : List Char) :
    packagePart (name ++ '/' :: rest) = name := by
  by_cases hhead : name.head? = some '@'
  · obtain ⟨hsplit, hnil | ⟨after, hafter⟩⟩ := cut_at_slash name
    · rw [hnil, List.append_nil] at hsplit
      have hslash := notSlash_of_mem_takeWhile name '/' (hsplit ▸ hscope hhead)
      simp [notSlash] at hslash
    · have hscopeCut := notSlash_of_mem_takeWhile name
      generalize hcut : name.takeWhile notSlash = scope at hsplit hscopeCut
      have hwhole : after.takeWhile notSlash = after := by
        rw [packagePart, if_pos hhead] at hname
        simp only [hafter, hcut] at hname
        rw [hsplit, hafter] at hname
        simpa using hname
      obtain ⟨hfront, hback⟩ := cut_before_slash hscopeCut (after ++ '/' :: rest)
      have hbehind := (cut_before_slash (hwhole ▸ notSlash_of_mem_takeWhile after) rest).1
      have hsame : name ++ '/' :: rest = scope ++ '/' :: (after ++ '/' :: rest) := by
        rw [hsplit, hafter, List.append_assoc, List.cons_append]
      have hscoped : (name ++ '/' :: rest).head? = some '@' := by simp [List.head?_append, hhead]
      rw [packagePart, if_pos hscoped, hsame]
      simp only [hfront, hback, hbehind]
      rw [hsplit, hafter]
  · have hwhole : name.takeWhile notSlash = name := by
      rw [packagePart, if_neg hhead] at hname
      exact hname
    have hunscoped : (name ++ '/' :: rest).head? ≠ some '@' := by
      cases name with
      | nil => simp
      | cons c cs => exact hhead
    rw [packagePart, if_neg hunscoped]
    exact (cut_before_slash (hwhole ▸ notSlash_of_mem_takeWhile name) rest).1

/-- A text without a slash is all name. -/
theorem packagePart_of_notMem {cs : List Char} (h : '/' ∉ cs) : packagePart cs = cs := by
  obtain ⟨rest, hsplit, rfl | ⟨after, rfl⟩⟩ := exists_packagePart_append cs
  · rw [List.append_nil] at hsplit
    exact hsplit.symm
  · exact absurd (hsplit ▸ by simp) h

/-- A scope and one name behind it make up a whole name. -/
theorem packagePart_scoped {scope inside : List Char} (hscope : '/' ∉ scope)
    (hhead : scope.head? = some '@') (hinside : '/' ∉ inside) :
    packagePart (scope ++ '/' :: inside) = scope ++ '/' :: inside := by
  have hfree : ∀ {cs : List Char}, '/' ∉ cs → ∀ c ∈ cs, notSlash c = true := by
    intro cs hcs c hc
    exact decide_eq_true fun heq => hcs (heq ▸ hc)
  have hscoped : (scope ++ '/' :: inside).head? = some '@' := by
    simp [List.head?_append, hhead]
  obtain ⟨hfront, hback⟩ := cut_before_slash (hfree hscope) inside
  have hwhole : (inside ++ []).takeWhile notSlash = inside ++ [].takeWhile notSlash :=
    List.takeWhile_append_of_pos (hfree hinside)
  rw [List.append_nil, List.takeWhile_nil, List.append_nil] at hwhole
  rw [packagePart, if_pos hscoped]
  simp only [hfront, hback, hwhole]

/-- The package that a specifier names; the scheme is no part of it. -/
def packageName (specifier : String) : String :=
  String.ofList (packagePart ((Affix.dropStart? scheme specifier).getD specifier).toList)

/-- A specifier without a scheme is the name of its package, or has a slash behind it. -/
theorem eq_packageName_or {specifier : String} (h : hasScheme specifier = false) :
    specifier = packageName specifier ∨
      ∃ rest, specifier = packageName specifier ++ "/" ++ rest := by
  have hname : packageName specifier = String.ofList (packagePart specifier.toList) := by
    have hafter : Affix.after? scheme.toList specifier.toList = none := by
      simpa [hasScheme, Affix.begins] using h
    simp [packageName, Affix.dropStart?, hafter]
  obtain ⟨rest, hsplit, hrest⟩ := exists_packagePart_append specifier.toList
  rw [hname]
  rcases hrest with rfl | ⟨after, rfl⟩
  · left
    rw [List.append_nil] at hsplit
    rw [← hsplit, String.ofList_toList]
  · refine .inr ⟨String.ofList after, ?_⟩
    apply String.toList_inj.1
    simpa using hsplit

def isLocal (specifier : String) : Bool :=
  Affix.begins "./" specifier || Affix.begins "../" specifier
    || specifier = "." || specifier = ".." || (Path.mk specifier).isAbsolute

end ModuleTrace.Specifier

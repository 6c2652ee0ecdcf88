import Mathlib.Data.List.Basic
import ModuleTrace.Extraction.Inclusion

/-!
# What a node names

The ways in which a node of a syntax tree names a module are told one by one, each with the
literal that names it and the way from the node to the literal. The literals that are taken of a
node are these, in the order of their ways.
-/

namespace ModuleTrace.Inclusion

open Grammar (Text)

/-! ## Ways of naming -/

structure InField (t : SyntaxTree) (field : String) (i : Nat) (child : SyntaxTree) : Prop where
  there : t.children[i]? = some child
  inside : child.head.field = some field
  first : ∀ j < i, ∀ other, t.children[j]? = some other → other.head.field ≠ some field

/-- A string, or a template without substitutions. -/
def IsLiteral (t : SyntaxTree) : Prop :=
  t.kind = "string" ∨
    t.kind = "template_string" ∧ ∀ child ∈ t.namedChildren, child.kind ≠ "template_substitution"

instance : DecidablePred IsLiteral := fun t =>
  inferInstanceAs (Decidable (t.kind = "string" ∨ t.kind = "template_string" ∧
    ∀ child ∈ t.namedChildren, child.kind ≠ "template_substitution"))

def IsArgument (t : SyntaxTree) : Prop :=
  t.isNamed = true ∧ t.kind ≠ "comment"

instance : DecidablePred IsArgument := fun t =>
  inferInstanceAs (Decidable (t.isNamed = true ∧ t.kind ≠ "comment"))

structure OnlyArgument (arguments : SyntaxTree) (i : Nat) (argument : SyntaxTree) : Prop where
  there : arguments.children[i]? = some argument
  isArgument : IsArgument argument
  only : ∀ j other, arguments.children[j]? = some other → IsArgument other → j = i

section

variable (source : Text)

/-- What a literal stands for. -/
def valueOf (t : SyntaxTree) : String :=
  Literal.unescape (Literal.body (textOf source t))

/-- The functions whose calls include a module. -/
inductive Includer (callee : SyntaxTree) : Prop where
  | plain (hkind : callee.kind = "identifier") (htext : textOf source callee = "require")
  | dynamic (hkind : callee.kind = "import")
  | member {i j : Nat} {object property : SyntaxTree} (hkind : callee.kind = "member_expression")
      (hobject : InField callee "object" i object)
      (hproperty : InField callee "property" j property) (hname : object.kind = "identifier")
      (hmodule : textOf source object = "module") (hrequire : textOf source property = "require")

/-- A node names a module by a literal below it: the way from one to the other, and the literal. -/
inductive Names (t : SyntaxTree) : List Nat → SyntaxTree → Prop where
  | imported {i : Nat} {literal : SyntaxTree} (hkind : t.kind = "import_statement")
      (hsource : InField t "source" i literal) (hliteral : IsLiteral literal) :
      Names t [i] literal
  | required {i j : Nat} {clause literal : SyntaxTree} (hkind : t.kind = "import_statement")
      (hnone : ∀ child ∈ t.children, child.head.field ≠ some "source")
      (hclause : t.children[i]? = some clause) (hrequire : clause.kind = "import_require_clause")
      (hsource : InField clause "source" j literal) (hliteral : IsLiteral literal) :
      Names t [i, j] literal
  | exported {i : Nat} {literal : SyntaxTree} (hkind : t.kind = "export_statement")
      (hsource : InField t "source" i literal) (hliteral : IsLiteral literal) :
      Names t [i] literal
  | called {k i j : Nat} {callee arguments literal : SyntaxTree}
      (hkind : t.kind = "call_expression") (hcallee : InField t "function" k callee)
      (hincluder : Includer source callee) (harguments : InField t "arguments" i arguments)
      (honly : OnlyArgument arguments j literal) (hliteral : IsLiteral literal) :
      Names t [i, j] literal

end

/-! ## Fields and arguments with their places -/

theorem pairwise_zipIdx {α : Type} (xs : List α) (k : Nat) :
    (xs.zipIdx k).Pairwise fun a b => a.2 < b.2 := by
  induction xs generalizing k with
  | nil => exact .nil
  | cons x xs ih =>
      rw [List.zipIdx_cons, List.pairwise_cons]
      exact ⟨fun entry hentry => List.le_snd_of_mem_zipIdx hentry, ih (k + 1)⟩

theorem mem_zipIdx {α : Type} {xs : List α} {x : α} {i : Nat} :
    (x, i) ∈ xs.zipIdx ↔ xs[i]? = some x :=
  List.mem_zipIdx_iff_getElem?

def firstIn (t : SyntaxTree) (field : String) : Option (SyntaxTree × Nat) :=
  t.children.zipIdx.find? fun entry => entry.1.head.field = some field

theorem child?_eq (t : SyntaxTree) (field : String) :
    t.child? field = (firstIn t field).map Prod.fst := by
  rw [SyntaxTree.child?, firstIn]
  conv => lhs; rw [← List.zipIdx_map_fst 0 t.children, List.find?_map]
  rfl

theorem firstIn_eq_some {t child : SyntaxTree} {field : String} {i : Nat} :
    firstIn t field = some (child, i) ↔ InField t field i child := by
  rw [firstIn, List.find?_eq_some_iff_getElem]
  constructor
  · rintro ⟨hfield, j, hj, hentry, hfirst⟩
    rw [List.getElem_zipIdx, Prod.mk.injEq] at hentry
    obtain ⟨hchild, hi⟩ := hentry
    obtain rfl : j = i := by omega
    refine ⟨?_, by simpa using hfield, fun k hk other hother => ?_⟩
    · rw [← hchild]
      exact List.getElem?_eq_getElem _
    · have hnot := hfirst k hk
      obtain ⟨hlength, rfl⟩ := List.getElem?_eq_some_iff.1 hother
      simpa using hnot
  · rintro ⟨hthere, hinside, hfirst⟩
    obtain ⟨hlength, hchild⟩ := List.getElem?_eq_some_iff.1 hthere
    refine ⟨by simpa using hinside, i, by simpa using hlength, ?_, fun j hj => ?_⟩
    · simp [hchild]
    · have hnot := hfirst j hj _ (List.getElem?_eq_getElem (by omega))
      simpa using hnot

theorem exists_inField {t child : SyntaxTree} {field : String} (h : t.child? field = some child) :
    ∃ i, InField t field i child := by
  rw [child?_eq, Option.map_eq_some_iff] at h
  obtain ⟨⟨_, i⟩, hfirst, rfl⟩ := h
  exact ⟨i, firstIn_eq_some.1 hfirst⟩

theorem InField.child? {t child : SyntaxTree} {field : String} {i : Nat}
    (h : InField t field i child) : t.child? field = some child := by
  rw [child?_eq, firstIn_eq_some.2 h]
  rfl

def argumentsOf (arguments : SyntaxTree) : List (SyntaxTree × Nat) :=
  arguments.children.zipIdx.filter fun entry => IsArgument entry.1

theorem filter_namedChildren (arguments : SyntaxTree) :
    (arguments.namedChildren.filter fun child => child.kind ≠ "comment")
      = (argumentsOf arguments).map Prod.fst := by
  have hfilter : (arguments.namedChildren.filter fun child => child.kind ≠ "comment")
      = arguments.children.filter fun child => IsArgument child := by
    rw [SyntaxTree.namedChildren, List.filter_filter]
    refine List.filter_congr fun child _ => ?_
    rw [Bool.eq_iff_iff, Bool.and_eq_true, decide_eq_true_iff, decide_eq_true_iff]
    exact and_comm
  rw [hfilter, argumentsOf]
  conv => lhs; rw [← List.zipIdx_map_fst 0 arguments.children, List.filter_map]
  rfl

theorem argumentsOf_eq_singleton {arguments argument : SyntaxTree} {j : Nat} :
    argumentsOf arguments = [(argument, j)] ↔ OnlyArgument arguments j argument := by
  have hmem : ∀ (t : SyntaxTree) (k : Nat), (t, k) ∈ argumentsOf arguments
      ↔ arguments.children[k]? = some t ∧ IsArgument t := by
    intro t k
    simp [argumentsOf, mem_zipIdx]
  constructor
  · intro h
    have hargument := (hmem argument j).1 (by simp [h])
    refine ⟨hargument.1, hargument.2, fun k other hother hisArgument => ?_⟩
    have hother := (hmem other k).2 ⟨hother, hisArgument⟩
    rw [h, List.mem_singleton, Prod.mk.injEq] at hother
    exact hother.2
  · rintro ⟨hthere, hisArgument, honly⟩
    have hpairwise : (argumentsOf arguments).Pairwise fun a b => a.2 < b.2 :=
      (pairwise_zipIdx arguments.children 0).filter _
    have hall : ∀ entry ∈ argumentsOf arguments, entry = (argument, j) := by
      rintro ⟨t, k⟩ hentry
      obtain ⟨ht, hk⟩ := (hmem t k).1 hentry
      obtain rfl := honly k t ht hk
      obtain rfl : argument = t := by simpa [hthere] using ht
      rfl
    have hin := (hmem argument j).2 ⟨hthere, hisArgument⟩
    -- Entries are told apart by their numbers, so no second one is left.
    cases hlist : argumentsOf arguments with
    | nil => simp [hlist] at hin
    | cons first rest =>
        cases rest with
        | nil => rw [hall first (by simp [hlist])]
        | cons second rest =>
            rw [hlist, hall first (by simp [hlist]), hall second (by simp [hlist])] at hpairwise
            simp at hpairwise

/-! ## The literals of a node -/

section

variable (source : Text)

theorem literal?_eq (t : SyntaxTree) :
    literal? source t = if IsLiteral t then some (valueOf source t) else none := by
  unfold literal? IsLiteral valueOf
  by_cases hstring : t.kind = "string"
  · simp [hstring]
  · by_cases htemplate : t.kind = "template_string"
    · simp [htemplate]
    · simp [hstring, htemplate]

theorem isNamespaceCall_iff (callee : SyntaxTree) : isNamespaceCall source callee = true ↔
    ∃ object property, callee.child? "object" = some object ∧
      callee.child? "property" = some property ∧ object.kind = "identifier" ∧
      textOf source object = "module" ∧ textOf source property = "require" := by
  unfold isNamespaceCall
  cases callee.child? "object" with
  | none => simp
  | some object =>
      cases callee.child? "property" with
      | none => simp
      | some property => simp [namespaceNames, functionNames, and_assoc]

theorem includes_iff (callee : SyntaxTree) :
    includes source callee = true ↔ Includer source callee := by
  constructor
  · intro h
    unfold includes at h
    split at h
    · rename_i hkind
      exact .plain hkind (by simpa [functionNames] using h)
    · split at h
      · rename_i hkind
        obtain ⟨object, property, hobject, hproperty, hname, hmodule, hrequire⟩ :=
          (isNamespaceCall_iff source callee).1 h
        obtain ⟨i, hobject⟩ := exists_inField hobject
        obtain ⟨j, hproperty⟩ := exists_inField hproperty
        exact .member hkind hobject hproperty hname hmodule hrequire
      · exact .dynamic (by simpa using h)
  · rintro (⟨hkind, htext⟩ | hkind | ⟨hkind, hobject, hproperty, hname, hmodule, hrequire⟩)
    · simp [includes, hkind, htext, functionNames]
    · simp [includes, hkind]
    · have hcall := (isNamespaceCall_iff source callee).2
        ⟨_, _, hobject.child?, hproperty.child?, hname, hmodule, hrequire⟩
      simp [includes, hkind, hcall]

/-- The literal in a field, with the way to it. -/
def literalIn (t : SyntaxTree) (field : String) : Option (List Nat × SyntaxTree) :=
  (firstIn t field).bind fun entry =>
    if IsLiteral entry.1 then some ([entry.2], entry.1) else none

theorem fieldLiteral?_eq (t : SyntaxTree) (field : String) :
    fieldLiteral? source t field = (literalIn t field).map fun named => valueOf source named.2 := by
  rw [fieldLiteral?, literalIn, child?_eq]
  cases firstIn t field with
  | none => rfl
  | some entry =>
      rw [Option.map_some, Option.bind_some, Option.bind_some, literal?_eq]
      split <;> rfl

theorem literalIn_eq_some {t literal : SyntaxTree} {field : String} {way : List Nat} :
    literalIn t field = some (way, literal)
      ↔ ∃ i, way = [i] ∧ InField t field i literal ∧ IsLiteral literal := by
  rw [literalIn, Option.bind_eq_some_iff]
  constructor
  · rintro ⟨⟨child, i⟩, hfirst, hliteral⟩
    split at hliteral
    · rename_i his
      obtain ⟨rfl, rfl⟩ := Prod.mk.inj (Option.some.inj hliteral)
      exact ⟨i, rfl, firstIn_eq_some.1 hfirst, his⟩
    · cases hliteral
  · rintro ⟨i, rfl, hfield, his⟩
    exact ⟨(literal, i), firstIn_eq_some.2 hfield, by simp [his]⟩

def clauseLiterals (t : SyntaxTree) : List (List Nat × SyntaxTree) :=
  t.children.zipIdx.filterMap fun entry =>
    if entry.1.kind = "import_require_clause" then
      (literalIn entry.1 "source").map fun named => (entry.2 :: named.1, named.2)
    else none

def callLiteral (t : SyntaxTree) : Option (List Nat × SyntaxTree) :=
  match t.child? "function", firstIn t "arguments" with
  | some callee, some (arguments, i) =>
      if includes source callee then
        match argumentsOf arguments with
        | [(argument, j)] => if IsLiteral argument then some ([i, j], argument) else none
        | _ => none
      else none
  | _, _ => none

def own (t : SyntaxTree) : List (List Nat × SyntaxTree) :=
  if t.kind = "import_statement" then
    if (t.child? "source").isSome then (literalIn t "source").toList else clauseLiterals t
  else if t.kind = "export_statement" then (literalIn t "source").toList
  else if t.kind = "call_expression" then (callLiteral source t).toList
  else []

theorem ofCall?_eq (t : SyntaxTree) :
    ofCall? source t = (callLiteral source t).map fun named => valueOf source named.2 := by
  unfold ofCall? callLiteral
  rw [child?_eq t "arguments"]
  cases t.child? "function" with
  | none => rfl
  | some callee =>
      cases firstIn t "arguments" with
      | none => rfl
      | some entry =>
          simp only [Option.map_some]
          split
          · rw [filter_namedChildren]
            rcases argumentsOf entry.1 with _ | ⟨argument, _ | ⟨second, rest⟩⟩
            · rfl
            · simp only [List.map_cons, List.map_nil, literal?_eq]
              split <;> rfl
            · rfl
          · rfl

theorem clauses_eq (t : SyntaxTree) :
    (t.children.filterMap fun child =>
        if child.kind = "import_require_clause" then fieldLiteral? source child "source" else none)
      = (clauseLiterals t).map fun named => valueOf source named.2 := by
  rw [clauseLiterals, List.map_filterMap]
  conv => lhs; rw [← List.zipIdx_map_fst 0 t.children, List.filterMap_map]
  refine List.filterMap_congr fun entry _ => ?_
  simp only [Function.comp_apply, fieldLiteral?_eq]
  split
  · rw [Option.map_map]
    rfl
  · rfl

theorem specifiers_node (head : SyntaxNode) (children : List SyntaxTree) :
    specifiers source (.node head children)
      = ((own source (.node head children)).map fun named => valueOf source named.2)
        ++ if head.kind = "import_statement" then [] else specifiersOf source children := by
  have hkind : (SyntaxTree.node head children).kind = head.kind := rfl
  rw [specifiers, own, hkind, fieldLiteral?_eq, ofCall?_eq]
  by_cases himport : head.kind = "import_statement"
  · rw [if_pos himport, if_pos himport, if_pos himport, List.append_nil, ofImport, fieldLiteral?_eq]
    split
    · rw [Option.toList_map]
    · exact clauses_eq source _
  · by_cases hexport : head.kind = "export_statement"
    · rw [if_neg himport, if_neg himport, if_neg himport, if_pos hexport, if_pos hexport,
        Option.toList_map]
    · rw [if_neg himport, if_neg himport, if_neg himport, if_neg hexport, if_neg hexport]
      by_cases hcall : head.kind = "call_expression"
      · rw [if_pos hcall, if_pos hcall, Option.toList_map]
      · rw [if_neg hcall, if_neg hcall, List.map_nil, List.nil_append]

/-! ## The literals of a node are those it names modules by -/

theorem mem_clauseLiterals {t literal : SyntaxTree} {way : List Nat} :
    (way, literal) ∈ clauseLiterals t ↔ ∃ i j clause, way = [i, j] ∧ t.children[i]? = some clause ∧
      clause.kind = "import_require_clause" ∧ InField clause "source" j literal ∧
      IsLiteral literal := by
  rw [clauseLiterals, List.mem_filterMap]
  constructor
  · rintro ⟨⟨clause, i⟩, hclause, hnamed⟩
    split at hnamed
    · rename_i hkind
      obtain ⟨⟨rest, child⟩, hliteral, heq⟩ := Option.map_eq_some_iff.1 hnamed
      obtain ⟨rfl, rfl⟩ := Prod.mk.inj heq
      obtain ⟨j, rfl, hfield, his⟩ := literalIn_eq_some.1 hliteral
      exact ⟨i, j, clause, rfl, mem_zipIdx.1 hclause, hkind, hfield, his⟩
    · cases hnamed
  · rintro ⟨i, j, clause, rfl, hclause, hkind, hfield, his⟩
    refine ⟨(clause, i), mem_zipIdx.2 hclause, ?_⟩
    rw [if_pos hkind, literalIn_eq_some.2 ⟨j, rfl, hfield, his⟩]
    rfl

theorem callLiteral_eq_some {t literal : SyntaxTree} {way : List Nat} :
    callLiteral source t = some (way, literal) ↔ ∃ k i j callee arguments, way = [i, j] ∧
      InField t "function" k callee ∧ Includer source callee ∧
      InField t "arguments" i arguments ∧ OnlyArgument arguments j literal ∧
      IsLiteral literal := by
  constructor
  · intro h
    unfold callLiteral at h
    split at h
    · rename_i callee arguments i hcallee harguments
      split at h
      · rename_i hincludes
        split at h
        · rename_i argument j honly
          split at h
          · rename_i his
            obtain ⟨rfl, rfl⟩ := Prod.mk.inj (Option.some.inj h)
            obtain ⟨k, hfunction⟩ := exists_inField hcallee
            exact ⟨k, i, j, callee, arguments, rfl, hfunction,
              (includes_iff source callee).1 hincludes, firstIn_eq_some.1 harguments,
              argumentsOf_eq_singleton.1 honly, his⟩
          · cases h
        · cases h
      · cases h
    · cases h
  · rintro ⟨k, i, j, callee, arguments, rfl, hcallee, hincluder, harguments, honly, his⟩
    have hincludes := (includes_iff source callee).2 hincluder
    simp [callLiteral, hcallee.child?, firstIn_eq_some.2 harguments, hincludes,
      argumentsOf_eq_singleton.2 honly, his]

theorem child?_eq_none {t : SyntaxTree} {field : String} :
    t.child? field = none ↔ ∀ child ∈ t.children, child.head.field ≠ some field := by
  simp [SyntaxTree.child?]

theorem mem_own {t literal : SyntaxTree} {way : List Nat} :
    (way, literal) ∈ own source t ↔ Names source t way literal := by
  constructor
  · intro h
    unfold own at h
    split at h
    · rename_i himport
      split at h
      · obtain ⟨i, rfl, hfield, his⟩ := literalIn_eq_some.1 (Option.mem_toList.1 h)
        exact .imported himport hfield his
      · rename_i hnone
        have hnone : t.child? "source" = none := by simpa using hnone
        obtain ⟨i, j, clause, rfl, hclause, hkind, hfield, his⟩ := mem_clauseLiterals.1 h
        exact .required himport (child?_eq_none.1 hnone) hclause hkind hfield his
    · split at h
      · rename_i hexport
        obtain ⟨i, rfl, hfield, his⟩ := literalIn_eq_some.1 (Option.mem_toList.1 h)
        exact .exported hexport hfield his
      · split at h
        · rename_i hcall
          obtain ⟨k, i, j, callee, arguments, rfl, hcallee, hincluder, harguments, honly, his⟩ :=
            (callLiteral_eq_some source).1 (Option.mem_toList.1 h)
          exact .called hcall hcallee hincluder harguments honly his
        · simp at h
  · intro h
    cases h with
    | imported hkind hsource hliteral =>
        have hfield := literalIn_eq_some.2 ⟨_, rfl, hsource, hliteral⟩
        simp [own, hkind, hsource.child?, hfield]
    | required hkind hnone hclause hrequire hsource hliteral =>
        have hclauses := mem_clauseLiterals.2 ⟨_, _, _, rfl, hclause, hrequire, hsource, hliteral⟩
        simpa [own, hkind, child?_eq_none.2 hnone] using hclauses
    | exported hkind hsource hliteral =>
        have hfield := literalIn_eq_some.2 ⟨_, rfl, hsource, hliteral⟩
        simp [own, hkind, hfield]
    | called hkind hcallee hincluder harguments honly hliteral =>
        have hcall := (callLiteral_eq_some source).2
          ⟨_, _, _, _, _, rfl, hcallee, hincluder, harguments, honly, hliteral⟩
        simp [own, hkind, hcall]

theorem pairwise_clauseLiterals (t : SyntaxTree) :
    (clauseLiterals t).Pairwise fun a b => a.1 < b.1 := by
  refine (pairwise_zipIdx t.children 0).filterMap _ fun a b hab named hnamed other hother => ?_
  have hway : ∀ (entry : SyntaxTree × Nat) (found : List Nat × SyntaxTree),
      (if entry.1.kind = "import_require_clause" then
        (literalIn entry.1 "source").map fun named => (entry.2 :: named.1, named.2)
      else none) = some found → ∃ rest, found.1 = entry.2 :: rest := by
    intro entry found hfound
    split at hfound
    · obtain ⟨literal, -, rfl⟩ := Option.map_eq_some_iff.1 hfound
      exact ⟨literal.1, rfl⟩
    · cases hfound
  obtain ⟨rest, hrest⟩ := hway a named hnamed
  obtain ⟨rest', hrest'⟩ := hway b other hother
  rw [hrest, hrest']
  exact List.cons_lt_cons_iff.2 (.inl hab)

theorem pairwise_own (t : SyntaxTree) : (own source t).Pairwise fun a b => a.1 < b.1 := by
  have hsingle : ∀ found : Option (List Nat × SyntaxTree),
      found.toList.Pairwise fun a b => a.1 < b.1 := by
    intro found
    cases found <;> simp
  unfold own
  split
  · split
    · exact hsingle _
    · exact pairwise_clauseLiterals t
  · split
    · exact hsingle _
    · split
      · exact hsingle _
      · exact .nil

end

end ModuleTrace.Inclusion

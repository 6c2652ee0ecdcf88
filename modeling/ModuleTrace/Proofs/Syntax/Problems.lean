import ModuleTrace.Syntax.Tree

/-!
# The first problem of a syntax tree

A tree is searched for what does not fit the grammar with a list of trees yet to visit, and what is
marked as free of problems is left out. Where the marks are right, the search finds the first
problem of all nodes, an outer node before those in it and these from left to right.
-/

namespace ModuleTrace

namespace SyntaxNode

theorem problem?_eq_none_iff (n : SyntaxNode) : n.problem? = none ↔ n.fit = .sound := by
  unfold problem?
  cases n.fit <;> simp

end SyntaxNode

namespace SyntaxTree

mutual

/-- A tree and those below it, an outer one before those in it. -/
def subtrees : SyntaxTree → List SyntaxTree
  | node head children => node head children :: subtreesAll children

def subtreesAll : List SyntaxTree → List SyntaxTree
  | [] => []
  | t :: ts => t.subtrees ++ subtreesAll ts

end

theorem subtreesAll_append (ts us : List SyntaxTree) :
    subtreesAll (ts ++ us) = subtreesAll ts ++ subtreesAll us := by
  induction ts with
  | nil => rfl
  | cons t ts ih => simp [subtreesAll, ih]

theorem subtrees_subset_of_mem {t : SyntaxTree} {ts : List SyntaxTree} (h : t ∈ ts) :
    t.subtrees ⊆ subtreesAll ts := by
  induction ts with
  | nil => cases h
  | cons first ts ih =>
      rw [subtreesAll]
      rcases List.mem_cons.1 h with rfl | h
      · exact List.subset_append_left _ _
      · exact List.Subset.trans (ih h) (List.subset_append_right _ _)

theorem mem_subtrees_self (t : SyntaxTree) : t ∈ t.subtrees := by
  cases t
  rw [subtrees]
  exact List.mem_cons_self

/-- Every node says rightly whether it or one below it does not fit the grammar. -/
def Marked (t : SyntaxTree) : Prop :=
  ∀ u ∈ t.subtrees, (u.head.hasProblem = true ↔ ∃ v ∈ u.subtrees, v.head.fit ≠ .sound)

theorem Marked.child {head : SyntaxNode} {children : List SyntaxTree}
    (h : (node head children).Marked) {child : SyntaxTree} (hchild : child ∈ children) :
    child.Marked := fun u hu => by
  refine h u ?_
  rw [subtrees]
  exact List.mem_cons_of_mem _ (subtrees_subset_of_mem hchild hu)

/-- What is marked as free of problems has none. -/
theorem Marked.sound {t : SyntaxTree} (h : t.Marked) (hmark : t.head.hasProblem = false)
    {u : SyntaxTree} (hu : u ∈ t.subtrees) : u.head.problem? = none := by
  rw [SyntaxNode.problem?_eq_none_iff]
  refine Decidable.byContradiction fun hfit => ?_
  simp [(h t t.mem_subtrees_self).2 ⟨u, hu, hfit⟩] at hmark

/-- The search gives the first problem of the trees that it has yet to visit. -/
theorem search_eq_findSome? (trees : List SyntaxTree) (h : ∀ t ∈ trees, t.Marked) :
    search trees = (subtreesAll trees).findSome? fun u => u.head.problem? := by
  induction trees using search.induct with
  | case1 => simp [search, subtreesAll]
  | case2 head children rest problem hproblem =>
      rw [search, hproblem]
      simp [subtreesAll, subtrees, SyntaxTree.head, hproblem]
  | case3 head children rest hnone hmark ih =>
      have hfirst := h _ List.mem_cons_self
      have hbelow : ∀ t ∈ children ++ rest, t.Marked := by
        intro t ht
        rcases List.mem_append.1 ht with hchild | hrest
        · exact hfirst.child hchild
        · exact h t (List.mem_cons_of_mem _ hrest)
      rw [search, hnone]
      simp only [hmark, if_true]
      rw [ih hbelow, subtreesAll_append]
      simp [subtreesAll, subtrees, SyntaxTree.head, hnone]
  | case4 head children rest hnone hmark ih =>
      have hfirst := h _ List.mem_cons_self
      have hpassed : ((node head children).subtrees.findSome? fun u => u.head.problem?) = none :=
        List.findSome?_eq_none_iff.2 fun u hu => hfirst.sound (Bool.eq_false_iff.2 hmark) hu
      rw [search, hnone]
      simp only [hmark]
      rw [subtreesAll, List.findSome?_append, hpassed, Option.none_or]
      exact ih fun t ht => h t (List.mem_cons_of_mem _ ht)

theorem Marked.firstProblem?_eq {t : SyntaxTree} (h : t.Marked) :
    t.firstProblem? = t.subtrees.findSome? fun u => u.head.problem? := by
  have hall : ∀ u ∈ [t], u.Marked := fun u hu => List.mem_singleton.1 hu ▸ h
  rw [firstProblem?, search_eq_findSome? _ hall]
  simp [subtreesAll]

/-- Every description of a problem goes on behind the bare text for want of one. -/
theorem message_ne (problem : SyntaxProblem) : problem.message ≠ "syntax error" := by
  have hmessage : ∃ rest, problem.message = "syntax error: " ++ rest := by
    unfold SyntaxProblem.message
    simp only [String.append_assoc]
    exact ⟨_, rfl⟩
  obtain ⟨rest, hrest⟩ := hmessage
  rw [hrest]
  intro h
  have hlength := congrArg String.length h
  rw [String.length_append] at hlength
  have hbare : "syntax error".length = 12 := by decide
  have hhead : "syntax error: ".length = 14 := by decide
  omega

/-- The text of a problem, by the node that it is about. -/
theorem message_of_problem? {n : SyntaxNode} {problem : SyntaxProblem}
    (h : n.problem? = some problem) : problem.message = "syntax error: "
      ++ (if n.fit = .missing then "missing `" ++ n.kind ++ "`" else "unexpected token")
      ++ " at line " ++ toString (n.place.line + 1)
      ++ ", column " ++ toString (n.place.column + 1) := by
  unfold SyntaxNode.problem? at h
  cases hfit : n.fit <;> simp only [hfit, reduceCtorEq, Option.some.injEq] at h
  · subst h
    rfl
  · subst h
    rfl

/-- Where the marks of a tree are right and say that something does not fit, the first node that
does not is described, with its kind if it is missing, and with its line and column from one. -/
theorem describeProblem_first {t : SyntaxTree} (marked : t.Marked)
    (unfit : t.head.hasProblem = true) :
    ∃ u, t.subtrees.find? (fun v => v.head.fit ≠ .sound) = some u ∧
      t.describeProblem = "syntax error: "
        ++ (if u.head.fit = .missing then "missing `" ++ u.head.kind ++ "`"
          else "unexpected token")
        ++ " at line " ++ toString (u.head.place.line + 1)
        ++ ", column " ++ toString (u.head.place.column + 1) ∧
      t.describeProblem ≠ "syntax error" := by
  obtain ⟨v, hv, hfit⟩ := (marked t t.mem_subtrees_self).1 unfit
  cases hfound : t.subtrees.findSome? fun u => u.head.problem? with
  | none =>
      have hnone := List.findSome?_eq_none_iff.1 hfound v hv
      exact absurd ((SyntaxNode.problem?_eq_none_iff _).1 hnone) hfit
  | some problem =>
      obtain ⟨before, u, after, hsplit, hproblem, hbefore⟩ := List.findSome?_eq_some_iff.1 hfound
      have hunfit : u.head.fit ≠ .sound := by
        intro hsound
        rw [(SyntaxNode.problem?_eq_none_iff _).2 hsound] at hproblem
        cases hproblem
      have hpassed : ∀ v ∈ before, v.head.fit = .sound := fun v hv =>
        (SyntaxNode.problem?_eq_none_iff _).1 (hbefore v hv)
      have hdescribed : t.describeProblem = problem.message := by
        rw [describeProblem, marked.firstProblem?_eq, hfound]
      refine ⟨u, List.find?_eq_some_iff_append.2 ⟨by simpa using hunfit, before, after, hsplit, ?_⟩,
        ?_, ?_⟩
      · simpa using hpassed
      · rw [hdescribed, message_of_problem? hproblem]
      · rw [hdescribed]
        exact message_ne problem

/-- A script that lacks a semicolon in its second line, and has an error behind that. -/
def unfitTree : SyntaxTree :=
  let tree := fun (kind : String) (fit : Fit) (hasProblem : Bool) (place : Grammar.Place) =>
    node ⟨kind, true, none, fit, hasProblem, place, 0, 0⟩
  tree "program" .sound true ⟨0, 0⟩
    [tree "expression_statement" .sound false ⟨0, 0⟩ [tree "identifier" .sound false ⟨0, 0⟩ []],
      tree "lexical_declaration" .sound true ⟨1, 0⟩
        [tree "identifier" .sound false ⟨1, 4⟩ [], tree ";" .missing true ⟨1, 5⟩ []],
      tree "ERROR" .unexpected true ⟨2, 0⟩ []]

theorem describeProblem_first_missing :
    unfitTree.Marked ∧ unfitTree.head.hasProblem = true ∧
      unfitTree.describeProblem = "syntax error: missing `;` at line 2, column 6" := by
  have hmarked : unfitTree.Marked := by
    unfold Marked
    decide
  obtain ⟨u, hfound, hdescribed, -⟩ := describeProblem_first hmarked rfl
  obtain rfl := Option.some.inj hfound
  exact ⟨hmarked, rfl, hdescribed.trans (by decide)⟩

end SyntaxTree

end ModuleTrace

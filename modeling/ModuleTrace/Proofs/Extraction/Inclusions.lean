import ModuleTrace.Extraction.Extractor
import ModuleTrace.Proofs.Extraction.Naming
import ModuleTrace.Proofs.Syntax.Addresses

/-!
# What a syntax tree includes

A tree includes all that is named anywhere in it, unless inside an import statement, and each
literal is taken once for each node that it names a module for. Nodes come in the order in which
they are written, an outer one before those in it, so the literals are in the order of the text as
long as nothing is included inside a node in front of its own literal.
-/

namespace ModuleTrace.Inclusion

open Grammar (Text)

/-! ## What is found in a tree -/

/-- A literal that is taken: the address of the node that it names a module for, the way from there
to it, and the literal. -/
structure Found where
  node : List Nat
  way : List Nat
  literal : SyntaxTree

namespace Found

def address (a : Found) : List Nat :=
  a.node ++ a.way

/-- The same in a tree that has this one as a child. -/
def below (i : Nat) (a : Found) : Found :=
  { a with node := i :: a.node }

/-- One node is written in front of the other or around it, or it is the same and one of its
literals is in front of the other. -/
def Before (a b : Found) : Prop :=
  a.node < b.node ∨ a.node = b.node ∧ a.way < b.way

theorem Before.asymm {a b : Found} (h : a.Before b) : ¬ b.Before a := by
  rintro (hnode | ⟨hnode, hway⟩)
  · rcases h with h | ⟨h, -⟩
    · exact List.lt_asymm h hnode
    · exact List.lt_irrefl _ (h ▸ hnode)
  · rcases h with h | ⟨-, h⟩
    · exact List.lt_irrefl _ (hnode ▸ h)
    · exact List.lt_asymm h hway

theorem Before.below {a b : Found} (h : a.Before b) (i : Nat) : (a.below i).Before (b.below i) := by
  rcases h with h | ⟨h, hway⟩
  · exact .inl (List.cons_lt_cons_iff.2 (.inr ⟨rfl, h⟩))
  · exact .inr ⟨congrArg (i :: ·) h, hway⟩

end Found

/-- A node at an address, with no import statement around it. -/
inductive Reaches : SyntaxTree → List Nat → SyntaxTree → Prop where
  | here (t : SyntaxTree) : Reaches t [] t
  | inside {t child u : SyntaxTree} {i : Nat} {rest : List Nat}
      (hopen : t.kind ≠ "import_statement") (hchild : t.children[i]? = some child)
      (h : Reaches child rest u) : Reaches t (i :: rest) u

theorem Reaches.at? {t u : SyntaxTree} {p : List Nat} (h : Reaches t p u) : t.at? p = some u := by
  induction h with
  | here t => rfl
  | inside hopen hchild h ih => rw [SyntaxTree.at?, hchild, Option.bind_some, ih]

section

variable (source : Text)

theorem Names.at? {t literal : SyntaxTree} {way : List Nat} (h : Names source t way literal) :
    t.at? way = some literal := by
  cases h with
  | imported hkind hsource hliteral => simp [SyntaxTree.at?, hsource.there]
  | required hkind hnone hclause hrequire hsource hliteral =>
      simp [SyntaxTree.at?, hclause, hsource.there]
  | exported hkind hsource hliteral => simp [SyntaxTree.at?, hsource.there]
  | called hkind hcallee hincluder harguments honly hliteral =>
      simp [SyntaxTree.at?, harguments.there, honly.there]

/-- A literal that a node below the root names a module by. -/
def Found.IsIn (tree : SyntaxTree) (a : Found) : Prop :=
  ∃ i rest child t, a.node = i :: rest ∧ tree.children[i]? = some child ∧ Reaches child rest t ∧
    Names source t a.way a.literal

theorem Found.IsIn.at? {tree : SyntaxTree} {a : Found} (h : a.IsIn source tree) :
    tree.at? a.address = some a.literal := by
  obtain ⟨i, rest, child, t, hnode, hchild, hreaches, hnames⟩ := h
  rw [Found.address, hnode, List.cons_append, SyntaxTree.at?, hchild, Option.bind_some,
    SyntaxTree.at?_append, hreaches.at?, Option.bind_some, hnames.at?]

mutual

/-- The literals in a tree: those of its root, and unless it is an import statement those below. -/
def foundIn : SyntaxTree → List Found
  | .node head children =>
      ((own source (.node head children)).map fun named => ⟨[], named.1, named.2⟩)
        ++ if head.kind = "import_statement" then [] else foundAmong 0 children

def foundAmong : Nat → List SyntaxTree → List Found
  | _, [] => []
  | i, t :: ts => (foundIn t).map (Found.below i) ++ foundAmong (i + 1) ts

end

theorem value_foundAmong {ts : List SyntaxTree}
    (hts : ∀ t ∈ ts, (foundIn source t).map (fun a => valueOf source a.literal)
      = specifiers source t) (k : Nat) :
    (foundAmong source k ts).map (fun a => valueOf source a.literal) = specifiersOf source ts := by
  induction ts generalizing k with
  | nil => rfl
  | cons t ts ih =>
      rw [foundAmong, specifiersOf, List.map_append, List.map_map, ← hts t List.mem_cons_self,
        ih fun u hu => hts u (List.mem_cons_of_mem _ hu)]
      rfl

theorem value_foundIn (t : SyntaxTree) :
    (foundIn source t).map (fun a => valueOf source a.literal) = specifiers source t := by
  induction t using SyntaxTree.induction with
  | step head children ih =>
      rw [foundIn, specifiers_node, List.map_append, List.map_map]
      congr 1
      split
      · rfl
      · exact value_foundAmong source ih 0

theorem mem_foundAmong {ts : List SyntaxTree} {k : Nat} {a : Found} :
    a ∈ foundAmong source k ts
      ↔ ∃ i t b, ts[i]? = some t ∧ b ∈ foundIn source t ∧ a = b.below (k + i) := by
  induction ts generalizing k with
  | nil => simp [foundAmong]
  | cons t ts ih =>
      rw [foundAmong, List.mem_append, List.mem_map, ih]
      constructor
      · rintro (⟨b, hb, rfl⟩ | ⟨i, u, b, hu, hb, rfl⟩)
        · exact ⟨0, t, b, rfl, hb, rfl⟩
        · exact ⟨i + 1, u, b, hu, hb, by rw [Nat.add_right_comm, Nat.add_assoc]⟩
      · rintro ⟨i, u, b, hu, hb, rfl⟩
        cases i with
        | zero =>
            obtain rfl : t = u := by simpa using hu
            exact .inl ⟨b, hb, rfl⟩
        | succ i => exact .inr ⟨i, u, b, hu, hb, by rw [Nat.add_right_comm, Nat.add_assoc]⟩

theorem mem_foundIn {t : SyntaxTree} {a : Found} :
    a ∈ foundIn source t ↔ ∃ u, Reaches t a.node u ∧ Names source u a.way a.literal := by
  induction t using SyntaxTree.induction generalizing a with
  | step head children ih =>
      rw [foundIn, List.mem_append, List.mem_map]
      constructor
      · rintro (⟨named, hnamed, rfl⟩ | hbelow)
        · exact ⟨_, .here _, (mem_own source).1 hnamed⟩
        · split at hbelow
          · cases hbelow
          · rename_i hopen
            obtain ⟨i, child, b, hchild, hb, rfl⟩ := (mem_foundAmong source).1 hbelow
            obtain ⟨u, hreaches, hnames⟩ := (ih child (List.mem_of_getElem? hchild)).1 hb
            rw [Nat.zero_add]
            exact ⟨u, .inside hopen hchild hreaches, hnames⟩
      · obtain ⟨node, way, literal⟩ := a
        rintro ⟨u, hreaches, hnames⟩
        cases hreaches with
        | here => exact .inl ⟨(way, literal), (mem_own source).2 hnames, rfl⟩
        | @inside _ child _ i rest hopen hchild h =>
            have hb : Found.mk rest way literal ∈ foundIn source child :=
              (ih child (List.mem_of_getElem? hchild)).2 ⟨u, h, hnames⟩
            have hamong := (mem_foundAmong source (k := 0)).2 ⟨i, child, _, hchild, hb, rfl⟩
            rw [Nat.zero_add] at hamong
            exact .inr (if_neg hopen ▸ hamong)

/-- The literals below a root are all that are in the tree. -/
theorem mem_foundAmong_children {tree : SyntaxTree} {a : Found} :
    a ∈ foundAmong source 0 tree.children ↔ a.IsIn source tree := by
  rw [mem_foundAmong]
  constructor
  · rintro ⟨i, child, b, hchild, hb, rfl⟩
    obtain ⟨t, hreaches, hnames⟩ := (mem_foundIn source).1 hb
    exact ⟨i, b.node, child, t, by rw [Nat.zero_add]; rfl, hchild, hreaches, hnames⟩
  · obtain ⟨node, way, literal⟩ := a
    rintro ⟨i, rest, child, t, rfl, hchild, hreaches, hnames⟩
    have hb : Found.mk rest way literal ∈ foundIn source child :=
      (mem_foundIn source).2 ⟨t, hreaches, hnames⟩
    exact ⟨i, child, _, hchild, hb, by rw [Nat.zero_add]; rfl⟩

theorem pairwise_foundAmong {ts : List SyntaxTree}
    (hts : ∀ t ∈ ts, (foundIn source t).Pairwise Found.Before) (k : Nat) :
    (foundAmong source k ts).Pairwise Found.Before := by
  induction ts generalizing k with
  | nil => exact .nil
  | cons t ts ih =>
      rw [foundAmong, List.pairwise_append, List.pairwise_map]
      refine ⟨(hts t List.mem_cons_self).imp fun h => h.below k,
        ih (fun u hu => hts u (List.mem_cons_of_mem _ hu)) (k + 1), ?_⟩
      intro a ha b hb
      obtain ⟨a, -, rfl⟩ := List.mem_map.1 ha
      obtain ⟨i, -, b, -, -, rfl⟩ := (mem_foundAmong source).1 hb
      exact .inl (List.cons_lt_cons_iff.2 (.inl (by omega)))

theorem pairwise_foundIn (t : SyntaxTree) : (foundIn source t).Pairwise Found.Before := by
  induction t using SyntaxTree.induction with
  | step head children ih =>
      rw [foundIn, List.pairwise_append, List.pairwise_map]
      refine ⟨(pairwise_own source _).imp fun h => .inr ⟨rfl, h⟩, ?_, ?_⟩
      · split
        · exact .nil
        · exact pairwise_foundAmong source ih 0
      · -- The root is around all that is below it.
        intro a ha b hb
        obtain ⟨named, -, rfl⟩ := List.mem_map.1 ha
        split at hb
        · cases hb
        · obtain ⟨i, -, b, -, -, rfl⟩ := (mem_foundAmong source).1 hb
          exact .inl (List.nil_lt_cons _ _)

/-! ## The order of the literals -/

/-- Nothing is included inside a node in front of a literal that the node names a module by. -/
def LiteralsLead (tree : SyntaxTree) : Prop :=
  ∀ a b : Found, a.IsIn source tree → b.IsIn source tree → a.node <+: b.node → a.node ≠ b.node →
    a.address < b.address

instance (tree : SyntaxTree) : Decidable (LiteralsLead source tree) :=
  decidable_of_iff (∀ a ∈ foundAmong source 0 tree.children,
      ∀ b ∈ foundAmong source 0 tree.children, a.node <+: b.node → a.node ≠ b.node →
        a.address < b.address) <| by
    simp only [mem_foundAmong_children]
    exact ⟨fun h a b ha hb => h a ha b hb, fun h a ha b hb => h a b ha hb⟩

theorem address_lt {tree : SyntaxTree} (hlead : LiteralsLead source tree) {a b : Found}
    (ha : a.IsIn source tree) (hb : b.IsIn source tree) (h : a.Before b) :
    a.address < b.address := by
  rcases h with hnode | ⟨hnode, hway⟩
  · by_cases hprefix : a.node <+: b.node
    · exact hlead a b ha hb hprefix fun heq => List.lt_irrefl _ (heq ▸ hnode)
    · exact SyntaxTree.append_lt_append hnode hprefix _ _
  · rw [Found.address, Found.address, hnode]
    exact SyntaxTree.append_lt_append_left _ hway

/-- The literals are in the order of their addresses just in case they lead. -/
theorem literalsLead_iff (tree : SyntaxTree) : LiteralsLead source tree ↔
    (foundAmong source 0 tree.children).Pairwise fun a b => a.address < b.address := by
  have hbefore : (foundAmong source 0 tree.children).Pairwise Found.Before :=
    pairwise_foundAmong source (fun t _ => pairwise_foundIn source t) 0
  constructor
  · intro hlead
    refine hbefore.imp_of_mem fun ha hb h => ?_
    exact address_lt source hlead ((mem_foundAmong_children source).1 ha)
      ((mem_foundAmong_children source).1 hb) h
  · intro haddress a b ha hb hprefix hne
    have hforth : (foundAmong source 0 tree.children).Pairwise fun a b =>
        a.Before b → a.address < b.address := by
      refine haddress.imp ?_
      exact fun h _ => h
    have hback : (foundAmong source 0 tree.children).Pairwise fun a b =>
        b.Before a → b.address < a.address := by
      refine hbefore.imp ?_
      exact fun h hback => absurd hback h.asymm
    exact hforth.forall_of_forall_of_flip (fun a _ h => absurd h h.asymm) hback
      ((mem_foundAmong_children source).2 ha) ((mem_foundAmong_children source).2 hb)
      (.inl (SyntaxTree.lt_of_prefix hprefix hne))

/-- A script without problems gives one specifier for each literal that a node names a module by,
unless inside an import statement, and no other. They come by their nodes; by their literals too,
and so in the order of the text, just in case nothing is included in front of a literal of a node
around it. -/
theorem ofTree_includes (tree : SyntaxTree) (hsound : tree.head.hasProblem = false) :
    (∀ (support : SyntaxSupport) (file : SourceFile),
      (support ≠ .none ∧ file.kind? = some .plain ∨
        support = .all ∧ file.kind? = some .typed) →
      Text.ofString file.contents = source →
      SyntaxTree.parse (Dialect.ofPath file.path) source = some tree →
      support.find file = .ok (Extraction.ofTree source tree)) ∧
    ∃ found : List Found,
      Extraction.ofTree source tree = .specifiers (found.map fun a => valueOf source a.literal) ∧
      (∀ a, a ∈ found ↔ a.IsIn source tree) ∧ found.Pairwise Found.Before ∧
      (LiteralsLead source tree ↔ found.Pairwise fun a b => a.address < b.address) ∧
      (tree.isOrderly = true → LiteralsLead source tree →
        found.Pairwise fun a b => a.literal.head.start ≤ b.literal.head.start) := by
  have hmem : ∀ a, a ∈ foundAmong source 0 tree.children ↔ a.IsIn source tree :=
    fun a => mem_foundAmong_children source
  refine ⟨?_, foundAmong source 0 tree.children, ?_, hmem,
    pairwise_foundAmong source (fun t _ => pairwise_foundIn source t) 0,
    literalsLead_iff source tree, fun horderly hlead => ?_⟩
  · rintro support file hkind rfl hparse
    exact SyntaxSupport.find_of_parse hkind hparse
  · rw [Extraction.ofTree, hsound, if_neg Bool.false_ne_true,
      value_foundAmong source (fun t _ => value_foundIn source t) 0]
  · refine ((literalsLead_iff source tree).1 hlead).imp_of_mem fun ha hb h => ?_
    exact SyntaxTree.start_le_start horderly (((hmem _).1 ha).at? source)
      (((hmem _).1 hb).at? source) h

end

/-! ## Trees of texts -/

section

open Grammar

def token (kind : String) (start stop : Nat) : SyntaxTree :=
  .node ⟨kind, false, none, .sound, false, ⟨0, start⟩, start, stop⟩ []

def branch (kind : String) (field : Option String) (start stop : Nat)
    (children : List SyntaxTree) : SyntaxTree :=
  .node ⟨kind, true, field, .sound, false, ⟨0, start⟩, start, stop⟩ children

def quoted (field : Option String) (start stop : Nat) : SyntaxTree :=
  branch "string" field start stop
    [token "'" start (start + 1), branch "string_fragment" none (start + 1) (stop - 1) [],
      token "'" (stop - 1) stop]

def nestedText : Text :=
  Text.ofString "f(require('./a')); import './b'"

def nestedTree : SyntaxTree :=
  branch "program" none 0 31
    [branch "expression_statement" none 0 18
      [branch "call_expression" none 0 17
        [branch "identifier" (some "function") 0 1 [],
          branch "arguments" (some "arguments") 1 17
            [token "(" 1 2,
              branch "call_expression" none 2 16
                [branch "identifier" (some "function") 2 9 [],
                  branch "arguments" (some "arguments") 9 16
                    [token "(" 9 10, quoted none 10 15, token ")" 15 16]],
              token ")" 16 17]],
        token ";" 17 18],
      branch "import_statement" none 19 31 [token "import" 19 25, quoted (some "source") 26 31]]

/-- A call among the arguments of another one, and an import behind it. -/
theorem ofTree_includes_nested :
    nestedTree.head.hasProblem = false ∧ nestedTree.isOrderly = true ∧
      LiteralsLead nestedText nestedTree ∧
      ∃ found : List Found,
        found.map (fun a => valueOf nestedText a.literal) = ["./a", "./b"] ∧
        (∀ a, a ∈ found ↔ a.IsIn nestedText nestedTree) ∧
        found.Pairwise fun a b => a.literal.head.start ≤ b.literal.head.start := by
  have hsound : nestedTree.head.hasProblem = false := rfl
  have horderly : nestedTree.isOrderly = true := by decide +kernel
  have hlead : LiteralsLead nestedText nestedTree := by decide +kernel
  have hspecifiers : Extraction.ofTree nestedText nestedTree = .specifiers ["./a", "./b"] := by
    decide +kernel
  obtain ⟨-, found, hfound, hmem, -, -, hordered⟩ := ofTree_includes nestedText nestedTree hsound
  rw [hspecifiers, Extraction.specifiers.injEq] at hfound
  exact ⟨hsound, horderly, hlead, found, hfound.symm, hmem, hordered horderly hlead⟩

def typedText : Text :=
  Text.ofString "require<\x7bt?:import('a').T\x7d>('b')"

def typedTree : SyntaxTree :=
  branch "program" none 0 32
    [branch "expression_statement" none 0 32
      [branch "call_expression" none 0 32
        [branch "identifier" (some "function") 0 7 [],
          branch "type_arguments" (some "type_arguments") 7 27
            [token "<" 7 8,
              branch "object_type" none 8 26
                [token "\x7b" 8 9,
                  branch "property_signature" none 9 25
                    [branch "property_identifier" (some "name") 9 10 [], token "?" 10 11,
                      branch "type_annotation" (some "type") 11 25
                        [token ":" 11 12,
                          branch "type_query" none 12 25
                            [branch "call_expression" (some "object") 12 23
                              [branch "import" (some "function") 12 18 [token "import" 12 18],
                                branch "arguments" (some "arguments") 18 23
                                  [token "(" 18 19, quoted none 19 22, token ")" 22 23]],
                              token "." 23 24,
                              branch "property_identifier" (some "property") 24 25 []]]],
                  token "\x7d" 25 26],
              token ">" 26 27],
          branch "arguments" (some "arguments") 27 32
            [token "(" 27 28, quoted none 28 31, token ")" 31 32]]]]

/-- A type argument stands in front of the literal of its call, and what it includes is told
behind it. -/
theorem ofTree_includes_type_argument :
    typedTree.head.hasProblem = false ∧ typedTree.isOrderly = true ∧
      Extraction.ofTree typedText typedTree = .specifiers ["b", "a"] ∧
      ∃ a b : Found, a.IsIn typedText typedTree ∧ b.IsIn typedText typedTree ∧
        valueOf typedText a.literal = "a" ∧ valueOf typedText b.literal = "b" ∧
        a.literal.head.stop ≤ b.literal.head.start := by
  have hfound : ∃ a ∈ foundAmong typedText 0 typedTree.children,
      ∃ b ∈ foundAmong typedText 0 typedTree.children,
        valueOf typedText a.literal = "a" ∧ valueOf typedText b.literal = "b" ∧
        a.literal.head.stop ≤ b.literal.head.start := by
    decide +kernel
  obtain ⟨a, ha, b, hb, hvalues⟩ := hfound
  exact ⟨rfl, by decide +kernel, by decide +kernel, a, b,
    (mem_foundAmong_children typedText).1 ha, (mem_foundAmong_children typedText).1 hb, hvalues⟩

end

end ModuleTrace.Inclusion

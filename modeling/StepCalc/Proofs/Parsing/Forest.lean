import StepCalc.Parsing.Automaton
import StepCalc.Proofs.Grammar.Choice

/-!
# Forests

`Grammar.Forest` says which trees a sequence of symbols has over a sequence of tokens: one tree for
each symbol, a leaf for a terminal and for a nonterminal a node whose children are a forest of one
of its alternatives. It says nothing about how the trees are found.

`Grammar.Predicted` is a forest in which every alternative is chosen by the token that comes next.
It reads some of the tokens and leaves the rest, and there is at most one such forest
(`Predicted.unique`).
-/

namespace StepCalc

namespace ParseTree

mutual

/-- The leaves of a tree, from left to right. -/
def leaves : ParseTree → List ParseTree
  | node _ children => leavesOfAll children
  | tree => [tree]

def leavesOfAll : List ParseTree → List ParseTree
  | [] => []
  | tree :: rest => tree.leaves ++ leavesOfAll rest

end

end ParseTree

theorem Token.leaves_leaf (token : Token) : token.leaf.leaves = [token.leaf] := by
  unfold Token.leaf
  cases token.kind <;> simp only [ParseTree.leaves]

namespace Grammar

variable (g : Grammar)

/-- `trees` are trees of `symbols`, one for each symbol, whose leaves are `tokens`. -/
inductive Forest : List String → List ParseTree → List Token → Prop
  | nil : Forest [] [] []
  | leaf {token : Token} {s : String} {symbols : List String} {trees : List ParseTree}
      {tokens : List Token} (hterminal : token.terminal = s) (hs : s ∉ g.names)
      (hrest : Forest symbols trees tokens) :
      Forest (s :: symbols) (token.leaf :: trees) (token :: tokens)
  | node {name : String} {rhs symbols : List String} {children trees : List ParseTree}
      {inner tokens : List Token} (halt : g.HasAlternative name rhs)
      (hchildren : Forest rhs children inner) (hrest : Forest symbols trees tokens) :
      Forest (name :: symbols) (.node name children :: trees) (inner ++ tokens)

/-- `tree` is a parse tree of `tokens`: it is rooted at the start symbol, its nodes are alternatives
of the grammar, and its leaves are the tokens from left to right. -/
def IsParse (tokens : List Token) (tree : ParseTree) : Prop := g.Forest [g.start] [tree] tokens

/-- `trees` are trees of `symbols`, one for each symbol, read from the front of a token list;
`rest` is left of it. Each node has the first alternative that the next token predicts. -/
inductive Predicted : List String → List Token → List ParseTree → List Token → Prop
  | nil (tokens : List Token) : Predicted [] tokens [] tokens
  | leaf {token : Token} {s : String} {symbols : List String} {trees : List ParseTree}
      {tokens rest : List Token} (hterminal : token.terminal = s) (hs : s ∉ g.names)
      (hrest : Predicted symbols tokens trees rest) :
      Predicted (s :: symbols) (token :: tokens) (token.leaf :: trees) rest
  | node {token : Token} {name : String} {rhs symbols : List String}
      {children trees : List ParseTree} {tokens between rest : List Token}
      (hchoice : g.FirstChoice name token.terminal rhs)
      (hchildren : Predicted rhs (token :: tokens) children between)
      (hrest : Predicted symbols between trees rest) :
      Predicted (name :: symbols) (token :: tokens) (.node name children :: trees) rest

variable {g}

/-! ## Forests -/

namespace Forest

theorem leavesOfAll_eq {symbols : List String} {trees : List ParseTree} {tokens : List Token}
    (h : g.Forest symbols trees tokens) :
    ParseTree.leavesOfAll trees = tokens.map Token.leaf := by
  induction h with
  | nil => simp only [ParseTree.leavesOfAll, List.map_nil]
  | leaf _ _ _ ih =>
    rw [ParseTree.leavesOfAll, Token.leaves_leaf, ih]
    rfl
  | node _ _ _ ih₁ ih₂ => rw [ParseTree.leavesOfAll, ParseTree.leaves, ih₁, ih₂, List.map_append]

theorem length_eq {symbols : List String} {trees : List ParseTree} {tokens : List Token}
    (h : g.Forest symbols trees tokens) : trees.length = symbols.length := by
  induction h with
  | nil => rfl
  | leaf _ _ _ ih => rw [List.length_cons, List.length_cons, ih]
  | node _ _ _ _ ih => rw [List.length_cons, List.length_cons, ih]

theorem terminal_not_mem {symbols : List String} {trees : List ParseTree} {tokens : List Token}
    (h : g.Forest symbols trees tokens) : ∀ token ∈ tokens, token.terminal ∉ g.names := by
  induction h with
  | nil => exact fun _ h => absurd h List.not_mem_nil
  | leaf hterminal hs _ ih =>
    intro token htoken
    rcases List.mem_cons.mp htoken with rfl | htoken
    · rwa [hterminal]
    · exact ih token htoken
  | node _ _ _ ih₁ ih₂ =>
    intro token htoken
    rcases List.mem_append.mp htoken with htoken | htoken
    · exact ih₁ token htoken
    · exact ih₂ token htoken

/-- A forest is a derivation of its leaves. -/
theorem derives {symbols : List String} {trees : List ParseTree} {tokens : List Token}
    (h : g.Forest symbols trees tokens) : g.Derives symbols (tokens.map Token.terminal) := by
  induction h with
  | nil => exact Derives.refl []
  | leaf hterminal _ _ ih =>
    rw [List.map_cons, hterminal]
    exact (Derives.refl [_]).append ih
  | node halt _ _ ih₁ ih₂ =>
    rw [List.map_append]
    exact (halt.derives.trans ih₁).append ih₂

theorem append {symbols symbols' : List String} {trees trees' : List ParseTree}
    {tokens tokens' : List Token} (h : g.Forest symbols trees tokens)
    (h' : g.Forest symbols' trees' tokens') :
    g.Forest (symbols ++ symbols') (trees ++ trees') (tokens ++ tokens') := by
  induction h with
  | nil => exact h'
  | leaf hterminal hs _ ih => exact .leaf hterminal hs ih
  | node halt hchildren _ _ ih =>
    rw [List.append_assoc]
    exact .node halt hchildren ih

theorem cons {s : String} {symbols : List String} {tree : ParseTree} {trees : List ParseTree}
    {tokens rest : List Token} (h : g.Forest [s] [tree] tokens)
    (h' : g.Forest symbols trees rest) :
    g.Forest (s :: symbols) (tree :: trees) (tokens ++ rest) :=
  h.append h'

theorem single (token : Token) {s : String} (hterminal : token.terminal = s) (hs : s ∉ g.names) :
    g.Forest [s] [token.leaf] [token] :=
  .leaf hterminal hs .nil

theorem wrap {name : String} {rhs : List String} {children : List ParseTree} {tokens : List Token}
    (halt : g.HasAlternative name rhs) (h : g.Forest rhs children tokens) :
    g.Forest [name] [.node name children] tokens := by
  have := Forest.node halt h .nil
  rwa [List.append_nil] at this

/-- A forest of joined sequences is made of a forest of each. -/
theorem exists_split {symbols symbols' : List String} {trees : List ParseTree}
    {tokens : List Token} (h : g.Forest (symbols ++ symbols') trees tokens) :
    ∃ trees₁ trees₂ tokens₁ tokens₂, trees = trees₁ ++ trees₂ ∧ tokens = tokens₁ ++ tokens₂ ∧
      g.Forest symbols trees₁ tokens₁ ∧ g.Forest symbols' trees₂ tokens₂ := by
  induction symbols generalizing trees tokens with
  | nil => exact ⟨[], trees, [], tokens, rfl, rfl, .nil, h⟩
  | cons s symbols ih =>
    cases h with
    | leaf hterminal hs hrest =>
      obtain ⟨trees₁, trees₂, tokens₁, tokens₂, rfl, rfl, h₁, h₂⟩ := ih hrest
      exact ⟨_ :: trees₁, trees₂, _ :: tokens₁, tokens₂, rfl, rfl, .leaf hterminal hs h₁, h₂⟩
    | node halt hchildren hrest =>
      obtain ⟨trees₁, trees₂, tokens₁, tokens₂, rfl, rfl, h₁, h₂⟩ := ih hrest
      refine ⟨_ :: trees₁, trees₂, _ ++ tokens₁, tokens₂, rfl, ?_, .node halt hchildren h₁, h₂⟩
      rw [List.append_assoc]

/-- The tree of a nonterminal is a node. -/
theorem exists_node {name : String} {trees : List ParseTree} {tokens : List Token}
    (hname : name ∈ g.names) (h : g.Forest [name] trees tokens) :
    ∃ rhs children, trees = [.node name children] ∧ g.HasAlternative name rhs ∧
      g.Forest rhs children tokens := by
  cases h with
  | leaf _ hs _ => exact absurd hname hs
  | node halt hchildren hrest =>
    cases hrest
    rw [List.append_nil]
    exact ⟨_, _, rfl, halt, hchildren⟩

/-- The tree of a terminal is a leaf. -/
theorem exists_leaf {s : String} {trees : List ParseTree} {tokens : List Token}
    (hs : s ∉ g.names) (h : g.Forest [s] trees tokens) :
    ∃ token, trees = [token.leaf] ∧ tokens = [token] ∧ token.terminal = s := by
  cases h with
  | leaf hterminal _ hrest =>
    cases hrest
    exact ⟨_, rfl, rfl, hterminal⟩
  | node halt _ _ => exact absurd halt.mem_names hs

end Forest

/-! ### Forests tree by tree -/

/-- Each symbol has a tree over its own part of the tokens, and `Q` holds of the three. -/
inductive Pieces (Q : String → ParseTree → List Token → Prop) :
    List String → List ParseTree → List Token → Prop
  | nil : Pieces Q [] [] []
  | cons {s : String} {symbols : List String} {tree : ParseTree} {trees : List ParseTree}
      {tokens rest : List Token} (htree : Q s tree tokens) (hrest : Pieces Q symbols trees rest) :
      Pieces Q (s :: symbols) (tree :: trees) (tokens ++ rest)

/-- What holds of the leaves, and of a node if it holds of its children, holds of all trees. -/
theorem Forest.pieces {Q : String → ParseTree → List Token → Prop} {P : Token → Prop}
    (hleaf : ∀ token, P token → token.terminal ∉ g.names → Q token.terminal token.leaf [token])
    (hnode : ∀ {name rhs children tokens}, g.HasAlternative name rhs →
      Pieces Q rhs children tokens → Q name (.node name children) tokens)
    {symbols : List String} {trees : List ParseTree} {tokens : List Token}
    (h : g.Forest symbols trees tokens) (htokens : ∀ token ∈ tokens, P token) :
    Pieces Q symbols trees tokens := by
  induction h with
  | nil => exact .nil
  | @leaf token s symbols trees tokens hterminal hs _ ih =>
    have hrest := ih fun t ht => htokens t (List.mem_cons_of_mem token ht)
    subst hterminal
    exact .cons (hleaf token (htokens token List.mem_cons_self) hs) hrest
  | node halt _ _ ih₁ ih₂ =>
    have hchildren := ih₁ fun t ht => htokens t (List.mem_append_left _ ht)
    have hrest := ih₂ fun t ht => htokens t (List.mem_append_right _ ht)
    exact .cons (hnode halt hchildren) hrest

theorem start_mem_names (g : Grammar) : g.start ∈ g.names :=
  name_mem_names (List.head_mem g.nonempty)

/-! ## Predicted forests -/

namespace Predicted

/-- A predicted forest is a forest of the tokens that it has read. -/
theorem exists_forest {symbols : List String} {tokens : List Token} {trees : List ParseTree}
    {rest : List Token} (h : g.Predicted symbols tokens trees rest) :
    ∃ read, tokens = read ++ rest ∧ g.Forest symbols trees read := by
  induction h with
  | nil tokens => exact ⟨[], rfl, .nil⟩
  | leaf hterminal hs _ ih =>
    obtain ⟨read, rfl, hforest⟩ := ih
    exact ⟨_ :: read, rfl, .leaf hterminal hs hforest⟩
  | node hchoice _ _ ih₁ ih₂ =>
    obtain ⟨inner, hinner, hchildren⟩ := ih₁
    obtain ⟨read, rfl, hforest⟩ := ih₂
    refine ⟨inner ++ read, ?_, .node hchoice.hasAlternative hchildren hforest⟩
    rw [hinner, List.append_assoc]

theorem length_le {symbols : List String} {tokens : List Token} {trees : List ParseTree}
    {rest : List Token} (h : g.Predicted symbols tokens trees rest) :
    rest.length ≤ tokens.length := by
  obtain ⟨read, rfl, _⟩ := h.exists_forest
  rw [List.length_append]
  omega

theorem length_eq {symbols : List String} {tokens : List Token} {trees : List ParseTree}
    {rest : List Token} (h : g.Predicted symbols tokens trees rest) :
    trees.length = symbols.length := by
  obtain ⟨_, _, hforest⟩ := h.exists_forest
  exact hforest.length_eq

/-- What has read nothing leaves all the tokens. -/
theorem rest_eq {symbols : List String} {tokens : List Token} {trees : List ParseTree}
    {rest : List Token} (h : g.Predicted symbols tokens trees rest)
    (hlength : rest.length = tokens.length) : rest = tokens := by
  obtain ⟨read, rfl, _⟩ := h.exists_forest
  rw [List.length_append] at hlength
  have hread : read = [] := List.length_eq_zero_iff.mp (by omega)
  rw [hread, List.nil_append]

theorem single (token : Token) {s : String} (hterminal : token.terminal = s) (hs : s ∉ g.names)
    (rest : List Token) : g.Predicted [s] (token :: rest) [token.leaf] rest :=
  .leaf hterminal hs (.nil rest)

theorem append {symbols symbols' : List String} {tokens between rest : List Token}
    {trees trees' : List ParseTree} (h : g.Predicted symbols tokens trees between)
    (h' : g.Predicted symbols' between trees' rest) :
    g.Predicted (symbols ++ symbols') tokens (trees ++ trees') rest := by
  induction h with
  | nil tokens => exact h'
  | leaf hterminal hs _ ih => exact .leaf hterminal hs (ih h')
  | node hchoice hchildren _ _ ih => exact .node hchoice hchildren (ih h')

end Predicted

/-- **Prediction leaves no choice.** -/
theorem Predicted.unique {symbols : List String} {tokens rest rest' : List Token}
    {trees trees' : List ParseTree} (h : g.Predicted symbols tokens trees rest)
    (h' : g.Predicted symbols tokens trees' rest') : trees = trees' ∧ rest = rest' := by
  induction h generalizing trees' rest' with
  | nil tokens =>
    cases h'
    exact ⟨rfl, rfl⟩
  | leaf hterminal hs _ ih =>
    cases h' with
    | leaf _ _ hrest' =>
      obtain ⟨rfl, rfl⟩ := ih hrest'
      exact ⟨rfl, rfl⟩
    | node hchoice' _ _ => exact absurd hchoice'.hasAlternative.mem_names hs
  | node hchoice _ _ ih₁ ih₂ =>
    cases h' with
    | leaf _ hs' _ => exact absurd hchoice.hasAlternative.mem_names hs'
    | node hchoice' hchildren' hrest' =>
      cases hchoice.unique hchoice'
      obtain ⟨rfl, rfl⟩ := ih₁ hchildren'
      obtain ⟨rfl, rfl⟩ := ih₂ hrest'
      exact ⟨rfl, rfl⟩

end Grammar

end StepCalc

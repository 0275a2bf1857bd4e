import StepCalc.Grammar.Calculator
import StepCalc.Proofs.Parsing.Invariant

/-!
# The parser is correct

1. A run carries out a predicted forest, whatever is below it on the stacks (`run_predicted`). It is
   never given up on the way: a nonterminal that is opened twice without a token between would have
   a predicted tree inside of itself, and there is only one.
2. In a table without conflicts every forest is predicted: at each node the next token starts the
   alternative, or the alternative vanishes and the token follows the nonterminal
   (`predicted_of_forest`). The token after the forest must be there for that, so the start symbol
   should end with a terminal.

So the parser is sound for every grammar (`parseTokens_sound`), complete for those without
conflicts, and these are unambiguous (`parseTokens_complete`).
-/

namespace StepCalc.Parsing

variable {g : Grammar}

/-! ## Runs along a predicted forest -/

/-- Each nonterminal on the trail has a predicted tree that is larger than `size`. -/
def Ample (g : Grammar) (tokens : List Token) (size : Nat) (trail : List String) : Prop :=
  ∀ name ∈ trail, ∃ tree rest, g.Predicted [name] tokens [tree] rest ∧ size < sizeOf tree

theorem ample_nil (tokens : List Token) (size : Nat) : Ample g tokens size [] :=
  fun _ h => absurd h List.not_mem_nil

theorem Ample.mono {tokens : List Token} {m n : Nat} {trail : List String}
    (h : Ample g tokens n trail) (hle : m ≤ n) : Ample g tokens m trail := by
  intro name hname
  obtain ⟨tree, rest, htree, hsize⟩ := h name hname
  exact ⟨tree, rest, htree, by omega⟩

theorem Ample.kept {tokens rest : List Token} {n : Nat} {trail : List String}
    (h : Ample g tokens n trail) (hrest : rest.length = tokens.length → rest = tokens) :
    Ample g rest n (kept tokens rest trail) := by
  unfold Parsing.kept
  split
  case isTrue hlength => rwa [hrest hlength]
  case isFalse => exact ample_nil rest n

namespace Configuration

theorem run_of_step {table : PredictionTable} {trail : List String} {c c' : Configuration}
    (hopen : c.reopened? table trail = none) (hstep : c.step table = .next c') :
    c.run table trail = c'.run table (c.trailAfter table trail) := by
  rw [run_eq, hopen, hstep]

theorem run_take {token : Token} {s : String} (hterminal : token.terminal = s) (hs : s ∉ g.names)
    (stack : List Item) (fragments : List ParseTree) (consumed tokens : List Token)
    (trail : List String) :
    run (.ofGrammar g) trail ⟨.expect s :: stack, fragments, consumed, token :: tokens⟩ =
      run (.ofGrammar g) [] ⟨stack, token.leaf :: fragments, token :: consumed, tokens⟩ := by
  have htable := mt PredictionTable.isNonterminal_ofGrammar.mp hs
  have hstep : step (.ofGrammar g) ⟨.expect s :: stack, fragments, consumed, token :: tokens⟩ =
      .next ⟨stack, token.leaf :: fragments, token :: consumed, tokens⟩ := by
    unfold step
    simp only
    rw [if_neg htable, if_pos hterminal]
  rw [run_of_step ?_ hstep]
  · unfold trailAfter
    simp only
    rw [if_neg htable]
  · unfold reopened?
    simp [htable]

theorem run_expand {token : Token} {name : String} {rhs : List String}
    (hchoice : g.FirstChoice name token.terminal rhs) {trail : List String} (hnew : name ∉ trail)
    (stack : List Item) (fragments : List ParseTree) (consumed tokens : List Token) :
    run (.ofGrammar g) trail ⟨.expect name :: stack, fragments, consumed, token :: tokens⟩ =
      run (.ofGrammar g) (name :: trail) ⟨rhs.map .expect ++ .reduce rhs.length :: stack,
        .node name [] :: fragments, consumed, token :: tokens⟩ := by
  have htable := PredictionTable.isNonterminal_ofGrammar.mpr hchoice.hasAlternative.mem_names
  have hstep : step (.ofGrammar g) ⟨.expect name :: stack, fragments, consumed, token :: tokens⟩ =
      .next ⟨rhs.map .expect ++ .reduce rhs.length :: stack, .node name [] :: fragments, consumed,
        token :: tokens⟩ := by
    unfold step lookahead
    simp only
    rw [if_pos htable, PredictionTable.lookup?_eq_some_iff.mpr hchoice]
  rw [run_of_step ?_ hstep]
  · unfold trailAfter
    simp only
    rw [if_pos htable]
  · unfold reopened?
    simp [hnew]

theorem run_reduce (table : PredictionTable) (name : String) (stack : List Item)
    (trees below : List ParseTree) (consumed pending : List Token) {arity : Nat}
    (harity : trees.length = arity) (trail : List String) :
    run table trail
        ⟨.reduce arity :: stack, trees.reverse ++ .node name [] :: below, consumed, pending⟩ =
      run table trail.tail ⟨stack, .node name trees :: below, consumed, pending⟩ :=
  run_of_step rfl (step_reduce table name stack trees below consumed pending harity)

/-- A run carries out a predicted forest and goes on with what is below it. -/
theorem run_predicted {symbols : List String} {tokens rest : List Token} {trees : List ParseTree}
    (h : g.Predicted symbols tokens trees rest) (stack : List Item) (fragments : List ParseTree)
    (consumed : List Token) {trail : List String} (htrail : Ample g tokens (sizeOf trees) trail) :
    ∃ consumed', run (.ofGrammar g) trail
        ⟨symbols.map .expect ++ stack, fragments, consumed, tokens⟩ =
      run (.ofGrammar g) (kept tokens rest trail)
        ⟨stack, trees.reverse ++ fragments, consumed', rest⟩ := by
  induction h generalizing stack fragments consumed trail with
  | nil tokens =>
    rw [kept_self]
    exact ⟨consumed, rfl⟩
  | @leaf token s symbols trees tokens rest hterminal hs hrest ih =>
    obtain ⟨consumed', hrun⟩ := ih stack (token.leaf :: fragments) (token :: consumed)
      (ample_nil tokens _)
    refine ⟨consumed', ?_⟩
    have hlength := hrest.length_le
    have hkept : kept (token :: tokens) rest trail = kept tokens rest [] := by
      unfold kept
      rw [if_neg (by rw [List.length_cons]; omega)]
      split <;> rfl
    rw [List.map_cons, List.cons_append, run_take hterminal hs, hrun, hkept, List.reverse_cons,
      List.append_assoc]
    rfl
  | @node token name rhs symbols children trees tokens between rest hchoice hchildren hrest ih₁ ih₂ =>
    have hself : g.Predicted [name] (token :: tokens) [.node name children] between :=
      .node hchoice hchildren (.nil between)
    have hsize : sizeOf (ParseTree.node name children :: trees) =
        1 + sizeOf (ParseTree.node name children) + sizeOf trees := rfl
    have hinner : sizeOf children < sizeOf (ParseTree.node name children) := by
      rw [ParseTree.node.sizeOf_spec]
      omega
    -- a tree of this nonterminal on the trail would be larger than itself
    have hnew : name ∉ trail := by
      intro hname
      obtain ⟨tree, rest', htree, hlarge⟩ := htrail name hname
      obtain ⟨htrees, _⟩ := hself.unique htree
      cases htrees
      omega
    have hbelow : Ample g (token :: tokens) (sizeOf children) (name :: trail) := by
      intro other hother
      rcases List.mem_cons.mp hother with rfl | hother
      · exact ⟨_, between, hself, hinner⟩
      · obtain ⟨tree, rest', htree, hlarge⟩ := htrail other hother
        exact ⟨tree, rest', htree, by omega⟩
    have hafter : Ample g between (sizeOf trees) (kept (token :: tokens) between trail) :=
      (htrail.mono (by omega)).kept hchildren.rest_eq
    obtain ⟨consumed₁, hrun₁⟩ := ih₁ (.reduce rhs.length :: (symbols.map .expect ++ stack))
      (.node name [] :: fragments) consumed hbelow
    obtain ⟨consumed₂, hrun₂⟩ := ih₂ stack (.node name children :: fragments) consumed₁ hafter
    refine ⟨consumed₂, ?_⟩
    rw [List.map_cons, List.cons_append, run_expand hchoice hnew, hrun₁,
      run_reduce _ _ _ _ _ _ _ hchildren.length_eq, tail_kept, hrun₂,
      kept_kept hchildren.length_le hrest.length_le, List.reverse_cons, List.append_assoc]
    rfl

end Configuration

/-- **The automaton finds exactly the predicted tree.** -/
theorem parseTokens_eq_ok_iff {tokens : List Token} {tree : ParseTree} :
    parseTokens (.ofGrammar g) tokens = .ok tree ↔ g.Predicted [g.start] tokens [tree] [] := by
  constructor
  · exact predicted_of_parseTokens
  · intro h
    obtain ⟨consumed, hrun⟩ := Configuration.run_predicted h [] [] [] (ample_nil tokens _)
    show Configuration.run _ [] ⟨[.expect g.start], [], [], tokens⟩ = _
    rw [show [Item.expect g.start] = [g.start].map Item.expect ++ [] from rfl, hrun]
    rw [Configuration.run]
    rfl

/-- **Soundness of the parser.** Whatever the grammar, a tree that is accepted is a parse tree of
all the tokens, its leaves are theirs, in order, and each of its nodes has the first alternative
that the next token predicts. -/
theorem parseTokens_sound {tokens : List Token} {tree : ParseTree}
    (h : parseTokens (.ofGrammar g) tokens = .ok tree) :
    (∃ children, tree = .node g.start children) ∧ g.IsParse tokens tree ∧
      tree.leaves = tokens.map Token.leaf ∧ g.Predicted [g.start] tokens [tree] [] := by
  have hparse := isParse_of_parseTokens h
  obtain ⟨rhs, children, htree, _, _⟩ := hparse.exists_node g.start_mem_names
  have hleaves := hparse.leavesOfAll_eq
  rw [ParseTree.leavesOfAll, ParseTree.leavesOfAll, List.append_nil] at hleaves
  exact ⟨⟨children, List.head_eq_of_cons_eq htree⟩, hparse, hleaves, predicted_of_parseTokens h⟩

/-- A grammar with a conflict: both alternatives of `A` start with `id`. -/
def shadowing : Grammar where
  rules := [⟨"S", [["A", "$$"]]⟩, ⟨"A", [["id"], ["id", "id"]]⟩]
  nonempty := by decide
  distinct := by decide
  named := by decide

theorem parseTokens_sound_shadowing :
    let tokens : List Token := [⟨.identifier, "x", ⟨1, 1⟩⟩, ⟨.finish, "$$", ⟨1, 2⟩⟩]
    let tree : ParseTree := .node "S" [.node "A" [.identifier "x"], .literal "$$"]
    parseTokens (.ofGrammar shadowing) tokens = .ok tree ∧
      (∃ children, tree = .node shadowing.start children) ∧ shadowing.IsParse tokens tree ∧
      tree.leaves = tokens.map Token.leaf ∧
      shadowing.Predicted [shadowing.start] tokens [tree] [] := by
  intro tokens tree
  have hstart : shadowing.FirstChoice "S" "id" ["A", "$$"] :=
    PredictionTable.lookup?_eq_some_iff.mp (by decide +kernel)
  have hname : shadowing.FirstChoice "A" "id" ["id"] :=
    PredictionTable.lookup?_eq_some_iff.mp (by decide +kernel)
  have hend : shadowing.Predicted ["$$"] [⟨.finish, "$$", ⟨1, 2⟩⟩] [.literal "$$"] [] :=
    .single ⟨.finish, "$$", ⟨1, 2⟩⟩ rfl (by decide) []
  have hleaf : shadowing.Predicted ["id"] tokens [.identifier "x"] [⟨.finish, "$$", ⟨1, 2⟩⟩] :=
    .single ⟨.identifier, "x", ⟨1, 1⟩⟩ rfl (by decide) _
  have h : parseTokens (.ofGrammar shadowing) tokens = .ok tree :=
    parseTokens_eq_ok_iff.mpr (.node hstart (.node hname hleaf hend) (.nil []))
  exact ⟨h, parseTokens_sound h⟩

/-! ## Forests are predicted -/

/-- The token that comes next predicts a forest followed by what a further token predicts. -/
theorem exists_next_of_forest {symbols after : List String} {trees : List ParseTree}
    {tokens : List Token} (h : g.Forest symbols trees tokens) {name : String}
    (hname : name ∈ g.names) {token : Token} (htoken : token.terminal ∈ g.predictSet name after)
    (rest : List Token) :
    ∃ next others, tokens ++ token :: rest = next :: others ∧
      next.terminal ∈ g.predictSet name (symbols ++ after) := by
  have hderives := h.derives
  cases tokens with
  | nil =>
    refine ⟨token, rest, rfl, (Grammar.mem_predictSet hname).mpr ?_⟩
    rcases (Grammar.mem_predictSet hname).mp htoken with hstarts | ⟨hvanish, hfollows⟩
    · exact Or.inl (.after hderives hstarts)
    · exact Or.inr ⟨hderives.append hvanish, hfollows⟩
  | cons next tokens =>
    refine ⟨next, tokens ++ token :: rest, rfl, (Grammar.mem_predictSet hname).mpr (Or.inl ?_)⟩
    have hterminal := h.terminal_not_mem next List.mem_cons_self
    exact Grammar.Starts.append ⟨hterminal, _, hderives⟩ after

/-- What predicts the rest of an alternative follows the symbol before it. -/
theorem follows_of_mem_predictSet {name s t : String} {before after : List String}
    (halt : g.HasAlternative name (before ++ s :: after)) (ht : t ∈ g.predictSet name after) :
    g.Follows s t := by
  rcases (Grammar.mem_predictSet halt.mem_names).mp ht with hstarts | ⟨hvanish, hfollows⟩
  · exact .of_starts halt hstarts
  · exact .of_follows halt hvanish hfollows

/-- Without conflicts, a forest of a part of an alternative is predicted if the token after it
predicts the rest of the alternative. -/
theorem predicted_of_forest {table : PredictionTable}
    (hstrict : PredictionTable.strict g = .ok table) {symbols : List String}
    {trees : List ParseTree} {tokens : List Token} (h : g.Forest symbols trees tokens)
    {name : String} {before after : List String}
    (halt : g.HasAlternative name (before ++ (symbols ++ after))) {token : Token}
    (htoken : token.terminal ∈ g.predictSet name after) (rest : List Token) :
    g.Predicted symbols (tokens ++ token :: rest) trees (token :: rest) := by
  induction h generalizing name before after token rest with
  | nil => exact .nil _
  | @leaf first s symbols trees tokens hterminal hs _ ih =>
    have hsplit : before ++ (s :: symbols ++ after) = (before ++ [s]) ++ (symbols ++ after) := by
      rw [List.append_assoc]
      rfl
    rw [hsplit] at halt
    exact .leaf hterminal hs (ih halt htoken rest)
  | @node inner rhs symbols children trees read tokens hinner hchildren hrest ih₁ ih₂ =>
    have hsplit : before ++ (inner :: symbols ++ after) =
        (before ++ [inner]) ++ (symbols ++ after) := by
      rw [List.append_assoc]
      rfl
    -- the token after the node follows its nonterminal
    obtain ⟨next₂, others₂, heq₂, hnext₂⟩ :=
      exists_next_of_forest hrest halt.mem_names htoken rest
    have hfollows : g.Follows inner next₂.terminal := follows_of_mem_predictSet halt hnext₂
    have hlast : next₂.terminal ∈ g.predictSet inner [] :=
      (Grammar.mem_predictSet hinner.mem_names).mpr (Or.inr ⟨Grammar.Derives.refl [], hfollows⟩)
    -- so the token at the node predicts its alternative, which is then the chosen one
    obtain ⟨next₁, others₁, heq₁, hnext₁⟩ :=
      exists_next_of_forest hchildren hinner.mem_names hlast others₂
    rw [List.append_nil] at hnext₁
    have hchoice := Grammar.firstChoice_of_strict hstrict hinner hnext₁
    rw [hsplit] at halt
    have hp₂ := ih₂ halt htoken rest
    have hwhole : g.HasAlternative inner ([] ++ (rhs ++ [])) := by
      rwa [List.nil_append, List.append_nil]
    have hp₁ := ih₁ hwhole hlast others₂
    rw [heq₂] at hp₂
    rw [heq₁] at hp₁
    rw [List.append_assoc, heq₂, heq₁]
    exact .node hchoice hp₁ hp₂

/-- Every alternative of the start symbol ends with a terminal. -/
def EndMarked (g : Grammar) : Prop :=
  ∀ rhs, g.HasAlternative g.start rhs → ∃ front mark, rhs = front ++ [mark] ∧ mark ∉ g.names

theorem predicted_of_isParse {table : PredictionTable}
    (hstrict : PredictionTable.strict g = .ok table) (hend : EndMarked g) {tokens : List Token}
    {tree : ParseTree} (h : g.IsParse tokens tree) : g.Predicted [g.start] tokens [tree] [] := by
  obtain ⟨rhs, children, htree, halt, hchildren⟩ := h.exists_node g.start_mem_names
  cases htree
  obtain ⟨front, mark, rfl, hmark⟩ := hend rhs halt
  obtain ⟨trees₁, trees₂, tokens₁, tokens₂, rfl, rfl, h₁, h₂⟩ := hchildren.exists_split
  obtain ⟨token, rfl, rfl, hterminal⟩ := h₂.exists_leaf hmark
  have htoken : token.terminal ∈ g.predictSet g.start [mark] := by
    rw [hterminal]
    exact (Grammar.mem_predictSet g.start_mem_names).mpr (Or.inl (Grammar.starts_terminal hmark []))
  -- the last token is there, so it can be seen from all places before it
  have hwhole : g.HasAlternative g.start ([] ++ (front ++ [mark])) := halt
  have hfront := predicted_of_forest hstrict h₁ hwhole htoken []
  obtain ⟨next, others, heq, hnext⟩ := exists_next_of_forest h₁ g.start_mem_names htoken []
  have hchoice := Grammar.firstChoice_of_strict hstrict halt hnext
  have hall := hfront.append (.leaf hterminal hmark (.nil []))
  rw [heq] at hall ⊢
  exact .node hchoice hall (.nil [])

/-- **Completeness of the parser.** If the table of a grammar has no conflicts and its start symbol
ends with a terminal, every parse tree of a token list is found, so there is at most one. -/
theorem parseTokens_complete {table : PredictionTable}
    (hstrict : PredictionTable.strict g = .ok table) (hend : EndMarked g) {tokens : List Token}
    {tree : ParseTree} (h : g.IsParse tokens tree) :
    parseTokens table tokens = .ok tree ∧ ∀ other, g.IsParse tokens other → other = tree := by
  rw [(PredictionTable.strict_eq_ok hstrict).1]
  have hpredicted := predicted_of_isParse hstrict hend h
  refine ⟨parseTokens_eq_ok_iff.mpr hpredicted, fun other hother => ?_⟩
  obtain ⟨htrees, _⟩ := (predicted_of_isParse hstrict hend hother).unique hpredicted
  exact List.head_eq_of_cons_eq htrees

/-- The program `read x` in the calculator language. -/
theorem parseTokens_complete_read :
    let tokens : List Token :=
      [⟨.literal, "read", ⟨1, 1⟩⟩, ⟨.identifier, "x", ⟨1, 6⟩⟩, ⟨.finish, "$$", ⟨1, 7⟩⟩]
    let tree : ParseTree := .node "P"
      [.node "SL" [.node "S" [.literal "read", .identifier "x"], .node "SL" []], .literal "$$"]
    PredictionTable.strict .calculator = .ok (.ofGrammar .calculator) ∧ EndMarked .calculator ∧
      Grammar.calculator.IsParse tokens tree ∧
      parseTokens (.ofGrammar .calculator) tokens = .ok tree ∧
      ∀ other, Grammar.calculator.IsParse tokens other → other = tree := by
  intro tokens tree
  have hstrict : PredictionTable.strict .calculator = .ok (.ofGrammar .calculator) :=
    PredictionTable.strict_of_conflicts_eq_nil (by decide +kernel)
  have hend : EndMarked .calculator := by
    intro rhs h
    have hrhs := (Grammar.hasAlternative_iff_of_mem List.mem_cons_self).mp h
    exact ⟨["SL"], "$$", List.mem_singleton.mp hrhs, by decide⟩
  have hread := Grammar.Forest.wrap
    (show Grammar.calculator.HasAlternative "S" ["read", "id"] by decide)
    ((Grammar.Forest.single ⟨.literal, "read", ⟨1, 1⟩⟩ rfl (by decide)).append
      (Grammar.Forest.single ⟨.identifier, "x", ⟨1, 6⟩⟩ rfl (by decide)))
  have hlist := Grammar.Forest.wrap
    (show Grammar.calculator.HasAlternative "SL" ["S", "SL"] by decide)
    (hread.append (.wrap (show Grammar.calculator.HasAlternative "SL" [] by decide) .nil))
  have hparse : Grammar.calculator.IsParse tokens tree :=
    .wrap (show Grammar.calculator.HasAlternative "P" ["SL", "$$"] by decide)
      (hlist.append (Grammar.Forest.single ⟨.finish, "$$", ⟨1, 7⟩⟩ rfl (by decide)))
  exact ⟨hstrict, hend, hparse, parseTokens_complete hstrict hend hparse⟩

end StepCalc.Parsing

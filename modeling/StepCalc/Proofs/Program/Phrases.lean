import StepCalc.Proofs.Program.Meaning

/-!
# Phrases have a tree

A phrase of the language has a parse tree of the extended grammar that is read as what the phrase
stands for (`exists_isParse_of_isProgram`). A phrase with operators is put together from the left,
its tree from the right. So the induction carries the tail that comes after a phrase: the tree of
both means what the tail makes of the phrase (`exists_exprTree`, `exists_termTree`).
-/

namespace StepCalc.Language

open Grammar (Forest)

/-! ## Leaves and operators -/

theorem forest_literal {token : Token} {text : String} (h : token.Is text)
    (htext : text ∉ Grammar.extended.names) :
    Grammar.extended.Forest [text] [.literal text] [token] := by
  rw [← h.leaf_eq]
  exact .single token h.terminal_eq htext

theorem forest_kind {token : Token} {text : String} {kind : TokenKind} (h : token.kind = kind)
    (hkind : (text, kind) ∈ Token.kindTerminals) :
    Grammar.extended.Forest [text] [token.leaf] [token] := by
  have hnames : ∀ entry ∈ Token.kindTerminals, entry.1 ∉ Grammar.extended.names := by decide
  exact .single token (Token.terminal_eq_of_kind h hkind) (hnames _ hkind)

theorem forest_identifier {token : Token} (h : token.kind = .identifier) :
    Grammar.extended.Forest ["id"] [.identifier token.lexeme] [token] := by
  rw [← Token.leaf_eq_identifier h]
  exact forest_kind h (by decide)

theorem forest_number {token : Token} (h : token.kind = .number) :
    Grammar.extended.Forest ["num"] [.number token.lexeme] [token] := by
  rw [← Token.leaf_eq_number h]
  exact forest_kind h (by decide)

theorem forest_finish {token : Token} (h : token.kind = .finish) :
    Grammar.extended.Forest ["$$"] [.literal token.lexeme] [token] := by
  rw [← Token.leaf_eq_finish h]
  exact forest_kind h (by decide)

theorem exists_operatorTree {name : String} {table : List (String × BinOp)} {mark : Token}
    {op : BinOp} (hname : (name, table) ∈ operatorTables) (hmark : mark.StandsFor table op) :
    ∃ tree, Grammar.extended.Forest [name] [tree] [mark] ∧ tree.toOperator = .ok op := by
  have hrules : ∀ entry ∈ operatorTables, ∀ mark ∈ entry.2,
      Grammar.extended.HasAlternative entry.1 [mark.1] ∧ mark.1 ∉ Grammar.extended.names := by
    decide
  obtain ⟨halt, htext⟩ := hrules _ hname _ hmark.2
  exact ⟨_, .wrap halt (forest_literal ⟨hmark.1, rfl⟩ htext),
    ParseTree.toOperator_node hname hmark.2⟩

/-! ## Expressions -/

theorem forest_noTermTail : Grammar.extended.Forest ["FT"] [.node "FT" []] [] :=
  .wrap (show Grammar.extended.HasAlternative "FT" [] by decide) .nil

theorem forest_noExprTail : Grammar.extended.Forest ["TT"] [.node "TT" []] [] :=
  .wrap (show Grammar.extended.HasAlternative "TT" [] by decide) .nil

mutual

theorem exists_exprTree {tokens : List Token} {e : Expr} (h : IsExpr tokens e) :
    ∀ {rest : List Token} {tail : ParseTree}, Grammar.extended.Forest ["TT"] [tail] rest →
      ∃ tree, Grammar.extended.Forest ["E"] [tree] (tokens ++ rest) ∧
        tree.toExpr = tail.foldSum e := by
  intro rest tail htail
  match h with
  | .term hterm =>
    obtain ⟨term, hforest, hread⟩ := exists_termTree hterm forest_noTermTail
    rw [ParseTree.foldProduct_nil] at hread
    rw [List.append_nil] at hforest
    exact ⟨_, .wrap (show Grammar.extended.HasAlternative "E" ["T", "TT"] by decide)
      (hforest.cons htail), ParseTree.toExpr_node hread tail⟩
  | .binary hleft hmark hright =>
    obtain ⟨term, hforest, hread⟩ := exists_termTree hright forest_noTermTail
    rw [ParseTree.foldProduct_nil] at hread
    rw [List.append_nil] at hforest
    obtain ⟨operator, hoperator, hop⟩ :=
      exists_operatorTree (show ("ao", sumOperators) ∈ operatorTables by decide) hmark
    -- the last operator of the phrase is the first of the tail after its left operand
    obtain ⟨tree, htree, hvalue⟩ := exists_exprTree hleft
      (.wrap (show Grammar.extended.HasAlternative "TT" ["ao", "T", "TT"] by decide)
        (hoperator.cons (hforest.cons htail)))
    rw [ParseTree.foldSum_cons hop hread] at hvalue
    rw [List.append_assoc]
    exact ⟨tree, htree, hvalue⟩

theorem exists_termTree {tokens : List Token} {e : Expr} (h : IsTerm tokens e) :
    ∀ {rest : List Token} {tail : ParseTree}, Grammar.extended.Forest ["FT"] [tail] rest →
      ∃ tree, Grammar.extended.Forest ["T"] [tree] (tokens ++ rest) ∧
        tree.toTerm = tail.foldProduct e := by
  intro rest tail htail
  match h with
  | .factor hfactor =>
    obtain ⟨factor, hforest, hread⟩ := exists_factorTree hfactor
    exact ⟨_, .wrap (show Grammar.extended.HasAlternative "T" ["F", "FT"] by decide)
      (hforest.cons htail), ParseTree.toTerm_node hread tail⟩
  | .binary hleft hmark hright =>
    obtain ⟨factor, hforest, hread⟩ := exists_factorTree hright
    obtain ⟨operator, hoperator, hop⟩ :=
      exists_operatorTree (show ("mo", productOperators) ∈ operatorTables by decide) hmark
    obtain ⟨tree, htree, hvalue⟩ := exists_termTree hleft
      (.wrap (show Grammar.extended.HasAlternative "FT" ["mo", "F", "FT"] by decide)
        (hoperator.cons (hforest.cons htail)))
    rw [ParseTree.foldProduct_cons hop hread] at hvalue
    rw [List.append_assoc]
    exact ⟨tree, htree, hvalue⟩

theorem exists_factorTree {tokens : List Token} {e : Expr} (h : IsFactor tokens e) :
    ∃ tree, Grammar.extended.Forest ["F"] [tree] tokens ∧ tree.toFactor = .ok e := by
  match h with
  | .ident hkind =>
    refine ⟨_, .wrap (show Grammar.extended.HasAlternative "F" ["id"] by decide)
      (forest_identifier hkind), ?_⟩
    rw [ParseTree.toFactor, if_pos rfl]
  | .number hkind =>
    refine ⟨_, .wrap (show Grammar.extended.HasAlternative "F" ["num"] by decide)
      (forest_number hkind), ?_⟩
    rw [ParseTree.toFactor, if_pos rfl]
  | .parentheses hopening hinner hclosing =>
    obtain ⟨inner, hforest, hread⟩ := exists_exprTree hinner forest_noExprTail
    rw [ParseTree.foldSum_nil] at hread
    rw [List.append_nil] at hforest
    refine ⟨_, .wrap (show Grammar.extended.HasAlternative "F" ["(", "E", ")"] by decide)
      ((forest_literal hopening (by decide)).cons
        (hforest.cons (forest_literal hclosing (by decide)))), ?_⟩
    rw [ParseTree.toFactor, if_pos rfl, hread]

end

theorem exists_wholeExprTree {tokens : List Token} {e : Expr} (h : IsExpr tokens e) :
    ∃ tree, Grammar.extended.Forest ["E"] [tree] tokens ∧ tree.toExpr = .ok e := by
  obtain ⟨tree, htree, hread⟩ := exists_exprTree h forest_noExprTail
  rw [List.append_nil] at htree
  rw [ParseTree.foldSum_nil] at hread
  exact ⟨tree, htree, hread⟩

theorem exists_conditionTree {tokens : List Token} {e : Expr} (h : IsCondition tokens e) :
    ∃ tree, Grammar.extended.Forest ["R"] [tree] tokens ∧ tree.toCondition = .ok e := by
  have hrule : Grammar.extended.HasAlternative "R" ["E", "ET"] := by decide
  cases h with
  | expr hexpr =>
    obtain ⟨expr, hforest, hread⟩ := exists_wholeExprTree hexpr
    have htail := Forest.wrap (show Grammar.extended.HasAlternative "ET" [] by decide) .nil
    have := Forest.wrap hrule (hforest.cons htail)
    rw [List.append_nil] at this
    exact ⟨_, this, ParseTree.toCondition_expr hread⟩
  | comparison hleft hmark hright =>
    obtain ⟨left, hlhs, hread₁⟩ := exists_wholeExprTree hleft
    obtain ⟨right, hrhs, hread₂⟩ := exists_wholeExprTree hright
    obtain ⟨operator, hoperator, hop⟩ :=
      exists_operatorTree (show ("ro", comparisons) ∈ operatorTables by decide) hmark
    have htail := Forest.wrap (show Grammar.extended.HasAlternative "ET" ["ro", "E"] by decide)
      (hoperator.cons hrhs)
    exact ⟨_, .wrap hrule (hlhs.cons htail), ParseTree.toCondition_comparison hread₁ hop hread₂⟩

/-! ## Statements -/

mutual

theorem exists_statementTree {tokens : List Token} {statement : Statement}
    (h : IsStatement tokens statement) :
    ∃ tree, Grammar.extended.Forest ["S"] [tree] tokens ∧ tree.toStatement = .ok statement := by
  cases h with
  | assign htarget hmark hexpr =>
    obtain ⟨expr, hforest, hread⟩ := exists_wholeExprTree hexpr
    refine ⟨_, .wrap (show Grammar.extended.HasAlternative "S" ["id", ":=", "E"] by decide)
      ((forest_identifier htarget).cons ((forest_literal hmark (by decide)).cons hforest)), ?_⟩
    rw [ParseTree.toStatement, if_pos rfl, hread]
    rfl
  | read hword htarget =>
    refine ⟨_, .wrap (show Grammar.extended.HasAlternative "S" ["read", "id"] by decide)
      ((forest_literal hword (by decide)).cons (forest_identifier htarget)), ?_⟩
    rw [ParseTree.toStatement, if_pos rfl]
  | write hword hexpr =>
    obtain ⟨expr, hforest, hread⟩ := exists_wholeExprTree hexpr
    refine ⟨_, .wrap (show Grammar.extended.HasAlternative "S" ["write", "E"] by decide)
      ((forest_literal hword (by decide)).cons hforest), ?_⟩
    rw [ParseTree.toStatement, if_pos rfl, hread]
    rfl
  | branch hopening hcondition hbody hclosing =>
    obtain ⟨condition, hforest, hread⟩ := exists_conditionTree hcondition
    obtain ⟨body, hstatements, hlist⟩ := exists_statementsTree hbody
    rw [List.cons_append, List.append_assoc]
    refine ⟨_, .wrap (show Grammar.extended.HasAlternative "S" ["if", "R", "SL", "fi"] by decide)
      ((forest_literal hopening (by decide)).cons
        (hforest.cons (hstatements.cons (forest_literal hclosing (by decide))))), ?_⟩
    rw [ParseTree.toStatement, if_pos rfl, hread, hlist]
    rfl
  | loop hopening hbody hclosing =>
    obtain ⟨body, hstatements, hlist⟩ := exists_statementsTree hbody
    refine ⟨_, .wrap (show Grammar.extended.HasAlternative "S" ["do", "SL", "od"] by decide)
      ((forest_literal hopening (by decide)).cons
        (hstatements.cons (forest_literal hclosing (by decide)))), ?_⟩
    rw [ParseTree.toStatement, if_pos rfl, hlist]
    rfl
  | check hword hcondition =>
    obtain ⟨condition, hforest, hread⟩ := exists_conditionTree hcondition
    refine ⟨_, .wrap (show Grammar.extended.HasAlternative "S" ["check", "R"] by decide)
      ((forest_literal hword (by decide)).cons hforest), ?_⟩
    rw [ParseTree.toStatement, if_pos rfl, hread]
    rfl

theorem exists_statementsTree {tokens : List Token} {statements : List Statement}
    (h : IsStatements tokens statements) :
    ∃ tree, Grammar.extended.Forest ["SL"] [tree] tokens ∧ tree.toStatements = .ok statements := by
  cases h with
  | nil =>
    refine ⟨_, .wrap (show Grammar.extended.HasAlternative "SL" [] by decide) .nil, ?_⟩
    rw [ParseTree.toStatements, if_pos rfl]
  | cons hfirst hrest =>
    obtain ⟨first, hforest, hread⟩ := exists_statementTree hfirst
    obtain ⟨rest, hstatements, hlist⟩ := exists_statementsTree hrest
    exact ⟨_, .wrap (show Grammar.extended.HasAlternative "SL" ["S", "SL"] by decide)
      (hforest.cons hstatements), ParseTree.toStatements_cons hread hlist⟩

end

/-- A phrase for a program has a parse tree that means it. -/
theorem exists_isParse_of_isProgram {tokens : List Token} {p : Program}
    (h : IsProgram tokens p) :
    ∃ tree, Grammar.extended.IsParse tokens tree ∧ Program.ofTree tree = .ok p := by
  obtain ⟨hstatements, hlast⟩ := h
  obtain ⟨list, hforest, hread⟩ := exists_statementsTree hstatements
  exact ⟨_, .wrap (show Grammar.extended.HasAlternative "P" ["SL", "$$"] by decide)
    (hforest.cons (forest_finish hlast)), Program.ofTree_node hread _⟩

end StepCalc.Language

import StepCalc.Grammar.Calculator
import StepCalc.Program.OfTree
import StepCalc.Proofs.Parsing.Forest
import StepCalc.Proofs.Program.Language
import StepCalc.Proofs.Token.Scanned

/-!
# Trees have a meaning

A parse tree of the extended grammar is read as a program without fail, and its tokens are a phrase
for that program (`exists_isProgram_of_isParse`).

The grammar keeps its operators in tails that open to the right, and the language groups them to
the left. So `Means` says of the tree of a tail what it does after an operand: the tail continues
whatever phrase stands before it. Each nonterminal has one lemma, which reads its alternatives from
the meanings of their parts.
-/

namespace StepCalc

open StepCalc.Language

/-! ## Leaves -/

namespace Token

theorem Is.terminal_eq {token : Token} {text : String} (h : token.Is text) :
    token.terminal = text := by
  unfold terminal
  rw [h.1]
  exact h.2

theorem Is.leaf_eq {token : Token} {text : String} (h : token.Is text) :
    token.leaf = .literal text := by
  unfold leaf
  rw [h.1, h.2]

theorem leaf_eq_identifier {token : Token} (h : token.kind = .identifier) :
    token.leaf = .identifier token.lexeme := by
  unfold leaf
  rw [h]

theorem leaf_eq_number {token : Token} (h : token.kind = .number) :
    token.leaf = .number token.lexeme := by
  unfold leaf
  rw [h]

theorem leaf_eq_finish {token : Token} (h : token.kind = .finish) :
    token.leaf = .literal token.lexeme := by
  unfold leaf
  rw [h]

/-- The terminals that stand for a kind of tokens. -/
def kindTerminals : List (String × TokenKind) :=
  [(identifierTerminal, .identifier), (numberTerminal, .number), (unknownTerminal, .unknown),
    (finishTerminal, .finish)]

theorem terminal_cases (token : Token) :
    token.Is token.terminal ∨ (token.terminal, token.kind) ∈ kindTerminals := by
  unfold Is terminal
  cases token.kind with
  | literal => exact Or.inl ⟨rfl, rfl⟩
  | _ =>
    simp only
    exact Or.inr (by decide)

theorem is_of_terminal_eq {token : Token} {text : String} (h : token.terminal = text)
    (htext : text ∉ kindTerminals.map Prod.fst) : token.Is text := by
  rcases token.terminal_cases with hliteral | hmem
  · rwa [h] at hliteral
  · rw [h] at hmem
    exact absurd (List.mem_map_of_mem hmem) htext

theorem terminal_eq_of_kind {token : Token} {text : String} {kind : TokenKind}
    (h : token.kind = kind) (hkind : (text, kind) ∈ kindTerminals) : token.terminal = text := by
  rcases token.terminal_cases with hliteral | hmem
  · have hnamed : ∀ entry ∈ kindTerminals, entry.2 ≠ .literal := by decide
    exact absurd (h.symm.trans hliteral.1) (hnamed _ hkind)
  · have hunique : ∀ entry ∈ kindTerminals, ∀ other ∈ kindTerminals,
        entry.2 = other.2 → entry.1 = other.1 := by decide
    rw [h] at hmem
    exact hunique _ hmem _ hkind rfl

/-- Among the tokens of the language, the terminal tells the kind. -/
theorem kind_eq_of_terminal_eq {token : Token} {text : String} {kind : TokenKind}
    (hadmits : Vocabulary.calculator.Admits token) (h : token.terminal = text)
    (hkind : (text, kind) ∈ kindTerminals) : token.kind = kind := by
  rcases token.terminal_cases with hliteral | hmem
  · have hfree : ∀ entry ∈ kindTerminals, ¬ (entry.1 ∈ Vocabulary.calculator.keywords ∨
        entry.1 ∈ Vocabulary.calculator.marks) := by decide
    have hword := hadmits hliteral.1
    rw [hliteral.2, h] at hword
    exact absurd hword (hfree _ hkind)
  · have hunique : ∀ entry ∈ kindTerminals, ∀ other ∈ kindTerminals,
        entry.1 = other.1 → entry.2 = other.2 := by decide
    rw [h] at hmem
    exact hunique _ hmem _ hkind rfl

end Token

/-! ## One level of a tree -/

/-- The nonterminals for operators, with what they may be. -/
def Language.operatorTables : List (String × List (String × BinOp)) :=
  [("ao", sumOperators), ("mo", productOperators), ("ro", comparisons)]

namespace ParseTree

theorem toOperator_node {name text : String} {table : List (String × BinOp)} {op : BinOp}
    (hname : (name, table) ∈ operatorTables) (hop : (text, op) ∈ table) :
    (node name [literal text]).toOperator = .ok op := by
  have hsymbols : ∀ entry ∈ operatorTables, ∀ mark ∈ entry.2,
      BinOp.ofSymbol? mark.1 = some mark.2 := by decide
  rw [toOperator, hsymbols _ hname _ hop]

theorem toExpr_node {term : ParseTree} {e : Expr} (hterm : term.toTerm = .ok e) (tail : ParseTree) :
    (node "E" [term, tail]).toExpr = tail.foldSum e := by
  rw [toExpr, if_pos rfl, hterm]
  rfl

theorem toTerm_node {factor : ParseTree} {e : Expr} (hfactor : factor.toFactor = .ok e)
    (tail : ParseTree) : (node "T" [factor, tail]).toTerm = tail.foldProduct e := by
  rw [toTerm, if_pos rfl, hfactor]
  rfl

theorem foldSum_nil (lhs : Expr) : (node "TT" []).foldSum lhs = .ok lhs := by
  rw [foldSum, if_pos rfl]

theorem foldSum_cons {op term : ParseTree} {o : BinOp} {rhs : Expr} (hop : op.toOperator = .ok o)
    (hterm : term.toTerm = .ok rhs) (lhs : Expr) (tail : ParseTree) :
    (node "TT" [op, term, tail]).foldSum lhs = tail.foldSum (.binary o lhs rhs) := by
  rw [foldSum, if_pos rfl, hop, hterm]
  rfl

theorem foldProduct_nil (lhs : Expr) : (node "FT" []).foldProduct lhs = .ok lhs := by
  rw [foldProduct, if_pos rfl]

theorem foldProduct_cons {op factor : ParseTree} {o : BinOp} {rhs : Expr}
    (hop : op.toOperator = .ok o) (hfactor : factor.toFactor = .ok rhs) (lhs : Expr)
    (tail : ParseTree) :
    (node "FT" [op, factor, tail]).foldProduct lhs = tail.foldProduct (.binary o lhs rhs) := by
  rw [foldProduct, if_pos rfl, hop, hfactor]
  rfl

theorem toCondition_expr {expr : ParseTree} {e : Expr} (hexpr : expr.toExpr = .ok e) :
    (node "R" [expr, node "ET" []]).toCondition = .ok e := by
  rw [toCondition, if_pos rfl, if_pos rfl, hexpr]
  rfl

theorem toCondition_comparison {left op right : ParseTree} {lhs rhs : Expr} {o : BinOp}
    (hleft : left.toExpr = .ok lhs) (hop : op.toOperator = .ok o)
    (hright : right.toExpr = .ok rhs) :
    (node "R" [left, node "ET" [op, right]]).toCondition = .ok (.binary o lhs rhs) := by
  rw [toCondition, if_pos rfl, if_pos rfl, hleft]
  simp only
  rw [hop, hright]
  rfl

theorem toStatements_cons {first rest : ParseTree} {statement : Statement}
    {statements : List Statement} (hfirst : first.toStatement = .ok statement)
    (hrest : rest.toStatements = .ok statements) :
    (node "SL" [first, rest]).toStatements = .ok (statement :: statements) := by
  rw [toStatements, if_pos rfl, hfirst, hrest]
  rfl

end ParseTree

theorem Program.ofTree_node {list : ParseTree} {statements : List Statement}
    (hlist : list.toStatements = .ok statements) (mark : String) :
    ofTree (.node "P" [list, .literal mark]) = .ok ⟨statements⟩ := by
  rw [ofTree, if_pos rfl, hlist]
  rfl

namespace Language

/-! ## Trees have a meaning -/

/-- `tree` is a tree of the symbol `s` over `tokens`: reading it succeeds, and `tokens` are a phrase
for the result. The tree of a tail is read after the phrase `left` for `lhs`. -/
structure Means (s : String) (tree : ParseTree) (tokens : List Token) : Prop where
  token : s ∉ Grammar.extended.names → ∃ token, tree = token.leaf ∧ tokens = [token] ∧
    token.terminal = s ∧ Vocabulary.calculator.Admits token
  operator : ∀ table, (s, table) ∈ operatorTables → ∃ mark op, tokens = [mark] ∧
    mark.StandsFor table op ∧ tree.toOperator = .ok op
  factor : s = "F" → ∃ e, tree.toFactor = .ok e ∧ IsFactor tokens e
  termTail : s = "FT" → ∀ left lhs, IsTerm left lhs →
    ∃ e, tree.foldProduct lhs = .ok e ∧ IsTerm (left ++ tokens) e
  term : s = "T" → ∃ e, tree.toTerm = .ok e ∧ IsTerm tokens e
  exprTail : s = "TT" → ∀ left lhs, IsExpr left lhs →
    ∃ e, tree.foldSum lhs = .ok e ∧ IsExpr (left ++ tokens) e
  expr : s = "E" → ∃ e, tree.toExpr = .ok e ∧ IsExpr tokens e
  conditionTail : s = "ET" → ∀ left lhs, IsExpr left lhs → ∀ expr : ParseTree,
    expr.toExpr = .ok lhs → ∃ e, (ParseTree.node "R" [expr, tree]).toCondition = .ok e ∧
      IsCondition (left ++ tokens) e
  condition : s = "R" → ∃ e, tree.toCondition = .ok e ∧ IsCondition tokens e
  statement : s = "S" → ∃ statement, tree.toStatement = .ok statement ∧
    IsStatement tokens statement
  statements : s = "SL" → ∃ statements, tree.toStatements = .ok statements ∧
    IsStatements tokens statements
  program : s = "P" → ∃ p, Program.ofTree tree = .ok p ∧ IsProgram tokens p

namespace Means

theorem literal {text : String} {tree : ParseTree} {tokens : List Token} (h : Means text tree tokens)
    (htext : text ∈ Vocabulary.calculator.keywords ++ Vocabulary.calculator.marks) :
    ∃ token, tree = .literal text ∧ tokens = [token] ∧ token.Is text := by
  have hfree : ∀ text ∈ Vocabulary.calculator.keywords ++ Vocabulary.calculator.marks,
      text ∉ Grammar.extended.names ∧ text ∉ Token.kindTerminals.map Prod.fst := by decide
  obtain ⟨token, rfl, rfl, hterminal, _⟩ := h.token (hfree text htext).1
  have his := Token.is_of_terminal_eq hterminal (hfree text htext).2
  exact ⟨token, his.leaf_eq, rfl, his⟩

theorem kind {text : String} {tree : ParseTree} {tokens : List Token} {kind : TokenKind}
    (h : Means text tree tokens) (hkind : (text, kind) ∈ Token.kindTerminals) :
    ∃ token, tree = token.leaf ∧ tokens = [token] ∧ token.kind = kind := by
  have hfree : ∀ entry ∈ Token.kindTerminals, entry.1 ∉ Grammar.extended.names := by decide
  obtain ⟨token, rfl, rfl, hterminal, hadmits⟩ := h.token (hfree _ hkind)
  exact ⟨token, rfl, rfl, Token.kind_eq_of_terminal_eq hadmits hterminal hkind⟩

theorem identifier {tree : ParseTree} {tokens : List Token} (h : Means "id" tree tokens) :
    ∃ token, tree = .identifier token.lexeme ∧ tokens = [token] ∧ token.kind = .identifier := by
  obtain ⟨token, rfl, rfl, hkind⟩ := h.kind (show ("id", .identifier) ∈ Token.kindTerminals by decide)
  exact ⟨token, Token.leaf_eq_identifier hkind, rfl, hkind⟩

theorem number {tree : ParseTree} {tokens : List Token} (h : Means "num" tree tokens) :
    ∃ token, tree = .number token.lexeme ∧ tokens = [token] ∧ token.kind = .number := by
  obtain ⟨token, rfl, rfl, hkind⟩ := h.kind (show ("num", .number) ∈ Token.kindTerminals by decide)
  exact ⟨token, Token.leaf_eq_number hkind, rfl, hkind⟩

theorem finish {tree : ParseTree} {tokens : List Token} (h : Means "$$" tree tokens) :
    ∃ token, tree = .literal token.lexeme ∧ tokens = [token] ∧ token.kind = .finish := by
  obtain ⟨token, rfl, rfl, hkind⟩ := h.kind (show ("$$", .finish) ∈ Token.kindTerminals by decide)
  exact ⟨token, Token.leaf_eq_finish hkind, rfl, hkind⟩

end Means

/-! ### One nonterminal after the other -/

open Grammar (Pieces)

variable {rhs : List String} {children : List ParseTree} {tokens : List Token}

/-- The alternatives of a rule of the extended grammar. -/
theorem mem_alternatives {rule : Rule} (h : Grammar.extended.HasAlternative rule.name rhs)
    (hrule : rule ∈ Grammar.extended.rules) : rhs ∈ rule.alternatives :=
  (Grammar.hasAlternative_iff_of_mem hrule).mp h

theorem exists_operator {name : String} {table : List (String × BinOp)}
    (hname : (name, table) ∈ operatorTables) (halt : Grammar.extended.HasAlternative name rhs)
    (h : Pieces Means rhs children tokens) :
    ∃ mark op, tokens = [mark] ∧ mark.StandsFor table op ∧
      (ParseTree.node name children).toOperator = .ok op := by
  have hmarks : ∀ entry ∈ operatorTables, ∀ rule ∈ Grammar.extended.rules, rule.name = entry.1 →
      ∀ rhs ∈ rule.alternatives, ∃ mark ∈ entry.2, rhs = [mark.1] := by decide
  have hwords : ∀ entry ∈ operatorTables, ∀ mark ∈ entry.2,
      mark.1 ∈ Vocabulary.calculator.keywords ++ Vocabulary.calculator.marks := by decide
  obtain ⟨rule, hrule, hrulename, hrhs⟩ := halt
  obtain ⟨⟨text, op⟩, hop, rfl⟩ := hmarks _ hname rule hrule hrulename rhs hrhs
  rcases h with _ | ⟨h₁, _ | _⟩
  obtain ⟨mark, rfl, rfl, hmark⟩ := h₁.literal (hwords _ hname _ hop)
  refine ⟨mark, op, rfl, ⟨hmark.1, ?_⟩, ParseTree.toOperator_node hname hop⟩
  rwa [hmark.2]

theorem exists_factor (halt : Grammar.extended.HasAlternative "F" rhs)
    (h : Pieces Means rhs children tokens) :
    ∃ e, (ParseTree.node "F" children).toFactor = .ok e ∧ IsFactor tokens e := by
  have hrhs := mem_alternatives halt
    (show ⟨"F", [["id"], ["num"], ["(", "E", ")"]]⟩ ∈ Grammar.extended.rules by decide)
  simp only [List.mem_cons, List.not_mem_nil, or_false] at hrhs
  rcases hrhs with rfl | rfl | rfl
  · rcases h with _ | ⟨h₁, _ | _⟩
    obtain ⟨token, rfl, rfl, hkind⟩ := h₁.identifier
    refine ⟨.ident token.lexeme, ?_, .ident hkind⟩
    rw [ParseTree.toFactor, if_pos rfl]
  · rcases h with _ | ⟨h₁, _ | _⟩
    obtain ⟨token, rfl, rfl, hkind⟩ := h₁.number
    refine ⟨.number token.lexeme, ?_, .number hkind⟩
    rw [ParseTree.toFactor, if_pos rfl]
  · rcases h with _ | ⟨h₁, _ | ⟨h₂, _ | ⟨h₃, _ | _⟩⟩⟩
    obtain ⟨opening, rfl, rfl, hopening⟩ := h₁.literal (by decide)
    obtain ⟨e, he, hinner⟩ := h₂.expr rfl
    obtain ⟨closing, rfl, rfl, hclosing⟩ := h₃.literal (by decide)
    refine ⟨e, ?_, .parentheses hopening hinner hclosing⟩
    rw [ParseTree.toFactor, if_pos rfl, he]

theorem exists_termTail (halt : Grammar.extended.HasAlternative "FT" rhs)
    (h : Pieces Means rhs children tokens) {left : List Token} {lhs : Expr}
    (hleft : IsTerm left lhs) :
    ∃ e, (ParseTree.node "FT" children).foldProduct lhs = .ok e ∧ IsTerm (left ++ tokens) e := by
  have hrhs := mem_alternatives halt
    (show ⟨"FT", [["mo", "F", "FT"], []]⟩ ∈ Grammar.extended.rules by decide)
  simp only [List.mem_cons, List.not_mem_nil, or_false] at hrhs
  rcases hrhs with rfl | rfl
  · rcases h with _ | ⟨h₁, _ | ⟨h₂, _ | ⟨h₃, _ | _⟩⟩⟩
    obtain ⟨mark, op, rfl, hmark, hop⟩ := h₁.operator productOperators (by decide)
    obtain ⟨rhs, hrhs, hfactor⟩ := h₂.factor rfl
    -- the rest of the tail continues the phrase that this factor has made longer
    obtain ⟨e, he, hterm⟩ := h₃.termTail rfl _ _ (.binary hleft hmark hfactor)
    refine ⟨e, (ParseTree.foldProduct_cons hop hrhs lhs _).trans he, ?_⟩
    rw [List.append_nil]
    rwa [List.append_assoc] at hterm
  · cases h
    rw [List.append_nil]
    exact ⟨lhs, ParseTree.foldProduct_nil lhs, hleft⟩

theorem exists_term (halt : Grammar.extended.HasAlternative "T" rhs)
    (h : Pieces Means rhs children tokens) :
    ∃ e, (ParseTree.node "T" children).toTerm = .ok e ∧ IsTerm tokens e := by
  have hrhs := mem_alternatives halt
    (show ⟨"T", [["F", "FT"]]⟩ ∈ Grammar.extended.rules by decide)
  cases List.mem_singleton.mp hrhs
  rcases h with _ | ⟨h₁, _ | ⟨h₂, _ | _⟩⟩
  obtain ⟨lhs, hlhs, hfactor⟩ := h₁.factor rfl
  obtain ⟨e, he, hterm⟩ := h₂.termTail rfl _ _ (.factor hfactor)
  rw [List.append_nil]
  exact ⟨e, (ParseTree.toTerm_node hlhs _).trans he, hterm⟩

theorem exists_exprTail (halt : Grammar.extended.HasAlternative "TT" rhs)
    (h : Pieces Means rhs children tokens) {left : List Token} {lhs : Expr}
    (hleft : IsExpr left lhs) :
    ∃ e, (ParseTree.node "TT" children).foldSum lhs = .ok e ∧ IsExpr (left ++ tokens) e := by
  have hrhs := mem_alternatives halt
    (show ⟨"TT", [["ao", "T", "TT"], []]⟩ ∈ Grammar.extended.rules by decide)
  simp only [List.mem_cons, List.not_mem_nil, or_false] at hrhs
  rcases hrhs with rfl | rfl
  · rcases h with _ | ⟨h₁, _ | ⟨h₂, _ | ⟨h₃, _ | _⟩⟩⟩
    obtain ⟨mark, op, rfl, hmark, hop⟩ := h₁.operator sumOperators (by decide)
    obtain ⟨rhs, hrhs, hterm⟩ := h₂.term rfl
    obtain ⟨e, he, hexpr⟩ := h₃.exprTail rfl _ _ (.binary hleft hmark hterm)
    refine ⟨e, (ParseTree.foldSum_cons hop hrhs lhs _).trans he, ?_⟩
    rw [List.append_nil]
    rwa [List.append_assoc] at hexpr
  · cases h
    rw [List.append_nil]
    exact ⟨lhs, ParseTree.foldSum_nil lhs, hleft⟩

theorem exists_expr (halt : Grammar.extended.HasAlternative "E" rhs)
    (h : Pieces Means rhs children tokens) :
    ∃ e, (ParseTree.node "E" children).toExpr = .ok e ∧ IsExpr tokens e := by
  have hrhs := mem_alternatives halt
    (show ⟨"E", [["T", "TT"]]⟩ ∈ Grammar.extended.rules by decide)
  cases List.mem_singleton.mp hrhs
  rcases h with _ | ⟨h₁, _ | ⟨h₂, _ | _⟩⟩
  obtain ⟨lhs, hlhs, hterm⟩ := h₁.term rfl
  obtain ⟨e, he, hexpr⟩ := h₂.exprTail rfl _ _ (.term hterm)
  rw [List.append_nil]
  exact ⟨e, (ParseTree.toExpr_node hlhs _).trans he, hexpr⟩

theorem exists_conditionTail (halt : Grammar.extended.HasAlternative "ET" rhs)
    (h : Pieces Means rhs children tokens) {left : List Token} {lhs : Expr}
    (hleft : IsExpr left lhs) {expr : ParseTree} (hexpr : expr.toExpr = .ok lhs) :
    ∃ e, (ParseTree.node "R" [expr, .node "ET" children]).toCondition = .ok e ∧
      IsCondition (left ++ tokens) e := by
  have hrhs := mem_alternatives halt
    (show ⟨"ET", [["ro", "E"], []]⟩ ∈ Grammar.extended.rules by decide)
  simp only [List.mem_cons, List.not_mem_nil, or_false] at hrhs
  rcases hrhs with rfl | rfl
  · rcases h with _ | ⟨h₁, _ | ⟨h₂, _ | _⟩⟩
    obtain ⟨mark, op, rfl, hmark, hop⟩ := h₁.operator comparisons (by decide)
    obtain ⟨rhs, hrhs, hright⟩ := h₂.expr rfl
    rw [List.append_nil]
    exact ⟨_, ParseTree.toCondition_comparison hexpr hop hrhs, .comparison hleft hmark hright⟩
  · cases h
    rw [List.append_nil]
    exact ⟨lhs, ParseTree.toCondition_expr hexpr, .expr hleft⟩

theorem exists_condition (halt : Grammar.extended.HasAlternative "R" rhs)
    (h : Pieces Means rhs children tokens) :
    ∃ e, (ParseTree.node "R" children).toCondition = .ok e ∧ IsCondition tokens e := by
  have hrhs := mem_alternatives halt
    (show ⟨"R", [["E", "ET"]]⟩ ∈ Grammar.extended.rules by decide)
  cases List.mem_singleton.mp hrhs
  rcases h with _ | ⟨h₁, _ | ⟨h₂, _ | _⟩⟩
  obtain ⟨lhs, hlhs, hexpr⟩ := h₁.expr rfl
  rw [List.append_nil]
  exact h₂.conditionTail rfl _ _ hexpr _ hlhs

theorem exists_statement (halt : Grammar.extended.HasAlternative "S" rhs)
    (h : Pieces Means rhs children tokens) :
    ∃ statement, (ParseTree.node "S" children).toStatement = .ok statement ∧
      IsStatement tokens statement := by
  have hrhs := mem_alternatives halt
    (show ⟨"S", [["id", ":=", "E"], ["read", "id"], ["write", "E"], ["if", "R", "SL", "fi"],
      ["do", "SL", "od"], ["check", "R"]]⟩ ∈ Grammar.extended.rules by decide)
  simp only [List.mem_cons, List.not_mem_nil, or_false] at hrhs
  rcases hrhs with rfl | rfl | rfl | rfl | rfl | rfl
  · rcases h with _ | ⟨h₁, _ | ⟨h₂, _ | ⟨h₃, _ | _⟩⟩⟩
    obtain ⟨target, rfl, rfl, htarget⟩ := h₁.identifier
    obtain ⟨mark, rfl, rfl, hmark⟩ := h₂.literal (by decide)
    obtain ⟨e, he, hexpr⟩ := h₃.expr rfl
    rw [List.append_nil, ParseTree.toStatement, if_pos rfl, he]
    exact ⟨_, rfl, .assign htarget hmark hexpr⟩
  · rcases h with _ | ⟨h₁, _ | ⟨h₂, _ | _⟩⟩
    obtain ⟨word, rfl, rfl, hword⟩ := h₁.literal (by decide)
    obtain ⟨target, rfl, rfl, htarget⟩ := h₂.identifier
    rw [ParseTree.toStatement, if_pos rfl]
    exact ⟨_, rfl, .read hword htarget⟩
  · rcases h with _ | ⟨h₁, _ | ⟨h₂, _ | _⟩⟩
    obtain ⟨word, rfl, rfl, hword⟩ := h₁.literal (by decide)
    obtain ⟨e, he, hexpr⟩ := h₂.expr rfl
    rw [List.append_nil, ParseTree.toStatement, if_pos rfl, he]
    exact ⟨_, rfl, .write hword hexpr⟩
  · rcases h with _ | ⟨h₁, _ | ⟨h₂, _ | ⟨h₃, _ | ⟨h₄, _ | _⟩⟩⟩⟩
    obtain ⟨opening, rfl, rfl, hopening⟩ := h₁.literal (by decide)
    obtain ⟨e, he, hcondition⟩ := h₂.condition rfl
    obtain ⟨statements, hstatements, hbody⟩ := h₃.statements rfl
    obtain ⟨closing, rfl, rfl, hclosing⟩ := h₄.literal (by decide)
    rw [ParseTree.toStatement, if_pos rfl, he, hstatements]
    refine ⟨_, rfl, ?_⟩
    have := IsStatement.branch hopening hcondition hbody hclosing
    rwa [List.cons_append, List.append_assoc] at this
  · rcases h with _ | ⟨h₁, _ | ⟨h₂, _ | ⟨h₃, _ | _⟩⟩⟩
    obtain ⟨opening, rfl, rfl, hopening⟩ := h₁.literal (by decide)
    obtain ⟨statements, hstatements, hbody⟩ := h₂.statements rfl
    obtain ⟨closing, rfl, rfl, hclosing⟩ := h₃.literal (by decide)
    rw [ParseTree.toStatement, if_pos rfl, hstatements]
    exact ⟨_, rfl, .loop hopening hbody hclosing⟩
  · rcases h with _ | ⟨h₁, _ | ⟨h₂, _ | _⟩⟩
    obtain ⟨word, rfl, rfl, hword⟩ := h₁.literal (by decide)
    obtain ⟨e, he, hcondition⟩ := h₂.condition rfl
    rw [List.append_nil, ParseTree.toStatement, if_pos rfl, he]
    exact ⟨_, rfl, .check hword hcondition⟩

theorem exists_statements (halt : Grammar.extended.HasAlternative "SL" rhs)
    (h : Pieces Means rhs children tokens) :
    ∃ statements, (ParseTree.node "SL" children).toStatements = .ok statements ∧
      IsStatements tokens statements := by
  have hrhs := mem_alternatives halt
    (show ⟨"SL", [["S", "SL"], []]⟩ ∈ Grammar.extended.rules by decide)
  simp only [List.mem_cons, List.not_mem_nil, or_false] at hrhs
  rcases hrhs with rfl | rfl
  · rcases h with _ | ⟨h₁, _ | ⟨h₂, _ | _⟩⟩
    obtain ⟨statement, hstatement, hfirst⟩ := h₁.statement rfl
    obtain ⟨statements, hstatements, hrest⟩ := h₂.statements rfl
    rw [List.append_nil]
    exact ⟨_, ParseTree.toStatements_cons hstatement hstatements, .cons hfirst hrest⟩
  · cases h
    rw [ParseTree.toStatements, if_pos rfl]
    exact ⟨[], rfl, .nil⟩

theorem exists_program (halt : Grammar.extended.HasAlternative "P" rhs)
    (h : Pieces Means rhs children tokens) :
    ∃ p, Program.ofTree (.node "P" children) = .ok p ∧ IsProgram tokens p := by
  have hrhs := mem_alternatives halt
    (show ⟨"P", [["SL", "$$"]]⟩ ∈ Grammar.extended.rules by decide)
  cases List.mem_singleton.mp hrhs
  rcases h with _ | ⟨h₁, _ | ⟨h₂, _ | _⟩⟩
  obtain ⟨statements, hstatements, hbody⟩ := h₁.statements rfl
  obtain ⟨last, rfl, rfl, hlast⟩ := h₂.finish
  exact ⟨_, Program.ofTree_node hstatements _, .intro hbody hlast⟩

/-! ### All trees -/

theorem Means.leaf {token : Token} (hadmits : Vocabulary.calculator.Admits token)
    (hterminal : token.terminal ∉ Grammar.extended.names) :
    Means token.terminal token.leaf [token] := by
  have hoperators : ∀ entry ∈ operatorTables, entry.1 ∈ Grammar.extended.names := by decide
  constructor
  case token => exact fun _ => ⟨token, rfl, rfl, rfl, hadmits⟩
  case operator => exact fun table htable => absurd (hoperators _ htable) hterminal
  all_goals
    intro hname
    rw [hname] at hterminal
    exact absurd (by decide) hterminal

theorem Means.node {name : String} (halt : Grammar.extended.HasAlternative name rhs)
    (h : Pieces Means rhs children tokens) : Means name (.node name children) tokens := by
  constructor
  case token => exact fun hname => absurd halt.mem_names hname
  case operator => exact fun table htable => exists_operator htable halt h
  all_goals rintro rfl
  case factor => exact exists_factor halt h
  case termTail => exact fun _ _ hleft => exists_termTail halt h hleft
  case term => exact exists_term halt h
  case exprTail => exact fun _ _ hleft => exists_exprTail halt h hleft
  case expr => exact exists_expr halt h
  case conditionTail => exact fun _ _ hleft _ hexpr => exists_conditionTail halt h hleft hexpr
  case condition => exact exists_condition halt h
  case statement => exact exists_statement halt h
  case statements => exact exists_statements halt h
  case program => exact exists_program halt h

/-- A parse tree means a program that its tokens are a phrase for. -/
theorem exists_isProgram_of_isParse {tree : ParseTree}
    (h : Grammar.extended.IsParse tokens tree)
    (hadmits : ∀ token ∈ tokens, Vocabulary.calculator.Admits token) :
    ∃ p, Program.ofTree tree = .ok p ∧ IsProgram tokens p := by
  have hpieces : Pieces Means ["P"] [tree] tokens :=
    Grammar.Forest.pieces (fun _ => Means.leaf) Means.node h hadmits
  rcases hpieces with _ | ⟨h₁, _ | _⟩
  rw [List.append_nil]
  exact h₁.program rfl

end Language

end StepCalc

import StepCalc.Proofs.Program.FrontEnd

/-!
# Programs without control flow

The extended grammar has the rules of the calculator grammar and more, in another order and with
other prediction sets. It accepts the same programs without control flow: a source compiles with the
calculator grammar exactly if it compiles with the extended one, to the same program, and this
program has no branch, no loop and no check (`compile_calculator_iff`).

1. Two grammars that agree over some symbols have the same parse trees over tokens of these symbols
   (`Grammar.AgreesOver.forest`). The two calculator grammars agree over the symbols of the smaller
   one: what the extended grammar adds begins with a word that the smaller one does not have.
2. The tokens of a phrase are symbols of the calculator grammar exactly if the phrase stands for a
   program without control flow (`IsProgram.isStraightLine_iff`).
-/

namespace StepCalc

/-- Whether the statement is no branch, no loop and no check. -/
def Statement.isStraightLine : Statement → Bool
  | branch _ _ | loop _ | check _ => false
  | _ => true

/-- The program has no branch, no loop and no check. There is no body then to look into. -/
def Program.IsStraightLine (p : Program) : Prop := ∀ s ∈ p.statements, s.isStraightLine = true

/-! ## Trees of two grammars -/

namespace Grammar

def symbols (g : Grammar) : List String := g.rules.flatMap fun rule => rule.name :: rule.symbols

/-- The alternatives of each of the symbols are made of the symbols. -/
def ClosedOver (symbols : List String) (g : Grammar) : Prop :=
  ∀ rule ∈ g.rules, rule.name ∈ symbols → ∀ s ∈ rule.symbols, s ∈ symbols

instance (symbols : List String) (g : Grammar) : Decidable (ClosedOver symbols g) :=
  inferInstanceAs (Decidable (∀ rule ∈ g.rules, _))

/-- An alternative of one of the symbols in `g` is one in `g'` as well and made of the symbols,
unless there is a terminal in it that is not one of them. -/
structure AgreesOver (symbols : List String) (g g' : Grammar) : Prop where
  alternatives : ∀ rule ∈ g.rules, rule.name ∈ symbols → ∀ rhs ∈ rule.alternatives,
    (g'.HasAlternative rule.name rhs ∧ ∀ s ∈ rhs, s ∈ symbols) ∨
      ∃ s ∈ rhs, s ∉ g.names ∧ s ∉ symbols
  terminals : ∀ s ∈ symbols, s ∉ g.names → s ∉ g'.names

variable {g g' : Grammar} {shared symbols : List String} {trees : List ParseTree}
  {tokens : List Token}

theorem closedOver_symbols (g : Grammar) : ClosedOver g.symbols g := by
  intro rule hrule _ s hs
  exact List.mem_flatMap.mpr ⟨rule, hrule, List.mem_cons_of_mem _ hs⟩

/-- The leaves of trees are among the symbols that the trees can be made of. -/
theorem ClosedOver.terminal_mem (hclosed : ClosedOver shared g) (h : g.Forest symbols trees tokens)
    (hsymbols : ∀ s ∈ symbols, s ∈ shared) : ∀ token ∈ tokens, token.terminal ∈ shared := by
  induction h with
  | nil => exact fun _ htoken => absurd htoken List.not_mem_nil
  | leaf hterminal _ _ ih =>
    obtain ⟨hfirst, hothers⟩ := List.forall_mem_cons.mp hsymbols
    exact List.forall_mem_cons.mpr ⟨hterminal ▸ hfirst, ih hothers⟩
  | node halt _ _ ih₁ ih₂ =>
    obtain ⟨hname, hothers⟩ := List.forall_mem_cons.mp hsymbols
    obtain ⟨rule, hrule, rfl, hrhs⟩ := halt
    have hinner := ih₁ fun s hs =>
      hclosed rule hrule hname s (List.mem_flatten.mpr ⟨_, hrhs, hs⟩)
    exact List.forall_mem_append.mpr ⟨hinner, ih₂ hothers⟩

/-- A terminal that has a tree is the terminal of one of the tokens. -/
theorem Forest.exists_token {s : String} (h : g.Forest symbols trees tokens) (hs : s ∈ symbols)
    (hterminal : s ∉ g.names) : ∃ token ∈ tokens, token.terminal = s := by
  obtain ⟨before, after, rfl⟩ := List.append_of_mem hs
  obtain ⟨_, _, read, rest, _, rfl, _, hrest⟩ := h.exists_split
  rw [← List.singleton_append] at hrest
  obtain ⟨_, _, one, others, _, rfl, hone, _⟩ := hrest.exists_split
  obtain ⟨token, _, rfl, htoken⟩ := hone.exists_leaf hterminal
  exact ⟨token, by simp, htoken⟩

/-- Trees of one grammar are trees of the other one, if the grammars agree over what the trees are
made of. -/
theorem AgreesOver.forest (hagrees : AgreesOver shared g g') (h : g.Forest symbols trees tokens)
    (hsymbols : ∀ s ∈ symbols, s ∈ shared) (htokens : ∀ token ∈ tokens, token.terminal ∈ shared) :
    g'.Forest symbols trees tokens := by
  induction h with
  | nil => exact .nil
  | @leaf token s symbols trees tokens hterminal hs _ ih =>
    obtain ⟨hfirst, hothers⟩ := List.forall_mem_cons.mp hsymbols
    obtain ⟨_, hrest⟩ := List.forall_mem_cons.mp htokens
    exact .leaf hterminal (hagrees.terminals s hfirst hs) (ih hothers hrest)
  | @node name rhs symbols children trees inner tokens halt hchildren _ ih₁ ih₂ =>
    obtain ⟨hname, hothers⟩ := List.forall_mem_cons.mp hsymbols
    obtain ⟨hinner, hrest⟩ := List.forall_mem_append.mp htokens
    obtain ⟨rule, hrule, rfl, hrhs⟩ := halt
    rcases hagrees.alternatives rule hrule hname rhs hrhs with ⟨halt', hshared⟩ |
        ⟨s, hs, hterminal, hforeign⟩
    · exact .node halt' (ih₁ hshared hinner) (ih₂ hothers hrest)
    · -- the foreign terminal would be among the tokens
      obtain ⟨token, htoken, rfl⟩ := hchildren.exists_token hs hterminal
      exact absurd (hinner token htoken) hforeign

end Grammar

/-! ## The calculator grammars -/

theorem agreesOver_extended : Grammar.AgreesOver Grammar.calculator.symbols .calculator .extended :=
  ⟨by decide +kernel, by decide +kernel⟩

theorem agreesOver_calculator :
    Grammar.AgreesOver Grammar.calculator.symbols .extended .calculator :=
  ⟨by decide +kernel, by decide +kernel⟩

theorem isParse_calculator_iff {tokens : List Token} {tree : ParseTree} :
    Grammar.calculator.IsParse tokens tree ↔ Grammar.extended.IsParse tokens tree ∧
      ∀ token ∈ tokens, token.terminal ∈ Grammar.calculator.symbols := by
  have hstart : ∀ s ∈ ["P"], s ∈ Grammar.calculator.symbols := by decide
  constructor
  · intro h
    have htokens := (Grammar.closedOver_symbols _).terminal_mem h hstart
    exact ⟨agreesOver_extended.forest h hstart htokens, htokens⟩
  · rintro ⟨h, htokens⟩
    exact agreesOver_calculator.forest h hstart htokens

theorem strict_calculator :
    PredictionTable.strict .calculator = .ok (.ofGrammar .calculator) :=
  PredictionTable.strict_of_conflicts_eq_nil (by decide +kernel)

theorem endMarked_calculator : Parsing.EndMarked .calculator := by
  intro rhs h
  have hrhs := (Grammar.hasAlternative_iff_of_mem List.mem_cons_self).mp h
  exact ⟨["SL"], "$$", List.mem_singleton.mp hrhs, by decide⟩

/-! ## Phrases without control flow -/

namespace Language

/-- The symbols that arithmetic expressions are made of. -/
def arithmetic : List String :=
  ["E", "T", "TT", "F", "FT", "ao", "mo", "id", "num", "(", ")", "+", "-", "*", "/"]

theorem terminal_mem_of_isExpr {tokens : List Token} {e : Expr} (h : IsExpr tokens e) :
    ∀ token ∈ tokens, token.terminal ∈ Grammar.calculator.symbols := by
  have hclosed : Grammar.ClosedOver arithmetic .extended := by decide +kernel
  have hsymbols : ∀ s ∈ arithmetic, s ∈ Grammar.calculator.symbols := by decide
  obtain ⟨tree, hforest, _⟩ := exists_wholeExprTree h
  intro token htoken
  exact hsymbols _ (hclosed.terminal_mem hforest (by decide) token htoken)

theorem terminal_mem_of_kind {token : Token} {kind : TokenKind} (h : token.kind = kind)
    (text : String) (hkind : (text, kind) ∈ Token.kindTerminals)
    (htext : text ∈ Grammar.calculator.symbols) : token.terminal ∈ Grammar.calculator.symbols := by
  rwa [Token.terminal_eq_of_kind h hkind]

theorem terminal_mem_of_is {token : Token} {text : String} (h : token.Is text)
    (htext : text ∈ Grammar.calculator.symbols) : token.terminal ∈ Grammar.calculator.symbols := by
  rwa [h.terminal_eq]

/-- A phrase for a statement has a token that is no symbol of the calculator grammar exactly if the
statement is a branch, a loop or a check. -/
theorem IsStatement.isStraightLine_iff {tokens : List Token} {statement : Statement}
    (h : IsStatement tokens statement) :
    statement.isStraightLine = true ↔
      ∀ token ∈ tokens, token.terminal ∈ Grammar.calculator.symbols := by
  cases h with
  | assign htarget hmark hexpr =>
    simp only [Statement.isStraightLine, List.forall_mem_cons, true_iff]
    exact ⟨terminal_mem_of_kind htarget "id" (by decide) (by decide),
      terminal_mem_of_is hmark (by decide), terminal_mem_of_isExpr hexpr⟩
  | read hword htarget =>
    simp only [Statement.isStraightLine, List.forall_mem_cons, true_iff]
    exact ⟨terminal_mem_of_is hword (by decide),
      terminal_mem_of_kind htarget "id" (by decide) (by decide), by simp⟩
  | write hword hexpr =>
    simp only [Statement.isStraightLine, List.forall_mem_cons, true_iff]
    exact ⟨terminal_mem_of_is hword (by decide), terminal_mem_of_isExpr hexpr⟩
  | branch hword _ _ _ | loop hword _ _ | check hword _ =>
    simp only [Statement.isStraightLine, Bool.false_eq_true, false_iff]
    intro htokens
    have hfirst := htokens _ List.mem_cons_self
    rw [hword.terminal_eq] at hfirst
    exact absurd hfirst (by decide)

theorem IsStatements.isStraightLine_iff {tokens : List Token} {statements : List Statement}
    (h : IsStatements tokens statements) :
    (∀ s ∈ statements, s.isStraightLine = true) ↔
      ∀ token ∈ tokens, token.terminal ∈ Grammar.calculator.symbols := by
  induction statements generalizing tokens with
  | nil =>
    cases h
    simp
  | cons statement statements ih =>
    cases h with
    | cons hfirst hrest =>
      rw [List.forall_mem_cons, List.forall_mem_append, hfirst.isStraightLine_iff, ih hrest]

theorem IsProgram.isStraightLine_iff {tokens : List Token} {p : Program} (h : IsProgram tokens p) :
    p.IsStraightLine ↔ ∀ token ∈ tokens, token.terminal ∈ Grammar.calculator.symbols := by
  cases h with
  | @intro tokens statements last hstatements hlast =>
    have hmark := terminal_mem_of_kind hlast "$$" (by decide) (by decide)
    unfold Program.IsStraightLine
    rw [List.forall_mem_append, List.forall_mem_singleton, and_iff_left hmark]
    exact hstatements.isStraightLine_iff

end Language

/-! ## Sources -/

namespace Program

open StepCalc.Language Parsing

/-- **The extended grammar is a conservative extension of the calculator grammar.** With the
calculator grammar exactly those sources compile that compile with the extended grammar to a program
without branches, loops and checks, and they compile to this program. -/
theorem compile_calculator_iff (source : String) (p : Program) :
    compile (.ofGrammar .calculator) source = .ok p ↔
      compile (.ofGrammar .extended) source = .ok p ∧ p.IsStraightLine := by
  rw [compile_eq_ok_iff]
  constructor
  · intro h
    cases htree : parseSource .calculator (.ofGrammar .calculator) source with
    | error error =>
      rw [compile_of_error htree] at h
      cases h
    | ok tree =>
      obtain ⟨hparse, htokens⟩ := isParse_calculator_iff.mp (isParse_of_parseTokens htree)
      obtain ⟨other, hother, hphrase⟩ := exists_isProgram_of_isParse hparse
        fun token htoken => Vocabulary.calculator.admits_of_mem_scan htoken
      rw [compile_of_tree htree hother] at h
      cases h
      exact ⟨hphrase, hphrase.isStraightLine_iff.mpr htokens⟩
  · rintro ⟨hphrase, hstraight⟩
    obtain ⟨tree, hextended, hp⟩ := exists_isParse_of_isProgram hphrase
    have hparse := isParse_calculator_iff.mpr
      ⟨hextended, hphrase.isStraightLine_iff.mp hstraight⟩
    have hpredicted := predicted_of_isParse strict_calculator endMarked_calculator hparse
    exact compile_of_tree (parseTokens_eq_ok_iff.mpr hpredicted) hp

end Program

end StepCalc

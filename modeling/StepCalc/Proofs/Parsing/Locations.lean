import StepCalc.Parsing.Automaton

/-!
# The parser and the places of its tokens

The parser passes the places of its tokens on to its errors and does not look at them: parsing
commutes with taking all of them away (`parseTokens_unplaced`). So token lists that agree up to
their places have the same parse tree, or errors that agree up to theirs.
-/

namespace StepCalc

/-! ## Without places -/

/-- The token, as if at the start of the text. -/
def Token.unplaced (t : Token) : Token := { t with location := .origin }

def SyntaxError.unplaced : SyntaxError → SyntaxError
  | .extraInput _ => .extraInput .origin
  | .expected symbol saw _ => .expected symbol saw .origin
  | .noPrediction nonterminal saw _ => .noPrediction nonterminal saw .origin
  | .outOfStep fault => .outOfStep fault
  | .endless nonterminal _ => .endless nonterminal .origin

namespace Parsing

def Configuration.unplaced (c : Configuration) : Configuration :=
  ⟨c.stack, c.fragments, c.consumed.map Token.unplaced, c.pending.map Token.unplaced⟩

def Move.unplaced : Move → Move
  | .next c => .next c.unplaced
  | .accept tree => .accept tree
  | .reject error => .reject error.unplaced

namespace Configuration

theorem lookahead_unplaced (c : Configuration) :
    c.unplaced.lookahead = ⟨c.lookahead.terminal, c.lookahead.shown, .origin⟩ := by
  obtain ⟨stack, fragments, consumed, pending⟩ := c
  cases pending with
  | cons token pending => rfl
  | nil => cases consumed <;> rfl

/-! ## Moves and runs -/

theorem step_unplaced (table : PredictionTable) (c : Configuration) :
    c.unplaced.step table = (c.step table).unplaced := by
  have hlookahead := c.lookahead_unplaced
  obtain ⟨stack, fragments, consumed, pending⟩ := c
  match stack with
  | [] =>
    match pending, fragments with
    | _ :: _, _ => rfl
    | [], [] => rfl
    | [], [_] => rfl
    | [], _ :: _ :: _ => rfl
  | .reduce arity :: stack =>
    simp only [step, unplaced]
    cases gather arity fragments <;> rfl
  | .expect symbol :: stack =>
    simp only [step, hlookahead]
    simp only [unplaced]
    split
    case isTrue => split <;> rfl
    case isFalse =>
      cases pending with
      | nil => rfl
      | cons token pending =>
        simp only [List.map_cons]
        by_cases hterminal : token.terminal = symbol
        · have hterminal' : token.unplaced.terminal = symbol := hterminal
          rw [if_pos hterminal, if_pos hterminal']
          rfl
        · have hterminal' : ¬ token.unplaced.terminal = symbol := hterminal
          rw [if_neg hterminal, if_neg hterminal']
          rfl

theorem run_unplaced (table : PredictionTable) (trail : List String) (c : Configuration) :
    c.unplaced.run table trail = (c.run table trail).mapError SyntaxError.unplaced := by
  fun_induction run table trail c with
  | case1 trail c name hopen =>
    have hopen' : c.unplaced.reopened? table trail = some name := hopen
    rw [run_eq, hopen', lookahead_unplaced]
    rfl
  | case2 trail c hopen tree hstep =>
    have hopen' : c.unplaced.reopened? table trail = none := hopen
    rw [run_eq, hopen', step_unplaced, hstep]
    rfl
  | case3 trail c hopen error hstep =>
    have hopen' : c.unplaced.reopened? table trail = none := hopen
    rw [run_eq, hopen', step_unplaced, hstep]
    rfl
  | case4 trail c hopen c' hstep ih =>
    have hopen' : c.unplaced.reopened? table trail = none := hopen
    rw [run_eq, hopen', step_unplaced, hstep, ← ih]
    rfl

end Configuration

/-- **Parsing does not depend on places.** Without their places the tokens have the same parse tree
or the same error, which then has no place either. -/
theorem parseTokens_unplaced (table : PredictionTable) (tokens : List Token) :
    parseTokens table (tokens.map Token.unplaced) =
      (parseTokens table tokens).mapError SyntaxError.unplaced :=
  Configuration.run_unplaced table [] (.initial table.start tokens)

end Parsing

end StepCalc

import StepCalc.Proofs.Grammar.Grounded
import StepCalc.Proofs.Parsing.Correctness
import StepCalc.Proofs.Parsing.Moves

/-!
# The parser comes to an end

The moves of the automaton can go on for ever only if a nonterminal opens itself before the next
token is taken. So they come to an end

1. for every grammar without left recursion, conflicts or not (`parse_halts_of_no_leftRecursion`);
2. for every grammar without conflicts, left-recursive or not (`parse_halts_of_strict`): what was
   recognised without taking a token does not begin with the next token, so each nonterminal that
   opens another one leads to it.
-/

namespace StepCalc.Parsing

open StepCalc.Parsing.Configuration

variable {g : Grammar}

/-- The moves come to an end if no nonterminal opens itself. -/
theorem halts_of_not_opens (tokens : List Token)
    (h : ∀ pending name, ¬ Relation.TransGen (Opens g pending) name name) :
    (initial g.start tokens).Halts (.ofGrammar g) (parseTokens (.ofGrammar g) tokens) := by
  rcases halts_or_endless (.ofGrammar g) [] (initial g.start tokens) with hhalts | ⟨name, _, hend⟩
  · exact hhalts
  · obtain ⟨pending, hopens⟩ := opens_of_endless hend
    exact absurd hopens (h pending name)

/-! ## Without left recursion -/

/-- **Without left recursion the parser comes to an end.** If no nonterminal is at its own left
corner, in any number of steps, the moves come to an end for every token list, with the result of
the parser. -/
theorem parse_halts_of_no_leftRecursion
    (hcorner : ∀ name ∈ g.names, ¬ Relation.TransGen g.LeftCorner name name)
    (tokens : List Token) :
    (initial g.start tokens).Halts (.ofGrammar g) (parseTokens (.ofGrammar g) tokens) := by
  refine halts_of_not_opens tokens fun pending name hopens => ?_
  have hcorners : Relation.TransGen g.LeftCorner name name :=
    Relation.TransGen.mono (fun _ _ hopens => hopens.leftCorner) _ _ hopens
  obtain ⟨_, ⟨before, after, halt, _⟩, _⟩ := Relation.TransGen.head'_iff.mp hcorners
  exact hcorner name halt.mem_names hcorners

/-- A grammar with a conflict. -/
theorem parse_halts_of_no_leftRecursion_shadowing :
    let tokens : List Token := [⟨.identifier, "x", ⟨1, 1⟩⟩, ⟨.identifier, "y", ⟨1, 3⟩⟩]
    (∀ name ∈ shadowing.names, ¬ Relation.TransGen shadowing.LeftCorner name name) ∧
      (PredictionTable.ofGrammar shadowing).conflicts ≠ [] ∧
      (initial shadowing.start tokens).Halts (.ofGrammar shadowing)
        (parseTokens (.ofGrammar shadowing) tokens) := by
  intro tokens
  have hordered : LeftOrdered shadowing := by
    unfold LeftOrdered
    decide +kernel
  have hcorner : ∀ name ∈ shadowing.names,
      ¬ Relation.TransGen shadowing.LeftCorner name name :=
    fun name _ => hordered.not_leftRecursive name
  exact ⟨hcorner, by decide +kernel, parse_halts_of_no_leftRecursion hcorner tokens⟩

/-! ## Without conflicts -/

/-- Without conflicts, what is recognised without taking a token does not begin with the next
one. -/
theorem not_starts_of_predicted {table : PredictionTable}
    (hstrict : PredictionTable.strict g = .ok table) {symbols : List String}
    {tokens rest : List Token} {trees : List ParseTree}
    (h : g.Predicted symbols tokens trees rest) (hlength : rest.length = tokens.length) :
    ∀ token ∈ tokens.head?, ¬ g.Starts symbols token.terminal := by
  induction h with
  | nil tokens => exact fun token _ => Grammar.not_starts_nil token.terminal
  | leaf _ _ hrest _ =>
    have hle := hrest.length_le
    rw [List.length_cons] at hlength
    omega
  | @node token name rhs symbols children trees tokens between rest hchoice hchildren hrest
      ih₁ ih₂ =>
    have hle₁ := hchildren.length_le
    have hle₂ := hrest.length_le
    have hbetween : between = token :: tokens := hchildren.rest_eq (by omega)
    subst hbetween
    intro next hnext hstarts
    cases hnext
    rcases hstarts.cases with hname | ⟨other, halt, hother⟩ | ⟨_, hafter⟩
    · rw [hname] at hchoice
      exact absurd hchoice.hasAlternative.mem_names hstarts.1
    · -- the alternative that the token starts is the chosen one
      have ht : token.terminal ∈ g.predictSet name other :=
        (Grammar.mem_predictSet halt.mem_names).mpr (Or.inl hother)
      have heq := (Grammar.firstChoice_of_strict hstrict halt ht).unique hchoice
      rw [heq] at hother
      exact ih₁ rfl token rfl hother
    · exact ih₂ hlength token rfl hafter

theorem Opens.leadsTo {table : PredictionTable} (hstrict : PredictionTable.strict g = .ok table)
    {token : Token} {rest : List Token} {name s : String} (h : Opens g (token :: rest) name s) :
    g.LeadsTo token.terminal name s := by
  obtain ⟨_, _, before, after, trees, htokens, hchoice, hbefore⟩ := h
  cases htokens
  exact ⟨before, after, hchoice, not_starts_of_predicted hstrict hbefore rfl token rfl⟩

/-- Without conflicts no nonterminal opens itself before the next token is taken. -/
theorem not_opens_itself_of_strict {table : PredictionTable}
    (hstrict : PredictionTable.strict g = .ok table) (pending : List Token) (name : String) :
    ¬ Relation.TransGen (Opens g pending) name name := by
  intro hopens
  cases pending with
  | nil =>
    obtain ⟨_, ⟨_, _, _, _, _, hnil, _⟩, _⟩ := Relation.TransGen.head'_iff.mp hopens
    cases hnil
  | cons token rest =>
    have hleads : Relation.TransGen (g.LeadsTo token.terminal) name name :=
      Relation.TransGen.mono (fun _ _ hopens => hopens.leadsTo hstrict) _ _ hopens
    exact Grammar.not_transGen_leadsTo hstrict token.terminal name hleads

/-- **Without conflicts the parser comes to an end.** If a strict table can be built, the moves come
to an end for every token list, with the result of the parser. -/
theorem parse_halts_of_strict {table : PredictionTable}
    (hstrict : PredictionTable.strict g = .ok table) (tokens : List Token) :
    (initial table.start tokens).Halts table (parseTokens table tokens) := by
  rw [(PredictionTable.strict_eq_ok hstrict).1]
  exact halts_of_not_opens tokens (not_opens_itself_of_strict hstrict)

/-- A grammar without conflicts in which `A` is at its own left corner, behind `B`, which can
vanish. -/
def hiddenRecursion : Grammar where
  rules := [⟨"S", [["A", "$$"], ["id", "B"]]⟩, ⟨"A", [["B", "A", "num"]]⟩, ⟨"B", [[]]⟩]
  nonempty := by decide
  distinct := by decide
  named := by decide

theorem parse_halts_of_strict_hiddenRecursion :
    let tokens : List Token := [⟨.number, "1", ⟨1, 1⟩⟩]
    PredictionTable.strict hiddenRecursion = .ok (.ofGrammar hiddenRecursion) ∧
      hiddenRecursion.LeftCorner "A" "A" ∧
      (initial hiddenRecursion.start tokens).Halts (.ofGrammar hiddenRecursion)
        (parseTokens (.ofGrammar hiddenRecursion) tokens) := by
  intro tokens
  have hstrict : PredictionTable.strict hiddenRecursion = .ok (.ofGrammar hiddenRecursion) :=
    PredictionTable.strict_of_conflicts_eq_nil (by decide +kernel)
  have hA : hiddenRecursion.HasAlternative "A" (["B"] ++ "A" :: ["num"]) := by decide
  have hB : hiddenRecursion.HasAlternative "B" [] := by decide
  exact ⟨hstrict, ⟨["B"], ["num"], hA, hB.derives⟩, parse_halts_of_strict hstrict tokens⟩

end StepCalc.Parsing

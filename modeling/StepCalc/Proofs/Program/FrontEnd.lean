import StepCalc.Program.Source
import StepCalc.Proofs.Parsing.Correctness
import StepCalc.Proofs.Program.Phrases

/-!
# The front end

Compiling a source with the table of the extended grammar finds the program that its tokens are a
phrase for, and refuses all other sources because of a token that does not fit
(`compile_correct`).

1. The table has no conflicts, so every parse tree is found, and trees and phrases stand for the
   same programs (`compile_eq_ok_iff`).
2. The rules of the grammar are ordered from the outside in, so no run is given up
   (`leftOrdered_extended`).
3. There is nothing after the end marker, so no input is left after a whole tree
   (`not_predicted_before`).
-/

namespace StepCalc

open StepCalc.Language Parsing

/-! ## The extended grammar -/

theorem strict_extended :
    PredictionTable.strict .extended = .ok (.ofGrammar .extended) :=
  PredictionTable.strict_of_conflicts_eq_nil (by decide +kernel)

theorem endMarked_extended : EndMarked .extended := by
  intro rhs h
  have hrhs := (Grammar.hasAlternative_iff_of_mem List.mem_cons_self).mp h
  exact ⟨["SL"], "$$", List.mem_singleton.mp hrhs, by decide⟩

theorem leftOrdered_extended : LeftOrdered .extended := by
  unfold LeftOrdered
  decide +kernel

/-! ## Sources -/

namespace Program

theorem compile_of_tree {table : PredictionTable} {source : String} {tree : ParseTree}
    {p : Program} (htree : parseSource .calculator table source = .ok tree)
    (hp : ofTree tree = .ok p) : compile table source = .ok p := by
  unfold compile compileWith
  rw [htree]
  unfold ofParse
  simp only
  rw [hp]

theorem compile_of_error {table : PredictionTable} {source : String} {error : SyntaxError}
    (h : parseSource .calculator table source = .error error) :
    compile table source = .error (.parsing error) := by
  unfold compile compileWith
  rw [h]

/-- The tree of a source is read as the program that the source is a phrase for. -/
theorem compile_of_parseSource {source : String} {tree : ParseTree}
    (h : parseSource .calculator (.ofGrammar .extended) source = .ok tree) :
    ∃ p, compile (.ofGrammar .extended) source = .ok p ∧
      IsProgram (Vocabulary.calculator.scan source) p := by
  obtain ⟨p, hp, hphrase⟩ := exists_isProgram_of_isParse (isParse_of_parseTokens h)
    fun token htoken => Vocabulary.calculator.admits_of_mem_scan htoken
  exact ⟨p, compile_of_tree h hp, hphrase⟩

theorem compile_eq_ok_iff {source : String} {p : Program} :
    compile (.ofGrammar .extended) source = .ok p ↔
      IsProgram (Vocabulary.calculator.scan source) p := by
  constructor
  · intro h
    cases htree : parseSource .calculator (.ofGrammar .extended) source with
    | error error =>
      rw [compile_of_error htree] at h
      cases h
    | ok tree =>
      obtain ⟨other, hother, hphrase⟩ := compile_of_parseSource htree
      rw [h] at hother
      cases hother
      exact hphrase
  · intro h
    obtain ⟨tree, hparse, hp⟩ := exists_isParse_of_isProgram h
    have hpredicted := predicted_of_isParse strict_extended endMarked_extended hparse
    exact compile_of_tree (parseTokens_eq_ok_iff.mpr hpredicted) hp

/-- A whole tree has read the end marker, and no token comes after that. -/
theorem not_predicted_before (source : String) (tree : ParseTree) (token : Token)
    (rest : List Token) :
    ¬ Grammar.extended.Predicted ["P"] (Vocabulary.calculator.scan source) [tree]
      (token :: rest) := by
  intro h
  obtain ⟨read, hread, hforest⟩ := h.exists_forest
  have hadmits : ∀ t ∈ read, Vocabulary.calculator.Admits t := by
    intro t ht
    apply Vocabulary.calculator.admits_of_mem_scan
    rw [hread]
    exact List.mem_append_left _ ht
  obtain ⟨p, _, hphrase⟩ := exists_isProgram_of_isParse hforest hadmits
  obtain ⟨hstatements, hlast⟩ := hphrase
  obtain ⟨tokens, final, hscan, _, htokens⟩ := Vocabulary.calculator.exists_scan_eq source
  -- all but the last token are on both sides
  have hfront := congrArg List.dropLast (hscan.symm.trans hread)
  rw [List.dropLast_concat, List.dropLast_append_of_ne_nil (List.cons_ne_nil token rest)] at hfront
  refine htokens _ ?_ hlast
  rw [hfront]
  exact List.mem_append_left _ (List.mem_append_right _ List.mem_cons_self)

/-- **Correctness of the front end.** A source compiles to a program exactly if its tokens are a
phrase for the program. Any other source is refused because a token is not the expected one, or no
alternative begins with it. -/
theorem compile_correct (source : String) :
    (∀ p, compile (.ofGrammar .extended) source = .ok p ↔
      IsProgram (Vocabulary.calculator.scan source) p) ∧
    ((∃ p, IsProgram (Vocabulary.calculator.scan source) p) ∨
      (∃ symbol saw location, compile (.ofGrammar .extended) source =
        .error (.parsing (.expected symbol saw location))) ∨
      ∃ nonterminal saw location, compile (.ofGrammar .extended) source =
        .error (.parsing (.noPrediction nonterminal saw location))) := by
  refine ⟨fun p => compile_eq_ok_iff, ?_⟩
  cases htree : parseSource .calculator (.ofGrammar .extended) source with
  | ok tree =>
    obtain ⟨p, _, hphrase⟩ := compile_of_parseSource htree
    exact Or.inl ⟨p, hphrase⟩
  | error error =>
    rw [compile_of_error htree]
    rcases parseTokens_error_cases htree with ⟨symbol, saw, location, rfl⟩ |
        ⟨nonterminal, saw, location, rfl⟩ | ⟨tree, token, rest, _, hpredicted⟩ |
        ⟨name, _, _, hcorners⟩
    · exact Or.inr (Or.inl ⟨symbol, saw, location, rfl⟩)
    · exact Or.inr (Or.inr ⟨nonterminal, saw, location, rfl⟩)
    · exact absurd hpredicted (not_predicted_before source tree token rest)
    · exact absurd hcorners (leftOrdered_extended.not_leftRecursive name)

end Program

end StepCalc

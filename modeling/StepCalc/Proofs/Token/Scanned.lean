import StepCalc.Token.Scanner

/-!
# What the scanner makes

A keyword or a mark in the result is one of the vocabulary (`Vocabulary.Admits`), and the end
marker stands at the end and nowhere else (`exists_scan_eq`).
-/

namespace StepCalc.Vocabulary

variable (v : Vocabulary)

/-- Only words and marks of the vocabulary are literal tokens. -/
def Admits (token : Token) : Prop :=
  token.kind = .literal → token.lexeme ∈ v.keywords ∨ token.lexeme ∈ v.marks

theorem lexemeAt_literal {c : Char} {rest : List Char}
    (h : (v.lexemeAt c rest).1 = .literal) :
    String.ofList (v.lexemeAt c rest).2 ∈ v.keywords ∨
      String.ofList (v.lexemeAt c rest).2 ∈ v.marks := by
  unfold lexemeAt at h ⊢
  split at h
  case isTrue hword =>
    rw [if_pos hword]
    simp only at h ⊢
    split at h
    case isTrue hkeyword => exact Or.inl (List.contains_iff_mem.mp hkeyword)
    case isFalse => cases h
  case isFalse hword =>
    rw [if_neg hword]
    split at h
    case isTrue => cases h
    case isFalse hdigit =>
      rw [if_neg hdigit]
      split at h
      case h_1 mark hmark =>
        rw [String.ofList_toList]
        exact Or.inr (v.mem_marks_of_markAt? hmark)
      case h_2 => cases h

theorem lexemeAt_ne_finish (c : Char) (rest : List Char) : (v.lexemeAt c rest).1 ≠ .finish := by
  unfold lexemeAt
  split
  case isTrue =>
    simp only
    split <;> exact TokenKind.noConfusion
  case isFalse =>
    split
    case isTrue => exact TokenKind.noConfusion
    case isFalse => split <;> exact TokenKind.noConfusion

theorem admits_of_mem_scanFrom {location : Location} {text : List Char} {token : Token}
    (h : token ∈ v.scanFrom location text) : v.Admits token := by
  fun_induction scanFrom v location text with
  | case1 location =>
    rw [List.mem_singleton.mp h]
    exact fun hkind => TokenKind.noConfusion hkind
  | case2 location c rest _ ih => exact ih h
  | case3 location c rest _ found ih =>
    rcases List.mem_cons.mp h with rfl | h
    · exact v.lexemeAt_literal
    · exact ih h

theorem exists_scanFrom_eq (location : Location) (text : List Char) :
    ∃ tokens last, v.scanFrom location text = tokens ++ [last] ∧ last.kind = .finish ∧
      ∀ token ∈ tokens, token.kind ≠ .finish := by
  fun_induction scanFrom v location text with
  | case1 location => exact ⟨[], _, rfl, rfl, fun _ h => absurd h List.not_mem_nil⟩
  | case2 location c rest _ ih => exact ih
  | case3 location c rest _ found ih =>
    obtain ⟨tokens, last, heq, hlast, htokens⟩ := ih
    refine ⟨_ :: tokens, last, congrArg _ heq, hlast, ?_⟩
    intro token htoken
    rcases List.mem_cons.mp htoken with rfl | htoken
    · exact v.lexemeAt_ne_finish c rest
    · exact htokens token htoken

theorem admits_of_mem_scan {source : String} {token : Token} (h : token ∈ v.scan source) :
    v.Admits token :=
  v.admits_of_mem_scanFrom h

/-- The end marker is the last token and no other. -/
theorem exists_scan_eq (source : String) :
    ∃ tokens last, v.scan source = tokens ++ [last] ∧ last.kind = .finish ∧
      ∀ token ∈ tokens, token.kind ≠ .finish :=
  v.exists_scanFrom_eq .origin source.toList

end StepCalc.Vocabulary

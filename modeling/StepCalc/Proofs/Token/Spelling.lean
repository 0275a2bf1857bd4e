import Mathlib.Data.List.TakeWhile
import StepCalc.Proofs.Token.Scanned

/-!
# How tokens are spelled

A name is a word that is no keyword, and a numeral is made of digits with at most one point between
them. The names and numbers that the scanner finds are spelled like this
(`Vocabulary.spelled_of_mem_scan`).
-/

namespace StepCalc.Vocabulary

/-! ## Spelling -/

/-- A letter or an underscore, then letters, digits and underscores. -/
def IsWord (text : String) : Prop :=
  ∃ c rest, text.toList = c :: rest ∧ startsWord c = true ∧ ∀ d ∈ rest, continuesWord d = true

def IsDigits (text : List Char) : Prop := text ≠ [] ∧ ∀ c ∈ text, c.isDigit = true

/-- Digits, or digits, a point and digits. -/
def IsNumeral (text : String) : Prop :=
  IsDigits text.toList ∨
    ∃ whole fraction, IsDigits whole ∧ IsDigits fraction ∧ text.toList = whole ++ '.' :: fraction

variable (v : Vocabulary)

def IsName (text : String) : Prop := IsWord text ∧ text ∉ v.keywords

/-- Names and numbers are spelled as such. -/
structure Spelled (token : Token) : Prop where
  name : token.kind = .identifier → v.IsName token.lexeme
  numeral : token.kind = .number → IsNumeral token.lexeme

theorem isDigits_takeWhile {c : Char} (h : c.isDigit = true) (rest : List Char) :
    IsDigits ((c :: rest).takeWhile Char.isDigit) := by
  refine ⟨?_, fun _ => List.mem_takeWhile_imp⟩
  rw [List.takeWhile_cons_of_pos h]
  exact List.cons_ne_nil _ _

theorem isNumeral_numberAt {c : Char} (h : c.isDigit = true) (rest : List Char) :
    IsNumeral (String.ofList (numberAt (c :: rest))) := by
  have hwhole := isDigits_takeWhile h rest
  unfold IsNumeral
  rw [String.toList_ofList]
  unfold numberAt
  simp only
  split
  case h_1 after _ =>
    split
    case h_1 => exact Or.inl hwhole
    case h_2 hfraction =>
      exact Or.inr ⟨_, _, hwhole, ⟨hfraction, fun _ => List.mem_takeWhile_imp⟩, rfl⟩
  case h_2 => exact Or.inl hwhole

theorem isWord_takeWhile {c : Char} (h : startsWord c = true) (rest : List Char) :
    IsWord (String.ofList ((c :: rest).takeWhile continuesWord)) := by
  refine ⟨c, rest.takeWhile continuesWord, ?_, h, fun _ => List.mem_takeWhile_imp⟩
  rw [String.toList_ofList, List.takeWhile_cons_of_pos (continuesWord_of_startsWord h)]

theorem spelled_lexemeAt (c : Char) (rest : List Char) (location : Location) :
    v.Spelled ⟨(v.lexemeAt c rest).1, String.ofList (v.lexemeAt c rest).2, location⟩ := by
  unfold lexemeAt
  split
  case isTrue hword =>
    simp only
    split
    case isTrue => exact ⟨TokenKind.noConfusion, TokenKind.noConfusion⟩
    case isFalse hkeyword =>
      refine ⟨fun _ => ⟨isWord_takeWhile hword rest, fun h => ?_⟩, TokenKind.noConfusion⟩
      exact hkeyword (List.contains_iff_mem.mpr h)
  case isFalse =>
    split
    case isTrue hdigit => exact ⟨TokenKind.noConfusion, fun _ => isNumeral_numberAt hdigit rest⟩
    case isFalse => split <;> exact ⟨TokenKind.noConfusion, TokenKind.noConfusion⟩

theorem spelled_of_mem_scanFrom {location : Location} {text : List Char} {token : Token}
    (h : token ∈ v.scanFrom location text) : v.Spelled token := by
  fun_induction scanFrom v location text with
  | case1 location =>
    rw [List.mem_singleton.mp h]
    exact ⟨TokenKind.noConfusion, TokenKind.noConfusion⟩
  | case2 location c rest _ ih => exact ih h
  | case3 location c rest _ found ih =>
    rcases List.mem_cons.mp h with rfl | h
    · exact v.spelled_lexemeAt c rest location
    · exact ih h

theorem spelled_of_mem_scan {source : String} {token : Token} (h : token ∈ v.scan source) :
    v.Spelled token :=
  v.spelled_of_mem_scanFrom h

end StepCalc.Vocabulary

import StepCalc.Proofs.Token.Reading
import StepCalc.Text.Column
import StepCalc.Text.Decimal

/-!
# Words and decimals

`words` cuts a text at blanks, so words without blanks that are joined by spaces come back as they
were (`words_separated`). Decimals are such words: `IsDecimal` says of a word that it is read as a
64-bit integer and is the way in which this integer is shown. Every integer is shown so that it is
read back (`readInt64?_showInt64`).
-/

namespace StepCalc

/-! ## Joining and cutting -/

theorem pieces_eq_splitOnP (text : List Char) : pieces text = text.splitOnP isBlank := by
  induction text with
  | nil => rfl
  | cons c rest ih =>
    rw [pieces, List.splitOnP_cons_eq_if_modifyHead, ih]
    split
    case isTrue => rfl
    case isFalse =>
      obtain ⟨piece, others, hpieces⟩ :=
        List.exists_cons_of_ne_nil (List.splitOnP_ne_nil isBlank rest)
      rw [hpieces]
      rfl

/-- A word that is not cut: it is not empty and has no blank in it. -/
def IsWhole (word : String) : Prop := word.toList ≠ [] ∧ ∀ c ∈ word.toList, isBlank c = false

theorem pieces_intercalate {parts : List (List Char)} (hne : parts ≠ [])
    (h : ∀ part ∈ parts, ∀ c ∈ part, isBlank c = false) :
    pieces ([' '].intercalate parts) = parts := by
  rw [pieces_eq_splitOnP]
  induction parts with
  | nil => exact absurd rfl hne
  | cons part others ih =>
    obtain ⟨hpart, hothers⟩ := List.forall_mem_cons.mp h
    by_cases hlast : others = []
    · rw [hlast, List.intercalate_singleton, List.splitOnP_eq_singleton hpart]
    · rw [List.intercalate_cons_of_ne_nil hlast, List.append_assoc, List.singleton_append,
        List.splitOnP_append_cons_of_forall_mem hpart ' ' (by decide), ih hlast hothers]

/-- Joining whole words by spaces and cutting at blanks gives back the words. -/
theorem words_separated {items : List String} (h : ∀ item ∈ items, IsWhole item) :
    words (separated " " items) = items := by
  have htext : (separated " " items).toList = [' '].intercalate (items.map String.toList) :=
    String.toList_intercalate
  by_cases hne : items = []
  · subst hne
    rfl
  · have hparts : items.map String.toList ≠ [] := mt List.map_eq_nil_iff.mp hne
    rw [words, htext, pieces_intercalate hparts, List.filter_eq_self.mpr, List.map_map]
    · refine (List.map_congr_left fun item _ => ?_).trans (List.map_id items)
      exact String.ofList_toList
    · intro part hpart
      obtain ⟨item, hitem, rfl⟩ := List.mem_map.mp hpart
      simp [(h item hitem).1]
    · intro part hpart
      obtain ⟨item, hitem, rfl⟩ := List.mem_map.mp hpart
      exact (h item hitem).2

theorem ne_newline_of_mem_separated {items : List String} (h : ∀ item ∈ items, IsWhole item) :
    ∀ c ∈ (separated " " items).toList, c ≠ '\n' := by
  unfold separated
  induction items with
  | nil => exact fun c hc => absurd hc (by simp)
  | cons item others ih =>
    obtain ⟨hitem, hothers⟩ := List.forall_mem_cons.mp h
    have hfirst : ∀ c ∈ item.toList, c ≠ '\n' := by
      rintro c hc rfl
      exact absurd (hitem.2 _ hc) (by decide)
    by_cases hlast : others = []
    · rw [hlast, String.intercalate_singleton]
      exact hfirst
    · intro c hc
      rw [String.intercalate_cons_of_ne_nil hlast, String.toList_append, String.toList_append,
        List.mem_append, List.mem_append] at hc
      rcases hc with (hc | hc) | hc
      · exact hfirst c hc
      · have hspace : c = ' ' := by simpa using hc
        rw [hspace]
        decide
      · exact ih hothers c hc

def firstLine (text : String) : String := String.ofList (text.toList.takeWhile (· ≠ '\n'))

theorem firstLine_append {line : String} (h : ∀ c ∈ line.toList, c ≠ '\n') (rest : String) :
    firstLine (line ++ "\n" ++ rest) = line := by
  have hline : ∀ c ∈ line.toList, decide (c ≠ '\n') = true := fun c hc => decide_eq_true (h c hc)
  have hbreak : "\n".toList = ['\n'] := rfl
  rw [firstLine, String.toList_append, String.toList_append, hbreak, List.append_assoc,
    List.takeWhile_append_of_pos hline, List.singleton_append,
    List.takeWhile_cons_of_neg (by decide), List.append_nil, String.ofList_toList]

/-! ## Decimals -/

/-- The word is read as a 64-bit integer, and it is how this integer is shown. -/
def IsDecimal (word : String) : Prop := ∃ v : Int64, readInt64? word = some v ∧ showInt64 v = word

theorem toList_showInt64 (v : Int64) :
    (showInt64 v).toList =
      if 0 ≤ v.toInt then Nat.toDigits 10 v.toInt.toNat
      else '-' :: Nat.toDigits 10 (-v.toInt).toNat := by
  rw [showInt64, Int.toString_eq_repr, Int.repr_eq_if]
  split
  case isTrue => rw [Nat.repr_eq_ofList_toDigits, String.toList_ofList]
  case isFalse =>
    have hsign : "-".toList = ['-'] := rfl
    rw [String.toList_append, hsign, Nat.repr_eq_ofList_toDigits, String.toList_ofList,
      List.singleton_append]

theorem readDigits?_toDigits (n : Nat) : readDigits? (Nat.toDigits 10 n) = some n := by
  have hdigits : (Nat.toDigits 10 n).all Char.isDigit = true :=
    List.all_eq_true.mpr fun c hc => Nat.isDigit_of_mem_toDigits (by decide) (by decide) hc
  rw [readDigits?, if_pos ⟨Nat.toDigits_ne_nil, hdigits⟩, digitsValue, ← Nat.ofDigitChars_eq_foldl,
    Nat.ofDigitChars_ten_toDigits]

/-- A text of digits has no sign, and is read as it stands. -/
theorem readInt?_of_readDigits? {digits : List Char} {n : Nat} (h : readDigits? digits = some n) :
    readInt? digits = some (Int.ofNat n) := by
  have hall : digits.all Char.isDigit = true := by
    unfold readDigits? at h
    split at h
    case isTrue hdigits => exact hdigits.2
    case isFalse => cases h
  unfold readInt?
  split
  case h_1 => simp at hall
  case h_2 => simp at hall
  case h_3 =>
    rw [h]
    rfl

theorem fit?_toInt (v : Int64) : fit? v.toInt = some v := by
  have hlow := v.le_toInt
  have hhigh := v.toInt_lt
  rw [fit?, if_pos (by omega), Int64.ofInt_toInt]

/-- Every integer is shown so that it is read back. -/
theorem readInt64?_showInt64 (v : Int64) : readInt64? (showInt64 v) = some v := by
  have hread : readInt? (showInt64 v).toList = some v.toInt := by
    rw [toList_showInt64]
    split
    case isTrue hpos =>
      rw [readInt?_of_readDigits? (readDigits?_toDigits _)]
      exact congrArg some (Int.toNat_of_nonneg hpos)
    case isFalse hneg =>
      rw [readInt?, readDigits?_toDigits, Option.map_some]
      have habs : Int.ofNat (-v.toInt).toNat = -v.toInt := Int.toNat_of_nonneg (by omega)
      rw [habs, Int.neg_neg]
  rw [readInt64?, hread, Option.bind_some, fit?_toInt]

theorem isDecimal_showInt64 (v : Int64) : IsDecimal (showInt64 v) :=
  ⟨v, readInt64?_showInt64 v, rfl⟩

/-- A number is shown by digits and a minus sign. -/
theorem mem_showInt64 {v : Int64} {c : Char} (h : c ∈ (showInt64 v).toList) :
    c.isDigit = true ∨ c = '-' := by
  rw [toList_showInt64] at h
  split at h
  case isTrue => exact Or.inl (Nat.isDigit_of_mem_toDigits (by decide) (by decide) h)
  case isFalse =>
    rcases List.mem_cons.mp h with hsign | hdigit
    · exact Or.inr hsign
    · exact Or.inl (Nat.isDigit_of_mem_toDigits (by decide) (by decide) hdigit)

theorem IsDecimal.isWhole {word : String} (h : IsDecimal word) : IsWhole word := by
  obtain ⟨v, _, rfl⟩ := h
  constructor
  · rw [toList_showInt64]
    split
    · exact Nat.toDigits_ne_nil
    · exact List.cons_ne_nil _ _
  · intro c hc
    rcases mem_showInt64 hc with hdigit | rfl
    · exact Vocabulary.isBlank_of_isDigit hdigit
    · decide

end StepCalc

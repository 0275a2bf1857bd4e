import StepCalc.Text.Blank
import StepCalc.Token.Basic

/-!
# Scanning

`Vocabulary.scan` cuts a source into tokens and never fails. At each place that is not blank it
takes the word, the number or the mark that starts there; where nothing starts, the characters up
to the next blank or token are one token of kind `unknown`. The last token marks the end.

Marks are tried one after the other, and the first that fits is taken. A vocabulary keeps them by
their number of bytes, the largest first, so that no mark hides one that it is the beginning of.
-/

namespace StepCalc

namespace Vocabulary

/-! ## The order of marks -/

/-- The mark `a` is tried before `b`: it has more bytes or, with as many, comes first as text. -/
def TriedBefore (a b : String) : Prop :=
  b.utf8ByteSize < a.utf8ByteSize ∨ b.utf8ByteSize = a.utf8ByteSize ∧ a ≤ b

instance (a b : String) : Decidable (TriedBefore a b) :=
  inferInstanceAs (Decidable (_ ∨ _ ∧ _))

theorem TriedBefore.trans {a b c : String} (h : TriedBefore a b) (h' : TriedBefore b c) :
    TriedBefore a c := by
  unfold TriedBefore at *
  rcases h with hlt | ⟨heq, hle⟩
  · exact Or.inl (by omega)
  · rcases h' with hlt | ⟨heq', hle'⟩
    · exact Or.inl (by omega)
    · exact Or.inr ⟨heq'.trans heq, String.le_trans hle hle'⟩

theorem triedBefore_of_not {a b : String} (h : ¬ TriedBefore a b) : TriedBefore b a := by
  unfold TriedBefore at *
  by_cases heq : a.utf8ByteSize = b.utf8ByteSize
  · exact Or.inr ⟨heq, (String.le_total a b).resolve_left fun hle => h (Or.inr ⟨heq.symm, hle⟩)⟩
  · exact Or.inl (by omega)

def insertMark (mark : String) : List String → List String
  | [] => [mark]
  | other :: rest =>
    if TriedBefore mark other then mark :: other :: rest else other :: insertMark mark rest

/-- The marks in the order in which they are tried. -/
def arrange (marks : List String) : List String := marks.foldr insertMark []

theorem mem_insertMark {mark other : String} {marks : List String} :
    other ∈ insertMark mark marks ↔ other = mark ∨ other ∈ marks := by
  induction marks with
  | nil => simp [insertMark]
  | cons first rest ih =>
    unfold insertMark
    split
    case isTrue => exact List.mem_cons
    case isFalse => rw [List.mem_cons, List.mem_cons, ih, or_left_comm]

theorem mem_arrange {mark : String} {marks : List String} :
    mark ∈ arrange marks ↔ mark ∈ marks := by
  induction marks with
  | nil => exact Iff.rfl
  | cons first rest ih =>
    rw [arrange, List.foldr_cons, mem_insertMark, List.mem_cons, ← ih]
    rfl

theorem pairwise_insertMark {mark : String} {marks : List String}
    (h : marks.Pairwise TriedBefore) : (insertMark mark marks).Pairwise TriedBefore := by
  induction marks with
  | nil => exact List.pairwise_singleton _ _
  | cons first rest ih =>
    obtain ⟨hfirst, hrest⟩ := List.pairwise_cons.mp h
    unfold insertMark
    split
    case isTrue hmark =>
      refine List.pairwise_cons.mpr ⟨fun other hother => ?_, h⟩
      rcases List.mem_cons.mp hother with rfl | hother
      · exact hmark
      · exact hmark.trans (hfirst other hother)
    case isFalse hmark =>
      refine List.pairwise_cons.mpr ⟨fun other hother => ?_, ih hrest⟩
      rcases mem_insertMark.mp hother with rfl | hother
      · exact triedBefore_of_not hmark
      · exact hfirst other hother

theorem pairwise_arrange (marks : List String) : (arrange marks).Pairwise TriedBefore := by
  induction marks with
  | nil => exact List.Pairwise.nil
  | cons mark marks ih => exact pairwise_insertMark ih

end Vocabulary

/-- The keywords and the marks of a language. -/
structure Vocabulary where
  keywords : List String
  marks : List String
  proper : ∀ mark ∈ marks, mark ≠ ""
  /-- The marks are tried from the longest to the shortest. -/
  ordered : marks.Pairwise Vocabulary.TriedBefore

namespace Vocabulary

/-- The vocabulary with the given keywords and marks; an empty mark is no mark. -/
def ofLists (keywords marks : List String) : Vocabulary where
  keywords := keywords
  marks := arrange (marks.filter (· ≠ ""))
  proper := by simp [mem_arrange]
  ordered := pairwise_arrange _

/-- The words and marks of the calculator language. -/
def calculator : Vocabulary :=
  ofLists ["read", "write", "if", "fi", "do", "od", "check"]
    [":=", "==", "<>", "<=", ">=", "<", ">", "+", "-", "*", "/", "(", ")"]

theorem marks_calculator : calculator.marks =
    [":=", "<=", "<>", "==", ">=", "(", ")", "*", "+", "-", "/", "<", ">"] := by
  decide +kernel

/-! ## Characters -/

def startsWord (c : Char) : Bool := c.isAlpha || c == '_'

def continuesWord (c : Char) : Bool := c.isAlphanum || c == '_'

theorem continuesWord_of_startsWord {c : Char} (h : startsWord c = true) :
    continuesWord c = true := by
  simp only [startsWord, continuesWord, Char.isAlphanum, Bool.or_eq_true] at h ⊢
  exact h.imp Or.inl id

/-! ## Lexemes -/

variable (v : Vocabulary)

/-- The first of the marks, as they are tried, that `text` starts with. -/
def markAt? (text : List Char) : Option String :=
  v.marks.find? fun mark => mark.toList.isPrefixOf text

/-- Whether a blank, a word, a number or a mark starts `text`. -/
def startsToken (text : List Char) : Bool :=
  match text with
  | [] => false
  | c :: _ => isBlank c || continuesWord c || (v.markAt? text).isSome

/-- The characters of `text` up to the first place where a blank or a token starts. -/
def unknownRun : List Char → List Char
  | [] => []
  | c :: rest => if v.startsToken (c :: rest) then [] else c :: unknownRun rest

/-- The digits that `text` starts with and, if a point and further digits come right after them,
these too. -/
def numberAt (text : List Char) : List Char :=
  let whole := text.takeWhile Char.isDigit
  match text.dropWhile Char.isDigit with
  | '.' :: rest =>
    match rest.takeWhile Char.isDigit with
    | [] => whole
    | fraction => whole ++ '.' :: fraction
  | _ => whole

/-- Kind and characters of the token at the start of the text `c :: rest`, whose first character
is not blank. -/
def lexemeAt (c : Char) (rest : List Char) : TokenKind × List Char :=
  if startsWord c then
    let word := (c :: rest).takeWhile continuesWord
    (if v.keywords.contains (String.ofList word) then .literal else .identifier, word)
  else if c.isDigit then (.number, numberAt (c :: rest))
  else
    match v.markAt? (c :: rest) with
    | some mark => (.literal, mark.toList)
    | none => (.unknown, c :: v.unknownRun rest)

theorem mem_marks_of_markAt? {text : List Char} {mark : String} (h : v.markAt? text = some mark) :
    mark ∈ v.marks :=
  List.mem_of_find?_eq_some h

theorem numberAt_ne_nil {c : Char} {rest : List Char} (h : c.isDigit = true) :
    numberAt (c :: rest) ≠ [] := by
  have hw : (c :: rest).takeWhile Char.isDigit ≠ [] := by simp [h]
  unfold numberAt
  split
  · split
    · exact hw
    · simp
  · exact hw

theorem lexemeAt_ne_nil (c : Char) (rest : List Char) : (v.lexemeAt c rest).2 ≠ [] := by
  unfold lexemeAt
  split
  case isTrue h => simp [continuesWord_of_startsWord h]
  case isFalse =>
    split
    case isTrue h => exact numberAt_ne_nil h
    case isFalse =>
      split
      case h_1 mark h =>
        intro hnil
        exact v.proper mark (v.mem_marks_of_markAt? h) (String.toList_eq_nil_iff.mp hnil)
      case h_2 => simp

/-! ## The scanner -/

/-- The tokens of `text`, which starts at `location`. -/
def scanFrom (location : Location) (text : List Char) : List Token :=
  match text with
  | [] => [⟨.finish, Token.finishTerminal, location⟩]
  | c :: rest =>
    if isBlank c then scanFrom (location.advance c) rest
    else
      let found := v.lexemeAt c rest
      ⟨found.1, String.ofList found.2, location⟩ ::
        scanFrom (location.after found.2) ((c :: rest).drop found.2.length)
termination_by text.length
decreasing_by
  · simp
  · have := List.length_pos_iff.mpr (v.lexemeAt_ne_nil c rest)
    simp only [List.length_drop, List.length_cons]
    omega

/-- The tokens of a source, the end marker included. -/
def scan (source : String) : List Token := v.scanFrom .origin source.toList

end Vocabulary

end StepCalc

import StepCalc.Proofs.Token.Reading

/-!
# Maximal munch

What the scanner takes at a place is the longest beginning of the text there that is a word, a
numeral or a mark (`longest_takeWhile`, `longest_numberAt`, `longest_markAt?`). Such a beginning is
determined by the text (`Longest.unique`), so the lexemes can be described without saying how they
are found (`lexemeAt_eq_iff`).
-/

namespace StepCalc.Vocabulary

/-! ## Longest beginnings -/

/-- `found` is a beginning of `text` with the property `P`, and no longer one has it. -/
structure Longest (P : List Char → Prop) (text found : List Char) : Prop where
  holds : P found
  starts : found <+: text
  length_le : ∀ other, P other → other <+: text → other.length ≤ found.length

theorem Longest.unique {P : List Char → Prop} {text found found' : List Char}
    (h : Longest P text found) (h' : Longest P text found') : found = found' := by
  have hle := h'.length_le found h.holds h.starts
  have hge := h.length_le found' h'.holds h'.starts
  have hstarts := List.prefix_of_prefix_length_le h.starts h'.starts hle
  exact hstarts.eq_of_length (Nat.le_antisymm hle hge)

/-! ## Words -/

theorem longest_takeWhile (p : Char → Bool) (text : List Char) :
    Longest (fun run => ∀ c ∈ run, p c = true) text (text.takeWhile p) := by
  refine ⟨fun _ => List.mem_takeWhile_imp, List.takeWhile_prefix p, ?_⟩
  rintro run hrun ⟨rest, rfl⟩
  rw [List.takeWhile_append_of_pos hrun, List.length_append]
  exact Nat.le_add_right _ _

/-! ## Numerals -/

theorem takeWhile_starts_numberAt (text : List Char) :
    text.takeWhile Char.isDigit <+: numberAt text := by
  unfold numberAt
  simp only
  split
  case h_1 =>
    split
    case h_1 => exact List.prefix_rfl
    case h_2 => exact List.prefix_append _ _
  case h_2 => exact List.prefix_rfl

theorem numberAt_starts (text : List Char) : numberAt text <+: text := by
  have hwhole : text.takeWhile Char.isDigit <+: text := List.takeWhile_prefix _
  unfold numberAt
  simp only
  split
  case h_1 rest hrest =>
    split
    case h_1 => exact hwhole
    case h_2 =>
      have htext : text.takeWhile Char.isDigit ++ '.' :: rest = text := by
        rw [← hrest, List.takeWhile_append_dropWhile]
      have hfraction : '.' :: rest.takeWhile Char.isDigit <+: '.' :: rest :=
        List.cons_prefix_cons.mpr ⟨rfl, List.takeWhile_prefix _⟩
      have := (List.prefix_append_right_inj (text.takeWhile Char.isDigit)).mpr hfraction
      rwa [htext] at this
  case h_2 => exact hwhole

theorem length_le_numberAt {text numeral : List Char} (h : IsNumeral (String.ofList numeral))
    (hstarts : numeral <+: text) : numeral.length ≤ (numberAt text).length := by
  unfold IsNumeral at h
  rw [String.toList_ofList] at h
  rcases h with hdigits | ⟨whole, fraction, hwhole, hfraction, rfl⟩
  · calc numeral.length ≤ (text.takeWhile Char.isDigit).length :=
          (longest_takeWhile _ text).length_le numeral hdigits.2 hstarts
      _ ≤ (numberAt text).length := (takeWhile_starts_numberAt text).length_le
  · obtain ⟨rest, rfl⟩ := hstarts
    have htake : (fraction ++ rest).takeWhile Char.isDigit =
        fraction ++ rest.takeWhile Char.isDigit := List.takeWhile_append_of_pos hfraction.2
    have hne : (fraction ++ rest).takeWhile Char.isDigit ≠ [] := by
      rw [htake]
      exact List.append_ne_nil_of_left_ne_nil hfraction.1 _
    rw [List.append_assoc, List.cons_append, numberAt_point hwhole hne, htake]
    simp only [List.length_append, List.length_cons]
    omega

theorem longest_numberAt {c : Char} (h : c.isDigit = true) (rest : List Char) :
    Longest (fun text => IsNumeral (String.ofList text)) (c :: rest) (numberAt (c :: rest)) :=
  ⟨isNumeral_numberAt h rest, numberAt_starts _, fun _ => length_le_numberAt⟩

/-! ## Marks -/

variable (v : Vocabulary)

/-- The characters of a mark. -/
def IsMark (text : List Char) : Prop := String.ofList text ∈ v.marks

/-- Of two beginnings of one text, the one with more characters has more bytes. -/
theorem length_le_of_utf8ByteSize_le {text a b : List Char} (ha : a <+: text) (hb : b <+: text)
    (h : (String.ofList b).utf8ByteSize ≤ (String.ofList a).utf8ByteSize) :
    b.length ≤ a.length := by
  by_contra hlt
  obtain ⟨more, rfl⟩ := List.prefix_of_prefix_length_le ha hb (by omega)
  rw [String.ofList_append, String.utf8ByteSize_append] at h
  have hmore : String.ofList more = "" := String.utf8ByteSize_eq_zero_iff.mp (by omega)
  have hnil : more = [] := by
    rw [← String.toList_ofList (l := more), hmore]
    rfl
  rw [hnil, List.append_nil] at hlt
  exact hlt (Nat.le_refl _)

theorem markAt?_eq_none {text : List Char} :
    v.markAt? text = none ↔ ∀ mark, v.IsMark mark → ¬ mark <+: text := by
  unfold markAt?
  rw [List.find?_eq_none]
  constructor
  · intro h mark hmark hstarts
    refine h _ hmark ?_
    rwa [String.toList_ofList, List.isPrefixOf_iff_prefix]
  · intro h mark hmark hstarts
    refine h mark.toList ?_ (List.isPrefixOf_iff_prefix.mp hstarts)
    rwa [IsMark, String.ofList_toList]

/-- The first mark that fits is the longest: those that were tried before do not fit, and those
that come later have no more bytes. -/
theorem longest_markAt? {text : List Char} {mark : String} (h : v.markAt? text = some mark) :
    Longest v.IsMark text mark.toList := by
  obtain ⟨hfits, before, after, hmarks, hbefore⟩ := List.find?_eq_some_iff_append.mp h
  have hstarts := List.isPrefixOf_iff_prefix.mp hfits
  have hmem := v.mem_marks_of_markAt? h
  refine ⟨?_, hstarts, fun other hother hbegins => ?_⟩
  · rwa [IsMark, String.ofList_toList]
  · have hordered := v.ordered
    unfold IsMark at hother
    rw [hmarks] at hordered hother
    rcases List.mem_append.mp hother with hearlier | hother
    · have hnot := hbefore _ hearlier
      rw [String.toList_ofList, List.isPrefixOf_iff_prefix.mpr hbegins] at hnot
      cases hnot
    · refine length_le_of_utf8ByteSize_le hstarts hbegins ?_
      rw [String.ofList_toList]
      rcases List.mem_cons.mp hother with heq | hlater
      · rw [heq]
      · have htried := (List.pairwise_cons.mp (List.pairwise_append.mp hordered).2.1).1 _ hlater
        unfold TriedBefore at htried
        omega

theorem markAt?_of_longest {text found : List Char} (h : Longest v.IsMark text found) :
    v.markAt? text = some (String.ofList found) := by
  cases hat : v.markAt? text with
  | none => exact absurd h.starts (v.markAt?_eq_none.mp hat found h.holds)
  | some mark => rw [← (v.longest_markAt? hat).unique h, String.ofList_toList]

/-! ## Lexemes -/

/-- `found` is a lexeme of the given kind at the start of the text `c :: rest`: the longest word,
the longest numeral or the longest mark there, or the unknown text up to the next blank or
token. -/
inductive IsLexeme (c : Char) (rest : List Char) : TokenKind → List Char → Prop where
  | word {found : List Char} (hword : startsWord c = true)
      (hfound : Longest (fun run => ∀ d ∈ run, continuesWord d = true) (c :: rest) found) :
      IsLexeme c rest
        (if v.keywords.contains (String.ofList found) then .literal else .identifier) found
  | number {found : List Char} (hdigit : c.isDigit = true)
      (hfound : Longest (fun text => IsNumeral (String.ofList text)) (c :: rest) found) :
      IsLexeme c rest .number found
  | mark {found : List Char} (hword : ¬ startsWord c = true) (hdigit : ¬ c.isDigit = true)
      (hfound : Longest v.IsMark (c :: rest) found) : IsLexeme c rest .literal found
  | unknown {run : List Char} (hword : ¬ startsWord c = true) (hdigit : ¬ c.isDigit = true)
      (hnone : v.markAt? (c :: rest) = none) (hrun : v.unknownRun rest = run) :
      IsLexeme c rest .unknown (c :: run)

theorem isLexeme_lexemeAt (c : Char) (rest : List Char) :
    v.IsLexeme c rest (v.lexemeAt c rest).1 (v.lexemeAt c rest).2 := by
  unfold lexemeAt
  split
  case isTrue hword => exact .word hword (longest_takeWhile continuesWord _)
  case isFalse hword =>
    split
    case isTrue hdigit => exact .number hdigit (longest_numberAt hdigit rest)
    case isFalse hdigit =>
      split
      case h_1 mark hmark => exact .mark hword hdigit (v.longest_markAt? hmark)
      case h_2 hnone => exact .unknown hword hdigit hnone rfl

theorem lexemeAt_eq_iff {c : Char} {rest found : List Char} {kind : TokenKind} :
    v.lexemeAt c rest = (kind, found) ↔ v.IsLexeme c rest kind found := by
  constructor
  · intro h
    have := v.isLexeme_lexemeAt c rest
    rwa [h] at this
  · intro h
    unfold lexemeAt
    cases h with
    | word hword hfound =>
      rw [if_pos hword, (longest_takeWhile continuesWord _).unique hfound]
    | number hdigit hfound =>
      rw [if_neg (not_startsWord_of_isDigit hdigit), if_pos hdigit,
        (longest_numberAt hdigit rest).unique hfound]
    | mark hword hdigit hfound =>
      rw [if_neg hword, if_neg hdigit, v.markAt?_of_longest hfound]
      simp only [String.toList_ofList]
    | unknown hword hdigit hnone hrun => rw [if_neg hword, if_neg hdigit, hnone, hrun]

theorem unknownRun_starts (text : List Char) : v.unknownRun text <+: text := by
  induction text with
  | nil => exact List.prefix_rfl
  | cons c rest ih =>
    unfold unknownRun
    split
    case isTrue => exact List.nil_prefix
    case isFalse => exact List.cons_prefix_cons.mpr ⟨rfl, ih⟩

theorem IsLexeme.starts {c : Char} {rest found : List Char} {kind : TokenKind}
    (h : v.IsLexeme c rest kind found) : found <+: c :: rest := by
  cases h with
  | word _ hfound | number _ hfound | mark _ _ hfound => exact hfound.starts
  | unknown _ _ _ hrun =>
    rw [← hrun]
    exact List.cons_prefix_cons.mpr ⟨rfl, v.unknownRun_starts rest⟩

end StepCalc.Vocabulary

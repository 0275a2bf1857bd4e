import StepCalc.Program.Source
import StepCalc.Proofs.Parsing.Locations
import StepCalc.Proofs.Token.Pieces

/-!
# Layout

White space around tokens can be changed at will as long as no two tokens come to touch each other
that did not before (`Vocabulary.Relaid`): the tokens stay the same up to their places, and so does
what the parser makes of them (`layout_is_irrelevant`).

1. The scanner looks beyond the end of a lexeme, but not beyond the next blank. `Alike` says that it
   sees nothing new there; then the lexeme stays the same (`Alike.isLexeme`).
2. With other gaps between the same lexemes, what is behind a lexeme looks alike
   (`Alike.behind_gap`, `Alike.behind_lexeme`). So the lexemes stay the same one after the other
   (`Respaced.scanFrom`).
-/

namespace StepCalc.Vocabulary

/-! ## Looking ahead -/

def Unbroken (text : List Char) : Prop := ∀ c ∈ text, isBlank c = false

theorem unbroken_of_isNumeral {text : List Char} (h : IsNumeral (String.ofList text)) :
    Unbroken text := by
  unfold IsNumeral at h
  rw [String.toList_ofList] at h
  have hdigits : ∀ {digits : List Char}, IsDigits digits → Unbroken digits :=
    fun hdigits c hc => isBlank_of_isDigit (hdigits.2 c hc)
  rcases h with hwhole | ⟨whole, fraction, hwhole, hfraction, rfl⟩
  · exact hdigits hwhole
  · have hpoint : isBlank '.' = false := by decide
    exact List.forall_mem_append.mpr
      ⟨hdigits hwhole, List.forall_mem_cons.mpr ⟨hpoint, hdigits hfraction⟩⟩

variable (v : Vocabulary)

/-- Up to its first blank, `rest'` shows the scanner nothing that `rest` does not, and unknown text
that ends before `rest` ends before `rest'`. -/
structure Alike (rest rest' : List Char) : Prop where
  sees : ∀ text, Unbroken text → text <+: rest' → text <+: rest
  ends : v.unknownRun rest = [] → v.unknownRun rest' = []

variable {v} {rest rest' : List Char}

theorem Alike.sees_behind (h : v.Alike rest rest') (before : List Char) {text : List Char}
    (htext : Unbroken text) (hstarts : text <+: before ++ rest') : text <+: before ++ rest := by
  induction before generalizing text with
  | nil => exact h.sees text htext hstarts
  | cons c before ih =>
    cases text with
    | nil => exact List.nil_prefix
    | cons d text =>
      obtain ⟨rfl, hbefore⟩ := List.cons_prefix_cons.mp hstarts
      exact List.cons_prefix_cons.mpr ⟨rfl, ih (List.forall_mem_cons.mp htext).2 hbefore⟩

theorem Alike.longest (h : v.Alike rest rest') {P : List Char → Prop}
    (hP : ∀ text, P text → Unbroken text) {found : List Char}
    (hfound : Longest P (found ++ rest) found) : Longest P (found ++ rest') found := by
  refine ⟨hfound.holds, List.prefix_append _ _, fun other hother hstarts => ?_⟩
  exact hfound.length_le other hother (h.sees_behind found (hP other hother) hstarts)

section

variable (hmarks : ∀ mark, v.IsMark mark → Unbroken mark)
include hmarks

theorem Alike.markAt?_eq_none (h : v.Alike rest rest') (before : List Char)
    (hnone : v.markAt? (before ++ rest) = none) : v.markAt? (before ++ rest') = none := by
  refine v.markAt?_eq_none.mpr fun mark hmark hstarts => ?_
  exact v.markAt?_eq_none.mp hnone mark hmark (h.sees_behind before (hmarks mark hmark) hstarts)

theorem Alike.unknownRun (h : v.Alike rest rest') {run : List Char}
    (hrun : v.unknownRun (run ++ rest) = run) : v.unknownRun (run ++ rest') = run := by
  induction run with
  | nil => exact h.ends hrun
  | cons c run ih =>
    rw [List.cons_append, Vocabulary.unknownRun] at hrun ⊢
    split at hrun
    case isTrue => cases hrun
    case isFalse hstarts =>
      have hstarts' : ¬ v.startsToken (c :: (run ++ rest')) = true := by
        simp only [startsToken, Bool.or_eq_true, not_or, Option.not_isSome_iff_eq_none] at hstarts ⊢
        exact ⟨hstarts.1, h.markAt?_eq_none hmarks (c :: run) hstarts.2⟩
      rw [if_neg hstarts', ih (List.cons.inj hrun).2]

/-- A lexeme stays the same if the text behind it looks alike. -/
theorem Alike.isLexeme (h : v.Alike rest rest') {c : Char} {tail : List Char} {kind : TokenKind}
    (hfound : v.IsLexeme c (tail ++ rest) kind (c :: tail)) :
    v.IsLexeme c (tail ++ rest') kind (c :: tail) := by
  have hwords : ∀ run : List Char, (∀ d ∈ run, continuesWord d = true) → Unbroken run :=
    fun run hrun d hd => isBlank_of_continuesWord (hrun d hd)
  cases hfound with
  | word hword hlongest =>
    rw [← List.cons_append] at hlongest
    exact .word hword (h.longest hwords hlongest)
  | number hdigit hlongest =>
    rw [← List.cons_append] at hlongest
    exact .number hdigit (h.longest (fun _ => unbroken_of_isNumeral) hlongest)
  | mark hword hdigit hlongest =>
    rw [← List.cons_append] at hlongest
    exact .mark hword hdigit (h.longest hmarks hlongest)
  | unknown hword hdigit hnone hrun =>
    exact .unknown hword hdigit (h.markAt?_eq_none hmarks (c :: tail) hnone)
      (h.unknownRun hmarks hrun)

end

/-! ## Gaps -/

variable (v) in
theorem unknownRun_cons_eq_nil_iff {c : Char} :
    v.unknownRun (c :: rest) = [] ↔
      isBlank c = true ∨ continuesWord c = true ∨ (v.markAt? (c :: rest)).isSome = true := by
  rw [Vocabulary.unknownRun, startsToken, ite_eq_left_iff]
  simp only [Bool.or_eq_true, or_assoc, reduceCtorEq, imp_false, Decidable.not_not]

theorem alike_of_blank (rest : List Char) (h : ∀ c ∈ rest'.head?, isBlank c = true) :
    v.Alike rest rest' := by
  cases rest' with
  | nil => exact ⟨fun text _ hstarts => by simp [List.prefix_nil.mp hstarts], fun _ => rfl⟩
  | cons b rest' =>
    have hb : isBlank b = true := h b rfl
    constructor
    · intro text htext hstarts
      cases text with
      | nil => exact List.nil_prefix
      | cons c text =>
        obtain ⟨rfl, _⟩ := List.cons_prefix_cons.mp hstarts
        exact absurd hb (Bool.eq_false_iff.mp (htext c List.mem_cons_self))
    · exact fun _ => v.unknownRun_cons_eq_nil_iff.mpr (Or.inl hb)

theorem Alike.behind_gap {text text' gap gap' : List Char} (h : v.Alike text text')
    (hblank : gap'.all isBlank = true) (hkept : gap' = gap ∨ gap' ≠ [] ∨ text' = []) :
    v.Alike (gap ++ text) (gap' ++ text') := by
  cases gap' with
  | cons b gap' =>
    refine alike_of_blank _ fun c hc => ?_
    cases hc
    exact (Bool.and_eq_true_iff.mp hblank).1
  | nil =>
    rcases hkept with rfl | hne | rfl
    · exact h
    · exact absurd rfl hne
    · exact alike_of_blank _ (by simp)

/-- Unknown text ends where a lexeme of another kind begins. -/
theorem IsLexeme.unknownRun_eq_nil_iff {c : Char} {found : List Char} {kind : TokenKind}
    (hblank : isBlank c = false) (h : v.IsLexeme c rest kind found) :
    v.unknownRun (c :: rest) = [] ↔ kind ≠ .unknown := by
  rw [v.unknownRun_cons_eq_nil_iff, hblank, continuesWord_iff]
  cases h with
  | word hword _ =>
    refine iff_of_true (Or.inr (Or.inl (Or.inl hword))) ?_
    split <;> exact TokenKind.noConfusion
  | number hdigit _ => exact iff_of_true (Or.inr (Or.inl (Or.inr hdigit))) TokenKind.noConfusion
  | mark _ _ hfound =>
    rw [v.markAt?_of_longest hfound]
    exact iff_of_true (Or.inr (Or.inr rfl)) TokenKind.noConfusion
  | unknown hword hdigit hnone _ =>
    rw [hnone]
    simp [hword, hdigit]

theorem Alike.behind_lexeme (hmarks : ∀ mark, v.IsMark mark → Unbroken mark)
    (h : v.Alike rest rest') {c : Char} {tail : List Char} {kind : TokenKind}
    (hblank : isBlank c = false) (hfound : v.IsLexeme c (tail ++ rest) kind (c :: tail)) :
    v.Alike (c :: tail ++ rest) (c :: tail ++ rest') := by
  refine ⟨fun text htext => h.sees_behind (c :: tail) htext, fun hends => ?_⟩
  exact ((h.isLexeme hmarks hfound).unknownRun_eq_nil_iff hblank).mpr
    ((hfound.unknownRun_eq_nil_iff hblank).mp hends)

/-! ## Other gaps between the same lexemes -/

/-- Two texts with the given lexemes and blanks behind each of them. A gap between two lexemes is
the same in both texts, or not empty in the second one; behind the last lexeme there are any blanks
or none. -/
inductive Respaced : List String → List Char → List Char → Prop where
  | nil : Respaced [] [] []
  | cons (lexeme : String) (gap gap' : List Char) {lexemes : List String} {text text' : List Char}
      (hgap : gap.all isBlank = true) (hgap' : gap'.all isBlank = true)
      (hkept : gap' = gap ∨ gap' ≠ [] ∨ lexemes = []) (hrest : Respaced lexemes text text') :
      Respaced (lexeme :: lexemes) (lexeme.toList ++ (gap ++ text))
        (lexeme.toList ++ (gap' ++ text'))

variable (v) in
/-- The lexemes of a source, without that of the end marker. -/
def lexemes (source : String) : List String := (v.scan source).dropLast.map Token.lexeme

variable (v) in
/-- The second source is the first one with other white space around its tokens: any blanks or none
before the first token and behind the last one, and one or more blanks in each gap between two
tokens that has changed. -/
def Relaid (source source' : String) : Prop :=
  ∃ lead lead' text text', lead.all isBlank = true ∧ lead'.all isBlank = true ∧
    source.toList = lead ++ text ∧ source'.toList = lead' ++ text' ∧
    Respaced (v.lexemes source) text text'

/-! ### The first lexeme -/

variable (v) in
theorem scanFrom_ne_nil (location : Location) (text : List Char) :
    v.scanFrom location text ≠ [] := by
  obtain ⟨tokens, last, heq, _⟩ := v.exists_scanFrom_eq location text
  rw [heq]
  exact List.append_ne_nil_of_right_ne_nil tokens (List.cons_ne_nil _ _)

theorem exists_nonblank_of_mem_scanFrom {location : Location} {text : List Char} {token : Token}
    (h : token ∈ (v.scanFrom location text).dropLast) :
    ∃ c tail, token.lexeme.toList = c :: tail ∧ isBlank c = false := by
  fun_induction Vocabulary.scanFrom v location text with
  | case1 location => cases h
  | case2 location c rest _ ih => exact ih h
  | case3 location c rest hblank found ih =>
    rw [List.dropLast_cons_of_ne_nil (v.scanFrom_ne_nil _ _)] at h
    rcases List.mem_cons.mp h with rfl | h
    · obtain ⟨d, tail, hfound⟩ := List.exists_cons_of_ne_nil (v.lexemeAt_ne_nil c rest)
      have hstarts := (v.isLexeme_lexemeAt c rest).starts
      rw [hfound] at hstarts
      obtain ⟨rfl, _⟩ := List.cons_prefix_cons.mp hstarts
      refine ⟨d, tail, ?_, Bool.eq_false_iff.mpr hblank⟩
      rw [← hfound]
      exact String.toList_ofList
    · exact ih h

/-- A text that begins with the first of its lexemes. -/
theorem exists_isLexeme_of_scanFrom {location : Location} {lexeme : String} {lexemes : List String}
    (h : (v.scanFrom location (lexeme.toList ++ rest)).dropLast.map Token.lexeme =
      lexeme :: lexemes) :
    ∃ c tail kind, lexeme.toList = c :: tail ∧ isBlank c = false ∧
      v.IsLexeme c (tail ++ rest) kind (c :: tail) := by
  obtain ⟨token, htoken, rfl⟩ : ∃ token ∈ (v.scanFrom location (lexeme.toList ++ rest)).dropLast,
      token.lexeme = lexeme :=
    List.mem_map.mp (h ▸ List.mem_cons_self)
  obtain ⟨c, tail, hlexeme, hblank⟩ := exists_nonblank_of_mem_scanFrom htoken
  refine ⟨c, tail, (v.lexemeAt c (tail ++ rest)).1, hlexeme, hblank, ?_⟩
  have hfound := v.isLexeme_lexemeAt c (tail ++ rest)
  rw [hlexeme, List.cons_append, Vocabulary.scanFrom, if_neg (Bool.eq_false_iff.mp hblank)] at h
  simp only [List.dropLast_cons_of_ne_nil (v.scanFrom_ne_nil _ _), List.map_cons] at h
  have htext : (v.lexemeAt c (tail ++ rest)).2 = c :: tail := by
    rw [← hlexeme, ← (List.cons.inj h).1, String.toList_ofList]
  rwa [htext] at hfound

/-! ### All lexemes -/

/-- With other gaps the text looks alike to a lexeme before it, and it has the same tokens. -/
theorem Respaced.scanFrom (hmarks : ∀ mark, v.IsMark mark → Unbroken mark) {lexemes : List String}
    {text text' : List Char} (h : Respaced lexemes text text') (location location' : Location)
    (hscan : (v.scanFrom location text).dropLast.map Token.lexeme = lexemes) :
    v.Alike text text' ∧
      (v.scanFrom location' text').map Token.unplaced =
        (v.scanFrom location text).map Token.unplaced := by
  induction h generalizing location location' with
  | nil =>
    refine ⟨alike_of_blank _ (by simp), ?_⟩
    rw [Vocabulary.scanFrom, Vocabulary.scanFrom]
    rfl
  | @cons lexeme gap gap' lexemes text text' hgap hgap' hkept hrest ih =>
    obtain ⟨c, tail, kind, hlexeme, hblank, hfound⟩ := exists_isLexeme_of_scanFrom hscan
    rw [hlexeme] at hscan ⊢
    rw [v.scanFrom_lexeme hblank (v.lexemeAt_eq_iff.mpr hfound), v.scanFrom_blanks hgap,
      List.dropLast_cons_of_ne_nil (v.scanFrom_ne_nil _ _), List.map_cons] at hscan
    obtain ⟨halike, hsame⟩ :=
      ih _ ((location'.after (c :: tail)).after gap') (List.cons.inj hscan).2
    have hkept' : gap' = gap ∨ gap' ≠ [] ∨ text' = [] := by
      refine hkept.imp_right (Or.imp_right ?_)
      rintro rfl
      cases hrest
      rfl
    -- the lexemes behind this one are the same, so this one is
    have hbehind := halike.behind_gap hgap' hkept'
    refine ⟨hbehind.behind_lexeme hmarks hblank hfound, ?_⟩
    rw [v.scanFrom_lexeme hblank (v.lexemeAt_eq_iff.mpr hfound),
      v.scanFrom_lexeme hblank (v.lexemeAt_eq_iff.mpr (hbehind.isLexeme hmarks hfound)),
      v.scanFrom_blanks hgap, v.scanFrom_blanks hgap', List.map_cons, List.map_cons, hsame]
    rfl

/-- The pieces of a text are its lexemes with blanks behind them. -/
theorem respaced_texts {pieces : List Piece}
    (h : ∀ piece ∈ pieces, ∀ c ∈ piece.gap, isBlank c = true) :
    Respaced (pieces.map fun piece => piece.token.lexeme) (Piece.texts pieces)
      (Piece.texts pieces) := by
  induction pieces with
  | nil => exact .nil
  | cons piece pieces ih =>
    obtain ⟨hgap, hrest⟩ := List.forall_mem_cons.mp h
    rw [← List.all_eq_true] at hgap
    rw [Piece.texts_cons, Piece.text, List.append_assoc]
    exact .cons _ _ _ hgap hgap (Or.inl rfl) (ih hrest)

/-! ## Sources -/

variable (v) in
theorem relaid_self (source : String) : v.Relaid source source := by
  obtain ⟨lead, pieces, hcut, _⟩ := v.exists_cut source
  have hlead := List.all_eq_true.mpr hcut.lead_blank
  refine ⟨lead, lead, _, _, hlead, hlead, hcut.source_eq, hcut.source_eq, ?_⟩
  unfold lexemes
  rw [hcut.scan_eq, List.dropLast_concat, List.map_map]
  exact respaced_texts hcut.gap_blank

theorem Relaid.scan_unplaced (hmarks : ∀ mark, v.IsMark mark → Unbroken mark)
    {source source' : String} (h : v.Relaid source source') :
    (v.scan source').map Token.unplaced = (v.scan source).map Token.unplaced := by
  obtain ⟨lead, lead', text, text', hlead, hlead', hsource, hsource', hrespaced⟩ := h
  unfold lexemes at hrespaced
  unfold scan at hrespaced ⊢
  rw [hsource, v.scanFrom_blanks hlead] at hrespaced ⊢
  rw [hsource', v.scanFrom_blanks hlead']
  exact (hrespaced.scanFrom hmarks _ _ rfl).2

/-- **Layout does not matter.** Let no mark contain a blank. Around the tokens of a source there is
nothing but blanks. With other blanks around them the source has the same tokens in the same order,
of the same kinds and with the same lexemes, and for every table the parser finds the same tree in
it or an error that differs in its place alone. -/
theorem layout_is_irrelevant (v : Vocabulary)
    (hmarks : ∀ mark ∈ v.marks, ∀ c ∈ mark.toList, isBlank c = false) (source : String) :
    v.Relaid source source ∧ ∀ source', v.Relaid source source' →
      (v.scan source').map Token.unplaced = (v.scan source).map Token.unplaced ∧
      ∀ table, (parseSource v table source').mapError SyntaxError.unplaced =
        (parseSource v table source).mapError SyntaxError.unplaced := by
  have hunbroken : ∀ mark, v.IsMark mark → Unbroken mark := by
    intro mark hmark
    have := hmarks _ hmark
    rwa [String.toList_ofList] at this
  refine ⟨v.relaid_self source, fun source' h => ?_⟩
  have hscan := h.scan_unplaced hunbroken
  refine ⟨hscan, fun table => ?_⟩
  unfold parseSource
  rw [← Parsing.parseTokens_unplaced, ← Parsing.parseTokens_unplaced, hscan]

/-- Marks, a word, a numeral and unknown text without a gap between them, and with some. -/
theorem layout_is_irrelevant_crowded :
    let source := "x:=1.5<=2#"
    let source' := "\n x := 1.5\t<=2 # "
    (∀ mark ∈ calculator.marks, ∀ c ∈ mark.toList, isBlank c = false) ∧
      calculator.Relaid source source' ∧
      (calculator.scan source').map Token.unplaced =
        (calculator.scan source).map Token.unplaced := by
  intro source source'
  have hmarks : ∀ mark ∈ calculator.marks, ∀ c ∈ mark.toList, isBlank c = false := by
    have hnone : ∀ mark ∈ calculator.marks, mark.toList.any isBlank = false := by
      rw [marks_calculator]
      decide
    intro mark hmark c hc
    exact Bool.eq_false_iff.mpr (List.any_eq_false.mp (hnone mark hmark) c hc)
  have hlexemes : calculator.lexemes source = ["x", ":=", "1.5", "<=", "2", "#"] := by
    decide +kernel
  have hrespaced := Respaced.cons "x" [] [' '] rfl rfl (by decide) <|
    .cons ":=" [] [' '] rfl rfl (by decide) <|
    .cons "1.5" [] ['\t'] rfl rfl (by decide) <|
    .cons "<=" [] [] rfl rfl (by decide) <|
    .cons "2" [] [' '] rfl rfl (by decide) <|
    .cons "#" [] [' '] rfl rfl (by decide) .nil
  rw [← hlexemes] at hrespaced
  have hrelaid : calculator.Relaid source source' :=
    ⟨[], ['\n', ' '], _, _, rfl, rfl, by decide, by decide, hrespaced⟩
  exact ⟨hmarks, hrelaid, ((layout_is_irrelevant calculator hmarks source).2 source' hrelaid).1⟩

end StepCalc.Vocabulary

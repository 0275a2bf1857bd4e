import StepCalc.Proofs.Token.Spelling

/-!
# Reading a text part by part

`Vocabulary.Reads` says what becomes of a part of a text whatever comes after it, so that the tokens
of a long text can be put together from those of its parts (`Reads.append`).

1. Blanks become nothing (`reads_blanks`).
2. Names, keywords and numerals become one token if what comes after does not continue them
   (`reads_name`, `reads_keyword`, `reads_numeral`).
3. The marks of the calculator language become one token between spaces (`reads_spaced`).
-/

namespace StepCalc.Vocabulary

/-! ## Characters -/

theorem continuesWord_iff {c : Char} :
    continuesWord c = true ↔ startsWord c = true ∨ c.isDigit = true := by
  simp only [continuesWord, startsWord, Char.isAlphanum, Bool.or_eq_true]
  exact or_right_comm

theorem continuesWord_of_isDigit {c : Char} (h : c.isDigit = true) : continuesWord c = true :=
  continuesWord_iff.mpr (Or.inr h)

theorem toNat_of_startsWord {c : Char} (h : startsWord c = true) :
    (65 ≤ c.toNat ∧ c.toNat ≤ 90) ∨ (97 ≤ c.toNat ∧ c.toNat ≤ 122) ∨ c.toNat = 95 := by
  rcases Bool.or_eq_true_iff.mp h with hletter | hunderscore
  · rcases Bool.or_eq_true_iff.mp hletter with hupper | hlower
    · exact Or.inl (of_decide_eq_true hupper)
    · obtain ⟨hfrom, hto⟩ := Bool.and_eq_true_iff.mp hlower
      exact Or.inr (Or.inl ⟨of_decide_eq_true hfrom, of_decide_eq_true hto⟩)
  · rw [beq_iff_eq.mp hunderscore]
    exact Or.inr (Or.inr rfl)

theorem toNat_of_isDigit {c : Char} (h : c.isDigit = true) : 48 ≤ c.toNat ∧ c.toNat ≤ 57 := by
  obtain ⟨hfrom, hto⟩ := Bool.and_eq_true_iff.mp h
  exact ⟨of_decide_eq_true hfrom, of_decide_eq_true hto⟩

theorem isBlank_of_toNat {c : Char} (h : 33 ≤ c.toNat ∧ c.toNat ≤ 132) : isBlank c = false := by
  simp only [isBlank, blankRanges, List.any_cons, List.any_nil, Bool.or_eq_false_iff,
    Bool.and_eq_false_iff, decide_eq_false_iff_not, and_true]
  omega

theorem isBlank_of_startsWord {c : Char} (h : startsWord c = true) : isBlank c = false :=
  isBlank_of_toNat (by have := toNat_of_startsWord h; omega)

theorem isBlank_of_isDigit {c : Char} (h : c.isDigit = true) : isBlank c = false :=
  isBlank_of_toNat (by have := toNat_of_isDigit h; omega)

theorem isBlank_of_continuesWord {c : Char} (h : continuesWord c = true) : isBlank c = false :=
  (continuesWord_iff.mp h).elim isBlank_of_startsWord isBlank_of_isDigit

theorem not_startsWord_of_isDigit {c : Char} (h : c.isDigit = true) : ¬ startsWord c = true := by
  intro hword
  have hdigit := toNat_of_isDigit h
  have hletter := toNat_of_startsWord hword
  omega

/-! ## Parts of a text -/

variable (v : Vocabulary)

/-- Nothing at the start of the text continues a word or a number. -/
def Breaks (text : List Char) : Prop := ∀ c ∈ text.head?, continuesWord c = false ∧ c ≠ '.'

theorem breaks_cons {c : Char} (h : continuesWord c = false) (hpoint : c ≠ '.') (text : List Char) :
    Breaks (c :: text) := by
  intro d hd
  cases hd
  exact ⟨h, hpoint⟩

/-- Before every text that satisfies `Q`, the characters `text` are scanned into tokens that satisfy
`P`, and the scanner goes on behind them. -/
def Reads (Q : List Char → Prop) (P : List Token → Prop) (text : List Char) : Prop :=
  ∀ location rest, Q rest → ∃ tokens location', P tokens ∧
    v.scanFrom location (text ++ rest) = tokens ++ v.scanFrom location' rest

def Anything (_ : List Char) : Prop := True

/-- The tokens are one token, of the given kind and with the given characters. -/
def Single (kind : TokenKind) (lexeme : String) (tokens : List Token) : Prop :=
  ∃ location, tokens = [⟨kind, lexeme, location⟩]

variable {v}

theorem Reads.append {Q₁ Q₂ : List Char → Prop} {P₁ P₂ P : List Token → Prop}
    {text₁ text₂ : List Char} (h₁ : v.Reads Q₁ P₁ text₁) (h₂ : v.Reads Q₂ P₂ text₂)
    (hQ : ∀ rest, Q₂ rest → Q₁ (text₂ ++ rest))
    (hP : ∀ tokens₁ tokens₂, P₁ tokens₁ → P₂ tokens₂ → P (tokens₁ ++ tokens₂)) :
    v.Reads Q₂ P (text₁ ++ text₂) := by
  intro location rest hrest
  obtain ⟨tokens₁, location₁, hp₁, hscan₁⟩ := h₁ location (text₂ ++ rest) (hQ rest hrest)
  obtain ⟨tokens₂, location₂, hp₂, hscan₂⟩ := h₂ location₁ rest hrest
  refine ⟨tokens₁ ++ tokens₂, location₂, hP _ _ hp₁ hp₂, ?_⟩
  rw [List.append_assoc, hscan₁, hscan₂, List.append_assoc]

theorem Reads.imp {Q : List Char → Prop} {P P' : List Token → Prop} {text : List Char}
    (h : v.Reads Q P text) (hP : ∀ tokens, P tokens → P' tokens) : v.Reads Q P' text := by
  intro location rest hrest
  obtain ⟨tokens, location', hp, hscan⟩ := h location rest hrest
  exact ⟨tokens, location', hP tokens hp, hscan⟩

theorem Reads.of_anything {Q : List Char → Prop} {P : List Token → Prop} {text : List Char}
    (h : v.Reads Anything P text) : v.Reads Q P text :=
  fun location rest _ => h location rest trivial

/-! ### Blanks and lexemes -/

variable (v)

theorem scanFrom_blanks {blanks : List Char} (h : blanks.all isBlank = true) (location : Location)
    (rest : List Char) :
    v.scanFrom location (blanks ++ rest) = v.scanFrom (location.after blanks) rest := by
  induction blanks generalizing location with
  | nil => rfl
  | cons c blanks ih =>
    rw [List.all_cons, Bool.and_eq_true] at h
    obtain ⟨hc, hblanks⟩ := h
    rw [List.cons_append, scanFrom, if_pos hc, ih hblanks]
    rfl

theorem reads_blanks {text : List Char} (h : text.all isBlank = true) :
    v.Reads Anything (· = []) text :=
  fun location rest _ => ⟨[], location.after text, rfl, v.scanFrom_blanks h location rest⟩

variable {v} in
theorem Reads.after_blanks {Q : List Char → Prop} {P : List Token → Prop} {text blanks : List Char}
    (h : v.Reads Q P text) (hblanks : blanks.all isBlank = true) :
    v.Reads Q P (blanks ++ text) := by
  refine (v.reads_blanks hblanks).append h (fun _ _ => trivial) ?_
  rintro _ tokens rfl htokens
  exact htokens

variable {v} in
theorem Reads.before_blanks {Q : List Char → Prop} {P : List Token → Prop}
    {text blanks : List Char} (h : v.Reads Q P text) (hblanks : blanks.all isBlank = true)
    (hQ : ∀ rest, Q (blanks ++ rest)) : v.Reads Anything P (text ++ blanks) := by
  refine h.append (v.reads_blanks hblanks) (fun rest _ => hQ rest) ?_
  rintro tokens _ htokens rfl
  rwa [List.append_nil]

theorem scanFrom_lexeme {kind : TokenKind} {c : Char} {tail rest : List Char}
    (hblank : isBlank c = false) (h : v.lexemeAt c (tail ++ rest) = (kind, c :: tail))
    (location : Location) :
    v.scanFrom location (c :: tail ++ rest) =
      ⟨kind, String.ofList (c :: tail), location⟩ ::
        v.scanFrom (location.after (c :: tail)) rest := by
  rw [List.cons_append, scanFrom, if_neg (Bool.eq_false_iff.mp hblank)]
  simp only
  rw [h, ← List.cons_append, List.drop_left]

theorem reads_lexeme {Q : List Char → Prop} {kind : TokenKind} {c : Char} {tail : List Char}
    (hblank : isBlank c = false)
    (h : ∀ rest, Q rest → v.lexemeAt c (tail ++ rest) = (kind, c :: tail)) :
    v.Reads Q (Single kind (String.ofList (c :: tail))) (c :: tail) := by
  intro location rest hrest
  exact ⟨_, _, ⟨location, rfl⟩, v.scanFrom_lexeme hblank (h rest hrest) location⟩

theorem takeWhile_run {p : Char → Bool} {run rest : List Char} (h : ∀ c ∈ run, p c = true)
    (hrest : ∀ c ∈ rest.head?, p c = false) : (run ++ rest).takeWhile p = run := by
  rw [List.takeWhile_append_of_pos h]
  cases rest with
  | nil => simp
  | cons c rest => simp [hrest c rfl]

theorem dropWhile_run {p : Char → Bool} {run rest : List Char} (h : ∀ c ∈ run, p c = true)
    (hrest : ∀ c ∈ rest.head?, p c = false) : (run ++ rest).dropWhile p = rest := by
  rw [List.dropWhile_append_of_pos h]
  cases rest with
  | nil => rfl
  | cons c rest => simp [hrest c rfl]

theorem Breaks.not_isDigit {rest : List Char} (h : Breaks rest) :
    ∀ c ∈ rest.head?, c.isDigit = false := by
  intro c hc
  refine Bool.eq_false_iff.mpr fun hdigit => ?_
  exact Bool.eq_false_iff.mp (h c hc).1 (continuesWord_of_isDigit hdigit)

/-! ### Words -/

theorem lexemeAt_word {c : Char} {tail rest : List Char} (hc : startsWord c = true)
    (htail : ∀ d ∈ tail, continuesWord d = true) (hrest : Breaks rest) :
    v.lexemeAt c (tail ++ rest) =
      (if v.keywords.contains (String.ofList (c :: tail)) then .literal else .identifier,
        c :: tail) := by
  have hword : (c :: (tail ++ rest)).takeWhile continuesWord = c :: tail := by
    rw [← List.cons_append]
    refine takeWhile_run (fun d hd => ?_) fun d hd => (hrest d hd).1
    rcases List.mem_cons.mp hd with rfl | hd
    · exact continuesWord_of_startsWord hc
    · exact htail d hd
  unfold lexemeAt
  rw [if_pos hc, hword]

theorem reads_word {text : String} (h : IsWord text) :
    v.Reads Breaks (Single (if v.keywords.contains text then .literal else .identifier) text)
      text.toList := by
  obtain ⟨c, tail, htext, hc, htail⟩ := h
  have heq : text = String.ofList (c :: tail) := by rw [← htext, String.ofList_toList]
  rw [htext, heq]
  exact v.reads_lexeme (isBlank_of_startsWord hc)
    fun rest hrest => v.lexemeAt_word hc htail hrest

theorem reads_name {name : String} (h : v.IsName name) :
    v.Reads Breaks (Single .identifier name) name.toList := by
  have := v.reads_word h.1
  rwa [if_neg (mt List.contains_iff_mem.mp h.2)] at this

theorem reads_keyword {word : String} (h : IsWord word) (hkeyword : word ∈ v.keywords) :
    v.Reads Breaks (Single .literal word) word.toList := by
  have := v.reads_word h
  rwa [if_pos (List.contains_iff_mem.mpr hkeyword)] at this

/-! ### Numerals -/

theorem numberAt_digits {digits rest : List Char} (h : IsDigits digits) (hrest : Breaks rest) :
    numberAt (digits ++ rest) = digits := by
  unfold numberAt
  simp only
  rw [takeWhile_run h.2 hrest.not_isDigit, dropWhile_run h.2 hrest.not_isDigit]
  split
  case h_1 rest' => exact absurd rfl (hrest '.' rfl).2
  case h_2 => rfl

theorem numberAt_point {whole rest : List Char} (hwhole : IsDigits whole)
    (hrest : rest.takeWhile Char.isDigit ≠ []) :
    numberAt (whole ++ '.' :: rest) = whole ++ '.' :: rest.takeWhile Char.isDigit := by
  have hpoint : ∀ c ∈ ('.' :: rest).head?, c.isDigit = false := by
    intro c hc
    cases hc
    rfl
  unfold numberAt
  simp only
  rw [takeWhile_run hwhole.2 hpoint, dropWhile_run hwhole.2 hpoint]
  simp only

theorem numberAt_fraction {whole fraction rest : List Char} (hwhole : IsDigits whole)
    (hfraction : IsDigits fraction) (hrest : Breaks rest) :
    numberAt (whole ++ '.' :: (fraction ++ rest)) = whole ++ '.' :: fraction := by
  have htake := takeWhile_run hfraction.2 hrest.not_isDigit
  rw [numberAt_point hwhole (by rw [htake]; exact hfraction.1), htake]

/-- A text that starts with a digit and is found whole is read as a number. -/
theorem reads_number {text : String} {c : Char} {tail : List Char} (htext : text.toList = c :: tail)
    (hdigit : c.isDigit = true)
    (hfound : ∀ rest, Breaks rest → numberAt (text.toList ++ rest) = text.toList) :
    v.Reads Breaks (Single .number text) text.toList := by
  have heq : text = String.ofList (c :: tail) := by rw [← htext, String.ofList_toList]
  rw [htext, heq]
  refine v.reads_lexeme (isBlank_of_isDigit hdigit) fun rest hrest => ?_
  have := hfound rest hrest
  rw [htext, List.cons_append] at this
  unfold lexemeAt
  rw [if_neg (not_startsWord_of_isDigit hdigit), if_pos hdigit, this]

theorem reads_numeral {text : String} (h : IsNumeral text) :
    v.Reads Breaks (Single .number text) text.toList := by
  rcases h with hdigits | ⟨whole, fraction, hwhole, hfraction, htext⟩
  · obtain ⟨c, tail, htext⟩ := List.exists_cons_of_ne_nil hdigits.1
    refine v.reads_number htext (hdigits.2 c ?_) fun rest hrest => numberAt_digits hdigits hrest
    rw [htext]
    exact List.mem_cons_self
  · obtain ⟨c, tail, rfl⟩ := List.exists_cons_of_ne_nil hwhole.1
    refine v.reads_number htext (hwhole.2 c List.mem_cons_self) fun rest hrest => ?_
    rw [htext, List.append_assoc]
    exact numberAt_fraction hwhole hfraction hrest

/-! ### The calculator language -/

def Spaced (text : List Char) : Prop := ∃ rest, text = ' ' :: rest

theorem markAt?_spaced {mark : String} (h : mark ∈ calculator.marks) (rest : List Char) :
    calculator.markAt? (mark.toList ++ ' ' :: rest) = some mark := by
  unfold markAt?
  rw [marks_calculator] at h ⊢
  simp only [List.mem_cons, List.not_mem_nil, or_false] at h
  rcases h with rfl | rfl | rfl | rfl | rfl | rfl | rfl | rfl | rfl | rfl | rfl | rfl | rfl <;> rfl

theorem reads_mark {mark : String} {Q : List Char → Prop} (h : mark ∈ calculator.marks)
    (hfound : ∀ rest, Q rest → calculator.markAt? (mark.toList ++ rest) = some mark) :
    calculator.Reads Q (Single .literal mark) mark.toList := by
  have hheads : ∀ mark ∈ calculator.marks, mark.toList.head?.any
      (fun c => !startsWord c && !c.isDigit && !isBlank c) = true := by
    rw [marks_calculator]
    decide
  obtain ⟨c, hhead, hc⟩ := (Option.any_eq_true _ _).mp (hheads mark h)
  obtain ⟨tail, hmark⟩ := List.head?_eq_some_iff.mp hhead
  simp only [Bool.and_eq_true, Bool.not_eq_eq_eq_not, Bool.not_true] at hc
  obtain ⟨⟨hword, hdigit⟩, hblank⟩ := hc
  have heq : mark = String.ofList (c :: tail) := by rw [← hmark, String.ofList_toList]
  rw [hmark] at hfound ⊢
  rw [heq]
  refine calculator.reads_lexeme hblank fun rest hrest => ?_
  have hat := hfound rest hrest
  rw [List.cons_append] at hat
  unfold lexemeAt
  rw [if_neg (Bool.eq_false_iff.mp hword), if_neg (Bool.eq_false_iff.mp hdigit), hat]
  simp only
  rw [hmark]

/-- A mark between two spaces. -/
theorem reads_spaced {mark : String} (h : mark ∈ calculator.marks) :
    calculator.Reads Anything (Single .literal mark) (' ' :: (mark.toList ++ [' '])) := by
  have hblank : [' '].all isBlank = true := by decide
  have hfound : ∀ rest, Spaced rest → calculator.markAt? (mark.toList ++ rest) = some mark := by
    rintro _ ⟨rest, rfl⟩
    exact markAt?_spaced h rest
  exact ((reads_mark h hfound).before_blanks hblank fun rest => ⟨rest, rfl⟩).after_blanks hblank

theorem isWord_keyword {word : String} (h : word ∈ calculator.keywords) : IsWord word := by
  have hwords : ∀ word ∈ calculator.keywords, word.toList.head?.any startsWord = true ∧
      word.toList.tail.all continuesWord = true := by decide
  obtain ⟨hstart, htail⟩ := hwords word h
  obtain ⟨c, hhead, hc⟩ := (Option.any_eq_true _ _).mp hstart
  obtain ⟨rest, hword⟩ := List.head?_eq_some_iff.mp hhead
  rw [hword] at htail
  exact ⟨c, rest, hword, hc, List.all_eq_true.mp htail⟩

theorem breaks_space (text : List Char) : Breaks (' ' :: text) :=
  breaks_cons (by decide) (by decide) text

end StepCalc.Vocabulary

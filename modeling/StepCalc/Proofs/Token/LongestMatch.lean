import StepCalc.Proofs.Token.Pieces

/-!
# The longest match

What the scanner takes at a place is told by the character there: a letter or an underscore starts
the longest word, a digit the longest numeral; else the longest mark is taken, and where no mark
starts, the longest run of characters at none of which anything starts (`Munched`,
`munched_lexemeAt`).

Only the members of the vocabulary count in this rule, and the rule determines the token
(`Munched.unique`). So the order and the repetition of the entries do not matter
(`SameEntries.scanFrom_eq`). Since a run of unknown text cannot be made longer, another one does not
come right behind it (`Munched.gap_ne_nil`).
-/

namespace StepCalc.Vocabulary

variable (v : Vocabulary)

/-! ## Unknown text -/

/-- In `text`, neither a blank, nor a word or a number, nor a mark starts at any place of the
beginning `run`. -/
def Unclaimed (text run : List Char) : Prop :=
  ∀ before d after, text = before ++ d :: after → before.length < run.length →
    isBlank d = false ∧ continuesWord d = false ∧ ∀ mark, v.IsMark mark → ¬ mark <+: d :: after

theorem startsToken_cons_eq_false_iff {c : Char} {rest : List Char} :
    v.startsToken (c :: rest) = false ↔
      isBlank c = false ∧ continuesWord c = false ∧
        ∀ mark, v.IsMark mark → ¬ mark <+: c :: rest := by
  unfold startsToken
  rw [Bool.or_eq_false_iff, Bool.or_eq_false_iff, and_assoc, Option.isSome_eq_false_iff,
    Option.isNone_iff_eq_none, v.markAt?_eq_none]

theorem unclaimed_nil (text : List Char) : v.Unclaimed text [] :=
  fun _ _ _ _ h => absurd h (Nat.not_lt_zero _)

theorem unclaimed_cons {c d : Char} {rest run : List Char} :
    v.Unclaimed (c :: rest) (d :: run) ↔
      v.startsToken (c :: rest) = false ∧ v.Unclaimed rest run := by
  rw [startsToken_cons_eq_false_iff]
  constructor
  · intro h
    refine ⟨h [] c rest rfl (Nat.succ_pos _), fun before e after hsplit hlt => ?_⟩
    exact h (c :: before) e after (congrArg (c :: ·) hsplit) (Nat.succ_lt_succ hlt)
  · rintro ⟨hc, hrest⟩ before e after hsplit hlt
    cases before with
    | nil =>
      obtain ⟨rfl, rfl⟩ := List.cons.inj hsplit
      exact hc
    | cons b before =>
      exact hrest before e after (List.cons.inj hsplit).2 (Nat.lt_of_succ_lt_succ hlt)

theorem unclaimed_append {found rest run : List Char} (hfound : v.Unclaimed (found ++ rest) found)
    (hrun : v.Unclaimed rest run) : v.Unclaimed (found ++ rest) (found ++ run) := by
  induction found with
  | nil => exact hrun
  | cons c found ih =>
    obtain ⟨hc, hfound⟩ := v.unclaimed_cons.mp hfound
    exact v.unclaimed_cons.mpr ⟨hc, ih hfound⟩

/-- Unknown text reaches as far as nothing starts in it. -/
theorem longest_unknownRun (text : List Char) :
    Longest (v.Unclaimed text) text (v.unknownRun text) := by
  induction text with
  | nil => exact ⟨v.unclaimed_nil [], List.prefix_rfl, fun other _ hother => hother.length_le⟩
  | cons c rest ih =>
    unfold unknownRun
    split
    case isTrue hstarts =>
      refine ⟨v.unclaimed_nil _, List.nil_prefix, fun other hother _ => ?_⟩
      cases other with
      | nil => exact Nat.le_refl 0
      | cons d other =>
        rw [(v.unclaimed_cons.mp hother).1] at hstarts
        cases hstarts
    case isFalse hstarts =>
      refine ⟨v.unclaimed_cons.mpr ⟨Bool.eq_false_iff.mpr hstarts, ih.holds⟩,
        List.cons_prefix_cons.mpr ⟨rfl, ih.starts⟩, fun other hother hbegins => ?_⟩
      cases other with
      | nil => exact Nat.zero_le _
      | cons d other =>
        obtain ⟨rfl, hrest⟩ := List.cons_prefix_cons.mp hbegins
        exact Nat.succ_le_succ (ih.length_le other (v.unclaimed_cons.mp hother).2 hrest)

/-! ## The rule -/

def MarkStarts (text : List Char) : Prop := ∃ mark, v.IsMark mark ∧ mark <+: text

/-- The token of the given kind and with the characters `found` is the one to take at the start of
the text `c :: rest`. -/
structure Munched (c : Char) (rest : List Char) (kind : TokenKind) (found : List Char) : Prop where
  word : startsWord c = true →
    Longest (fun run => ∀ d ∈ run, continuesWord d = true) (c :: rest) found ∧
      (kind = .literal ∧ String.ofList found ∈ v.keywords ∨
        kind = .identifier ∧ String.ofList found ∉ v.keywords)
  number : c.isDigit = true →
    Longest (fun text => IsNumeral (String.ofList text)) (c :: rest) found ∧ kind = .number
  mark : ¬ startsWord c = true → ¬ c.isDigit = true → v.MarkStarts (c :: rest) →
    Longest v.IsMark (c :: rest) found ∧ kind = .literal
  unknown : ¬ startsWord c = true → ¬ c.isDigit = true → ¬ v.MarkStarts (c :: rest) →
    Longest (v.Unclaimed (c :: rest)) (c :: rest) found ∧ kind = .unknown

theorem munched_lexemeAt {c : Char} (hblank : isBlank c = false) (rest : List Char) :
    v.Munched c rest (v.lexemeAt c rest).1 (v.lexemeAt c rest).2 := by
  unfold lexemeAt
  constructor
  case word =>
    intro hword
    rw [if_pos hword]
    refine ⟨longest_takeWhile continuesWord _, ?_⟩
    simp only
    split
    case isTrue hkeyword => exact Or.inl ⟨rfl, List.contains_iff_mem.mp hkeyword⟩
    case isFalse hkeyword => exact Or.inr ⟨rfl, mt List.contains_iff_mem.mpr hkeyword⟩
  case number =>
    intro hdigit
    rw [if_neg (not_startsWord_of_isDigit hdigit), if_pos hdigit]
    exact ⟨longest_numberAt hdigit rest, rfl⟩
  case mark =>
    rintro hword hdigit ⟨mark, hmark, hstarts⟩
    rw [if_neg hword, if_neg hdigit]
    cases hat : v.markAt? (c :: rest) with
    | none => exact absurd hstarts (v.markAt?_eq_none.mp hat mark hmark)
    | some found => exact ⟨v.longest_markAt? hat, rfl⟩
  case unknown =>
    intro hword hdigit hmarks
    have hnone : v.markAt? (c :: rest) = none :=
      v.markAt?_eq_none.mpr fun mark hmark hstarts => hmarks ⟨mark, hmark, hstarts⟩
    have hrun : v.unknownRun (c :: rest) = c :: v.unknownRun rest := by
      have hstarts : ¬ v.startsToken (c :: rest) = true := by
        simp [startsToken, hblank, hnone, continuesWord_iff, hword, hdigit]
      rw [unknownRun, if_neg hstarts]
    rw [if_neg hword, if_neg hdigit, hnone]
    refine ⟨?_, rfl⟩
    rw [← hrun]
    exact v.longest_unknownRun (c :: rest)

variable {v}

/-- The rule determines the token. -/
theorem Munched.unique {c : Char} {rest found found' : List Char} {kind kind' : TokenKind}
    (h : v.Munched c rest kind found) (h' : v.Munched c rest kind' found') :
    kind = kind' ∧ found = found' := by
  by_cases hword : startsWord c = true
  · obtain ⟨hfound, hkind⟩ := h.word hword
    obtain ⟨hfound', hkind'⟩ := h'.word hword
    obtain rfl := hfound.unique hfound'
    refine ⟨?_, rfl⟩
    rcases hkind with ⟨rfl, hin⟩ | ⟨rfl, hout⟩
    · rcases hkind' with ⟨rfl, _⟩ | ⟨_, hout⟩
      · rfl
      · exact absurd hin hout
    · rcases hkind' with ⟨_, hin⟩ | ⟨rfl, _⟩
      · exact absurd hin hout
      · rfl
  · by_cases hdigit : c.isDigit = true
    · obtain ⟨hfound, rfl⟩ := h.number hdigit
      obtain ⟨hfound', rfl⟩ := h'.number hdigit
      exact ⟨rfl, hfound.unique hfound'⟩
    · by_cases hmark : v.MarkStarts (c :: rest)
      · obtain ⟨hfound, rfl⟩ := h.mark hword hdigit hmark
        obtain ⟨hfound', rfl⟩ := h'.mark hword hdigit hmark
        exact ⟨rfl, hfound.unique hfound'⟩
      · obtain ⟨hfound, rfl⟩ := h.unknown hword hdigit hmark
        obtain ⟨hfound', rfl⟩ := h'.unknown hword hdigit hmark
        exact ⟨rfl, hfound.unique hfound'⟩

/-- Unknown text is a longest run in which nothing starts. -/
theorem Munched.longest_of_unknown {c : Char} {rest found : List Char}
    (h : v.Munched c rest .unknown found) :
    Longest (v.Unclaimed (c :: rest)) (c :: rest) found := by
  by_cases hword : startsWord c = true
  · rcases (h.word hword).2 with ⟨hkind, _⟩ | ⟨hkind, _⟩ <;> cases hkind
  · by_cases hdigit : c.isDigit = true
    · cases (h.number hdigit).2
    · by_cases hmark : v.MarkStarts (c :: rest)
      · cases (h.mark hword hdigit hmark).2
      · exact (h.unknown hword hdigit hmark).1

/-- Between two tokens of unknown text there is a blank or another token. -/
theorem Munched.gap_ne_nil {c d : Char} {rest found gap rest' found' : List Char}
    (h : v.Munched c rest .unknown found) (h' : v.Munched d rest' .unknown found')
    (hne : found' ≠ []) (htext : c :: rest = found ++ (gap ++ d :: rest')) : gap ≠ [] := by
  rintro rfl
  rw [List.nil_append] at htext
  have hlongest := h.longest_of_unknown
  have hlongest' := h'.longest_of_unknown
  rw [htext] at hlongest
  -- the second text would belong to the first one
  have hboth := v.unclaimed_append hlongest.holds hlongest'.holds
  have hstarts := (List.prefix_append_right_inj found).mpr hlongest'.starts
  have hle := hlongest.length_le _ hboth hstarts
  have hpos := List.length_pos_iff.mpr hne
  rw [List.length_append] at hle
  omega

/-! ## Order and repetition -/

/-- The vocabularies have the same keywords and the same marks, in whatever order and however often
they list them. -/
structure SameEntries (v w : Vocabulary) : Prop where
  keywords : ∀ word, word ∈ v.keywords ↔ word ∈ w.keywords
  marks : ∀ mark, mark ∈ v.marks ↔ mark ∈ w.marks

variable {w : Vocabulary}

theorem SameEntries.munched (h : SameEntries v w) {c : Char} {rest found : List Char}
    {kind : TokenKind} (hm : v.Munched c rest kind found) : w.Munched c rest kind found := by
  have hmark : v.IsMark = w.IsMark := funext fun mark => propext (h.marks _)
  have hstarts : v.MarkStarts = w.MarkStarts := by
    unfold MarkStarts
    rw [hmark]
  have hunclaimed : v.Unclaimed = w.Unclaimed := by
    unfold Unclaimed
    rw [hmark]
  obtain ⟨hword, hnumber, hmarks, hunknown⟩ := hm
  simp only [h.keywords] at hword
  rw [hmark, hstarts] at hmarks
  rw [hunclaimed, hstarts] at hunknown
  exact ⟨hword, hnumber, hmarks, hunknown⟩

theorem SameEntries.lexemeAt_eq (h : SameEntries v w) {c : Char} (hblank : isBlank c = false)
    (rest : List Char) : v.lexemeAt c rest = w.lexemeAt c rest := by
  obtain ⟨hkind, hfound⟩ :=
    (h.munched (v.munched_lexemeAt hblank rest)).unique (w.munched_lexemeAt hblank rest)
  exact Prod.ext hkind hfound

theorem SameEntries.scanFrom_eq (h : SameEntries v w) (location : Location) (text : List Char) :
    v.scanFrom location text = w.scanFrom location text := by
  fun_induction Vocabulary.scanFrom v location text with
  | case1 location => rw [Vocabulary.scanFrom]
  | case2 location c rest hblank ih => rw [Vocabulary.scanFrom, if_pos hblank, ih]
  | case3 location c rest hblank found ih =>
    have hsame := h.lexemeAt_eq (Bool.eq_false_iff.mpr hblank) rest
    rw [Vocabulary.scanFrom, if_neg hblank]
    simp only
    rw [← hsame, ih]

theorem sameEntries_ofLists {keywords marks : List String}
    (hkeywords : ∀ word, word ∈ keywords ↔ word ∈ v.keywords)
    (hmarks : ∀ mark, mark ∈ marks ↔ mark ∈ v.marks) : SameEntries (ofLists keywords marks) v := by
  refine ⟨hkeywords, fun mark => ?_⟩
  show mark ∈ arrange (marks.filter (· ≠ "")) ↔ _
  rw [mem_arrange, List.mem_filter, hmarks, decide_eq_true_eq, and_iff_left_iff_imp]
  exact v.proper mark

/-- **Maximal munch.** A source is cut into pieces such that each token is the one to take at its
place: the longest word, numeral or mark there, or else the longest run of characters at none of
which anything starts; two of these runs are not next to each other. The tokens are the same for
every list of the same keywords and every list of the same marks. -/
theorem scan_takes_longest (v : Vocabulary) (source : String) :
    (∃ lead pieces, v.Cut source lead pieces ∧
      (∀ earlier piece later, pieces = earlier ++ piece :: later →
        ∃ c rest, Piece.texts (piece :: later) = c :: rest ∧ isBlank c = false ∧
          v.Munched c rest piece.token.kind piece.token.lexeme.toList) ∧
      ∀ earlier first second later, pieces = earlier ++ first :: second :: later →
        first.token.kind = .unknown → second.token.kind = .unknown → first.gap ≠ []) ∧
    ∀ keywords marks, (∀ word, word ∈ keywords ↔ word ∈ v.keywords) →
      (∀ mark, mark ∈ marks ↔ mark ∈ v.marks) →
      (ofLists keywords marks).scan source = v.scan source := by
  obtain ⟨lead, pieces, hcut, heach⟩ := v.exists_cut source
  have hmunched : ∀ earlier piece later, pieces = earlier ++ piece :: later →
      ∃ c rest, Piece.texts (piece :: later) = c :: rest ∧ isBlank c = false ∧
        v.Munched c rest piece.token.kind piece.token.lexeme.toList := by
    rintro earlier piece later rfl
    obtain ⟨c, tail, hlexeme, hblank, hfound⟩ := heach.of_split.lexeme
    have hm := v.munched_lexemeAt hblank (tail ++ (piece.gap ++ Piece.texts later))
    rw [hfound] at hm
    rw [hlexeme, Piece.texts_cons, Piece.text, hlexeme, List.append_assoc]
    exact ⟨c, _, rfl, hblank, hm⟩
  refine ⟨⟨lead, pieces, hcut, hmunched, ?_⟩, fun keywords marks hkeywords hmarks => ?_⟩
  · intro earlier first second later hsplit hfirst hsecond
    obtain ⟨c, rest, htext, _, hm⟩ := hmunched _ _ _ hsplit
    obtain ⟨d, rest', htext', _, hm'⟩ :=
      hmunched (earlier ++ [first]) second later (by rw [hsplit, List.append_cons])
    rw [hfirst] at hm
    rw [hsecond] at hm'
    have hmem : second ∈ pieces := by simp [hsplit]
    refine hm.gap_ne_nil hm' (mt String.toList_eq_nil_iff.mp (hcut.lexeme_ne_empty second hmem)) ?_
    rw [← htext, ← htext', Piece.texts_cons, Piece.text, List.append_assoc]
  · exact (sameEntries_ofLists hkeywords hmarks).scanFrom_eq .origin source.toList

/-- Marks that begin with each other, some of them longer in bytes than in characters, in two
orders. -/
theorem scan_takes_longest_reordered :
    let v := ofLists ["do"] ["<", "é", "<=", "é<="]
    let keywords := ["do", "do"]
    let marks := ["é<=", "<=", "<", "é", "<="]
    (∀ word, word ∈ keywords ↔ word ∈ v.keywords) ∧ (∀ mark, mark ∈ marks ↔ mark ∈ v.marks) ∧
      ∀ source, (ofLists keywords marks).scan source = v.scan source := by
  intro v keywords marks
  have hkeywords : ∀ word, word ∈ keywords ↔ word ∈ v.keywords := by
    have hto : ∀ word ∈ keywords, word ∈ v.keywords := by decide
    have hfrom : ∀ word ∈ v.keywords, word ∈ keywords := by decide
    exact fun word => ⟨hto word, hfrom word⟩
  have hmarks : ∀ mark, mark ∈ marks ↔ mark ∈ v.marks := by
    have hto : ∀ mark ∈ marks, mark ∈ v.marks := by decide
    have hfrom : ∀ mark ∈ v.marks, mark ∈ marks := by decide
    exact fun mark => ⟨hto mark, hfrom mark⟩
  exact ⟨hkeywords, hmarks, fun source =>
    (scan_takes_longest v source).2 keywords marks hkeywords hmarks⟩

end StepCalc.Vocabulary

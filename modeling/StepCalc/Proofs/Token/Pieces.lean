import StepCalc.Proofs.Token.Munch

/-!
# The pieces of a source

The scanner loses nothing: a source is some blanks and then its lexemes in order, each with the
blanks behind it, and each token has the place where its lexeme starts (`scan_loses_nothing`).

1. The place that the scanner keeps up to date character by character is told by the text before it
   (`Location.behind`, `after_behind`).
2. Each turn of the scanner takes one blank or one lexeme off the rest of the text. What it has
   found so far stays as it is, so the pieces can be collected with the text around each of them
   (`Found`, `exists_pieces`).
-/

namespace StepCalc

/-! ## Places -/

namespace Location

/-- The place right behind the beginning `text` of a source. Its line is one more than the number of
line feeds in `text`, and its column one more than the number of characters behind the last one. -/
def behind (text : List Char) : Location :=
  ⟨1 + text.count '\n', 1 + (text.reverse.takeWhile (· ≠ '\n')).length⟩

theorem behind_concat (text : List Char) (c : Char) :
    behind (text ++ [c]) = (behind text).advance c := by
  unfold behind advance
  rw [List.count_append, List.reverse_append, List.reverse_singleton, List.singleton_append]
  by_cases hc : c = '\n'
  · simp [hc, Nat.add_assoc]
  · simp [hc, Nat.add_assoc]

theorem after_behind (before text : List Char) :
    (behind before).after text = behind (before ++ text) := by
  induction text generalizing before with
  | nil => rw [List.append_nil]; rfl
  | cons c text ih =>
    show ((behind before).advance c).after text = _
    rw [← behind_concat, ih, List.append_assoc, List.singleton_append]

end Location

/-! ## Pieces -/

/-- A token and the characters between it and the next one. -/
structure Piece where
  token : Token
  gap : List Char

namespace Piece

def text (piece : Piece) : List Char := piece.token.lexeme.toList ++ piece.gap

def texts (pieces : List Piece) : List Char := pieces.flatMap text

@[simp] theorem texts_cons (piece : Piece) (pieces : List Piece) :
    texts (piece :: pieces) = piece.text ++ texts pieces := List.flatMap_cons

/-- `P` holds of each piece with the text before it and the text behind it; `before` is the text
before the first piece. -/
def Each (P : List Char → Piece → List Char → Prop) : List Char → List Piece → Prop
  | _, [] => True
  | before, piece :: pieces =>
    P before piece (texts pieces) ∧ Each P (before ++ piece.text) pieces

theorem Each.of_split {P : List Char → Piece → List Char → Prop} {before : List Char}
    {earlier : List Piece} {piece : Piece} {later : List Piece}
    (h : Each P before (earlier ++ piece :: later)) :
    P (before ++ texts earlier) piece (texts later) := by
  induction earlier generalizing before with
  | nil =>
    rw [show texts [] = [] from rfl, List.append_nil]
    exact h.1
  | cons first earlier ih =>
    rw [texts_cons, ← List.append_assoc]
    exact ih h.2

theorem Each.of_mem {P : List Char → Piece → List Char → Prop} {before : List Char}
    {pieces : List Piece} (h : Each P before pieces) {piece : Piece} (hmem : piece ∈ pieces) :
    ∃ before' after, P before' piece after := by
  obtain ⟨earlier, later, rfl⟩ := List.append_of_mem hmem
  exact ⟨_, _, h.of_split⟩

theorem length_le_length_texts {pieces : List Piece}
    (h : ∀ piece ∈ pieces, piece.token.lexeme ≠ "") : pieces.length ≤ (texts pieces).length := by
  induction pieces with
  | nil => exact Nat.le_refl 0
  | cons piece pieces ih =>
    have hrest := ih fun other hother => h other (List.mem_cons_of_mem piece hother)
    have hpos : 0 < piece.token.lexeme.toList.length :=
      List.length_pos_iff.mpr (mt String.toList_eq_nil_iff.mp (h piece List.mem_cons_self))
    rw [texts_cons, text, List.length_cons, List.length_append, List.length_append]
    omega

end Piece

namespace Vocabulary

variable (v : Vocabulary)

/-! ## What the scanner finds -/

/-- Between `before` and `after` the scanner finds the token of the piece, and blanks behind it. -/
structure Found (before : List Char) (piece : Piece) (after : List Char) : Prop where
  location : piece.token.location = .behind before
  gap : ∀ c ∈ piece.gap, isBlank c = true
  lexeme : ∃ c tail, piece.token.lexeme.toList = c :: tail ∧ isBlank c = false ∧
    v.lexemeAt c (tail ++ (piece.gap ++ after)) = (piece.token.kind, c :: tail)

variable {v}

theorem Found.lexeme_ne_empty {before after : List Char} {piece : Piece}
    (h : v.Found before piece after) : piece.token.lexeme ≠ "" := by
  obtain ⟨c, tail, hlexeme, _⟩ := h.lexeme
  intro hempty
  rw [hempty] at hlexeme
  cases hlexeme

theorem Found.kind_ne_finish {before after : List Char} {piece : Piece}
    (h : v.Found before piece after) : piece.token.kind ≠ .finish := by
  obtain ⟨c, tail, _, _, hfound⟩ := h.lexeme
  have hkind := v.lexemeAt_ne_finish c (tail ++ (piece.gap ++ after))
  rwa [hfound] at hkind

variable (v)

/-- The characters of a text that starts with no blank are its first lexeme and a rest. -/
theorem exists_lexemeAt_eq (c : Char) (rest : List Char) :
    ∃ tail rest', v.lexemeAt c rest = ((v.lexemeAt c rest).1, c :: tail) ∧ rest = tail ++ rest' := by
  obtain ⟨d, tail, hfound⟩ := List.exists_cons_of_ne_nil (v.lexemeAt_ne_nil c rest)
  obtain ⟨rest', hrest⟩ := (v.isLexeme_lexemeAt c rest).starts
  rw [hfound, List.cons_append] at hrest
  obtain ⟨rfl, rfl⟩ := List.cons.inj hrest
  exact ⟨tail, rest', Prod.ext rfl hfound, rfl⟩

/-- Behind `before`, the scanner cuts a text into blanks, pieces and the end. -/
theorem exists_pieces (location : Location) (text : List Char) :
    ∀ before, location = .behind before → ∃ lead pieces, (∀ c ∈ lead, isBlank c = true) ∧
      text = lead ++ Piece.texts pieces ∧ Piece.Each v.Found (before ++ lead) pieces ∧
      v.scanFrom location text = pieces.map Piece.token ++
        [⟨.finish, Token.finishTerminal, .behind (before ++ text)⟩] := by
  fun_induction scanFrom v location text with
  | case1 location =>
    rintro before rfl
    exact ⟨[], [], fun _ h => absurd h List.not_mem_nil, rfl, trivial, by rw [List.append_nil]; rfl⟩
  | case2 location c rest hblank ih =>
    -- a blank goes in front of the other blanks
    rintro before rfl
    obtain ⟨lead, pieces, hlead, hrest, heach, hscan⟩ := ih _ (Location.behind_concat before c).symm
    rw [List.append_assoc, List.singleton_append] at heach hscan
    exact ⟨c :: lead, pieces, List.forall_mem_cons.mpr ⟨hblank, hlead⟩, by rw [hrest]; rfl, heach,
      hscan⟩
  | case3 location c rest hblank found ih =>
    -- a lexeme goes in front of the other pieces, with the blanks before them as its gap
    rintro before rfl
    obtain ⟨tail, rest', hfound, rfl⟩ := v.exists_lexemeAt_eq c rest
    have hlexeme : found.2 = c :: tail := congrArg Prod.snd hfound
    rw [hlexeme, ← List.cons_append, List.drop_left] at ih ⊢
    obtain ⟨lead, pieces, hlead, rfl, heach, hscan⟩ := ih _ (Location.after_behind before (c :: tail))
    let piece : Piece := ⟨⟨found.1, String.ofList (c :: tail), .behind before⟩, lead⟩
    have htext : piece.text = c :: tail ++ lead := by
      show (String.ofList (c :: tail)).toList ++ lead = _
      rw [String.toList_ofList]
    refine ⟨[], piece :: pieces, fun _ h => absurd h List.not_mem_nil, ?_, ?_, ?_⟩
    · rw [Piece.texts_cons, htext, List.nil_append, List.append_assoc]
    · rw [List.append_nil]
      refine ⟨⟨rfl, hlead, c, tail, String.toList_ofList, Bool.eq_false_iff.mpr hblank, hfound⟩, ?_⟩
      rwa [htext, ← List.append_assoc]
    · rw [hscan, List.append_assoc]
      rfl

/-! ## The whole source -/

/-- `source` consists of the blanks `lead` and of `pieces`, whose tokens, with the end marker behind
them, are the tokens of `source`. The lexeme of each piece is not empty, and its gap is blank. -/
structure Cut (source : String) (lead : List Char) (pieces : List Piece) : Prop where
  scan_eq : v.scan source = pieces.map Piece.token ++
    [⟨.finish, Token.finishTerminal, .behind source.toList⟩]
  source_eq : source.toList = lead ++ Piece.texts pieces
  lead_blank : ∀ c ∈ lead, isBlank c = true
  gap_blank : ∀ piece ∈ pieces, ∀ c ∈ piece.gap, isBlank c = true
  lexeme_ne_empty : ∀ piece ∈ pieces, piece.token.lexeme ≠ ""
  kind_ne_finish : ∀ piece ∈ pieces, piece.token.kind ≠ .finish

theorem exists_cut (source : String) :
    ∃ lead pieces, v.Cut source lead pieces ∧ Piece.Each v.Found lead pieces := by
  obtain ⟨lead, pieces, hlead, hsource, heach, hscan⟩ :=
    v.exists_pieces .origin source.toList [] rfl
  refine ⟨lead, pieces, ⟨hscan, hsource, hlead, ?_, ?_, ?_⟩, heach⟩
  · intro piece hpiece
    obtain ⟨_, _, hfound⟩ := heach.of_mem hpiece
    exact hfound.gap
  · intro piece hpiece
    obtain ⟨_, _, hfound⟩ := heach.of_mem hpiece
    exact hfound.lexeme_ne_empty
  · intro piece hpiece
    obtain ⟨_, _, hfound⟩ := heach.of_mem hpiece
    exact hfound.kind_ne_finish

theorem Cut.length_scan_le {v : Vocabulary} {source : String} {lead : List Char}
    {pieces : List Piece} (h : v.Cut source lead pieces) :
    (v.scan source).length ≤ source.toList.length + 1 := by
  have hpieces := Piece.length_le_length_texts h.lexeme_ne_empty
  rw [h.scan_eq, h.source_eq, List.length_append, List.length_append, List.length_map,
    List.length_singleton]
  omega

/-- **Scanning loses nothing and locates everything.** A source is blanks, then its lexemes, none of
them empty, each with the blanks behind it; the end marker comes last and only there. Every token
has the place that the text before its lexeme tells, the end marker that of the whole source. There
is at most one token for each character, and the end marker. -/
theorem scan_loses_nothing (v : Vocabulary) (source : String) :
    ∃ lead pieces, v.Cut source lead pieces ∧
      (∀ earlier piece later, pieces = earlier ++ piece :: later →
        piece.token.location = .behind (lead ++ Piece.texts earlier)) ∧
      (v.scan source).length ≤ source.toList.length + 1 := by
  obtain ⟨lead, pieces, hcut, heach⟩ := v.exists_cut source
  refine ⟨lead, pieces, hcut, ?_, hcut.length_scan_le⟩
  rintro earlier piece later rfl
  exact heach.of_split.location

end Vocabulary

end StepCalc

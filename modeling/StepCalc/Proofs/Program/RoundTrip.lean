import StepCalc.Proofs.Program.FrontEnd
import StepCalc.Proofs.Program.WellFormed
import StepCalc.Proofs.Token.Reading

/-!
# Printed programs can be read again

The text of a program compiles to that program exactly if the program is well formed
(`compile_render_iff`).

1. An arithmetic expression printed where operators of precedence `outer` need no parentheses is a
   phrase of the kind that the language has there (`IsOperand`, `reads_renderAt`): parentheses make
   a factor of any expression, and without them the operator binds as tightly as is asked.
2. A statement is printed on lines of its own, with blanks in front that the scanner skips, and a
   line break behind each line that ends its last token (`reads_chars`, `reads_listing`).
-/

namespace StepCalc

open StepCalc.Language Vocabulary

/-! ## Keywords and marks in their place -/

namespace Vocabulary

/-- A keyword, a space and what it is about. -/
theorem reads_keyword_space {P₁ P : List Token → Prop} {word : String} {text : List Char}
    (hword : word ∈ calculator.keywords) (htext : calculator.Reads Breaks P₁ text)
    (hP : ∀ token tokens, token.Is word → P₁ tokens → P (token :: tokens)) :
    calculator.Reads Breaks P (word.toList ++ [' '] ++ text) := by
  have hfront := (calculator.reads_keyword (isWord_keyword hword) hword).before_blanks
    (show [' '].all isBlank = true by decide) breaks_space
  refine hfront.append htext (fun _ _ => trivial) ?_
  rintro _ tokens ⟨location, rfl⟩ htokens
  exact hP _ tokens ⟨rfl, rfl⟩ htokens

/-- Two texts with a mark and spaces between them. -/
theorem reads_infix {P₁ P₂ P : List Token → Prop} {left right : List Char} {mark : String}
    (hmark : mark ∈ calculator.marks) (hleft : calculator.Reads Breaks P₁ left)
    (hright : calculator.Reads Breaks P₂ right)
    (hP : ∀ tokens₁ token tokens₂, P₁ tokens₁ → token.Is mark → P₂ tokens₂ →
      P (tokens₁ ++ token :: tokens₂)) :
    calculator.Reads Breaks P (left ++ (' ' :: (mark.toList ++ [' ']) ++ right)) := by
  have htail : calculator.Reads Breaks (fun tokens => ∃ token tokens₂, tokens = token :: tokens₂ ∧
      token.Is mark ∧ P₂ tokens₂) (' ' :: (mark.toList ++ [' ']) ++ right) := by
    refine (reads_spaced hmark).append hright (fun _ _ => trivial) ?_
    rintro _ tokens₂ ⟨location, rfl⟩ htokens₂
    exact ⟨_, tokens₂, rfl, ⟨rfl, rfl⟩, htokens₂⟩
  refine hleft.append htail (fun rest _ => breaks_space _) ?_
  rintro tokens₁ _ htokens₁ ⟨token, tokens₂, rfl, htoken, htokens₂⟩
  exact hP tokens₁ token tokens₂ htokens₁ htoken htokens₂

end Vocabulary

/-! ## Expressions -/

namespace Language

/-- The phrases for an expression that may stand where operators bind at least as tightly as
`outer`. -/
def IsOperand (outer : Nat) (tokens : List Token) (e : Expr) : Prop :=
  if outer ≤ 2 then IsExpr tokens e else if outer = 3 then IsTerm tokens e else IsFactor tokens e

theorem IsFactor.isOperand {tokens : List Token} {e : Expr} (h : IsFactor tokens e) (outer : Nat) :
    IsOperand outer tokens e := by
  unfold IsOperand
  split_ifs
  · exact .term (.factor h)
  · exact .factor h
  · exact h

/-- A phrase that binds tightly may stand where less is asked. -/
theorem IsOperand.mono {m n : Nat} {tokens : List Token} {e : Expr} (h : IsOperand m tokens e)
    (hle : n ≤ m) : IsOperand n tokens e := by
  unfold IsOperand at h
  split_ifs at h with h₂ h₃
  · unfold IsOperand
    rwa [if_pos (by omega)]
  · unfold IsOperand
    split_ifs
    · exact .term h
    · exact h
    · omega
  · exact h.isOperand n

/-- An arithmetic operator joins two operands, the right one more tightly, to a phrase of its own
precedence. -/
theorem IsOperand.binary {left right : List Token} {mark : Token} {op : BinOp} {lhs rhs : Expr}
    (hop : op.isComparison = false) (hleft : IsOperand op.precedence left lhs)
    (hmark : mark.Is op.symbol) (hright : IsOperand (op.precedence + 1) right rhs) :
    IsOperand op.precedence (left ++ mark :: right) (.binary op lhs rhs) := by
  cases op with
  | add => exact IsExpr.binary hleft ⟨hmark.1, by rw [hmark.2]; decide⟩ hright
  | sub => exact IsExpr.binary hleft ⟨hmark.1, by rw [hmark.2]; decide⟩ hright
  | mul => exact IsTerm.binary hleft ⟨hmark.1, by rw [hmark.2]; decide⟩ hright
  | div => exact IsTerm.binary hleft ⟨hmark.1, by rw [hmark.2]; decide⟩ hright
  | _ => cases hop

/-- A printed expression in parentheses is a factor. -/
theorem reads_parentheses {text : List Char} {e : Expr}
    (h : calculator.Reads Breaks (IsExpr · e) text) :
    calculator.Reads Breaks (IsFactor · e) ('(' :: (text ++ [')'])) := by
  have hopening : calculator.Reads Anything (Single .literal "(") ['('] :=
    reads_mark (by decide) fun rest _ => rfl
  have hclosing : calculator.Reads Anything (Single .literal ")") [')'] :=
    reads_mark (by decide) fun rest _ => rfl
  have hinner : calculator.Reads Anything (fun tokens => ∃ inner closing,
      tokens = inner ++ [closing] ∧ IsExpr inner e ∧ closing.Is ")") (text ++ [')']) := by
    refine h.append hclosing (fun rest _ => breaks_cons (by decide) (by decide) rest) ?_
    rintro inner _ hexpr ⟨location, rfl⟩
    exact ⟨inner, _, rfl, hexpr, rfl, rfl⟩
  refine (hopening.append hinner (fun _ _ => trivial) ?_).of_anything
  rintro _ _ ⟨location, rfl⟩ ⟨inner, closing, rfl, hexpr, his⟩
  exact .parentheses ⟨rfl, rfl⟩ hexpr his

end Language

namespace Expr

theorem symbol_mem_marks (op : BinOp) : op.symbol ∈ calculator.marks := by
  rw [marks_calculator]
  cases op <;> decide

theorem toList_infix (left mark right : String) :
    (left ++ " " ++ mark ++ " " ++ right).toList =
      left.toList ++ (' ' :: (mark.toList ++ [' ']) ++ right.toList) := by
  simp

theorem toList_parentheses (text : String) :
    ("(" ++ text ++ ")").toList = '(' :: (text.toList ++ [')']) := by
  simp

/-- An arithmetic expression is printed as a phrase for it, of the kind that its place asks for. -/
theorem reads_renderAt {e : Expr} (h : e.IsArithmetic) (outer : Nat) :
    calculator.Reads Breaks (IsOperand outer · e) (e.renderAt outer).toList := by
  induction e generalizing outer with
  | ident name =>
    refine (calculator.reads_name h).imp ?_
    rintro _ ⟨location, rfl⟩
    exact (IsFactor.ident rfl).isOperand outer
  | number text =>
    refine (calculator.reads_numeral h).imp ?_
    rintro _ ⟨location, rfl⟩
    exact (IsFactor.number rfl).isOperand outer
  | binary op lhs rhs ihl ihr =>
    obtain ⟨hop, hl, hr⟩ := h
    have hinner := reads_infix (P := (IsOperand op.precedence · (binary op lhs rhs)))
      (symbol_mem_marks op) (ihl hl op.precedence) (ihr hr (op.precedence + 1))
      fun left mark right => IsOperand.binary hop
    rw [← toList_infix] at hinner
    unfold renderAt
    simp only
    split
    case isTrue =>
      rw [toList_parentheses]
      have hfactor := reads_parentheses (hinner.imp fun _ htokens =>
        htokens.mono (Nat.zero_le _))
      exact hfactor.imp fun _ htokens => htokens.isOperand outer
    case isFalse hprecedence =>
      exact hinner.imp fun _ htokens => htokens.mono (by omega)

/-- A condition is printed as a phrase for it. -/
theorem reads_render {e : Expr} (h : e.IsTest) :
    calculator.Reads Breaks (IsCondition · e) e.render.toList := by
  by_cases harithmetic : e.IsArithmetic
  · exact (reads_renderAt harithmetic 0).imp fun _ htokens => .expr htokens
  · cases e with
    | ident name => exact absurd h harithmetic
    | number text => exact absurd h harithmetic
    | binary op lhs rhs =>
      obtain ⟨hl, hr⟩ := h
      have hop : op.isComparison = true := by
        by_contra hop
        exact harithmetic ⟨Bool.eq_false_iff.mpr hop, hl, hr⟩
      have htable : (op.symbol, op) ∈ comparisons := by
        cases op with
        | add | sub | mul | div => cases hop
        | _ => decide
      have hinner := reads_infix (P := (IsCondition · (binary op lhs rhs)))
        (symbol_mem_marks op) (reads_renderAt hl op.precedence)
        (reads_renderAt hr (op.precedence + 1)) (by
          intro left mark right hleft hmark hright
          have hstands : mark.StandsFor comparisons op := ⟨hmark.1, by rw [hmark.2]; exact htable⟩
          exact .comparison (hleft.mono (Nat.zero_le _)) hstands (hright.mono (Nat.zero_le _)))
      rw [← toList_infix] at hinner
      unfold render renderAt
      simp only
      rwa [if_neg (Nat.not_lt_zero _)]

end Expr

/-! ## Statements -/

/-- The characters of a line, with its indentation and a line break. -/
def ListingLine.chars (line : ListingLine) : List Char :=
  (repeated line.depth "   ").toList ++ (line.text.toList ++ ['\n'])

theorem blanks_repeated (depth : Nat) : (repeated depth "   ").toList.all isBlank = true := by
  have hunit : "   ".toList.all isBlank = true := by decide
  refine List.all_eq_true.mpr fun c hc => ?_
  unfold repeated at hc
  rw [String.toList_join] at hc
  obtain ⟨unit, hmem, hc⟩ := List.mem_flatMap.mp hc
  rw [List.eq_of_mem_replicate hmem] at hc
  exact List.all_eq_true.mp hunit c hc

/-- A line is read as its text is. -/
theorem ListingLine.reads_chars {P : List Token → Prop} {line : ListingLine}
    (h : calculator.Reads Breaks P line.text.toList) : calculator.Reads Anything P line.chars := by
  have hbreak : ∀ rest, Breaks (['\n'] ++ rest) := breaks_cons (by decide) (by decide)
  exact (h.before_blanks (by decide) hbreak).after_blanks (blanks_repeated line.depth)

/-- A block: its first line, its body and a keyword on a line of its own. -/
theorem ListingLine.reads_block {P₁ P₂ P : List Token → Prop} {opening closing : ListingLine}
    {body : List ListingLine} (hopening : calculator.Reads Breaks P₁ opening.text.toList)
    (hbody : calculator.Reads Anything P₂ (body.flatMap chars))
    (hclosing : closing.text ∈ calculator.keywords)
    (hP : ∀ tokens₁ tokens₂ token, P₁ tokens₁ → P₂ tokens₂ → token.Is closing.text →
      P (tokens₁ ++ (tokens₂ ++ [token]))) :
    calculator.Reads Anything P ((opening :: (body ++ [closing])).flatMap chars) := by
  have hlast : calculator.Reads Anything (Single .literal closing.text) closing.chars :=
    reads_chars (calculator.reads_keyword (isWord_keyword hclosing) hclosing)
  have hrest : calculator.Reads Anything (fun tokens => ∃ tokens₂ token,
      tokens = tokens₂ ++ [token] ∧ P₂ tokens₂ ∧ token.Is closing.text)
      (body.flatMap chars ++ closing.chars) := by
    refine hbody.append hlast (fun _ _ => trivial) ?_
    rintro tokens₂ _ htokens₂ ⟨location, rfl⟩
    exact ⟨tokens₂, _, rfl, htokens₂, rfl, rfl⟩
  rw [List.flatMap_cons, List.flatMap_append, List.flatMap_singleton]
  refine (reads_chars hopening).append hrest (fun _ _ => trivial) ?_
  rintro tokens₁ _ htokens₁ ⟨tokens₂, token, rfl, htokens₂, htoken⟩
  exact hP tokens₁ tokens₂ token htokens₁ htokens₂ htoken

namespace Statement

/-- A statement without a body is read as its first line is. -/
theorem reads_header {s : Statement} {depth id : Nat}
    (hlines : (s.listing depth id).1 = [⟨s.header, depth, some id⟩])
    (h : calculator.Reads Breaks (IsStatement · s) s.header.toList) :
    calculator.Reads Anything (IsStatement · s)
      ((s.listing depth id).1.flatMap ListingLine.chars) := by
  rw [hlines, List.flatMap_singleton]
  exact ListingLine.reads_chars h

theorem reads_assign {name : String} {expr : Expr} (hname : calculator.IsName name)
    (hexpr : expr.IsArithmetic) :
    calculator.Reads Breaks (IsStatement · (assign name expr))
      (assign name expr).header.toList := by
  have hheader := reads_infix (P := (IsStatement · (assign name expr)))
    (show ":=" ∈ calculator.marks by rw [marks_calculator]; decide) (calculator.reads_name hname)
    (Expr.reads_renderAt hexpr 0) (by
      rintro _ mark tokens ⟨location, rfl⟩ hmark hexpr
      exact .assign rfl hmark hexpr)
  rw [header, String.toList_append, String.toList_append, List.append_assoc]
  exact hheader

mutual

/-- The lines of a well-formed statement are read as a phrase for it. -/
theorem reads_listing (s : Statement) (h : s.WellFormed) (depth id : Nat) :
    calculator.Reads Anything (IsStatement · s)
      ((s.listing depth id).1.flatMap ListingLine.chars) := by
  match s with
  | assign name expr => exact reads_header rfl (reads_assign h.1 h.2)
  | read name =>
    refine reads_header rfl ?_
    rw [header, String.toList_append]
    refine reads_keyword_space (show "read" ∈ calculator.keywords by decide)
      (calculator.reads_name h) ?_
    rintro word _ hword ⟨location, rfl⟩
    exact .read hword rfl
  | write expr =>
    refine reads_header rfl ?_
    rw [header, String.toList_append]
    exact reads_keyword_space (show "write" ∈ calculator.keywords by decide)
      (Expr.reads_renderAt h 0) fun word tokens hword hexpr => .write hword hexpr
  | branch condition body =>
    have hheader := reads_keyword_space
      (P := fun tokens => ∃ opening test, tokens = opening :: test ∧ opening.Is "if" ∧
        IsCondition test condition)
      (show "if" ∈ calculator.keywords by decide) (Expr.reads_render h.1)
      fun word tokens hword htest => ⟨word, tokens, rfl, hword, htest⟩
    rw [listing]
    refine ListingLine.reads_block (by rw [header, String.toList_append]; exact hheader)
      (reads_listingOfAll body h.2 (depth + 1) (id + 1))
      (show "fi" ∈ calculator.keywords by decide) ?_
    rintro _ tokens closing ⟨opening, test, rfl, hopening, htest⟩ hbody hclosing
    have := IsStatement.branch hopening htest hbody hclosing
    rwa [List.cons_append, List.append_assoc] at this
  | loop body =>
    have hword : "do" ∈ calculator.keywords := by decide
    rw [listing]
    refine ListingLine.reads_block (calculator.reads_keyword (isWord_keyword hword) hword)
      (reads_listingOfAll body h (depth + 1) (id + 1))
      (show "od" ∈ calculator.keywords by decide) ?_
    rintro _ tokens closing ⟨location, rfl⟩ hbody hclosing
    exact .loop ⟨rfl, rfl⟩ hbody hclosing
  | check condition =>
    refine reads_header rfl ?_
    rw [header, String.toList_append]
    exact reads_keyword_space (show "check" ∈ calculator.keywords by decide)
      (Expr.reads_render h) fun word tokens hword htest => .check hword htest
  | erroneous => cases h

/-- The lines of well-formed statements are read as phrases for them. -/
theorem reads_listingOfAll (statements : List Statement) (h : AllWellFormed statements)
    (depth id : Nat) :
    calculator.Reads Anything (IsStatements · statements)
      ((listingOfAll depth id statements).1.flatMap ListingLine.chars) := by
  match statements with
  | [] => exact fun location rest _ => ⟨[], location, .nil, rfl⟩
  | s :: rest =>
    rw [listingOfAll, List.flatMap_append]
    exact (reads_listing s h.1 depth id).append
      (reads_listingOfAll rest h.2 depth (s.listing depth id).2) (fun _ _ => trivial)
      fun _ _ hfirst hrest => .cons hfirst hrest

end

end Statement

namespace Program

theorem toList_render (p : Program) : p.render.toList = p.listing.flatMap ListingLine.chars := by
  unfold render joinLines
  rw [String.toList_join, List.flatMap_map, List.flatMap_map]
  refine List.flatMap_congr fun line _ => ?_
  unfold ListingLine.chars
  simp

/-- A well-formed program is printed as a phrase for it. -/
theorem isProgram_scan_render {p : Program} (h : p.WellFormed) :
    IsProgram (calculator.scan p.render) p := by
  obtain ⟨tokens, location, hstatements, hscan⟩ :=
    Statement.reads_listingOfAll p.statements h 0 0 .origin [] trivial
  unfold scan
  rw [toList_render, ← List.append_nil (List.flatMap _ _)]
  unfold listing
  rw [hscan, scanFrom]
  exact .intro hstatements rfl

/-- **The round trip.** The text of a program compiles to that program exactly if the program is
well formed: it has no statement that stands for a failed parse, its names and numerals are spelled
as such, and comparisons stand only at the root of conditions. -/
theorem compile_render_iff (p : Program) :
    compile (.ofGrammar .extended) p.render = .ok p ↔ p.WellFormed := by
  rw [compile_eq_ok_iff]
  exact ⟨wellFormed_of_isProgram, isProgram_scan_render⟩

end Program

end StepCalc

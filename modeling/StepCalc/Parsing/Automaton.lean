import StepCalc.Grammar.Prediction
import StepCalc.ParseTree
import StepCalc.Token.Basic

/-!
# The parsing automaton

A pushdown automaton with two stacks. The `stack` holds the symbols still to be recognised and,
for each nonterminal being recognised, a `reduce` item where its right-hand side ends. The
`fragments` are the trees finished so far, with an empty node as a placeholder for each
nonterminal being recognised. Expanding `N` to `X₁ … Xₖ` lays down a placeholder for `N` and
pushes `X₁ … Xₖ` and `reduce k`; when `reduce k` comes up, the `k` trees above the placeholder are
the children of `N`.

`Configuration.step` is one move. `Configuration.run` repeats it to the end; it keeps the
nonterminals that were opened since the last token was taken and are still open, and gives up when
one of them is about to be opened again, since the same moves would then repeat for ever. That the
open nonterminals are distinct bounds the moves between two tokens (`cost`).
-/

namespace StepCalc

/-- How the two stacks of a parser fail to fit together. -/
inductive StackFault where
  /-- All symbols are recognised, but there is not just one tree. -/
  | notOneTree
  /-- There are too few fragments for the children and a placeholder below them. -/
  | tooFew (arity fragments : Nat)
  /-- Below the children there is a tree of this shape. -/
  | noPlaceholder (shape : String)
deriving DecidableEq, Repr

namespace StackFault

/-- The characters that stand for `c` between quotes: quotes, backslashes and control characters
are escaped. -/
def escaped (c : Char) : List Char :=
  if c = '"' ∨ c = '\\' then ['\\', c]
  else if c = '\x00' then ['\\', '0']
  else if c = '\t' then ['\\', 't']
  else if c = '\n' then ['\\', 'n']
  else if c = '\r' then ['\\', 'r']
  else if c.toNat < 0x20 ∨ 0x7f ≤ c.toNat ∧ c.toNat < 0xa0 then
    '\\' :: 'u' :: '\x7b' :: Nat.toDigits 16 c.toNat ++ ['\x7d']
  else [c]

def quoted (text : String) : String :=
  String.ofList ('"' :: text.toList.flatMap escaped ++ ['"'])

def message : StackFault → String
  | notOneTree => "attribute stack does not hold exactly one tree"
  | tooFew arity fragments => s!"reduce of arity {arity} with {fragments} fragments"
  | noPlaceholder shape =>
    s!"expected placeholder below reduced fragments, found Some({quoted shape})"

end StackFault

/-- Why tokens have no parse tree. -/
inductive SyntaxError where
  | extraInput (location : Location)
  | expected (symbol saw : String) (location : Location)
  | noPrediction (nonterminal saw : String) (location : Location)
  /-- The two stacks do not fit together. -/
  | outOfStep (fault : StackFault)
  /-- The moves repeat without taking a token. -/
  | endless (nonterminal : String) (location : Location)
deriving DecidableEq, Repr

def SyntaxError.message : SyntaxError → String
  | .extraInput location =>
    s!"syntax error at {location.message}: extra input beyond end of program"
  | .expected symbol saw location =>
    s!"syntax error at {location.message}: expected {symbol}; saw {saw}"
  | .noPrediction nonterminal saw location =>
    s!"syntax error at {location.message}: no prediction for {nonterminal} when seeing {saw}"
  | .outOfStep fault => s!"internal parser error: {fault.message}"
  | .endless nonterminal location =>
    s!"syntax error at {location.message}: {nonterminal} is left-recursive"

def Token.leaf (t : Token) : ParseTree :=
  match t.kind with
  | .identifier => .identifier t.lexeme
  | .number => .number t.lexeme
  | _ => .literal t.lexeme

namespace Parsing

/-- What the parse stack holds. -/
inductive Item where
  /-- A symbol still to be recognised. -/
  | expect (symbol : String)
  /-- The end of a right-hand side with `arity` symbols. -/
  | reduce (arity : Nat)
deriving DecidableEq, Repr

/-- The state of the automaton; `fragments` and `consumed` have the latest element first. -/
structure Configuration where
  stack : List Item
  fragments : List ParseTree
  consumed : List Token
  pending : List Token

/-- What the automaton sees next. -/
structure Lookahead where
  terminal : String
  shown : String
  location : Location
deriving DecidableEq, Repr

/-- The outcome of one move. -/
inductive Move where
  | next (c : Configuration)
  | accept (tree : ParseTree)
  | reject (error : SyntaxError)

namespace Configuration

def initial (start : String) (tokens : List Token) : Configuration :=
  ⟨[.expect start], [], [], tokens⟩

/-- The next token. Past the last one there is no terminal to match, and the place is that of the
last token. -/
def lookahead (c : Configuration) : Lookahead :=
  match c.pending with
  | token :: _ => ⟨token.terminal, token.shown, token.location⟩
  | [] => ⟨"", Token.finishText, (c.consumed.head?.map Token.location).getD .origin⟩

/-- The fragments after the topmost `arity` of them have become the children of the placeholder
below them. -/
def gather (arity : Nat) (fragments : List ParseTree) : Except StackFault (List ParseTree) :=
  match fragments.drop arity with
  | [] => .error (.tooFew arity fragments.length)
  | .node name [] :: below => .ok (.node name (fragments.take arity).reverse :: below)
  | other :: _ => .error (.noPlaceholder other.shape)

/-- One move of the automaton. -/
def step (table : PredictionTable) (c : Configuration) : Move :=
  match c.stack with
  | [] =>
    match c.pending, c.fragments with
    | token :: _, _ => .reject (.extraInput token.location)
    | [], [tree] => .accept tree
    | [], _ => .reject (.outOfStep .notOneTree)
  | .reduce arity :: stack =>
    match gather arity c.fragments with
    | .ok fragments => .next { c with stack, fragments }
    | .error fault => .reject (.outOfStep fault)
  | .expect symbol :: stack =>
    if table.isNonterminal symbol then
      match table.lookup? symbol c.lookahead.terminal with
      | some rhs =>
        .next { c with
          stack := rhs.map .expect ++ .reduce rhs.length :: stack
          fragments := .node symbol [] :: c.fragments }
      | none => .reject (.noPrediction symbol c.lookahead.shown c.lookahead.location)
    else
      match c.pending with
      | token :: pending =>
        if token.terminal = symbol then
          .next ⟨stack, token.leaf :: c.fragments, token :: c.consumed, pending⟩
        else .reject (.expected symbol c.lookahead.shown c.lookahead.location)
      | [] => .reject (.expected symbol c.lookahead.shown c.lookahead.location)

/-! ## The open nonterminals -/

/-- The nonterminal that the next move would open again, with `trail` the ones opened since the
last token was taken and still open. -/
def reopened? (table : PredictionTable) (trail : List String) (c : Configuration) :
    Option String :=
  match c.stack with
  | .expect symbol :: _ =>
    if table.isNonterminal symbol && trail.contains symbol then some symbol else none
  | _ => none

/-- The trail after the next move, latest nonterminal first. -/
def trailAfter (table : PredictionTable) (trail : List String) (c : Configuration) :
    List String :=
  match c.stack with
  | [] => trail
  | .reduce _ :: _ => trail.tail
  | .expect symbol :: _ => if table.isNonterminal symbol then symbol :: trail else []

end Configuration

/-! ## The measure of a run -/

/-- The number of nonterminals that are not on the trail. -/
def room (table : PredictionTable) (trail : List String) : Nat :=
  ((table.rows.map Prod.fst).filter fun name => !trail.contains name).length

/-- A bound on the length of every right-hand side. -/
def breadth (table : PredictionTable) : Nat :=
  total ((table.rows.flatMap Prod.snd).map fun p => p.rhs.length)

/-- A bound on the moves that one symbol can cause while `room` more nonterminals can be opened
below it. -/
def weight (breadth : Nat) : Nat → Nat
  | 0 => 1
  | room + 1 => 2 + breadth * weight breadth room

/-- A bound on the moves that can be made before the next token is taken. -/
def cost (table : PredictionTable) : List String → List Item → Nat
  | _, [] => 0
  | trail, .expect _ :: rest => weight (breadth table) (room table trail) + cost table trail rest
  | trail, .reduce _ :: rest => 1 + cost table trail.tail rest

theorem weight_mono {breadth m n : Nat} (h : m ≤ n) : weight breadth m ≤ weight breadth n := by
  induction n generalizing m with
  | zero => cases Nat.le_zero.mp h; exact Nat.le_refl _
  | succ n ih =>
    cases m with
    | zero => simp only [weight]; omega
    | succ m =>
      have := Nat.mul_le_mul_left breadth (ih (Nat.le_of_succ_le_succ h))
      simp only [weight]
      omega

theorem mem_of_lookup_eq_some {α : Type} {name : String} {value : α} {l : List (String × α)}
    (h : l.lookup name = some value) : (name, value) ∈ l := by
  induction l with
  | nil => cases h
  | cons entry l ih =>
    obtain ⟨key, v⟩ := entry
    rw [List.lookup_cons] at h
    split at h
    case h_1 heq =>
      cases h
      cases beq_iff_eq.mp heq
      exact List.mem_cons_self
    case h_2 => exact List.mem_cons_of_mem _ (ih h)

/-- An alternative that is looked up is no longer than `breadth`. -/
theorem length_le_breadth {table : PredictionTable} {nonterminal terminal : String}
    {rhs : List String} (h : table.lookup? nonterminal terminal = some rhs) :
    rhs.length ≤ breadth table := by
  simp only [PredictionTable.lookup?, PredictionTable.row?, PredictionTable.choose?,
    Option.bind_eq_some_iff, Option.map_eq_some_iff] at h
  obtain ⟨predictions, hrow, p, hfind, rfl⟩ := h
  refine le_total_of_mem (List.mem_map.mpr ⟨p, List.mem_flatMap.mpr ?_, rfl⟩)
  exact ⟨_, mem_of_lookup_eq_some hrow, List.mem_of_find?_eq_some hfind⟩

theorem mem_names_of_isNonterminal {table : PredictionTable} {symbol : String}
    (h : table.isNonterminal symbol = true) : symbol ∈ table.rows.map Prod.fst := by
  obtain ⟨predictions, hrow⟩ := Option.isSome_iff_exists.mp h
  exact List.mem_map.mpr ⟨_, mem_of_lookup_eq_some hrow, rfl⟩

theorem length_filter_lt {α : Type} {p q : α → Bool} {l : List α} {a : α} (ha : a ∈ l)
    (hp : p a = true) (hq : q a = false) (hpq : ∀ b, q b = true → p b = true) :
    (l.filter q).length < (l.filter p).length := by
  induction l with
  | nil => cases ha
  | cons b l ih =>
    have hle : (l.filter q).length ≤ (l.filter p).length := by
      rw [← List.countP_eq_length_filter, ← List.countP_eq_length_filter]
      exact List.countP_mono_left fun x _ hx => hpq x hx
    rcases List.mem_cons.mp ha with rfl | ha
    · simp only [List.filter_cons, hp, hq, if_true, List.length_cons]
      simp only [Bool.false_eq_true, if_false]
      omega
    · have := ih ha
      simp only [List.filter_cons]
      cases hqb : q b
      · cases hpb : p b <;> simp <;> omega
      · simp [hpq b hqb]; omega

/-- Opening a nonterminal that is not on the trail takes up room. -/
theorem room_cons_lt {table : PredictionTable} {symbol : String} {trail : List String}
    (hn : table.isNonterminal symbol = true) (ht : trail.contains symbol = false) :
    room table (symbol :: trail) < room table trail := by
  refine length_filter_lt (mem_names_of_isNonterminal hn) (by simp only [ht, Bool.not_false])
    (by simp) fun name h => ?_
  simp only [List.contains_cons, Bool.not_or, Bool.and_eq_true] at h
  exact h.2

theorem cost_expects (table : PredictionTable) (trail : List String) (symbols : List String)
    (rest : List Item) :
    cost table trail (symbols.map .expect ++ rest) =
      symbols.length * weight (breadth table) (room table trail) + cost table trail rest := by
  induction symbols with
  | nil => simp
  | cons s symbols ih =>
    simp only [List.map_cons, List.cons_append, cost, ih, List.length_cons, Nat.succ_mul]
    omega

/-- An expansion leaves fewer moves to make than there were. -/
theorem cost_expand_lt {table : PredictionTable} {symbol terminal : String} {trail : List String}
    {rhs : List String} (stack : List Item) (hn : table.isNonterminal symbol = true)
    (ht : trail.contains symbol = false) (hl : table.lookup? symbol terminal = some rhs) :
    cost table (symbol :: trail) (rhs.map .expect ++ .reduce rhs.length :: stack) <
      cost table trail (.expect symbol :: stack) := by
  have hroom := room_cons_lt hn ht
  rw [cost_expects]
  simp only [cost, List.tail_cons]
  obtain ⟨r, hr⟩ : ∃ r, room table trail = r + 1 := ⟨room table trail - 1, by omega⟩
  have hw : weight (breadth table) (room table (symbol :: trail)) ≤ weight (breadth table) r :=
    weight_mono (by omega)
  have hm := Nat.mul_le_mul (length_le_breadth hl) hw
  rw [hr]
  simp only [weight]
  omega

namespace Configuration

/-- Every move takes a token or leaves fewer moves to make before the next one. -/
theorem step_decreases {table : PredictionTable} {trail : List String} {c c' : Configuration}
    (hopen : c.reopened? table trail = none) (h : c.step table = .next c') :
    c'.pending.length < c.pending.length ∨
      (c'.pending.length = c.pending.length ∧
        cost table (c.trailAfter table trail) c'.stack < cost table trail c.stack) := by
  unfold step at h
  unfold reopened? at hopen
  unfold trailAfter
  split at h
  case h_1 => split at h <;> cases h
  case h_2 arity stack hstack =>
    split at h
    case h_1 =>
      cases h
      refine Or.inr ⟨rfl, ?_⟩
      simp only [hstack, cost]
      omega
    case h_2 => cases h
  case h_3 symbol stack hstack =>
    split at h
    case isTrue hn =>
      have ht : trail.contains symbol = false := by
        simpa [hstack, hn] using hopen
      split at h
      case h_1 rhs hl =>
        cases h
        refine Or.inr ⟨rfl, ?_⟩
        simp only [hstack, hn, if_true]
        exact cost_expand_lt stack hn ht hl
      case h_2 => cases h
    case isFalse =>
      split at h
      case h_1 token pending hpending =>
        split at h
        case isTrue =>
          cases h
          exact Or.inl (by simp [hpending])
        case isFalse => cases h
      case h_2 => cases h

set_option linter.unusedVariables false in
/-- Repeats `step` until the tokens are accepted or rejected. -/
def run (table : PredictionTable) (trail : List String) (c : Configuration) :
    Except SyntaxError ParseTree :=
  match hopen : c.reopened? table trail with
  | some nonterminal => .error (.endless nonterminal c.lookahead.location)
  | none =>
    match h : c.step table with
    | .accept tree => .ok tree
    | .reject error => .error error
    | .next c' => run table (c.trailAfter table trail) c'
termination_by (c.pending.length, cost table trail c.stack)
decreasing_by
  rcases step_decreases hopen h with hlt | ⟨heq, hlt⟩
  · exact Prod.Lex.left _ _ hlt
  · rw [heq]
    exact Prod.Lex.right _ hlt

/-- `run` without the facts that its termination needs. -/
theorem run_eq (table : PredictionTable) (trail : List String) (c : Configuration) :
    c.run table trail =
      match c.reopened? table trail with
      | some nonterminal => .error (.endless nonterminal c.lookahead.location)
      | none =>
        match c.step table with
        | .accept tree => .ok tree
        | .reject error => .error error
        | .next c' => c'.run table (c.trailAfter table trail) := by
  rw [run]
  split
  case h_1 hopen => rw [hopen]
  case h_2 hopen =>
    rw [hopen]
    simp only
    split
    case h_1 hstep => rw [hstep]
    case h_2 hstep => rw [hstep]
    case h_3 hstep => rw [hstep]

end Configuration

/-- The parse tree of a token sequence. No end marker is added. -/
def parseTokens (table : PredictionTable) (tokens : List Token) : Except SyntaxError ParseTree :=
  (Configuration.initial table.start tokens).run table []

end Parsing

end StepCalc

import StepCalc.Proofs.Parsing.Invariant

/-!
# Sequences of moves

`Configuration.after` makes a number of moves and nothing else: it knows no trail and never gives
up. What every move keeps holds after any number of them, in runs that do not end as well. So the
two stacks stay in step (`stacks_in_step`).

`Halts` says that the moves come to an end. They do whenever a run is not given up, and the run has
their result (`halts_or_endless`).
-/

namespace StepCalc.Parsing

variable {g : Grammar}

/-- What a last move has brought about. -/
def Move.result? : Move → Option (Except SyntaxError ParseTree)
  | .next _ => none
  | .accept tree => some (.ok tree)
  | .reject error => some (.error error)

namespace Configuration

/-- The configuration after a number of moves, if so many can be made. -/
def after (table : PredictionTable) : Nat → Configuration → Option Configuration
  | 0, c => some c
  | moves + 1, c =>
    match c.step table with
    | .next c' => after table moves c'
    | _ => none

/-- The moves from `c` come to an end, with `result`. -/
def Halts (table : PredictionTable) (c : Configuration) (result : Except SyntaxError ParseTree) :
    Prop :=
  ∃ moves last, c.after table moves = some last ∧ (last.step table).result? = some result

theorem after_succ_of_step {table : PredictionTable} {c c' : Configuration}
    (hstep : c.step table = .next c') (moves : Nat) :
    c.after table (moves + 1) = c'.after table moves := by
  rw [after, hstep]

theorem exists_step_of_after {table : PredictionTable} {moves : Nat} {c last : Configuration}
    (h : c.after table (moves + 1) = some last) :
    ∃ c', c.step table = .next c' ∧ c'.after table moves = some last := by
  unfold after at h
  split at h
  case h_1 c' hstep => exact ⟨c', hstep, h⟩
  case h_2 => cases h

/-- A run that is not given up ends as the moves do. -/
theorem halts_or_endless (table : PredictionTable) (trail : List String) (c : Configuration) :
    c.Halts table (c.run table trail) ∨
      ∃ name location, c.run table trail = .error (.endless name location) := by
  fun_induction run table trail c with
  | case1 trail c name _ => exact Or.inr ⟨name, c.lookahead.location, rfl⟩
  | case2 trail c _ tree hstep => exact Or.inl ⟨0, c, rfl, by rw [hstep]; rfl⟩
  | case3 trail c _ error hstep => exact Or.inl ⟨0, c, rfl, by rw [hstep]; rfl⟩
  | case4 trail c _ c' hstep ih =>
    refine ih.imp_left fun h => ?_
    obtain ⟨moves, last, hafter, hresult⟩ := h
    exact ⟨moves + 1, last, (after_succ_of_step hstep moves).trans hafter, hresult⟩

end Configuration

open StepCalc.Parsing.Configuration

/-! ## The stacks stay in step -/

variable {input : List Token} {trail : List String} {c : Configuration}

/-- Any number of moves carries an unfinished derivation on. -/
theorem Coherent.after {moves : Nat} {last : Configuration} (h : Coherent g input trail c)
    (hafter : c.after (.ofGrammar g) moves = some last) :
    ∃ trail', Coherent g input trail' last := by
  induction moves generalizing trail c with
  | zero =>
    cases hafter
    exact ⟨trail, h⟩
  | succ moves ih =>
    obtain ⟨c', hstep, hafter'⟩ := exists_step_of_after hafter
    exact ih (h.step hstep) hafter'

/-- Below the trees of a complete alternative is the placeholder of its nonterminal. -/
theorem Coherent.placeholder (h : Coherent g input trail c) {arity : Nat} {stack : List Item}
    (hstack : c.stack = .reduce arity :: stack) :
    ∃ name, c.fragments[arity]? = some (.node name []) := by
  cases h with
  | expecting => cases hstack
  | @closing name token tokens consumed pending stack fragments trees trail rhs hcontext hchoice
      hrhs =>
    cases hstack
    refine ⟨name, ?_⟩
    have hlength : trees.reverse.length = rhs.length := by
      rw [List.length_reverse, hrhs.length_eq]
    rw [List.getElem?_append_right (Nat.le_of_eq hlength), hlength, Nat.sub_self]
    rfl
  | finished => cases hstack

/-- When there is nothing more to recognise, there is one tree. -/
theorem Coherent.exists_tree (h : Coherent g input trail c) (hstack : c.stack = []) :
    ∃ tree, c.fragments = [tree] := by
  cases h with
  | expecting => cases hstack
  | closing => cases hstack
  | @finished tree => exact ⟨tree, rfl⟩

theorem Coherent.step_ne_outOfStep (h : Coherent g input trail c) (fault : StackFault) :
    c.step (.ofGrammar g) ≠ .reject (.outOfStep fault) := by
  intro hstep
  rcases h.reject_cases hstep with ⟨_, _, _, h⟩ | ⟨_, _, _, h⟩ | ⟨_, _, _, h, _⟩ <;> cases h

/-- **The stacks stay in step.** Whatever the grammar and the tokens, after any number of moves:
if an alternative with `arity` symbols is complete, there are more than `arity` fragments and the
one below the topmost `arity` is an empty node; if stack and tokens are used up, there is exactly
one tree; and the next move does not find the stacks out of step. -/
theorem stacks_in_step (g : Grammar) (tokens : List Token) {moves : Nat} {c : Configuration}
    (h : (initial g.start tokens).after (.ofGrammar g) moves = some c) :
    (∀ arity stack, c.stack = .reduce arity :: stack →
      arity + 1 ≤ c.fragments.length ∧ ∃ name, c.fragments[arity]? = some (.node name [])) ∧
    (c.stack = [] → c.pending = [] → ∃ tree, c.fragments = [tree]) ∧
    ∀ fault, c.step (.ofGrammar g) ≠ .reject (.outOfStep fault) := by
  have hinitial : Coherent g tokens [] (initial g.start tokens) := .expecting .goal
  obtain ⟨trail, hcoherent⟩ := hinitial.after h
  refine ⟨fun arity stack hstack => ?_, fun hstack _ => hcoherent.exists_tree hstack,
    hcoherent.step_ne_outOfStep⟩
  obtain ⟨name, hname⟩ := hcoherent.placeholder hstack
  obtain ⟨hlength, _⟩ := List.getElem?_eq_some_iff.mp hname
  exact ⟨hlength, name, hname⟩

/-- A grammar in which nodes without children are finished and laid down in turn. -/
def vanishing : Grammar where
  rules := [⟨"S", [["A", "A", "$$"]]⟩, ⟨"A", [[]]⟩]
  nonempty := by decide
  distinct := by decide
  named := by decide

theorem stacks_in_step_vanishing :
    let finish : Token := ⟨.finish, "$$", ⟨1, 1⟩⟩
    let c : Configuration := ⟨[.reduce 0, .expect "$$", .reduce 3],
      [.node "A" [], .node "A" [], .node "S" []], [], [finish]⟩
    (initial vanishing.start [finish]).after (.ofGrammar vanishing) 4 = some c ∧
      (1 ≤ c.fragments.length ∧ ∃ name, c.fragments[0]? = some (.node name [])) ∧
      ∀ fault, c.step (.ofGrammar vanishing) ≠ .reject (.outOfStep fault) := by
  intro finish c
  have h : (initial vanishing.start [finish]).after (.ofGrammar vanishing) 4 = some c := rfl
  obtain ⟨hreduce, _, hstep⟩ := stacks_in_step vanishing [finish] h
  exact ⟨h, hreduce 0 [.expect "$$", .reduce 3] rfl, hstep⟩

end StepCalc.Parsing

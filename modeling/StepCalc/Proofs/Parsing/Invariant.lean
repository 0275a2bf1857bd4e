import StepCalc.Proofs.Parsing.Forest

/-!
# What the automaton has done so far

The two stacks of the automaton hold a derivation that is not finished. `Context` reads it off
below a symbol that is to be recognised: for each nonterminal that is open the alternative, the
trees of the symbols already recognised, and the symbols still to come. `Coherent` adds what is on
top, and every move keeps it (`Coherent.step`). So

1. an accepted tree is the predicted one (`predicted_of_parseTokens`);
2. a parse is refused because of the next token, never because of the stacks
   (`parseTokens_error_cases`);
3. the trail of a run lists nonterminals that open one another without a token between them, so a
   run can only be given up in a left-recursive grammar (`leftCorner_of_endless`), and never in one
   whose rules are ordered from the outside in (`LeftOrdered.not_leftRecursive`).
-/

namespace StepCalc.Parsing

open Grammar (Predicted)

variable {g : Grammar}

/-! ## One move -/

namespace Configuration

theorem gather_reverse (name : String) (trees below : List ParseTree) :
    gather trees.length (trees.reverse ++ .node name [] :: below) =
      .ok (.node name trees :: below) := by
  unfold gather
  rw [List.drop_left' (List.length_reverse), List.take_left' (List.length_reverse)]
  simp only [List.reverse_reverse]

theorem step_reduce (table : PredictionTable) (name : String) (stack : List Item)
    (trees below : List ParseTree) (consumed pending : List Token) {arity : Nat}
    (harity : trees.length = arity) :
    step table ⟨.reduce arity :: stack, trees.reverse ++ .node name [] :: below, consumed, pending⟩ =
      .next ⟨stack, .node name trees :: below, consumed, pending⟩ := by
  subst harity
  unfold step
  simp only
  rw [gather_reverse]

/-- What the automaton does with the symbol `s` on top of its stack: it expands the symbol, takes
the next token for it, or refuses. -/
inductive Encounter (g : Grammar) (s : String) (stack : List Item) (fragments : List ParseTree)
    (consumed : List Token) : List Token → Move → Prop
  | expand {token : Token} {tokens : List Token} {rhs : List String}
      (hchoice : g.FirstChoice s token.terminal rhs) :
      Encounter g s stack fragments consumed (token :: tokens)
        (.next ⟨rhs.map .expect ++ .reduce rhs.length :: stack, .node s [] :: fragments, consumed,
          token :: tokens⟩)
  | take {token : Token} {tokens : List Token} (hs : s ∉ g.names) (hterminal : token.terminal = s) :
      Encounter g s stack fragments consumed (token :: tokens)
        (.next ⟨stack, token.leaf :: fragments, token :: consumed, tokens⟩)
  | unpredicted {pending : List Token} {c : Configuration}
      (hc : c = ⟨.expect s :: stack, fragments, consumed, pending⟩) (hs : s ∈ g.names)
      (hnone : ∀ rhs, ¬ g.FirstChoice s c.lookahead.terminal rhs) :
      Encounter g s stack fragments consumed pending
        (.reject (.noPrediction s c.lookahead.shown c.lookahead.location))
  | unmatched {pending : List Token} {c : Configuration}
      (hc : c = ⟨.expect s :: stack, fragments, consumed, pending⟩) (hs : s ∉ g.names)
      (hnone : ∀ token ∈ pending.head?, token.terminal ≠ s) :
      Encounter g s stack fragments consumed pending
        (.reject (.expected s c.lookahead.shown c.lookahead.location))

theorem step_expect (g : Grammar) (s : String) (stack : List Item) (fragments : List ParseTree)
    (consumed pending : List Token) :
    Encounter g s stack fragments consumed pending
      (step (.ofGrammar g) ⟨.expect s :: stack, fragments, consumed, pending⟩) := by
  unfold step
  simp only
  by_cases hs : s ∈ g.names
  · rw [if_pos (PredictionTable.isNonterminal_ofGrammar.mpr hs)]
    split
    case h_1 rhs hlookup =>
      have hchoice := PredictionTable.lookup?_eq_some_iff.mp hlookup
      cases pending with
      | nil => exact absurd rfl hchoice.ne_empty
      | cons token tokens => exact .expand hchoice
    case h_2 hlookup =>
      refine .unpredicted rfl hs fun rhs hchoice => ?_
      rw [PredictionTable.lookup?_eq_some_iff.mpr hchoice] at hlookup
      cases hlookup
  · rw [if_neg (mt PredictionTable.isNonterminal_ofGrammar.mp hs)]
    cases pending with
    | nil => exact .unmatched rfl hs fun token htoken => nomatch htoken
    | cons token tokens =>
      simp only
      split
      case isTrue hterminal => exact .take hs hterminal
      case isFalse hterminal =>
        refine .unmatched rfl hs fun other hother => ?_
        cases hother
        exact hterminal

end Configuration

/-! ## The trail -/

/-- What is left of a trail when `before` has become `after`: nothing once a token was taken. -/
def kept (before after : List Token) (trail : List String) : List String :=
  if after.length = before.length then trail else []

@[simp] theorem kept_self (tokens : List Token) (trail : List String) :
    kept tokens tokens trail = trail := if_pos rfl

@[simp] theorem kept_cons (token : Token) (tokens : List Token) (trail : List String) :
    kept (token :: tokens) tokens trail = [] := by
  unfold kept
  rw [List.length_cons, if_neg (by omega)]

theorem tail_kept (before after : List Token) (name : String) (trail : List String) :
    (kept before after (name :: trail)).tail = kept before after trail := by
  unfold kept
  split <;> rfl

/-- Two stretches are without a token exactly if both are. -/
theorem kept_kept {before between after : List Token} (h₁ : between.length ≤ before.length)
    (h₂ : after.length ≤ between.length) (trail : List String) :
    kept between after (kept before between trail) = kept before after trail := by
  unfold kept
  by_cases hafter : after.length = before.length
  · rw [if_pos hafter, if_pos (by omega), if_pos (by omega)]
  · rw [if_neg hafter]
    by_cases hbetween : after.length = between.length
    · rw [if_pos hbetween, if_neg (by omega)]
    · rw [if_neg hbetween]

/-! ## The unfinished derivation -/

/-- The symbol is to be recognised from the tokens, above the given stack and fragments: it is the
start symbol, or it stands in the chosen alternative of a nonterminal that was to be recognised,
with the trees of all symbols before it. The last argument is the trail. -/
inductive Context (g : Grammar) (input : List Token) :
    String → List Token → List Item → List ParseTree → List String → Prop
  | goal : Context g input g.start input [] [] []
  | inside {name s : String} {token : Token} {tokens between : List Token} {stack : List Item}
      {fragments trees : List ParseTree} {trail before after : List String}
      (houter : Context g input name (token :: tokens) stack fragments trail)
      (hchoice : g.FirstChoice name token.terminal (before ++ s :: after))
      (hbefore : g.Predicted before (token :: tokens) trees between) :
      Context g input s between
        (after.map .expect ++ .reduce (before ++ s :: after).length :: stack)
        (trees.reverse ++ .node name [] :: fragments)
        (kept (token :: tokens) between (name :: trail))

/-- The stacks and the trail belong to an unfinished derivation from the input: a symbol is to be
recognised, or an alternative is complete, or the start symbol has been recognised. -/
inductive Coherent (g : Grammar) (input : List Token) : List String → Configuration → Prop
  | expecting {s : String} {stack : List Item} {fragments : List ParseTree}
      {consumed pending : List Token} {trail : List String}
      (hcontext : Context g input s pending stack fragments trail) :
      Coherent g input trail ⟨.expect s :: stack, fragments, consumed, pending⟩
  | closing {name : String} {token : Token} {tokens consumed pending : List Token}
      {stack : List Item} {fragments trees : List ParseTree} {trail rhs : List String}
      (hcontext : Context g input name (token :: tokens) stack fragments trail)
      (hchoice : g.FirstChoice name token.terminal rhs)
      (hrhs : g.Predicted rhs (token :: tokens) trees pending) :
      Coherent g input (kept (token :: tokens) pending (name :: trail))
        ⟨.reduce rhs.length :: stack, trees.reverse ++ .node name [] :: fragments, consumed,
          pending⟩
  | finished {tree : ParseTree} {consumed pending : List Token} {trail : List String}
      (htree : g.Predicted [g.start] input [tree] pending) :
      Coherent g input trail ⟨[], [tree], consumed, pending⟩

variable {input : List Token} {trail : List String} {c c' : Configuration}

/-- Once a symbol has been recognised, the alternative around it goes on or is complete. -/
theorem Context.recognised {s : String} {pending rest : List Token} {stack : List Item}
    {fragments : List ParseTree} {tree : ParseTree}
    (h : Context g input s pending stack fragments trail)
    (htree : g.Predicted [s] pending [tree] rest) (consumed : List Token) :
    Coherent g input (kept pending rest trail) ⟨stack, tree :: fragments, consumed, rest⟩ := by
  cases h with
  | goal => exact .finished htree
  | @inside name s token tokens between stack fragments trees trail before after houter hchoice
      hbefore =>
    have hboth := hbefore.append htree
    rw [kept_kept hbefore.length_le htree.length_le]
    have hfragments : tree :: (trees.reverse ++ .node name [] :: fragments) =
        (trees ++ [tree]).reverse ++ .node name [] :: fragments := by
      rw [List.reverse_append]
      rfl
    rw [hfragments]
    cases after with
    | nil => exact .closing houter hchoice hboth
    | cons s' after =>
      have hsplit : before ++ s :: s' :: after = (before ++ [s]) ++ s' :: after := by
        rw [List.append_assoc]
        rfl
      rw [hsplit] at hchoice ⊢
      exact .expecting (.inside houter hchoice hboth)

/-- A nonterminal that has just been opened has its whole alternative before it. -/
theorem Context.opened {name : String} {token : Token} {tokens : List Token} {stack : List Item}
    {fragments : List ParseTree} {rhs : List String}
    (h : Context g input name (token :: tokens) stack fragments trail)
    (hchoice : g.FirstChoice name token.terminal rhs) (consumed : List Token) :
    Coherent g input (name :: trail) ⟨rhs.map .expect ++ .reduce rhs.length :: stack,
      .node name [] :: fragments, consumed, token :: tokens⟩ := by
  have hnil : g.Predicted [] (token :: tokens) [] (token :: tokens) := .nil _
  rw [← kept_self (token :: tokens) (name :: trail)]
  cases rhs with
  | nil => exact .closing h hchoice hnil
  | cons s after => exact .expecting (.inside h hchoice hnil)

/-! ## Moves keep the derivation -/

/-- Every move carries the unfinished derivation on. -/
theorem Coherent.step (h : Coherent g input trail c)
    (hstep : c.step (.ofGrammar g) = .next c') :
    Coherent g input (c.trailAfter (.ofGrammar g) trail) c' := by
  cases h with
  | @expecting s stack fragments consumed pending trail hcontext =>
    have hmove := Configuration.step_expect g s stack fragments consumed pending
    rw [hstep] at hmove
    unfold Configuration.trailAfter
    simp only
    cases hmove with
    | expand hchoice =>
      rw [if_pos (PredictionTable.isNonterminal_ofGrammar.mpr hchoice.hasAlternative.mem_names)]
      exact hcontext.opened hchoice consumed
    | @take token tokens hs hterminal =>
      rw [if_neg (mt PredictionTable.isNonterminal_ofGrammar.mp hs)]
      have := hcontext.recognised (.leaf hterminal hs (.nil tokens)) (token :: consumed)
      rwa [kept_cons] at this
  | @closing name token tokens consumed pending stack fragments trees trail rhs hcontext hchoice
      hrhs =>
    rw [Configuration.step_reduce _ name stack trees fragments consumed pending hrhs.length_eq]
      at hstep
    cases hstep
    have := hcontext.recognised (.node hchoice hrhs (.nil pending)) consumed
    rw [← tail_kept (token :: tokens) pending name trail] at this
    exact this
  | @finished tree consumed pending trail htree =>
    cases pending <;> cases hstep

/-- A tree is accepted only when all of the input has become that tree. -/
theorem Coherent.predicted_of_accept {tree : ParseTree} (h : Coherent g input trail c)
    (hstep : c.step (.ofGrammar g) = .accept tree) : g.Predicted [g.start] input [tree] [] := by
  cases h with
  | @expecting s stack fragments consumed pending trail hcontext =>
    have hmove := Configuration.step_expect g s stack fragments consumed pending
    rw [hstep] at hmove
    cases hmove
  | closing _ _ hrhs =>
    rw [Configuration.step_reduce _ _ _ _ _ _ _ hrhs.length_eq] at hstep
    cases hstep
  | @finished tree consumed pending trail htree =>
    cases pending with
    | nil =>
      cases hstep
      exact htree
    | cons token tokens => cases hstep

/-- A refusal is about the next token or its absence, never about the stacks. -/
theorem Coherent.reject_cases {error : SyntaxError} (h : Coherent g input trail c)
    (hstep : c.step (.ofGrammar g) = .reject error) :
    (∃ s saw location, error = .expected s saw location) ∨
      (∃ s saw location, error = .noPrediction s saw location) ∨
      ∃ tree token rest, error = .extraInput token.location ∧
        g.Predicted [g.start] input [tree] (token :: rest) := by
  cases h with
  | @expecting s stack fragments consumed pending trail hcontext =>
    have hmove := Configuration.step_expect g s stack fragments consumed pending
    rw [hstep] at hmove
    cases hmove with
    | unpredicted hc => exact Or.inr (Or.inl ⟨_, _, _, rfl⟩)
    | unmatched hc => exact Or.inl ⟨_, _, _, rfl⟩
  | closing _ _ hrhs =>
    rw [Configuration.step_reduce _ _ _ _ _ _ _ hrhs.length_eq] at hstep
    cases hstep
  | @finished tree consumed pending trail htree =>
    cases pending with
    | nil => cases hstep
    | cons token rest =>
      cases hstep
      exact Or.inr (Or.inr ⟨tree, token, rest, rfl, htree⟩)

/-! ## Runs -/

/-- How a run ends at a configuration. -/
inductive Ends (table : PredictionTable) :
    List String → Configuration → Except SyntaxError ParseTree → Prop
  | accepted {trail : List String} {c : Configuration} {tree : ParseTree}
      (hstep : c.step table = .accept tree) : Ends table trail c (.ok tree)
  | rejected {trail : List String} {c : Configuration} {error : SyntaxError}
      (hstep : c.step table = .reject error) : Ends table trail c (.error error)
  | reopened {trail : List String} {c : Configuration} {name : String}
      (hopen : c.reopened? table trail = some name) :
      Ends table trail c (.error (.endless name c.lookahead.location))

/-- A run ends at a configuration that has whatever property the first one has and all moves
keep. -/
theorem Configuration.exists_ends {table : PredictionTable}
    {P : List String → Configuration → Prop}
    (hkeep : ∀ {trail c c'}, P trail c → c.step table = .next c' → P (c.trailAfter table trail) c')
    (h : P trail c) : ∃ trail' c', P trail' c' ∧ Ends table trail' c' (c.run table trail) := by
  fun_induction Configuration.run table trail c with
  | case1 trail c name hopen => exact ⟨trail, c, h, .reopened hopen⟩
  | case2 trail c _ tree hstep => exact ⟨trail, c, h, .accepted hstep⟩
  | case3 trail c _ error hstep => exact ⟨trail, c, h, .rejected hstep⟩
  | case4 trail c _ c' hstep ih => exact ih (hkeep h hstep)

/-- A parse ends with an unfinished derivation from its input that cannot be carried on. -/
theorem exists_coherent_ends (g : Grammar) (tokens : List Token) :
    ∃ trail c, Coherent g tokens trail c ∧
      Ends (.ofGrammar g) trail c (parseTokens (.ofGrammar g) tokens) :=
  Configuration.exists_ends (fun h hstep => h.step hstep) (.expecting .goal)

theorem predicted_of_parseTokens {tokens : List Token} {tree : ParseTree}
    (h : parseTokens (.ofGrammar g) tokens = .ok tree) : g.Predicted [g.start] tokens [tree] [] := by
  obtain ⟨trail, c, hcoherent, hends⟩ := exists_coherent_ends g tokens
  rw [h] at hends
  cases hends with
  | accepted hstep => exact hcoherent.predicted_of_accept hstep

theorem isParse_of_parseTokens {tokens : List Token} {tree : ParseTree}
    (h : parseTokens (.ofGrammar g) tokens = .ok tree) : g.IsParse tokens tree := by
  obtain ⟨read, hread, hforest⟩ := (predicted_of_parseTokens h).exists_forest
  rw [List.append_nil] at hread
  rwa [hread]

/-! ## Left corners -/

/-- Before `tokens`, the alternative chosen for `name` has `s` behind symbols that are recognised
without taking a token. -/
def Opens (g : Grammar) (tokens : List Token) (name s : String) : Prop :=
  ∃ token rest before after trees, tokens = token :: rest ∧
    g.FirstChoice name token.terminal (before ++ s :: after) ∧
    g.Predicted before tokens trees tokens

theorem Opens.leftCorner {tokens : List Token} {name s : String} (h : Opens g tokens name s) :
    g.LeftCorner name s := by
  obtain ⟨token, rest, before, after, trees, rfl, hchoice, hbefore⟩ := h
  obtain ⟨read, hread, hforest⟩ := hbefore.exists_forest
  have hnil : read = [] := List.self_eq_append_left.mp hread
  rw [hnil] at hforest
  exact ⟨before, after, hchoice.hasAlternative, hforest.derives⟩

/-- The nonterminals on the trail open one another, and then what is to be recognised. -/
theorem Context.opens {s : String} {pending : List Token} {stack : List Item}
    {fragments : List ParseTree} (h : Context g input s pending stack fragments trail)
    {name : String} (hname : name ∈ trail) : Relation.TransGen (Opens g pending) name s := by
  induction h with
  | goal => cases hname
  | @inside outer s token tokens between stack fragments trees trail before after houter hchoice
      hbefore ih =>
    unfold kept at hname
    split at hname
    case isTrue hlength =>
      -- no token was taken, so what is to come is what was to come for the outer nonterminal
      have hbetween := hbefore.rest_eq hlength
      subst hbetween
      have hopens : Opens g (token :: tokens) outer s :=
        ⟨token, tokens, before, after, trees, rfl, hchoice, hbefore⟩
      rcases List.mem_cons.mp hname with rfl | hname
      · exact .single hopens
      · exact .tail (ih hname) hopens
    case isFalse => cases hname

/-- A run is given up only where a nonterminal has opened itself. -/
theorem opens_of_endless {tokens : List Token} {name : String} {location : Location}
    (h : parseTokens (.ofGrammar g) tokens = .error (.endless name location)) :
    ∃ pending, Relation.TransGen (Opens g pending) name name := by
  obtain ⟨trail, c, hcoherent, hends⟩ := exists_coherent_ends g tokens
  rw [h] at hends
  cases hends with
  | rejected hstep =>
    rcases hcoherent.reject_cases hstep with ⟨_, _, _, h⟩ | ⟨_, _, _, h⟩ | ⟨_, _, _, h, _⟩ <;> cases h
  | reopened hopen =>
    unfold Configuration.reopened? at hopen
    cases hcoherent with
    | @expecting s stack fragments consumed pending trail hcontext =>
      simp only at hopen
      split at hopen
      case isTrue htrail =>
        cases hopen
        exact ⟨pending,
          hcontext.opens (List.contains_iff_mem.mp (Bool.and_eq_true_iff.mp htrail).2)⟩
      case isFalse => cases hopen
    | closing => cases hopen
    | finished => cases hopen

/-- A run is given up only where a nonterminal is at its own left corner. -/
theorem leftCorner_of_endless {tokens : List Token} {name : String} {location : Location}
    (h : parseTokens (.ofGrammar g) tokens = .error (.endless name location)) :
    Relation.TransGen g.LeftCorner name name := by
  obtain ⟨pending, hopens⟩ := opens_of_endless h
  exact Relation.TransGen.mono (fun _ _ hopens => hopens.leftCorner) _ _ hopens

/-- In every alternative the symbol at the start, or after symbols that may vanish, has its rule
further down than the alternative. -/
def LeftOrdered (g : Grammar) : Prop :=
  ∀ rule ∈ g.rules, ∀ rhs ∈ rule.alternatives, ∀ k, (hk : k < rhs.length) →
    (g.analysis.firstOf (rhs.take k)).2 = true → rhs[k] ∈ g.names →
      g.names.idxOf rule.name < g.names.idxOf rhs[k]

theorem LeftOrdered.lt_of_leftCorner (h : LeftOrdered g) {name s : String}
    (hcorner : g.LeftCorner name s) (hs : s ∈ g.names) :
    g.names.idxOf name < g.names.idxOf s := by
  obtain ⟨before, after, ⟨rule, hrule, rfl, hrhs⟩, hvanish⟩ := hcorner
  have hlength : before.length < (before ++ s :: after).length := by
    rw [List.length_append, List.length_cons]
    omega
  have hnext := h rule hrule _ hrhs before.length hlength
  rw [List.take_left, List.getElem_of_append rfl rfl] at hnext
  exact hnext (Grammar.firstOf_analysis_snd.mpr hvanish) hs

theorem LeftOrdered.lt_of_transGen (h : LeftOrdered g) {name s : String}
    (hcorners : Relation.TransGen g.LeftCorner name s) (hs : s ∈ g.names) :
    g.names.idxOf name < g.names.idxOf s := by
  induction hcorners with
  | single hcorner => exact h.lt_of_leftCorner hcorner hs
  | tail _ hcorner ih =>
    have hnext := h.lt_of_leftCorner hcorner hs
    obtain ⟨before, after, halt, _⟩ := hcorner
    exact (ih halt.mem_names).trans hnext

theorem LeftOrdered.not_leftRecursive (h : LeftOrdered g) (name : String) :
    ¬ Relation.TransGen g.LeftCorner name name := by
  intro hcorners
  obtain ⟨_, ⟨before, after, halt, _⟩, _⟩ := Relation.TransGen.head'_iff.mp hcorners
  exact Nat.lt_irrefl _ (h.lt_of_transGen hcorners halt.mem_names)

/-- The errors of a parse: the next token does not fit, or there is input after a whole tree, or a
nonterminal is at its own left corner. -/
theorem parseTokens_error_cases {tokens : List Token} {error : SyntaxError}
    (h : parseTokens (.ofGrammar g) tokens = .error error) :
    (∃ s saw location, error = .expected s saw location) ∨
      (∃ s saw location, error = .noPrediction s saw location) ∨
      (∃ tree token rest, error = .extraInput token.location ∧
        g.Predicted [g.start] tokens [tree] (token :: rest)) ∨
      ∃ name location, error = .endless name location ∧ Relation.TransGen g.LeftCorner name name := by
  obtain ⟨trail, c, hcoherent, hends⟩ := exists_coherent_ends g tokens
  rw [h] at hends
  cases hends with
  | rejected hstep =>
    rcases hcoherent.reject_cases hstep with h | h | h
    · exact Or.inl h
    · exact Or.inr (Or.inl h)
    · exact Or.inr (Or.inr (Or.inl h))
  | reopened hopen => exact Or.inr (Or.inr (Or.inr ⟨_, _, rfl, leftCorner_of_endless h⟩))

end StepCalc.Parsing

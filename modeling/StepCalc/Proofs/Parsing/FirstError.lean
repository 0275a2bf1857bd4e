import StepCalc.Proofs.Parsing.Termination

/-!
# Errors at the first wrong token

Without conflicts an error is reported at the first token that no derivation from the start symbol
can go on with (`error_at_first_wrong_token`). The tokens taken so far, followed by the symbols that
are still to be recognised (`outlook`), are always a form that the start symbol derives. `OnCourse`
adds the converse for what is to come, and every move keeps it:

1. if the start symbol derives a form that begins with the tokens taken and the next ones, then the
   outlook derives one that begins with the next ones;
2. a nonterminal that vanishes in such a derivation is followed by the next token there, so the
   alternative by which it vanishes is predicted, and without conflicts it is the chosen one.
-/

namespace StepCalc

namespace SyntaxError

def location? : SyntaxError → Option Location
  | extraInput location | expected _ _ location | noPrediction _ _ location
  | endless _ location => some location
  | outOfStep _ => none

/-- What an error says that it saw. -/
def saw? : SyntaxError → Option String
  | expected _ saw _ | noPrediction _ saw _ => some saw
  | _ => none

end SyntaxError

namespace Grammar

/-- Some form that `w` derives begins with the symbols `front`, all of them terminals. -/
def Begins (g : Grammar) (w front : List String) : Prop :=
  (∀ t ∈ front, t ∉ g.names) ∧ ∃ rest, g.Derives w (front ++ rest)

variable {g : Grammar}

theorem not_begins_nil {t : String} {front : List String} : ¬ g.Begins [] (t :: front) := by
  rintro ⟨_, rest, hderives⟩
  cases hderives.unfolds

/-- A form with a terminal in front begins with this terminal only. -/
theorem Begins.of_terminal {s t : String} {w front : List String} (hs : s ∉ g.names)
    (h : g.Begins (s :: w) (t :: front)) : s = t ∧ g.Begins w front := by
  obtain ⟨hterminals, rest, hderives⟩ := h
  rw [List.cons_append] at hderives
  generalize hv : t :: (front ++ rest) = v at hderives
  cases hderives.unfolds with
  | keep _ hrest =>
    cases hv
    exact ⟨rfl, fun u hu => hterminals u (List.mem_cons_of_mem s hu), rest, hrest.derives⟩
  | expand halt _ _ => exact absurd halt.mem_names hs

/-- If a form of the start symbol goes on with a nonterminal and then as `front` says, `front`
begins with a terminal that predicts an alternative of the nonterminal, and this alternative in its
place goes on as `front` says. -/
theorem Begins.exists_alternative {name t : String} {before w front : List String}
    (hname : name ∈ g.names) (hform : g.Derives [g.start] (before ++ name :: w))
    (h : g.Begins (name :: w) (t :: front)) :
    ∃ rhs, g.HasAlternative name rhs ∧ t ∈ g.predictSet name rhs ∧
      g.Begins (rhs ++ w) (t :: front) := by
  obtain ⟨hterminals, rest, hderives⟩ := h
  have ht : t ∉ g.names := hterminals t List.mem_cons_self
  rw [List.cons_append] at hderives
  generalize hv : t :: (front ++ rest) = v at hderives
  cases hderives.unfolds with
  | keep _ _ =>
    cases hv
    exact absurd hname ht
  | @expand _ rhs _ inner after halt hinner hrest =>
    have hall : g.Derives (rhs ++ w) (t :: front ++ rest) := by
      rw [List.cons_append, hv]
      exact hinner.derives.append hrest.derives
    refine ⟨rhs, halt, (mem_predictSet hname).mpr ?_, hterminals, rest, hall⟩
    rcases List.cons_eq_append_iff.mp hv with ⟨rfl, rfl⟩ | ⟨inner', rfl, _⟩
    · -- the alternative vanishes, and the terminal comes right after the nonterminal
      refine Or.inr ⟨hinner.derives, ht, g.start, g.start_mem_names, before, front ++ rest, ?_⟩
      exact hform.trans ((Derives.refl before).append ((Derives.refl [name]).append hrest.derives))
    · exact Or.inl ⟨ht, inner', hinner.derives⟩

end Grammar

namespace Parsing

open StepCalc.Parsing.Configuration

variable {g : Grammar} {table : PredictionTable} {tokens : List Token} {c c' : Configuration}

def Item.symbol? : Item → Option String
  | expect s => some s
  | reduce _ => none

namespace Configuration

/-- The symbols still to be recognised. -/
def outlook (c : Configuration) : List String := c.stack.filterMap Item.symbol?

/-- The terminals of the tokens taken so far, in order. -/
def taken (c : Configuration) : List String := c.consumed.reverse.map Token.terminal

theorem filterMap_symbol?_expects (symbols : List String) (stack : List Item) :
    (symbols.map Item.expect ++ stack).filterMap Item.symbol? =
      symbols ++ stack.filterMap Item.symbol? := by
  rw [List.filterMap_append, List.filterMap_map]
  congr 1
  exact List.filterMap_some

/-- What a move does to the outlook and the tokens: it leaves both alone, replaces the first symbol
by the chosen alternative, or takes the next token for the first symbol. -/
theorem next_cases (hstep : c.step (.ofGrammar g) = .next c') :
    (c'.outlook = c.outlook ∧ c'.consumed = c.consumed ∧ c'.pending = c.pending) ∨
    (∃ token rest name w rhs, c.pending = token :: rest ∧ c.outlook = name :: w ∧
      g.FirstChoice name token.terminal rhs ∧
      c'.outlook = rhs ++ w ∧ c'.consumed = c.consumed ∧ c'.pending = c.pending) ∨
    ∃ token rest w, c.pending = token :: rest ∧ c.outlook = token.terminal :: w ∧
      token.terminal ∉ g.names ∧
      c'.outlook = w ∧ c'.consumed = token :: c.consumed ∧ c'.pending = rest := by
  obtain ⟨stack, fragments, consumed, pending⟩ := c
  match stack with
  | [] =>
    unfold step at hstep
    simp only at hstep
    split at hstep <;> cases hstep
  | .reduce arity :: stack =>
    unfold step at hstep
    simp only at hstep
    split at hstep
    case h_1 =>
      cases hstep
      exact Or.inl ⟨rfl, rfl, rfl⟩
    case h_2 => cases hstep
  | .expect s :: stack =>
    have hmove := step_expect g s stack fragments consumed pending
    rw [hstep] at hmove
    cases hmove with
    | @expand token rest rhs hchoice =>
      refine Or.inr (Or.inl ⟨token, rest, s, stack.filterMap Item.symbol?, rhs, rfl, rfl, hchoice,
        ?_, rfl, rfl⟩)
      exact filterMap_symbol?_expects rhs (.reduce rhs.length :: stack)
    | @take token rest hs hterminal =>
      subst hterminal
      exact Or.inr (Or.inr ⟨token, rest, stack.filterMap Item.symbol?, rfl, rfl, hs, rfl, rfl, rfl⟩)

/-- Why a move refuses: no symbol is left for the next token, or the first symbol has no
alternative for it, or is another terminal. The error is about what the automaton sees next. -/
theorem reject_cases {error : SyntaxError} (hstep : c.step (.ofGrammar g) = .reject error)
    (hstacks : ∀ fault, error ≠ .outOfStep fault) :
    (∃ token rest, c.pending = token :: rest ∧ c.outlook = [] ∧
      error = .extraInput token.location) ∨
    (∃ name w, c.outlook = name :: w ∧ name ∈ g.names ∧
      (∀ rhs, ¬ g.FirstChoice name c.lookahead.terminal rhs) ∧
      error = .noPrediction name c.lookahead.shown c.lookahead.location) ∨
    ∃ s w, c.outlook = s :: w ∧ s ∉ g.names ∧ (∀ token ∈ c.pending.head?, token.terminal ≠ s) ∧
      error = .expected s c.lookahead.shown c.lookahead.location := by
  obtain ⟨stack, fragments, consumed, pending⟩ := c
  match stack with
  | [] =>
    unfold step at hstep
    simp only at hstep
    split at hstep
    case h_1 token rest =>
      cases hstep
      exact Or.inl ⟨token, rest, rfl, rfl, rfl⟩
    case h_2 => cases hstep
    case h_3 =>
      cases hstep
      exact absurd rfl (hstacks _)
  | .reduce arity :: stack =>
    unfold step at hstep
    simp only at hstep
    split at hstep
    case h_1 => cases hstep
    case h_2 =>
      cases hstep
      exact absurd rfl (hstacks _)
  | .expect s :: stack =>
    have hmove := step_expect g s stack fragments consumed pending
    rw [hstep] at hmove
    cases hmove with
    | unpredicted hc hs hnone =>
      subst hc
      exact Or.inr (Or.inl ⟨s, stack.filterMap Item.symbol?, rfl, hs, hnone, rfl⟩)
    | unmatched hc hs hnone =>
      subst hc
      exact Or.inr (Or.inr ⟨s, stack.filterMap Item.symbol?, rfl, hs, hnone, rfl⟩)

end Configuration

/-! ## What every move keeps -/

/-- The tokens are divided into those taken and those to come; the ones taken and the outlook are a
form of the start symbol; and whatever is still to come in some form of the start symbol is still to
come in the outlook. -/
structure OnCourse (g : Grammar) (tokens : List Token) (c : Configuration) : Prop where
  divided : tokens = c.consumed.reverse ++ c.pending
  terminals : ∀ t ∈ c.taken, t ∉ g.names
  derives : g.Derives [g.start] (c.taken ++ c.outlook)
  onward : ∀ t front, t :: front <+: c.pending.map Token.terminal →
    g.Begins [g.start] (c.taken ++ t :: front) → g.Begins c.outlook (t :: front)

theorem onCourse_initial (g : Grammar) (tokens : List Token) :
    OnCourse g tokens (initial g.start tokens) where
  divided := rfl
  terminals := fun _ h => absurd h List.not_mem_nil
  derives := Grammar.Derives.refl [g.start]
  onward := fun _ _ _ h => h

/-- A move that takes no token stays on course if the new outlook is derived from the old one and
goes on with all that is to come as the old one does. -/
theorem OnCourse.of_same_tokens (h : OnCourse g tokens c) (hconsumed : c'.consumed = c.consumed)
    (hpending : c'.pending = c.pending) (hderives : g.Derives c.outlook c'.outlook)
    (honward : ∀ t front, t :: front <+: c.pending.map Token.terminal →
      g.Begins c.outlook (t :: front) → g.Begins c'.outlook (t :: front)) :
    OnCourse g tokens c' := by
  have htaken : c'.taken = c.taken := by rw [taken, hconsumed]; rfl
  constructor
  · rw [hconsumed, hpending]
    exact h.divided
  · rw [htaken]
    exact h.terminals
  · rw [htaken]
    exact h.derives.trans ((Grammar.Derives.refl c.taken).append hderives)
  · rw [htaken, hpending]
    exact fun t front hfront hbegins => honward t front hfront (h.onward t front hfront hbegins)

/-- Taking the token that the outlook begins with stays on course. -/
theorem OnCourse.of_taken (h : OnCourse g tokens c) {token : Token} {rest : List Token}
    {w : List String} (hnext : c.pending = token :: rest)
    (hfirst : c.outlook = token.terminal :: w) (hs : token.terminal ∉ g.names)
    (houtlook : c'.outlook = w) (hconsumed : c'.consumed = token :: c.consumed)
    (hpending : c'.pending = rest) : OnCourse g tokens c' := by
  have htaken : c'.taken = c.taken ++ [token.terminal] := by
    rw [taken, hconsumed, List.reverse_cons, List.map_append]
    rfl
  constructor
  · rw [hconsumed, hpending, List.reverse_cons, List.append_assoc]
    rw [h.divided, hnext]
    rfl
  · rw [htaken]
    intro t ht
    rcases List.mem_append.mp ht with ht | ht
    · exact h.terminals t ht
    · rwa [List.mem_singleton.mp ht]
  · have hform := h.derives
    rw [hfirst] at hform
    rw [htaken, houtlook, List.append_assoc]
    exact hform
  · intro t front hfront hbegins
    rw [hpending] at hfront
    rw [htaken, List.append_assoc] at hbegins
    have hahead := h.onward token.terminal (t :: front) (by
      rw [hnext, List.map_cons]
      exact List.cons_prefix_cons.mpr ⟨rfl, hfront⟩) hbegins
    rw [hfirst] at hahead
    rw [houtlook]
    exact (hahead.of_terminal hs).2

theorem OnCourse.step (hstrict : PredictionTable.strict g = .ok table) (h : OnCourse g tokens c)
    (hstep : c.step (.ofGrammar g) = .next c') : OnCourse g tokens c' := by
  rcases next_cases hstep with ⟨houtlook, hconsumed, hpending⟩ |
    ⟨token, rest, name, w, rhs, hnext, hfirst, hchoice, houtlook, hconsumed, hpending⟩ |
    ⟨token, rest, w, hnext, hfirst, hs, houtlook, hconsumed, hpending⟩
  · refine h.of_same_tokens hconsumed hpending ?_ ?_
    · rw [houtlook]
      exact Grammar.Derives.refl c.outlook
    · rw [houtlook]
      exact fun _ _ _ hbegins => hbegins
  · refine h.of_same_tokens hconsumed hpending ?_ ?_
    · rw [hfirst, houtlook]
      exact hchoice.hasAlternative.derives.append (Grammar.Derives.refl w)
    · -- the next token predicts one alternative only, so it is the one that was chosen
      intro t front hfront hahead
      have hform := h.derives
      rw [hfirst] at hform hahead
      obtain ⟨other, halt, hpredicted, hgoes⟩ :=
        hahead.exists_alternative hchoice.hasAlternative.mem_names hform
      rw [hnext, List.map_cons] at hfront
      obtain ⟨rfl, _⟩ := List.cons_prefix_cons.mp hfront
      have heq := (Grammar.firstChoice_of_strict hstrict halt hpredicted).unique hchoice
      rw [houtlook, ← heq]
      exact hgoes
  · exact h.of_taken hnext hfirst hs houtlook hconsumed hpending

/-- Any number of moves stays on course. -/
theorem OnCourse.after (hstrict : PredictionTable.strict g = .ok table) {moves : Nat}
    {last : Configuration} (h : OnCourse g tokens c)
    (hafter : c.after (.ofGrammar g) moves = some last) : OnCourse g tokens last := by
  induction moves generalizing c with
  | zero =>
    cases hafter
    exact h
  | succ moves ih =>
    obtain ⟨c', hstep, hafter'⟩ := exists_step_of_after hafter
    exact ih (h.step hstrict hstep) hafter'

/-! ## The tokens around the position -/

theorem OnCourse.length_consumed_le (h : OnCourse g tokens c) :
    c.consumed.length ≤ tokens.length := by
  rw [h.divided, List.length_append, List.length_reverse]
  exact Nat.le_add_right _ _

theorem OnCourse.take_consumed (h : OnCourse g tokens c) :
    tokens.take c.consumed.length = c.consumed.reverse := by
  rw [h.divided, List.take_left' List.length_reverse]

/-- The token after those that were taken is the next one. -/
theorem OnCourse.exists_pending (h : OnCourse g tokens c) {token : Token}
    (htoken : tokens[c.consumed.length]? = some token) : ∃ rest, c.pending = token :: rest := by
  rw [h.divided, List.getElem?_append_right (Nat.le_of_eq List.length_reverse),
    List.length_reverse, Nat.sub_self] at htoken
  cases hpending : c.pending with
  | nil =>
    rw [hpending] at htoken
    cases htoken
  | cons first rest =>
    rw [hpending] at htoken
    cases htoken
    exact ⟨rest, rfl⟩

/-- Past the last token the automaton sees the end of the input, at the place of the last token. -/
theorem OnCourse.lookahead_of_all_taken (h : OnCourse g tokens c)
    (hall : c.consumed.length = tokens.length) :
    c.pending = [] ∧ c.lookahead =
      ⟨"", Token.finishText, (tokens.getLast?.map Token.location).getD .origin⟩ := by
  have hdivided := h.divided
  have hnone : c.pending = [] := by
    rw [hdivided, List.length_append, List.length_reverse] at hall
    exact List.length_eq_zero_iff.mp (by omega)
  have hlast : tokens.getLast? = c.consumed.head? := by
    rw [hdivided, hnone, List.append_nil, List.getLast?_reverse]
  exact ⟨hnone, by rw [lookahead, hnone, hlast]⟩

/-! ## The refusal -/

/-- A token that is refused goes on with no form of the start symbol. -/
theorem OnCourse.not_begins (hstrict : PredictionTable.strict g = .ok table)
    (h : OnCourse g tokens c) {error : SyntaxError}
    (hstep : c.step (.ofGrammar g) = .reject error)
    (hstacks : ∀ fault, error ≠ .outOfStep fault) {token : Token} {rest : List Token}
    (hnext : c.pending = token :: rest) :
    ¬ g.Begins [g.start] (c.taken ++ [token.terminal]) := by
  intro hbegins
  have hahead := h.onward token.terminal [] (by
    rw [hnext, List.map_cons]
    exact List.cons_prefix_cons.mpr ⟨rfl, List.nil_prefix⟩) hbegins
  have hform := h.derives
  rcases reject_cases hstep hstacks with ⟨_, _, _, houtlook, _⟩ |
    ⟨name, w, houtlook, hname, hnone, _⟩ | ⟨s, w, houtlook, hs, hnone, _⟩
  · rw [houtlook] at hahead
    exact Grammar.not_begins_nil hahead
  · rw [houtlook] at hahead hform
    obtain ⟨rhs, halt, hpredicted, _⟩ := hahead.exists_alternative hname hform
    have hseen : c.lookahead.terminal = token.terminal := by rw [lookahead, hnext]
    refine hnone rhs ?_
    rw [hseen]
    exact Grammar.firstChoice_of_strict hstrict halt hpredicted
  · rw [houtlook] at hahead
    refine hnone token ?_ (hahead.of_terminal hs).1.symm
    rw [hnext]
    rfl

/-- An error is about what the automaton sees next. -/
theorem saw?_of_reject {error : SyntaxError} (hstep : c.step (.ofGrammar g) = .reject error)
    (hstacks : ∀ fault, error ≠ .outOfStep fault) :
    error.location? = some c.lookahead.location ∧
      (error.saw? = some c.lookahead.shown ∨
        c.pending ≠ [] ∧ error = .extraInput c.lookahead.location) := by
  rcases reject_cases hstep hstacks with ⟨token, rest, hnext, _, rfl⟩ | ⟨_, _, _, _, _, rfl⟩ |
    ⟨_, _, _, _, _, rfl⟩
  · have hseen : c.lookahead.location = token.location := by rw [lookahead, hnext]
    rw [hseen, hnext]
    exact ⟨rfl, Or.inr ⟨List.cons_ne_nil token rest, rfl⟩⟩
  · exact ⟨rfl, Or.inl rfl⟩
  · exact ⟨rfl, Or.inl rfl⟩

/-- Without conflicts no parse is given up. -/
theorem ne_endless_of_strict (hstrict : PredictionTable.strict g = .ok table) (name : String)
    (location : Location) :
    parseTokens (.ofGrammar g) tokens ≠ .error (.endless name location) := by
  intro h
  obtain ⟨pending, hopens⟩ := opens_of_endless h
  exact not_opens_itself_of_strict hstrict pending name hopens

theorem step_eq_reject_of_result? {error : SyntaxError} {move : Move}
    (h : move.result? = some (.error error)) : move = .reject error := by
  cases move with
  | next c => cases h
  | accept tree => cases h
  | reject e =>
    cases h
    rfl

/-- Without conflicts an error comes from a move that refuses, and the configuration before it is on
course. -/
theorem exists_reject_of_error (hstrict : PredictionTable.strict g = .ok table)
    {error : SyntaxError} (h : parseTokens (.ofGrammar g) tokens = .error error) :
    ∃ moves c, (initial g.start tokens).after (.ofGrammar g) moves = some c ∧
      c.step (.ofGrammar g) = .reject error ∧ (∀ fault, error ≠ .outOfStep fault) ∧
      OnCourse g tokens c := by
  rcases halts_or_endless (.ofGrammar g) [] (initial g.start tokens) with
    ⟨moves, c, hafter, hresult⟩ | ⟨name, location, hendless⟩
  · have hrun : (initial g.start tokens).run (.ofGrammar g) [] = .error error := h
    rw [hrun] at hresult
    have hstep := step_eq_reject_of_result? hresult
    have hinitial : Coherent g tokens [] (initial g.start tokens) := .expecting .goal
    obtain ⟨_, hcoherent⟩ := hinitial.after hafter
    refine ⟨moves, c, hafter, hstep, fun fault hstacks => ?_,
      (onCourse_initial g tokens).after hstrict hafter⟩
    rw [hstacks] at hstep
    exact hcoherent.step_ne_outOfStep fault hstep
  · exact absurd hendless (ne_endless_of_strict hstrict name location)

/-- A run ends at a token that is not the terminal it expects. -/
theorem run_refuse {token : Token} {s : String} (hterminal : token.terminal ≠ s)
    (hs : s ∉ g.names) (stack : List Item) (fragments : List ParseTree)
    (consumed rest : List Token) (trail : List String) :
    run (.ofGrammar g) trail ⟨.expect s :: stack, fragments, consumed, token :: rest⟩ =
      .error (.expected s token.shown token.location) := by
  have htable := mt PredictionTable.isNonterminal_ofGrammar.mp hs
  have hstep : step (.ofGrammar g) ⟨.expect s :: stack, fragments, consumed, token :: rest⟩ =
      .reject (.expected s token.shown token.location) := by
    unfold step lookahead
    simp only
    rw [if_neg htable, if_neg hterminal]
  have hopen : reopened? (.ofGrammar g) trail
      ⟨.expect s :: stack, fragments, consumed, token :: rest⟩ = none := by
    simp [reopened?, htable]
  rw [run_eq, hopen, hstep]

/-- **Errors are reported at the first wrong token.** Without conflicts, let a parse fail with `p`
tokens taken. Then the start symbol derives a form that begins with these. If there is a token after
them, it derives none that begins with these and that token, and the error names the place of that
token and, unless it is about extra input, its text. If there is none, the error names the place of
the last token and says that it saw the end of the input. -/
theorem error_at_first_wrong_token (hstrict : PredictionTable.strict g = .ok table)
    {error : SyntaxError} (h : parseTokens table tokens = .error error) :
    ∃ moves c p, (initial table.start tokens).after table moves = some c ∧
      c.step table = .reject error ∧ c.consumed.length = p ∧ p ≤ tokens.length ∧
      g.Begins [g.start] ((tokens.take p).map Token.terminal) ∧
      (∀ token, tokens[p]? = some token →
        ¬ g.Begins [g.start] ((tokens.take (p + 1)).map Token.terminal) ∧
        error.location? = some token.location ∧
        (error.saw? = some token.shown ∨ error = .extraInput token.location)) ∧
      (p = tokens.length →
        error.location? = some ((tokens.getLast?.map Token.location).getD ⟨1, 1⟩) ∧
        error.saw? = some "end of input") := by
  obtain rfl := (PredictionTable.strict_eq_ok hstrict).1
  obtain ⟨moves, c, hafter, hstep, hstacks, hcourse⟩ := exists_reject_of_error hstrict h
  obtain ⟨hlocation, hsaw⟩ := saw?_of_reject hstep hstacks
  refine ⟨moves, c, c.consumed.length, hafter, hstep, rfl, hcourse.length_consumed_le, ?_,
    fun token htoken => ?_, fun hall => ?_⟩
  · rw [hcourse.take_consumed]
    exact ⟨hcourse.terminals, c.outlook, hcourse.derives⟩
  · obtain ⟨rest, hnext⟩ := hcourse.exists_pending htoken
    have hseen : c.lookahead = ⟨token.terminal, token.shown, token.location⟩ := by
      rw [lookahead, hnext]
    rw [hseen] at hlocation hsaw
    refine ⟨?_, hlocation, hsaw.imp_right And.right⟩
    rw [List.take_add_one, hcourse.take_consumed, htoken, List.map_append]
    exact hcourse.not_begins hstrict hstep hstacks hnext
  · obtain ⟨hnone, hseen⟩ := hcourse.lookahead_of_all_taken hall
    rw [hseen] at hlocation hsaw
    exact ⟨hlocation, hsaw.resolve_right fun hextra => hextra.1 hnone⟩

/-- A grammar without conflicts in which `x` follows `A`, but not after `y`. -/
def crossed : Grammar where
  rules := [⟨"S", [["A", "x"], ["y", "A", "z"]]⟩, ⟨"A", [[], ["a"]]⟩]
  nonempty := by decide
  distinct := by decide
  named := by decide

/-- The token `x` after `y`: `A` vanishes before it, because `x` follows `A` elsewhere. -/
theorem error_at_first_wrong_token_crossed :
    let tokens : List Token := [⟨.literal, "y", ⟨1, 1⟩⟩, ⟨.literal, "x", ⟨1, 3⟩⟩]
    let error : SyntaxError := .expected "z" "x" ⟨1, 3⟩
    PredictionTable.strict crossed = .ok (.ofGrammar crossed) ∧
      parseTokens (.ofGrammar crossed) tokens = .error error ∧
      crossed.Begins ["S"] ["y"] ∧ ¬ crossed.Begins ["S"] ["y", "x"] := by
  intro tokens error
  have hstrict : PredictionTable.strict crossed = .ok (.ofGrammar crossed) :=
    PredictionTable.strict_of_conflicts_eq_nil (by decide +kernel)
  have hstart : crossed.FirstChoice "S" "y" ["y", "A", "z"] :=
    PredictionTable.lookup?_eq_some_iff.mp (by decide +kernel)
  have hvanish : crossed.FirstChoice "A" "x" [] :=
    PredictionTable.lookup?_eq_some_iff.mp (by decide +kernel)
  have h : parseTokens (.ofGrammar crossed) tokens = .error error := by
    refine (run_expand hstart List.not_mem_nil [] [] [] _).trans ?_
    refine (run_take (s := "y") rfl (by decide) _ _ _ _ _).trans ?_
    refine (run_expand hvanish List.not_mem_nil _ _ _ _).trans ?_
    refine (run_reduce _ "A" _ [] _ _ _ rfl _).trans ?_
    exact run_refuse (by decide) (by decide) _ _ _ _ _
  obtain ⟨moves, c, p, _, _, _, hp, hbegins, hnot, hend⟩ := error_at_first_wrong_token hstrict h
  obtain rfl : p = 1 := by
    match p, hp with
    | 0, _ => exact absurd (hnot _ rfl).2.1 (by decide)
    | 1, _ => rfl
    | 2, _ => exact absurd (hend rfl).2 (by decide)
  exact ⟨hstrict, h, hbegins, (hnot _ rfl).1⟩

end Parsing

end StepCalc

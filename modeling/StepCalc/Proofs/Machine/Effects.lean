import StepCalc.Proofs.Machine.Growth

/-!
# What a single statement does

`Statement.Effect` lists all that can come of a statement that ends without running a body: which
words it takes and writes, what it binds and how it fails. Every such statement has one of these
effects (`Concludes.effect`), so that facts about runs need not look into the statements again.

Expressions have a part in this only through their value: evaluating one leaves all bindings as they
are, and it fails with an error of its own kind (`Expr.isOfExpr_evaluate`).

A statement that fails reports its error and leaves the rest of the state as it was, apart from
marks of used variables (`failed_statement_only_reports`). Only a word that is no number is gone
after the attempt to read it.
-/

namespace StepCalc

/-! ## Errors of expressions -/

/-- Whether evaluating an expression can end with the error. -/
def RuntimeError.isOfExpr : RuntimeError → Bool
  | undeclared _ | divideByZero | overflow | nonInteger _ => true
  | _ => false

theorem isOfExpr_of_bounded {n : Int} {error : RuntimeError} (h : bounded n = .error error) :
    error.isOfExpr = true := by
  unfold bounded at h
  split at h
  · cases h
  · cases h
    rfl

theorem BinOp.isOfExpr_of_exact {op : BinOp} {a b : Int} {error : RuntimeError}
    (h : op.exact a b = .error error) : error.isOfExpr = true := by
  cases op with
  | add | sub | mul => exact isOfExpr_of_bounded h
  | div =>
    simp only [exact] at h
    split at h
    · cases h
      rfl
    · exact isOfExpr_of_bounded h
  | eq | ne | lt | gt | le | ge => cases h

theorem isOfExpr_of_exactLiteral {text : String} {error : RuntimeError}
    (h : exactLiteral text = .error error) : error.isOfExpr = true := by
  unfold exactLiteral at h
  split at h
  · cases h
  · split at h <;> cases h <;> rfl

namespace Expr

variable {e : Expr} {m : Memory} {error : RuntimeError}

theorem isOfExpr_of_exact (h : (e.exact m).1 = .error error) : error.isOfExpr = true := by
  induction e generalizing m with
  | number text => exact isOfExpr_of_exactLiteral h
  | ident name =>
    unfold exact at h
    split at h
    · cases h
    · cases h
      rfl
  | binary op lhs rhs ihl ihr =>
    unfold exact at h
    split at h
    case h_1 hleft =>
      cases h
      exact ihl (congrArg Prod.fst hleft)
    case h_2 =>
      split at h
      case h_1 hright =>
        cases h
        exact ihr (congrArg Prod.fst hright)
      case h_2 => exact BinOp.isOfExpr_of_exact h

theorem isOfExpr_evaluate (h : (e.evaluate m).1 = .error error) : error.isOfExpr = true := by
  have hexact : (e.exact m).1 = .error error := by
    rw [e.exact_eq m, h]
    rfl
  exact isOfExpr_of_exact hexact

end Expr

/-! ## Evaluation in a state -/

namespace State

variable {s s' : State} {e : Expr}

/-- Evaluating an expression replaces the memory by one with the same bindings. -/
theorem exists_memory_of_evaluate {result : Except RuntimeError Int64}
    (h : s.evaluate e = (result, s')) :
    ∃ memory, memory.bindings = s.memory.bindings ∧ s' = { s with memory } := by
  obtain ⟨_, rfl⟩ := Prod.mk.inj h
  exact ⟨_, e.bindings_evaluate s.memory, rfl⟩

theorem isOfExpr_of_evaluate {error : RuntimeError} (h : s.evaluate e = (.error error, s')) :
    error.isOfExpr = true :=
  Expr.isOfExpr_evaluate (Prod.mk.inj h).1

end State

/-! ## Effects -/

/-- What can come of a statement that ends without running a body. -/
inductive Statement.Effect : Statement → State → Status × State → Prop
  /-- A check holds, or a branch is skipped. -/
  | passed {s : Statement} {st : State} {memory : Memory}
      (hbindings : memory.bindings = st.memory.bindings) :
      Effect s st (.ongoing, { st with memory })
  | exited {condition : Expr} {st : State} {memory : Memory}
      (hbindings : memory.bindings = st.memory.bindings) :
      Effect (.check condition) st (.exited, { st with memory })
  | assigned {name : String} {e : Expr} {st : State} {memory : Memory} (value : Int64)
      (hbindings : memory.bindings = st.memory.bindings) :
      Effect (.assign name e) st (.ongoing, { st with memory := memory.bind name value })
  | written {e : Expr} {st : State} {memory : Memory} (value : Int64)
      (hbindings : memory.bindings = st.memory.bindings) :
      Effect (.write e) st (.ongoing, { st with memory, output := st.output ++ [showInt64 value] })
  | taken {name word : String} {memory : Memory} {input output : List String} {value : Int64}
      (hword : readInt64? word = some value) :
      Effect (.read name) ⟨memory, word :: input, output⟩
        (.ongoing, ⟨memory.bind name value, input, output⟩)
  /-- The expression of the statement has no value. -/
  | stuck {s : Statement} {st : State} {memory : Memory} {error : RuntimeError}
      (hbindings : memory.bindings = st.memory.bindings) (herror : error.isOfExpr = true) :
      Effect s st (State.fail { st with memory } error)
  /-- There is no word to read. -/
  | starved {name : String} {memory : Memory} {output : List String} :
      Effect (.read name) ⟨memory, [], output⟩ (State.fail ⟨memory, [], output⟩ .endOfInput)
  | misread {name word : String} {memory : Memory} {input output : List String}
      (hword : readInt64? word = none) :
      Effect (.read name) ⟨memory, word :: input, output⟩
        (State.fail ⟨memory, input, output⟩ (.nonNumeric word))
  | erroneous {st : State} : Effect .erroneous st (st.fail .erroneousTree)

namespace Statement

variable {statement : Statement} {s : State} {result : Status × State}

theorem effect_read (name : String) (s : State) :
    (Statement.read name).Effect s (s.readInto name) := by
  obtain ⟨memory, input, output⟩ := s
  unfold State.readInto
  match input with
  | [] => exact .starved
  | word :: input =>
    dsimp only
    split
    case h_1 value hword => exact .taken hword
    case h_2 hword => exact .misread hword

/-- A statement goes on with the value of its expression, or fails as the expression does. -/
theorem effect_withValue {e : Expr} {next : Int64 → State → Status × State}
    (h : ∀ memory value, memory.bindings = s.memory.bindings →
      statement.Effect s (next value { s with memory })) :
    statement.Effect s (s.withValue e next) := by
  unfold State.withValue
  split
  case h_1 value s' hvalue =>
    obtain ⟨memory, hbindings, rfl⟩ := State.exists_memory_of_evaluate hvalue
    exact h memory value hbindings
  case h_2 error s' herror =>
    obtain ⟨memory, hbindings, rfl⟩ := State.exists_memory_of_evaluate herror
    exact .stuck hbindings (State.isOfExpr_of_evaluate herror)

theorem effect_perform (h : statement.isSimple = true) (s : State) :
    statement.Effect s (statement.perform s) := by
  cases statement with
  | assign name e => exact effect_withValue fun memory value hbindings => .assigned value hbindings
  | read name => exact effect_read name s
  | write e => exact effect_withValue fun memory value hbindings => .written value hbindings
  | check e =>
    refine effect_withValue fun memory value hbindings => ?_
    split
    · exact .exited hbindings
    · exact .passed hbindings
  | erroneous => exact .erroneous
  | branch _ _ => cases h
  | loop _ => cases h

/-- **A statement that ends at once has one of the effects.** -/
theorem Concludes.effect (h : statement.Concludes s result) : statement.Effect s result := by
  cases h with
  | simple hsimple => exact effect_perform hsimple s
  | undecided herror =>
    obtain ⟨memory, hbindings, rfl⟩ := State.exists_memory_of_evaluate herror
    exact .stuck hbindings (State.isOfExpr_of_evaluate herror)
  | skipped hvalue =>
    obtain ⟨memory, hbindings, rfl⟩ := State.exists_memory_of_evaluate hvalue
    exact .passed hbindings

/-- A statement writes nothing or one number, or it fails and writes one message. -/
theorem Effect.output_cases (h : statement.Effect s result) :
    (result.1 ≠ .failed ∧
      (result.2.output = s.output ∨ ∃ v, result.2.output = s.output ++ [showInt64 v])) ∨
    (result.1 = .failed ∧ ∃ error : RuntimeError,
      error ≠ .stepLimit ∧ result.2.output = s.output ++ [error.message]) := by
  cases h with
  | passed _ | exited _ | assigned _ _ | taken _ => exact Or.inl ⟨nofun, Or.inl rfl⟩
  | written value _ => exact Or.inl ⟨nofun, Or.inr ⟨value, rfl⟩⟩
  | @stuck _ _ _ error _ herror =>
    refine Or.inr ⟨rfl, error, ?_, rfl⟩
    rintro rfl
    cases herror
  | starved => exact Or.inr ⟨rfl, .endOfInput, nofun, rfl⟩
  | @misread _ word => exact Or.inr ⟨rfl, .nonNumeric word, nofun, rfl⟩
  | erroneous => exact Or.inr ⟨rfl, .erroneousTree, nofun, rfl⟩

/-- Only a check ends the loop around it. -/
theorem Effect.exists_check (h : statement.Effect s result) (hstatus : result.1 = .exited) :
    ∃ condition, statement = .check condition := by
  cases h with
  | exited _ => exact ⟨_, rfl⟩
  | _ => cases hstatus

/-! ## Failures -/

/-- Whether a statement is about to read a word that is no number. -/
def misreads (statement : Statement) (s : State) : Bool :=
  match statement, s.input with
  | read _, word :: _ => (readInt64? word).isNone
  | _, _ => false

/-- A statement that fails for want of a value has marked variables and reported the error. -/
theorem exists_report_of_withValue {e : Expr} {next : Int64 → State → Status × State} {s' : State}
    (hnext : ∀ value s', (next value s').1 ≠ .failed) (h : s.withValue e next = (.failed, s')) :
    ∃ (error : RuntimeError) (names : List String),
      s' = ⟨s.memory.marking names, s.input, s.output ++ [error.message]⟩ := by
  unfold State.withValue at h
  split at h
  case h_1 value s₁ _ => exact absurd (congrArg Prod.fst h) (hnext value s₁)
  case h_2 error s₁ hevaluate =>
    obtain ⟨_, rfl⟩ := Prod.mk.inj hevaluate
    obtain ⟨_, rfl⟩ := Prod.mk.inj h
    refine ⟨error, e.reads s.memory, ?_⟩
    rw [← e.evaluate_snd s.memory]

theorem exists_report_of_readInto {name : String} {s' : State}
    (h : s.readInto name = (.failed, s')) :
    ∃ error : RuntimeError, s' = ⟨s.memory,
      if (read name).misreads s then s.input.tail else s.input, s.output ++ [error.message]⟩ := by
  obtain ⟨memory, input, output⟩ := s
  unfold State.readInto at h
  match input with
  | [] =>
    obtain ⟨_, rfl⟩ := Prod.mk.inj h
    exact ⟨.endOfInput, rfl⟩
  | word :: input =>
    dsimp only at h
    split at h
    case h_1 => cases h
    case h_2 hword =>
      obtain ⟨_, rfl⟩ := Prod.mk.inj h
      refine ⟨.nonNumeric word, ?_⟩
      simp [misreads, hword]

/-- **A statement that fails only reports the error.** The state is the one before with the message
as one more output word and some variables marked as used: variables keep their places and values,
and no input word is taken. The one exception is a word that is to be read and is no number; it is
taken all the same. -/
theorem failed_statement_only_reports {s' : State} (hsimple : statement.isSimple = true)
    (h : statement.perform s = (.failed, s')) :
    ∃ (error : RuntimeError) (names : List String),
      s' = ⟨s.memory.marking names, if statement.misreads s then s.input.tail else s.input,
        s.output ++ [error.message]⟩ := by
  cases statement with
  | assign name e | write e => exact exists_report_of_withValue (by simp) h
  | check e =>
    refine exists_report_of_withValue (fun value s' => ?_) h
    dsimp only
    split <;> simp
  | read name =>
    obtain ⟨error, rfl⟩ := exists_report_of_readInto h
    exact ⟨error, [], by rw [s.memory.marking_nil]⟩
  | erroneous =>
    obtain ⟨_, rfl⟩ := Prod.mk.inj h
    exact ⟨.erroneousTree, [], by rw [s.memory.marking_nil]; rfl⟩
  | branch _ _ => cases hsimple
  | loop _ => cases hsimple

/-- The variable in front of the division is marked, and neither it nor the one that was to be bound
has changed. -/
theorem failed_statement_only_reports_quotient :
    let s : State := ⟨⟨[⟨"n", 5, false⟩, ⟨"k", 0, false⟩], by decide⟩, ["7"], ["1"]⟩
    let quotient : Statement := .assign "k" (.binary .div (.ident "n") (.ident "k"))
    let s' : State :=
      ⟨⟨[⟨"n", 5, true⟩, ⟨"k", 0, true⟩], by decide⟩, ["7"], ["1", "divide by zero"]⟩
    quotient.perform s = (.failed, s') ∧
      ∃ (error : RuntimeError) (names : List String),
        s' = ⟨s.memory.marking names, ["7"], ["1"] ++ [error.message]⟩ := by
  intro s quotient s'
  have hfailed : quotient.perform s = (.failed, s') := by decide +kernel
  exact ⟨hfailed, failed_statement_only_reports rfl hfailed⟩

/-- A statement that fails does not always leave the input as it was. -/
theorem failed_read_takes_word :
    ¬ ∀ (statement : Statement) (s s' : State), statement.isSimple = true →
      statement.perform s = (.failed, s') → s'.input = s.input := by
  intro hkeeps
  have hfailed : (Statement.read "a").perform ⟨∅, ["x1", "2"], []⟩ =
      (.failed, ⟨∅, ["2"], ["non-numeric input"]⟩) := by
    decide +kernel
  have hinput := hkeeps _ _ _ rfl hfailed
  simp at hinput

end Statement

end StepCalc

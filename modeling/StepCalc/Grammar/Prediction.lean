import StepCalc.Grammar.Analysis
import StepCalc.Text.Column

/-!
# Prediction tables

An alternative is predicted by the terminals that can start it and, if it can vanish, by those
that can follow its nonterminal. The first alternative that a terminal predicts is the one that is
chosen; a `Conflict` is an alternative that is never chosen for some terminal that predicts it. A
strict table has no conflicts.
-/

namespace StepCalc

/-- An alternative with the terminals that predict it. -/
structure Prediction where
  predict : TerminalSet
  rhs : List String
deriving DecidableEq

/-- The alternative numbered `shadowed` of `nonterminal` is predicted by `terminal`, and so is the
earlier one numbered `chosen`, which wins. -/
structure Conflict where
  nonterminal : String
  terminal : String
  chosen : Nat
  shadowed : Nat
deriving DecidableEq, Repr

def Conflict.message (c : Conflict) : String :=
  s!"{c.nonterminal} on '{c.terminal}': alternative {c.chosen} shadows alternative {c.shadowed}"

/-- The overlaps for which a table is refused. -/
inductive TableError where
  | overlapping (conflicts : List Conflict)
deriving DecidableEq, Repr

def TableError.message : TableError → String
  | .overlapping conflicts =>
    "grammar is not LL(1): " ++ separated "; " (conflicts.map Conflict.message)

/-- The predicted alternatives of every nonterminal, in grammar order. -/
structure PredictionTable where
  start : String
  rows : List (String × List Prediction)
deriving DecidableEq

namespace PredictionTable

/-! ## Construction -/

/-- The prediction of one alternative of a nonterminal with the given follow set. -/
def predictionOf (a : Analysis) (follow : TerminalSet) (rhs : List String) : Prediction :=
  let (first, nullable) := a.firstOf rhs
  ⟨if nullable then first ∪ follow else first, rhs⟩

def followOf (a : Analysis) (name : String) : TerminalSet :=
  ((a.get? name).map Traits.follow).getD ∅

/-- The table of a grammar about which `a` is known. -/
def ofAnalysis (g : Grammar) (a : Analysis) : PredictionTable where
  start := g.start
  rows := g.rules.map fun rule =>
    (rule.name, rule.alternatives.map (predictionOf a (followOf a rule.name)))

def ofGrammar (g : Grammar) : PredictionTable := ofAnalysis g g.analysis

/-! ## Look-up -/

variable (table : PredictionTable)

/-- The predictions of `nonterminal`. -/
def row? (nonterminal : String) : Option (List Prediction) := table.rows.lookup nonterminal

def isNonterminal (s : String) : Bool := (table.row? s).isSome

/-- The first of some predictions that `terminal` selects. -/
def choose? (predictions : List Prediction) (terminal : String) : Option (List String) :=
  (predictions.find? fun p => p.predict.contains terminal).map Prediction.rhs

/-- The right-hand side to expand `nonterminal` to when `terminal` comes next. -/
def lookup? (nonterminal terminal : String) : Option (List String) :=
  (table.row? nonterminal).bind fun predictions => choose? predictions terminal

/-! ## Conflicts -/

/-- The conflicts among the predictions of one nonterminal: by chosen alternative, by shadowed
alternative, then by terminal. A terminal that an alternative before the chosen one predicts is
left to that one. -/
def rowConflicts (nonterminal : String) (predictions : List Prediction) : List Conflict :=
  predictions.zipIdx.flatMap fun (earlier, i) =>
    (predictions.zipIdx.drop (i + 1)).flatMap fun (later, j) =>
      ((earlier.predict.inter later.predict).filter fun terminal =>
        !(predictions.take i).any fun p => p.predict.contains terminal).map fun terminal =>
          ⟨nonterminal, terminal, i, j⟩

/-- The conflicts of the whole table. -/
def conflicts : List Conflict :=
  table.rows.flatMap fun (nonterminal, predictions) => rowConflicts nonterminal predictions

/-- The table of a grammar, if it has no conflicts. -/
def strict (g : Grammar) : Except TableError PredictionTable :=
  let table := ofGrammar g
  if table.conflicts.isEmpty then .ok table else .error (.overlapping table.conflicts)

/-! ## Text -/

def braced (set : TerminalSet) : String := "\x7b" ++ separated ", " set.toList ++ "\x7d"

/-- One line per alternative: nonterminal, right-hand side and predicting terminals. -/
def render : String :=
  joinLines <| table.rows.flatMap fun (nonterminal, predictions) =>
    predictions.map fun p =>
      let rhs := if p.rhs.isEmpty then "ε" else separated " " p.rhs
      padRight 4 nonterminal ++ " → " ++ padRight 16 rhs ++ " " ++ braced p.predict

end PredictionTable

end StepCalc

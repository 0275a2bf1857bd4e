import StepCalc.Grammar.Basic
import StepCalc.Text.Counting

/-!
# What can start and follow a nonterminal

For each nonterminal an `Analysis` says whether it derives the empty sequence (`nullable`), which
terminals can start what it derives (`first`) and which can come right after it (`follow`).

The three are found together. One `pass` visits the rules in order and adds to the entry of each
rule what the entries known so far justify, the ones changed earlier in the same pass included.
Entries only grow, so a pass that leaves the `weight` as it was has changed nothing, and there are
at most `passLimit` passes. A `step` is a pass that says so itself: it compares the number of facts
at each addition.
-/

namespace StepCalc

/-- What is known about one nonterminal. -/
structure Traits where
  nullable : Bool
  first : TerminalSet
  follow : TerminalSet
deriving DecidableEq

namespace Traits

def none : Traits := ⟨false, ∅, ∅⟩

/-- Whether `later` holds all that `earlier` holds. -/
def includes (later earlier : Traits) : Bool :=
  (later.nullable || !earlier.nullable) && later.first.includes earlier.first
    && later.follow.includes earlier.follow

/-- The number of facts: one for `nullable`, and one for each member of the two sets. -/
def weight (t : Traits) : Nat := t.nullable.toNat + t.first.size + t.follow.size

end Traits

/-- The traits of each nonterminal, in grammar order. -/
structure Analysis where
  entries : List (String × Traits)
deriving DecidableEq

namespace Analysis

def get? (a : Analysis) (name : String) : Option Traits := a.entries.lookup name

/-- The analysis with the traits of `name` changed by `f`. -/
def modify (a : Analysis) (name : String) (f : Traits → Traits) : Analysis :=
  ⟨a.entries.map fun entry => if entry.1 = name then (entry.1, f entry.2) else entry⟩

/-- The number of facts in the entry of `name`. -/
def factsAbout (a : Analysis) (name : String) : Nat := ((a.get? name).map Traits.weight).getD 0

def weight (a : Analysis) : Nat := total (a.entries.map fun entry => entry.2.weight)

/-- The terminals that can start what a sequence derives, and whether it derives the empty
sequence. The sequence counts up to its first symbol that is not nullable. -/
def firstOf (a : Analysis) : List String → TerminalSet × Bool
  | [] => (∅, true)
  | s :: rest =>
    match a.get? s with
    | none => (.singleton s, false)
    | some traits =>
      if traits.nullable then
        let (first, nullable) := a.firstOf rest
        (traits.first ∪ first, nullable)
      else (traits.first, false)

end Analysis

/-- An analysis in the course of a pass, with a note whether the pass has found anything new. -/
structure Survey where
  analysis : Analysis
  changed : Bool
deriving DecidableEq

/-- Lets `add` add facts to the entry of `name`, and notes whether there are more of them now. -/
def Survey.noting (name : String) (add : Analysis → Analysis) (s : Survey) : Survey :=
  let next := add s.analysis
  ⟨next, s.changed || next.factsAbout name != s.analysis.factsAbout name⟩

namespace Grammar

variable (g : Grammar)

/-! ## One pass -/

/-- Marks the rule's nonterminal as nullable if one of its alternatives is. -/
def visitNullable (rule : Rule) (a : Analysis) : Analysis :=
  a.modify rule.name fun traits =>
    { traits with
      nullable := traits.nullable || rule.alternatives.any fun rhs => (a.firstOf rhs).2 }

/-- Adds what can start one alternative. -/
def visitFirst (rule : Rule) (a : Analysis) (rhs : List String) : Analysis :=
  a.modify rule.name fun traits => { traits with first := traits.first ∪ (a.firstOf rhs).1 }

/-- Adds what can follow in one right context: what can start the trailer and, if the trailer can
vanish, what can follow the left-hand side. -/
def visitFollow (rule : Rule) (a : Analysis) (context : RightContext) : Analysis :=
  let (first, nullable) := a.firstOf context.trailer
  let a := a.modify rule.name fun traits => { traits with follow := traits.follow ∪ first }
  match nullable, a.get? context.lhs with
  | true, some outer =>
    a.modify rule.name fun traits => { traits with follow := traits.follow ∪ outer.follow }
  | _, _ => a

/-- Adds to the entry of one rule all that the analysis justifies. -/
def visit (a : Analysis) (rule : Rule) : Analysis :=
  let a := visitNullable rule a
  let a := rule.alternatives.foldl (visitFirst rule) a
  (g.rightContexts rule.name).foldl (visitFollow rule) a

/-- Visits every rule once, in order. -/
def pass (a : Analysis) : Analysis := g.rules.foldl g.visit a

/-- A visit to one rule that notes what each addition finds. -/
def survey (s : Survey) (rule : Rule) : Survey :=
  let s := s.noting rule.name (visitNullable rule)
  let s := rule.alternatives.foldl (fun s rhs => s.noting rule.name (visitFirst rule · rhs)) s
  (g.rightContexts rule.name).foldl
    (fun s context => s.noting rule.name (visitFollow rule · context)) s

/-- One pass, and whether it has changed anything. -/
def step (a : Analysis) : Survey := g.rules.foldl g.survey ⟨a, false⟩

/-! ## To the fixed point -/

/-- The analysis that knows nothing. -/
def blankAnalysis : Analysis := ⟨g.rules.map fun rule => (rule.name, .none)⟩

/-- No more passes than this are needed: each but the last finds a new fact, and there are
`n` facts on nullability and `2 n t` on membership for `n` rules and `t` terminals. -/
def passLimit : Nat :=
  g.rules.length + 2 * g.rules.length * g.terminals.size + 1

/-- The analyses after one, two, … passes, up to the first pass that finds nothing new. -/
def climb : Nat → Analysis → List Analysis
  | 0, _ => []
  | limit + 1, a =>
    let next := g.pass a
    if next.weight = a.weight then [next] else next :: climb limit next

/-- The analyses after each pass over a grammar about which nothing is known. -/
def passes : List Analysis := g.climb g.passLimit g.blankAnalysis

/-- All that can be known about the nonterminals. -/
def analysis : Analysis := g.passes.getLastD g.blankAnalysis

/-- The number of passes, the last one that finds nothing included. -/
def passCount : Nat := g.passes.length

end Grammar

end StepCalc

import StepCalc.Grammar.TerminalSet

/-!
# Grammars

A grammar is an ordered list of rules, each with the ordered alternatives of one nonterminal. A
symbol is a nonterminal if it names a rule and a terminal otherwise; the first rule names the
start symbol. `Grammar.ofRules` accepts a list of rules exactly when it is not empty, no name is
declared twice and no symbol is empty, and otherwise says what is wrong with the first rule that
breaks this.
-/

namespace StepCalc

/-- One nonterminal with its alternatives. -/
structure Rule where
  name : String
  alternatives : List (List String)
deriving DecidableEq, Repr

namespace Rule

/-- Every symbol on the right-hand sides, in order. -/
def symbols (rule : Rule) : List String := rule.alternatives.flatten

/-- Neither the name nor a symbol on a right-hand side is empty. -/
def Named (rule : Rule) : Prop := rule.name ≠ "" ∧ ∀ s ∈ rule.symbols, s ≠ ""

instance (rule : Rule) : Decidable rule.Named := inferInstanceAs (Decidable (_ ∧ _))

end Rule

/-- Why rules, or a text, make no grammar. -/
inductive GrammarError where
  | noRules
  | duplicate (name : String)
  | emptySymbol (rule : String)
  | malformedText
deriving DecidableEq, Repr

def GrammarError.message : GrammarError → String
  | .noRules => "grammar has no rules"
  | .duplicate name => s!"nonterminal '{name}' is declared more than once"
  | .emptySymbol rule => s!"rule '{rule}' contains an empty symbol name"
  | .malformedText => "invalid grammar JSON"

/-- A validated grammar. -/
structure Grammar where
  rules : List Rule
  nonempty : rules ≠ []
  distinct : (rules.map Rule.name).Nodup
  named : ∀ rule ∈ rules, rule.Named

namespace Grammar

/-! ## Validation -/

/-- The fault of the first rule that repeats a name, one in `seen` included, or has an empty
symbol; a repeated name counts first. -/
def firstFault? (seen : List String) : List Rule → Option GrammarError
  | [] => none
  | rule :: rest =>
    if rule.name ∈ seen then some (.duplicate rule.name)
    else if ¬ rule.Named then some (.emptySymbol rule.name)
    else firstFault? (rule.name :: seen) rest

theorem firstFault?_eq_none_iff {seen : List String} {rules : List Rule} :
    firstFault? seen rules = none ↔
      (rules.map Rule.name).Nodup ∧ (∀ rule ∈ rules, rule.name ∉ seen) ∧
        ∀ rule ∈ rules, rule.Named := by
  induction rules generalizing seen with
  | nil => simp [firstFault?]
  | cons rule rest ih =>
    unfold firstFault?
    split
    case isTrue h => simp [h]
    case isFalse h =>
      split
      case isTrue hn => simp [hn]
      case isFalse hn =>
        rw [ih]
        simp only [List.map_cons, List.nodup_cons, List.mem_map, List.mem_cons, not_exists, not_and,
          not_or, forall_eq_or_imp]
        constructor
        · rintro ⟨h₁, h₂, h₃⟩
          exact ⟨⟨fun r hr => (h₂ r hr).1, h₁⟩, ⟨h, fun r hr => (h₂ r hr).2⟩,
            Decidable.not_not.mp hn, h₃⟩
        · rintro ⟨⟨h₁, h₂⟩, ⟨_, h₃⟩, _, h₄⟩
          exact ⟨h₂, fun r hr => ⟨h₁ r hr, h₃ r hr⟩, h₄⟩

/-- The grammar with the given rules, or the first reason why there is none. -/
def ofRules (rules : List Rule) : Except GrammarError Grammar :=
  if hne : rules = [] then .error .noRules
  else
    match h : firstFault? [] rules with
    | some fault => .error fault
    | none =>
      have hvalid := firstFault?_eq_none_iff.mp h
      .ok ⟨rules, hne, hvalid.1, hvalid.2.2⟩

/-! ## Symbols -/

variable (g : Grammar)

/-- The declared names, in order. -/
def names : List String := g.rules.map Rule.name

def start : String := (g.rules.head g.nonempty).name

def isNonterminal (s : String) : Bool := g.names.contains s

/-- Every symbol that occurs on a right-hand side and names no rule. -/
def terminals : TerminalSet :=
  TerminalSet.without (g.rules.flatMap Rule.symbols) g.names

/-- The place of the rule named `s`. -/
def position? (s : String) : Option Nat := g.names.idxOf? s

def alternatives? (s : String) : Option (List (List String)) :=
  (g.rules.find? fun rule => rule.name == s).map Rule.alternatives

/-! ## Right contexts -/

/-- An occurrence of a nonterminal on a right-hand side of `lhs`, seen from the right: `trailer`
is what follows it there. -/
structure RightContext where
  lhs : String
  trailer : List String
deriving DecidableEq, Repr

/-- Each symbol of a sequence with the symbols after it. -/
def occurrences : List String → List (String × List String)
  | [] => []
  | s :: rest => (s, rest) :: occurrences rest

/-- The right contexts of `s`, by rule, alternative and place; one that occurs again is listed at
its first occurrence only. -/
def rightContexts (s : String) : List RightContext :=
  (g.rules.flatMap fun rule =>
    rule.alternatives.flatMap fun rhs =>
      (occurrences rhs).filterMap fun (symbol, trailer) =>
        if symbol = s then some ⟨rule.name, trailer⟩ else none).eraseDups

/-- The right contexts found so far, under their nonterminals. -/
structure ContextTable where
  entries : List (String × List RightContext)
  /-- What has been entered, as pairs of a nonterminal and a right context. -/
  seen : List (String × RightContext)
deriving DecidableEq, Repr

namespace ContextTable

def empty : ContextTable := ⟨[], []⟩

def get? (t : ContextTable) (s : String) : Option (List RightContext) := t.entries.lookup s

/-- Appends to the entry of `s`, which is added at the end if there is none. -/
def appendUnder (s : String) (context : RightContext) :
    List (String × List RightContext) → List (String × List RightContext)
  | [] => [(s, [context])]
  | (name, contexts) :: rest =>
    if name = s then (name, contexts ++ [context]) :: rest
    else (name, contexts) :: appendUnder s context rest

/-- Enters a right context of `s`, unless it has been entered before. -/
def enter (t : ContextTable) (s : String) (context : RightContext) : ContextTable :=
  if (s, context) ∈ t.seen then t
  else ⟨appendUnder s context t.entries, (s, context) :: t.seen⟩

end ContextTable

/-- The right contexts of all nonterminals, entered in one pass by rule, alternative and place. -/
def contextTable : ContextTable :=
  g.rules.foldl (fun t rule =>
    rule.alternatives.foldl (fun t rhs =>
      (occurrences rhs).foldl (fun t (symbol, trailer) =>
        if g.isNonterminal symbol then t.enter symbol ⟨rule.name, trailer⟩ else t) t) t) .empty

/-- The right contexts of every nonterminal that has any, in grammar order. -/
def contexts : List (String × List RightContext) :=
  g.names.filterMap fun name => (g.contextTable.get? name).map fun contexts => (name, contexts)

end Grammar

end StepCalc

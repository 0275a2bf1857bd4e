import Mathlib.Data.List.Nodup
import StepCalc.Grammar.Basic

/-!
# Validation

A list of rules is in order if no name is declared twice and no symbol is empty. `Grammar.ofRules`
accepts just the lists that are in order and have a rule (`ofRules_eq_ok_iff`). For any other list it
names the first rule at fault (`ofRules_eq_error_iff`): the rules before it are in order, and with
it they are not.

In an accepted grammar the place of a name, the alternatives under it and the sorted terminals agree
on every symbol (`validation_exact`).
-/

namespace StepCalc

namespace Grammar

/-- No name is declared twice, and no symbol is empty. -/
structure InOrder (rules : List Rule) : Prop where
  distinct : (rules.map Rule.name).Nodup
  named : ∀ rule ∈ rules, rule.Named

/-- `error` says what is wrong with `rule` after the `earlier` ones. A repeated name counts first. -/
def Blames (earlier : List Rule) (rule : Rule) (error : GrammarError) : Prop :=
  rule.name ∈ earlier.map Rule.name ∧ error = .duplicate rule.name ∨
    rule.name ∉ earlier.map Rule.name ∧ ¬ rule.Named ∧ error = .emptySymbol rule.name

variable {rules earlier : List Rule} {rule : Rule} {error : GrammarError}

/-! ## One more rule -/

theorem inOrder_nil : InOrder [] := ⟨List.nodup_nil, fun _ h => absurd h List.not_mem_nil⟩

theorem inOrder_concat : InOrder (earlier ++ [rule]) ↔
    InOrder earlier ∧ rule.name ∉ earlier.map Rule.name ∧ rule.Named := by
  constructor
  · rintro ⟨hdistinct, hnamed⟩
    rw [List.map_append, List.map_singleton, List.nodup_append_comm] at hdistinct
    obtain ⟨hnew, hrest⟩ := List.nodup_cons.mp hdistinct
    exact ⟨⟨hrest, fun r hr => hnamed r (List.mem_append_left [rule] hr)⟩, hnew,
      hnamed rule List.mem_concat_self⟩
  · rintro ⟨⟨hdistinct, hnamed⟩, hnew, hrule⟩
    refine ⟨?_, fun r hr => ?_⟩
    · rw [List.map_append, List.map_singleton, List.nodup_append_comm]
      exact List.nodup_cons.mpr ⟨hnew, hdistinct⟩
    · rcases List.mem_append.mp hr with hr | hr
      · exact hnamed r hr
      · rwa [List.mem_singleton.mp hr]

theorem InOrder.of_append {later : List Rule} (h : InOrder (earlier ++ later)) :
    InOrder earlier where
  distinct := (List.map_append ▸ h.distinct).of_append_left
  named := fun r hr => h.named r (List.mem_append_left later hr)

/-- A rule at fault does not come among rules that are in order. -/
theorem Blames.not_inOrder (h : Blames earlier rule error) (later : List Rule) :
    ¬ InOrder (earlier ++ rule :: later) := by
  intro horder
  rw [List.append_cons] at horder
  obtain ⟨_, hnew, hnamed⟩ := inOrder_concat.mp horder.of_append
  rcases h with ⟨hrepeated, _⟩ | ⟨_, hempty, _⟩
  · exact hnew hrepeated
  · exact hempty hnamed

theorem Blames.unique {other : GrammarError} (h : Blames earlier rule error)
    (hother : Blames earlier rule other) : error = other := by
  rcases h with ⟨hrepeated, rfl⟩ | ⟨hnew, _, rfl⟩
  · rcases hother with ⟨_, rfl⟩ | ⟨hnew, _⟩
    · rfl
    · exact absurd hrepeated hnew
  · rcases hother with ⟨hrepeated, _⟩ | ⟨_, _, rfl⟩
    · exact absurd hrepeated hnew
    · rfl

/-! ## The first fault -/

/-- `error` says what is wrong with the first of some rules that is at fault, after the `earlier`
ones. -/
def FirstFault (earlier rules : List Rule) (error : GrammarError) : Prop :=
  ∃ between rule later, rules = between ++ rule :: later ∧ InOrder (earlier ++ between) ∧
    Blames (earlier ++ between) rule error

theorem not_firstFault_nil : ¬ FirstFault earlier [] error := by
  rintro ⟨between, rule, later, hsplit, _⟩
  cases between <;> cases hsplit

/-- The search ends at a rule that is at fault. -/
theorem firstFault_cons_of_blames {fault : GrammarError} (hearlier : InOrder earlier)
    (hfault : Blames earlier rule fault) :
    FirstFault earlier (rule :: rules) error ↔ fault = error := by
  constructor
  · rintro ⟨between, next, later, hsplit, horder, hblames⟩
    cases between with
    | nil =>
      cases hsplit
      rw [List.append_nil] at hblames
      exact hfault.unique hblames
    | cons first between =>
      cases hsplit
      exact absurd horder (hfault.not_inOrder between)
  · rintro rfl
    exact ⟨[], rule, rules, rfl, by rwa [List.append_nil], by rwa [List.append_nil]⟩

/-- The search goes on behind a rule that is not. -/
theorem firstFault_cons_of_inOrder (horder : InOrder (earlier ++ [rule])) :
    FirstFault earlier (rule :: rules) error ↔ FirstFault (earlier ++ [rule]) rules error := by
  constructor
  · rintro ⟨between, next, later, hsplit, hbetween, hblames⟩
    cases between with
    | nil =>
      cases hsplit
      rw [List.append_nil] at hblames
      exact absurd horder (hblames.not_inOrder [])
    | cons first between =>
      cases hsplit
      rw [List.append_cons] at hbetween hblames
      exact ⟨between, next, later, rfl, hbetween, hblames⟩
  · rintro ⟨between, next, later, rfl, hbetween, hblames⟩
    rw [← List.append_cons] at hbetween hblames
    exact ⟨rule :: between, next, later, rfl, hbetween, hblames⟩

/-- The names that were seen are those of the `earlier` rules, which are in order. -/
theorem firstFault?_eq_some_iff {seen : List String} (hearlier : InOrder earlier)
    (hseen : ∀ name, name ∈ seen ↔ name ∈ earlier.map Rule.name) :
    firstFault? seen rules = some error ↔ FirstFault earlier rules error := by
  induction rules generalizing seen earlier with
  | nil => exact iff_of_false (fun h => by cases h) not_firstFault_nil
  | cons rule rest ih =>
    unfold firstFault?
    split
    case isTrue hrepeated =>
      rw [hseen] at hrepeated
      rw [firstFault_cons_of_blames hearlier (Or.inl ⟨hrepeated, rfl⟩), Option.some_inj]
    case isFalse hnew =>
      rw [hseen] at hnew
      split
      case isTrue hempty =>
        rw [firstFault_cons_of_blames hearlier (Or.inr ⟨hnew, hempty, rfl⟩), Option.some_inj]
      case isFalse hnamed =>
        have horder : InOrder (earlier ++ [rule]) :=
          inOrder_concat.mpr ⟨hearlier, hnew, Decidable.not_not.mp hnamed⟩
        rw [firstFault_cons_of_inOrder horder]
        exact ih horder (by simp [hseen, or_comm])

theorem firstFault?_nil_eq_none_iff : firstFault? [] rules = none ↔ InOrder rules := by
  rw [firstFault?_eq_none_iff]
  constructor
  · rintro ⟨hdistinct, _, hnamed⟩
    exact ⟨hdistinct, hnamed⟩
  · rintro ⟨hdistinct, hnamed⟩
    exact ⟨hdistinct, fun _ _ => List.not_mem_nil, hnamed⟩

/-! ## Accepted and refused rules -/

theorem ofRules_eq_ok_iff {g : Grammar} :
    ofRules rules = .ok g ↔ g.rules = rules ∧ rules ≠ [] ∧ InOrder rules := by
  unfold ofRules
  constructor
  · intro h
    split at h
    case isTrue => cases h
    case isFalse hne =>
      split at h
      case h_1 => cases h
      case h_2 hnone =>
        cases h
        exact ⟨rfl, hne, firstFault?_nil_eq_none_iff.mp hnone⟩
  · rintro ⟨rfl, hne, horder⟩
    rw [dif_neg hne]
    split
    case h_1 fault hsome =>
      rw [firstFault?_nil_eq_none_iff.mpr horder] at hsome
      cases hsome
    case h_2 => rfl

theorem ofRules_eq_error_iff : ofRules rules = .error error ↔
    rules = [] ∧ error = .noRules ∨ FirstFault [] rules error := by
  have hfirst : firstFault? [] rules = some error ↔ FirstFault [] rules error :=
    firstFault?_eq_some_iff inOrder_nil fun _ => Iff.rfl
  rw [← hfirst]
  unfold ofRules
  split
  case isTrue hnil => simp [hnil, firstFault?, eq_comm]
  case isFalse hne =>
    split
    case h_1 fault hsome => simp [hne, hsome]
    case h_2 hnone => simp [hne, hnone]

/-! ## Symbols -/

variable (g : Grammar)

theorem mem_terminals {s : String} :
    s ∈ g.terminals ↔ (∃ rule ∈ g.rules, s ∈ rule.symbols) ∧ ∀ rule ∈ g.rules, rule.name ≠ s := by
  simp [terminals, names]

/-- The names are distinct, so a name has one place. -/
theorem position?_eq_some_iff {s : String} {i : Nat} :
    g.position? s = some i ↔ (g.rules[i]?).map Rule.name = some s := by
  have hplace : g.position? s = some i ↔ g.names[i]? = some s := by
    rw [position?, List.idxOf?_eq_some_iff, List.getElem?_eq_some_iff]
    constructor
    · rintro ⟨hlt, hname, _⟩
      exact ⟨hlt, hname⟩
    · rintro ⟨hlt, hname⟩
      refine ⟨hlt, hname, fun j hj hsame => ?_⟩
      have hplaces : j = i := (g.distinct.getElem_inj_iff).mp (hsame.trans hname.symm)
      omega
  rw [hplace, names, List.getElem?_map]

theorem isNonterminal_eq_isSome (s : String) : g.isNonterminal s = (g.position? s).isSome := by
  rw [isNonterminal, position?, Bool.eq_iff_iff, List.isSome_idxOf?, List.contains_iff_mem]

theorem alternatives?_eq_bind (s : String) :
    g.alternatives? s = (g.position? s).bind fun i => (g.rules[i]?).map Rule.alternatives := by
  unfold alternatives? position? names
  induction g.rules with
  | nil => rfl
  | cons rule rules ih =>
    rw [List.find?_cons, List.map_cons, List.idxOf?_cons]
    cases rule.name == s with
    | true => rfl
    | false =>
      simp only [Bool.false_eq_true, if_false, ih, Option.bind_map]
      rfl

theorem isNonterminal_eq_false_iff {s : String} :
    g.isNonterminal s = false ↔ ∀ rule ∈ g.rules, rule.name ≠ s := by
  simp [isNonterminal, names]

/-- **Just the rules in order make a grammar, and every symbol is in one class.** A list of rules is
accepted exactly if it is not empty, no name is declared twice, and no name and no symbol on a
right-hand side is empty. The empty list is refused as such; any other list that is refused has a
first rule at fault, and the error names it: it repeats an earlier name or, if not, has an empty
symbol.

An accepted grammar has the given rules. Its terminals are, in strictly increasing order, the
symbols on right-hand sides that name no rule; a name has the place and the alternatives of the one
rule that it names; a symbol is a nonterminal exactly if it has a place. So each symbol on a
right-hand side is either a terminal or a nonterminal. -/
theorem validation_exact (rules : List Rule) :
    ((∃ g, ofRules rules = .ok g) ↔
      rules ≠ [] ∧ (rules.map Rule.name).Nodup ∧
        ∀ rule ∈ rules, rule.name ≠ "" ∧ ∀ s ∈ rule.symbols, s ≠ "") ∧
    (∀ error, ofRules rules = .error error ↔
      rules = [] ∧ error = .noRules ∨
      ∃ earlier rule later, rules = earlier ++ rule :: later ∧ InOrder earlier ∧
        Blames earlier rule error) ∧
    ∀ g, ofRules rules = .ok g →
      g.rules = rules ∧
      g.terminals.toList.Pairwise (· < ·) ∧
      (∀ s, s ∈ g.terminals.toList ↔
        (∃ rule ∈ rules, s ∈ rule.symbols) ∧ ∀ rule ∈ rules, rule.name ≠ s) ∧
      (∀ s i, g.position? s = some i ↔ (rules[i]?).map Rule.name = some s) ∧
      (∀ s, g.alternatives? s =
        (g.position? s).bind fun i => (rules[i]?).map Rule.alternatives) ∧
      (∀ s, g.isNonterminal s = (g.position? s).isSome) ∧
      ∀ rule ∈ rules, ∀ s ∈ rule.symbols,
        (s ∈ g.terminals.toList ↔ g.isNonterminal s = false) := by
  refine ⟨⟨?_, ?_⟩, fun error => ofRules_eq_error_iff, fun g hg => ?_⟩
  · rintro ⟨g, hg⟩
    obtain ⟨_, hne, horder⟩ := ofRules_eq_ok_iff.mp hg
    exact ⟨hne, horder.distinct, horder.named⟩
  · rintro ⟨hne, hdistinct, hnamed⟩
    exact ⟨⟨rules, hne, hdistinct, hnamed⟩, ofRules_eq_ok_iff.mpr ⟨rfl, hne, hdistinct, hnamed⟩⟩
  · obtain ⟨rfl, _⟩ := ofRules_eq_ok_iff.mp hg
    refine ⟨rfl, g.terminals.sorted, fun s => g.mem_terminals, fun s i => g.position?_eq_some_iff,
      g.alternatives?_eq_bind, g.isNonterminal_eq_isSome, fun rule hrule s hs => ?_⟩
    rw [← TerminalSet.mem_def, mem_terminals, isNonterminal_eq_false_iff]
    exact and_iff_right ⟨rule, hrule, hs⟩

/-- A repeated name behind an empty symbol, and both in one rule. -/
def faultyRules : List Rule :=
  [⟨"S", [["a", "S"], []]⟩, ⟨"T", [["b", "S"]]⟩, ⟨"S", [[""]]⟩, ⟨"", [["c"]]⟩]

/-- The third rule is the first at fault, and its repeated name counts before its empty symbol.
Without it the fourth is: its own name is the empty one. The first two make a grammar, in which `S`
has two alternatives and the place of the first rule. -/
theorem validation_exact_faultyRules :
    ofRules faultyRules = .error (.duplicate "S") ∧
    ofRules (faultyRules.eraseIdx 2) = .error (.emptySymbol "") ∧
    ∃ g, ofRules (faultyRules.take 2) = .ok g ∧ g.terminals.toList.Pairwise (· < ·) ∧
      "b" ∈ g.terminals.toList ∧ "S" ∉ g.terminals.toList ∧
      g.position? "S" = some 0 ∧ g.alternatives? "S" = some [["a", "S"], []] := by
  have hthird : ofRules faultyRules = .error (.duplicate "S") := by
    refine ((validation_exact faultyRules).2.1 _).mpr (Or.inr ?_)
    refine ⟨faultyRules.take 2, ⟨"S", [[""]]⟩, faultyRules.drop 3, rfl, ⟨by decide, by decide⟩, ?_⟩
    exact Or.inl ⟨by decide, rfl⟩
  have hfourth : ofRules (faultyRules.eraseIdx 2) = .error (.emptySymbol "") := by
    refine ((validation_exact (faultyRules.eraseIdx 2)).2.1 _).mpr (Or.inr ?_)
    refine ⟨faultyRules.take 2, ⟨"", [["c"]]⟩, [], rfl, ⟨by decide, by decide⟩, ?_⟩
    exact Or.inr ⟨by decide, by decide, rfl⟩
  obtain ⟨hok, _, hsymbols⟩ := validation_exact (faultyRules.take 2)
  obtain ⟨g, hg⟩ := hok.mpr (by decide)
  obtain ⟨_, hsorted, hterminals, hposition, halternatives, _⟩ := hsymbols g hg
  have hplace : g.position? "S" = some 0 := (hposition "S" 0).mpr (by decide)
  refine ⟨hthird, hfourth, g, hg, hsorted, (hterminals "b").mpr (by decide),
    fun h => absurd ((hterminals "S").mp h) (by decide), hplace, ?_⟩
  rw [halternatives, hplace]
  rfl

end Grammar

end StepCalc

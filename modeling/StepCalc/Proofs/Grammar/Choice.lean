import StepCalc.Proofs.Grammar.Conflicts
import StepCalc.Proofs.Grammar.Exactness

/-!
# The chosen alternative

The predict set of an alternative is what can start it and, if it can vanish, what can follow its
nonterminal (`mem_predictSet`). A look-up in the table of a grammar returns the first alternative
whose predict set has the terminal (`lookup?_eq_some_iff`). If the table has no conflicts, it
returns every alternative that the terminal predicts (`firstChoice_of_strict`).
-/

namespace StepCalc

namespace Grammar

variable (g : Grammar)

/-- The alternative `rhs` of `name` with the terminals that predict it. -/
def prediction (name : String) (rhs : List String) : Prediction :=
  PredictionTable.predictionOf g.analysis (PredictionTable.followOf g.analysis name) rhs

def predictSet (name : String) (rhs : List String) : TerminalSet := (g.prediction name rhs).predict

/-- `rhs` is the first alternative of `name`, in the order of the grammar, that `t` predicts. -/
def FirstChoice (name t : String) (rhs : List String) : Prop :=
  ∃ earlier later, g.alternatives? name = some (earlier ++ rhs :: later) ∧
    t ∈ g.predictSet name rhs ∧ ∀ other ∈ earlier, t ∉ g.predictSet name other

variable {g}

/-! ## Predict sets -/

theorem mem_followOf {name t : String} (hname : name ∈ g.names) :
    t ∈ PredictionTable.followOf g.analysis name ↔ g.Follows name t := by
  obtain ⟨traits, hget⟩ := g.sound_analysis.exists_get? hname
  unfold PredictionTable.followOf
  rw [hget]
  exact mem_follow_analysis hget

theorem mem_predictSet {name t : String} {rhs : List String} (hname : name ∈ g.names) :
    t ∈ g.predictSet name rhs ↔ g.Starts rhs t ∨ (g.Derives rhs [] ∧ g.Follows name t) := by
  rw [← mem_firstOf_analysis, ← firstOf_analysis_snd, ← mem_followOf hname]
  unfold predictSet prediction PredictionTable.predictionOf
  simp only
  split
  case isTrue hvanish => simp [hvanish]
  case isFalse hsolid => simp [hsolid]

/-- The predicting terminals have names. -/
theorem ne_empty_of_mem_predictSet {name t : String} {rhs : List String}
    (halt : g.HasAlternative name rhs) (h : t ∈ g.predictSet name rhs) : t ≠ "" := by
  refine ne_empty_of_mem_terminals (g := g) ?_
  rcases (mem_predictSet halt.mem_names).mp h with h | ⟨_, h⟩
  · exact (Starts.of_derives halt.derives h).mem_terminals halt.mem_names
  · exact h.mem_terminals

/-! ## Alternatives by name -/

theorem exists_rule_of_alternatives? {name : String} {alternatives : List (List String)}
    (h : g.alternatives? name = some alternatives) :
    ∃ rule ∈ g.rules, rule.name = name ∧ rule.alternatives = alternatives := by
  obtain ⟨rule, hfind, rfl⟩ := Option.map_eq_some_iff.mp h
  have hname := List.find?_some hfind
  exact ⟨rule, List.mem_of_find?_eq_some hfind, beq_iff_eq.mp hname, rfl⟩

theorem alternatives?_name {rule : Rule} (h : rule ∈ g.rules) :
    g.alternatives? rule.name = some rule.alternatives := by
  have hsome : (g.rules.find? fun r => r.name == rule.name).isSome = true :=
    List.find?_isSome.mpr ⟨rule, h, beq_self_eq_true rule.name⟩
  obtain ⟨found, hfind⟩ := Option.isSome_iff_exists.mp hsome
  have hname := List.find?_some hfind
  have heq : found = rule :=
    List.inj_on_of_nodup_map g.distinct (List.mem_of_find?_eq_some hfind) h (beq_iff_eq.mp hname)
  unfold alternatives?
  rw [hfind, heq]
  rfl

theorem hasAlternative_iff {name : String} {rhs : List String} :
    g.HasAlternative name rhs ↔
      ∃ alternatives, g.alternatives? name = some alternatives ∧ rhs ∈ alternatives := by
  constructor
  · rintro ⟨rule, hrule, rfl, hrhs⟩
    exact ⟨rule.alternatives, alternatives?_name hrule, hrhs⟩
  · rintro ⟨alternatives, halts, hrhs⟩
    obtain ⟨rule, hrule, rfl, rfl⟩ := exists_rule_of_alternatives? halts
    exact ⟨rule, hrule, rfl, hrhs⟩

theorem FirstChoice.hasAlternative {name t : String} {rhs : List String}
    (h : g.FirstChoice name t rhs) : g.HasAlternative name rhs := by
  obtain ⟨earlier, later, halts, _⟩ := h
  exact hasAlternative_iff.mpr ⟨_, halts, List.mem_append_right earlier List.mem_cons_self⟩

theorem FirstChoice.mem_predictSet {name t : String} {rhs : List String}
    (h : g.FirstChoice name t rhs) : t ∈ g.predictSet name rhs := by
  obtain ⟨_, _, _, ht, _⟩ := h
  exact ht

theorem FirstChoice.ne_empty {name t : String} {rhs : List String}
    (h : g.FirstChoice name t rhs) : t ≠ "" :=
  ne_empty_of_mem_predictSet h.hasAlternative h.mem_predictSet

end Grammar

namespace PredictionTable

variable {g : Grammar}

/-! ## The table of a grammar -/

theorem row?_ofGrammar (g : Grammar) (name : String) :
    (ofGrammar g).row? name = (g.alternatives? name).map fun alternatives =>
      alternatives.map (g.prediction name) := by
  show List.lookup name (g.rules.map fun rule =>
    (rule.name, rule.alternatives.map (g.prediction rule.name))) = _
  unfold Grammar.alternatives?
  induction g.rules with
  | nil => rfl
  | cons rule rules ih =>
    rw [List.map_cons, List.lookup_cons, List.find?_cons]
    by_cases hname : name = rule.name
    · subst hname
      simp
    · rw [beq_false_of_ne hname, beq_false_of_ne (Ne.symm hname)]
      exact ih

theorem isNonterminal_ofGrammar {s : String} :
    (ofGrammar g).isNonterminal s = true ↔ s ∈ g.names := by
  unfold isNonterminal
  rw [row?_ofGrammar, Option.isSome_map]
  constructor
  · intro h
    obtain ⟨alternatives, halts⟩ := Option.isSome_iff_exists.mp h
    obtain ⟨rule, hrule, rfl, _⟩ := Grammar.exists_rule_of_alternatives? halts
    exact Grammar.name_mem_names hrule
  · intro h
    obtain ⟨rule, hrule, rfl⟩ := List.mem_map.mp h
    rw [Grammar.alternatives?_name hrule]
    rfl

/-- A look-up finds the first alternative that the terminal predicts. -/
theorem lookup?_eq_some_iff {name t : String} {rhs : List String} :
    (ofGrammar g).lookup? name t = some rhs ↔ g.FirstChoice name t rhs := by
  unfold lookup? choose?
  rw [row?_ofGrammar]
  constructor
  · intro h
    obtain ⟨predictions, hrow, hchoose⟩ := Option.bind_eq_some_iff.mp h
    obtain ⟨alternatives, halts, rfl⟩ := Option.map_eq_some_iff.mp hrow
    obtain ⟨p, hfind, rfl⟩ := Option.map_eq_some_iff.mp hchoose
    obtain ⟨hp, before, after, hsplit, hbefore⟩ := List.find?_eq_some_iff_append.mp hfind
    obtain ⟨earlier, rest, rfl, rfl, hrest⟩ := List.map_eq_append_iff.mp hsplit
    obtain ⟨rhs, later, rfl, rfl, rfl⟩ := List.map_eq_cons_iff.mp hrest
    refine ⟨earlier, later, halts, TerminalSet.contains_iff.mp hp, fun other hother ht => ?_⟩
    have hnot := hbefore (g.prediction name other) (List.mem_map_of_mem hother)
    rw [Bool.not_eq_true'] at hnot
    exact Bool.eq_false_iff.mp hnot (TerminalSet.contains_iff.mpr ht)
  · rintro ⟨earlier, later, halts, ht, hearlier⟩
    rw [halts]
    refine Option.map_eq_some_iff.mpr ⟨g.prediction name rhs, ?_, rfl⟩
    refine List.find?_eq_some_iff_append.mpr ⟨TerminalSet.contains_iff.mpr ht,
      earlier.map (g.prediction name), later.map (g.prediction name), ?_, fun p hp => ?_⟩
    · exact List.map_append
    · obtain ⟨other, hother, rfl⟩ := List.mem_map.mp hp
      have hnot := mt TerminalSet.contains_iff.mp (hearlier other hother)
      rw [Bool.not_eq_true']
      exact Bool.eq_false_iff.mpr hnot

/-- In a table without conflicts the alternatives of a nonterminal share no terminals. -/
theorem pairwise_apart_of_strict {table : PredictionTable} (h : strict g = .ok table)
    {name : String} {alternatives : List (List String)}
    (halts : g.alternatives? name = some alternatives) :
    (alternatives.map (g.prediction name)).Pairwise Apart := by
  have hapart := (conflicts_eq_nil_iff (distinct_ofGrammar g)).mp (strict_eq_ok h).2 name
  unfold rowsOf at hapart
  rwa [row?_ofGrammar, halts] at hapart

end PredictionTable

namespace Grammar

variable {g : Grammar}

theorem FirstChoice.unique {name t : String} {rhs rhs' : List String}
    (h : g.FirstChoice name t rhs) (h' : g.FirstChoice name t rhs') : rhs = rhs' := by
  rw [← PredictionTable.lookup?_eq_some_iff] at h h'
  rw [h] at h'
  exact Option.some.inj h'

/-- A terminal that predicts an alternative predicts a first one. -/
theorem exists_split_of_mem_predictSet {name t : String} {rhs : List String}
    {alternatives : List (List String)} (hrhs : rhs ∈ alternatives)
    (ht : t ∈ g.predictSet name rhs) :
    ∃ earlier chosen later, alternatives = earlier ++ chosen :: later ∧
      t ∈ g.predictSet name chosen ∧ ∀ other ∈ earlier, t ∉ g.predictSet name other := by
  induction alternatives with
  | nil => cases hrhs
  | cons head rest ih =>
    by_cases hhead : t ∈ g.predictSet name head
    · exact ⟨[], head, rest, rfl, hhead, fun _ h => absurd h List.not_mem_nil⟩
    · rcases List.mem_cons.mp hrhs with rfl | hrhs
      · exact absurd ht hhead
      · obtain ⟨earlier, chosen, later, rfl, hchosen, hearlier⟩ := ih hrhs
        refine ⟨head :: earlier, chosen, later, rfl, hchosen, fun other hother => ?_⟩
        rcases List.mem_cons.mp hother with rfl | hother
        · exact hhead
        · exact hearlier other hother

/-- **Without conflicts prediction is choice.** Every alternative that a terminal predicts is the
first one that it predicts. -/
theorem firstChoice_of_strict {table : PredictionTable} (hstrict : PredictionTable.strict g = .ok table)
    {name t : String} {rhs : List String} (halt : g.HasAlternative name rhs)
    (ht : t ∈ g.predictSet name rhs) : g.FirstChoice name t rhs := by
  obtain ⟨rule, hrule, rfl, hrhs⟩ := halt
  obtain ⟨earlier, chosen, later, hsplit, hchosen, hearlier⟩ :=
    exists_split_of_mem_predictSet hrhs ht
  have halts := alternatives?_name hrule
  rw [hsplit] at halts
  rw [hsplit] at hrhs
  rcases List.mem_append.mp hrhs with hrhs | hrhs
  · exact absurd ht (hearlier rhs hrhs)
  · rcases List.mem_cons.mp hrhs with rfl | hrhs
    · exact ⟨earlier, later, halts, ht, hearlier⟩
    · -- a second alternative with this terminal would be a conflict
      have hapart := PredictionTable.pairwise_apart_of_strict hstrict halts
      rw [List.map_append, List.map_cons, List.pairwise_append, List.pairwise_cons] at hapart
      have hmem := List.mem_map_of_mem (f := g.prediction rule.name) hrhs
      exact absurd ht (hapart.2.1.1 _ hmem t hchosen)

end Grammar

end StepCalc

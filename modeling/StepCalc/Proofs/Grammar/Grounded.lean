import StepCalc.Proofs.Grammar.Choice

/-!
# Left recursion without conflicts

A grammar may be left-recursive and still have no conflicts. With a fixed next terminal `t`, a
nonterminal leads to a symbol if its chosen alternative has the symbol behind a part that `t` does
not start (`LeadsTo`). In a table without conflicts no nonterminal leads to itself, in any number
of steps (`not_transGen_leadsTo`):

1. if a nonterminal can vanish before `t`, its chosen alternative is the one by which it vanishes,
   so each symbol to which it leads vanishes by a smaller derivation (`grounded_of_vanishing`);
2. if `t` can start a nonterminal, its chosen alternative is the one that `t` starts, so each symbol
   to which it leads is started by `t` in a smaller derivation, or vanishes before `t`
   (`grounded_of_starting`).

Derivations are compared as trees (`Unfolds`).
-/

namespace StepCalc.Grammar

variable {g : Grammar}

/-! ## Leading to a symbol -/

/-- With the next terminal `t`, the alternative chosen for `name` has `s` behind a part that `t`
does not start. -/
def LeadsTo (g : Grammar) (t name s : String) : Prop :=
  ∃ before after, g.FirstChoice name t (before ++ s :: after) ∧ ¬ g.Starts before t

/-- With the next terminal `t`, no endless sequence of symbols that lead to one another begins with
`s`. -/
def Grounded (g : Grammar) (t s : String) : Prop := Acc (Function.swap (g.LeadsTo t)) s

theorem grounded_terminal {t s : String} (hs : s ∉ g.names) : g.Grounded t s := by
  refine Acc.intro s fun next hnext => ?_
  obtain ⟨before, after, hchoice, _⟩ := hnext
  exact absurd hchoice.hasAlternative.mem_names hs

/-- Without conflicts, the alternative that `t` predicts is the chosen one. -/
theorem grounded_of_alternative {table : PredictionTable}
    (hstrict : PredictionTable.strict g = .ok table) {t name : String} {rhs : List String}
    (halt : g.HasAlternative name rhs) (ht : t ∈ g.predictSet name rhs)
    (h : ∀ before s after, rhs = before ++ s :: after → ¬ g.Starts before t → g.Grounded t s) :
    g.Grounded t name := by
  refine Acc.intro name fun s hs => ?_
  obtain ⟨before, after, hchoice, hbefore⟩ := hs
  have hrhs := (firstChoice_of_strict hstrict halt ht).unique hchoice
  exact h before s after hrhs hbefore

/-- Without conflicts, symbols that vanish before `t` are grounded. -/
theorem grounded_of_vanishing {table : PredictionTable}
    (hstrict : PredictionTable.strict g = .ok table) {t : String} {w v : List String}
    (h : g.Unfolds w v) (hv : v = []) : ∀ s ∈ w, g.Follows s t → g.Grounded t s := by
  induction h with
  | nil => exact fun s hs => absurd hs List.not_mem_nil
  | keep s _ _ => cases hv
  | @expand name rhs u v w halt hinner _ ih₁ ih₂ =>
    obtain ⟨rfl, rfl⟩ := List.append_eq_nil_iff.mp hv
    intro s hs hfollows
    rcases List.mem_cons.mp hs with rfl | hs
    · have ht : t ∈ g.predictSet s rhs :=
        (mem_predictSet halt.mem_names).mpr (Or.inr ⟨hinner.derives, hfollows⟩)
      refine grounded_of_alternative hstrict halt ht fun before next after hrhs _ => ?_
      subst hrhs
      -- what follows the alternative follows each symbol of it, since the rest vanishes
      have hafter : g.Derives after [] :=
        ((Derives.nil_of_append hinner.derives).2.nil_of_append (u := [next])).2
      exact ih₁ rfl next (List.mem_append_right before List.mem_cons_self)
        (.of_follows halt hafter hfollows)
    · exact ih₂ rfl s hs hfollows

/-- Without conflicts, a symbol in a form that `t` starts is grounded if what is before it is not
started by `t`, unless it vanishes and `t` starts what is behind it. -/
theorem grounded_of_starting {table : PredictionTable}
    (hstrict : PredictionTable.strict g = .ok table) {t : String} (hterminal : t ∉ g.names)
    {w v rest : List String} (h : g.Unfolds w v) (hv : v = t :: rest) :
    ∀ before s after, w = before ++ s :: after → ¬ g.Starts before t →
      g.Grounded t s ∨ (g.Derives [s] [] ∧ g.Starts after t) := by
  induction h generalizing rest with
  | nil => cases hv
  | @keep first u v _ _ =>
    cases hv
    intro before s after hw hbefore
    rcases List.cons_eq_append_iff.mp hw with ⟨rfl, hs⟩ | ⟨before', rfl, _⟩
    · cases hs
      exact Or.inl (grounded_terminal hterminal)
    · exact absurd (starts_terminal hterminal before') hbefore
  | @expand name rhs u v w halt hinner hrest ih₁ ih₂ =>
    intro before s after hw hbefore
    rcases List.cons_eq_append_iff.mp hw with ⟨rfl, hs⟩ | ⟨before', rfl, hu⟩
    · obtain ⟨rfl, rfl⟩ := List.cons.inj hs
      rcases List.append_eq_cons_iff.mp hv with ⟨rfl, rfl⟩ | ⟨rest', rfl, _⟩
      · exact Or.inr ⟨halt.derives.trans hinner.derives, hterminal, rest, hrest.derives⟩
      · have hstarts : g.Starts rhs t := ⟨hterminal, rest', hinner.derives⟩
        have ht : t ∈ g.predictSet s rhs := (mem_predictSet halt.mem_names).mpr (Or.inl hstarts)
        refine Or.inl (grounded_of_alternative hstrict halt ht fun before next after hrhs hb => ?_)
        rcases ih₁ rfl before next after hrhs hb with hnext | ⟨hvanish, hafter⟩
        · exact hnext
        · subst hrhs
          exact grounded_of_vanishing hstrict hvanish.unfolds rfl next List.mem_cons_self
            (.of_starts halt hafter)
    · rcases List.append_eq_cons_iff.mp hv with ⟨rfl, rfl⟩ | ⟨rest', rfl, _⟩
      · have hvanish : g.Derives [name] [] := halt.derives.trans hinner.derives
        exact ih₂ rfl before' s after hu fun h => hbefore (h.after hvanish)
      · have hstarts : g.Starts [name] t := ⟨hterminal, rest', halt.derives.trans hinner.derives⟩
        exact absurd (hstarts.append before') hbefore

/-- Without conflicts, what the next terminal predicts is grounded. -/
theorem grounded_of_predicted {table : PredictionTable}
    (hstrict : PredictionTable.strict g = .ok table) {t name : String} {rhs : List String}
    (halt : g.HasAlternative name rhs) (ht : t ∈ g.predictSet name rhs) : g.Grounded t name := by
  rcases (mem_predictSet halt.mem_names).mp ht with hstarts | ⟨hvanish, hfollows⟩
  · obtain ⟨hterminal, rest, hderives⟩ := Starts.of_derives halt.derives hstarts
    rcases grounded_of_starting hstrict hterminal hderives.unfolds rfl [] name [] rfl
        (not_starts_nil t) with hgrounded | ⟨_, hnil⟩
    · exact hgrounded
    · exact absurd hnil (not_starts_nil t)
  · exact grounded_of_vanishing hstrict (halt.derives.trans hvanish).unfolds rfl name
      List.mem_cons_self hfollows

theorem Grounded.not_transGen {t s : String} (h : g.Grounded t s) :
    ¬ Relation.TransGen (g.LeadsTo t) s s := by
  intro hcycle
  rw [← Relation.transGen_swap] at hcycle
  have hacc := Acc.transGen h
  clear h
  induction hacc with
  | intro s _ ih => exact ih s hcycle hcycle

/-- **Without conflicts no nonterminal leads to itself**, whatever terminal comes next. -/
theorem not_transGen_leadsTo {table : PredictionTable}
    (hstrict : PredictionTable.strict g = .ok table) (t name : String) :
    ¬ Relation.TransGen (g.LeadsTo t) name name := by
  intro hcycle
  obtain ⟨_, ⟨before, after, hchoice, _⟩, _⟩ := Relation.TransGen.head'_iff.mp hcycle
  have hgrounded := grounded_of_predicted hstrict hchoice.hasAlternative hchoice.mem_predictSet
  exact hgrounded.not_transGen hcycle

end StepCalc.Grammar

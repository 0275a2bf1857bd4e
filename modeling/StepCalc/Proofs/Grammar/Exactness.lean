import StepCalc.Grammar.Calculator
import StepCalc.Proofs.Grammar.Passes

/-!
# The analysis is exact

What the analysis says is what derivations show, for every grammar: rules that are left-recursive,
unreachable, unproductive or without alternatives included.

One half is soundness (`sound_analysis`). For the other half a derivation is followed backwards:
by closure a form says at least what the form it produces says (`Closed.of_derives`), so a terminal
in front, or an empty form, is seen from the first form on. For what follows a symbol the invariant
is on all occurrences in a form at once (`Closed.covers_of_derives`).
-/

namespace StepCalc

namespace Analysis

variable (a : Analysis)

/-! ## The first terminals of joined sequences -/

theorem firstOf_append_snd (u v : List String) :
    (a.firstOf (u ++ v)).2 = ((a.firstOf u).2 && (a.firstOf v).2) := by
  induction u with
  | nil => rfl
  | cons s rest ih =>
    rw [List.cons_append]
    cases hs : a.get? s with
    | none => rw [firstOf_cons_terminal hs, firstOf_cons_terminal hs, Bool.false_and]
    | some traits =>
      cases hn : traits.nullable with
      | true => rw [firstOf_cons_nullable hs hn, firstOf_cons_nullable hs hn, ih]
      | false => rw [firstOf_cons_solid hs hn, firstOf_cons_solid hs hn, Bool.false_and]

theorem mem_firstOf_append {u v : List String} {t : String} :
    t ∈ (a.firstOf (u ++ v)).1 ↔
      t ∈ (a.firstOf u).1 ∨ ((a.firstOf u).2 = true ∧ t ∈ (a.firstOf v).1) := by
  induction u with
  | nil =>
    rw [List.nil_append]
    exact ⟨fun h => Or.inr ⟨rfl, h⟩, fun h => h.elim (fun h => absurd h (TerminalSet.not_mem_empty t))
      And.right⟩
  | cons s rest ih =>
    rw [List.cons_append]
    cases hs : a.get? s with
    | none => simp [firstOf_cons_terminal hs]
    | some traits =>
      cases hn : traits.nullable with
      | true =>
        rw [firstOf_cons_nullable hs hn, firstOf_cons_nullable hs hn, TerminalSet.mem_union,
          TerminalSet.mem_union, ih, or_assoc]
      | false => simp [firstOf_cons_solid hs hn]

theorem mem_firstOf_single {s t : String} {traits : Traits} (hs : a.get? s = some traits) :
    t ∈ (a.firstOf [s]).1 ↔ t ∈ traits.first := by
  cases hn : traits.nullable with
  | true =>
    rw [firstOf_cons_nullable hs hn, TerminalSet.mem_union]
    exact ⟨fun h => h.elim id fun h => absurd h (TerminalSet.not_mem_empty t), Or.inl⟩
  | false => rw [firstOf_cons_solid hs hn]

theorem firstOf_single_snd {s : String} {traits : Traits} (hs : a.get? s = some traits) :
    (a.firstOf [s]).2 = traits.nullable := by
  cases hn : traits.nullable with
  | true => rw [firstOf_cons_nullable hs hn]; rfl
  | false => rw [firstOf_cons_solid hs hn]

end Analysis

namespace Grammar

variable {g : Grammar} {a : Analysis}

/-! ## Following derivations backwards -/

/-- A form says at least what the form says that it produces. -/
theorem Closed.of_produces (hs : g.Sound a) (hc : g.Closed a) {u v : List String}
    (h : g.Produces u v) :
    (∀ t ∈ (a.firstOf v).1, t ∈ (a.firstOf u).1) ∧
      ((a.firstOf v).2 = true → (a.firstOf u).2 = true) := by
  obtain @⟨before, after, name, rhs, halt⟩ := h
  obtain ⟨traits, hget⟩ := hs.exists_get? halt.mem_names
  have hfirst : ∀ t ∈ (a.firstOf rhs).1, t ∈ (a.firstOf [name]).1 := by
    intro t ht
    exact (a.mem_firstOf_single hget).mpr (hc.first halt hget ht)
  have hnullable : (a.firstOf rhs).2 = true → (a.firstOf [name]).2 = true := by
    intro hvanish
    rw [a.firstOf_single_snd hget]
    exact hc.nullable halt hget hvanish
  rw [show before ++ name :: after = before ++ ([name] ++ after) from rfl]
  constructor
  · intro t ht
    rw [a.mem_firstOf_append, a.mem_firstOf_append] at ht ⊢
    rcases ht with ht | ⟨hb, ht | ⟨hr, ht⟩⟩
    · exact Or.inl ht
    · exact Or.inr ⟨hb, Or.inl (hfirst t ht)⟩
    · exact Or.inr ⟨hb, Or.inr ⟨hnullable hr, ht⟩⟩
  · intro hvanish
    simp only [Analysis.firstOf_append_snd, Bool.and_eq_true] at hvanish ⊢
    exact ⟨hvanish.1, hnullable hvanish.2.1, hvanish.2.2⟩

theorem Closed.of_derives (hs : g.Sound a) (hc : g.Closed a) {u v : List String}
    (h : g.Derives u v) :
    (∀ t ∈ (a.firstOf v).1, t ∈ (a.firstOf u).1) ∧
      ((a.firstOf v).2 = true → (a.firstOf u).2 = true) := by
  induction h with
  | refl => exact ⟨fun _ => id, id⟩
  | tail _ hstep ih =>
    obtain ⟨hfirst, hnullable⟩ := hc.of_produces hs hstep
    exact ⟨fun t ht => ih.1 t (hfirst t ht), fun hv => ih.2 (hnullable hv)⟩

/-- Behind every nonterminal of the form, all that can start the rest is in its follow set. -/
def Covers (a : Analysis) (form : List String) : Prop :=
  ∀ before s after traits, form = before ++ s :: after → a.get? s = some traits →
    ∀ t ∈ (a.firstOf after).1, t ∈ traits.follow

/-- An occurrence in a joined sequence lies in one of the two parts. -/
theorem append_eq_append_cons {u v before after : List String} {s : String}
    (h : u ++ v = before ++ s :: after) :
    (∃ mid, u = before ++ s :: mid ∧ after = mid ++ v) ∨
      ∃ mid, v = mid ++ s :: after ∧ before = u ++ mid := by
  rcases List.append_eq_append_iff.mp h with ⟨mid, hbefore, hv⟩ | ⟨mid, hu, hmid⟩
  · exact Or.inr ⟨mid, hv, hbefore⟩
  · cases mid with
    | nil => exact Or.inr ⟨[], hmid.symm, by rw [hu, List.append_nil, List.append_nil]⟩
    | cons s' mid =>
      obtain ⟨rfl, rfl⟩ := List.cons.inj hmid
      exact Or.inl ⟨mid, hu, rfl⟩

theorem Closed.covers_of_produces (hs : g.Sound a) (hc : g.Closed a) {u v : List String}
    (h : g.Produces u v) (hu : Covers a u) : Covers a v := by
  obtain @⟨left, right, name, rhs, halt⟩ := h
  intro before s after traits hsplit hget t ht
  rcases append_eq_append_cons hsplit with ⟨mid, rfl, rfl⟩ | ⟨mid, hmid, _⟩
  · -- left of the expansion: more could start the rest before it
    refine hu before s (mid ++ name :: right) traits ?_ hget t ?_
    · rw [List.append_assoc, List.cons_append]
    · exact (hc.of_produces hs (Produces.expand mid right halt)).1 t ht
  · rcases append_eq_append_cons hmid with ⟨inner, rfl, rfl⟩ | ⟨inner, rfl, _⟩
    · -- inside of the expansion: what follows it is seen through the rest of the alternative
      rcases a.mem_firstOf_append.mp ht with ht | ⟨hvanish, ht⟩
      · exact hc.follow halt hget ht
      · obtain ⟨outer, houter⟩ := hs.exists_get? halt.mem_names
        exact hc.outer halt hget houter hvanish (hu left name right outer rfl houter t ht)
    · -- right of the expansion: nothing has changed
      refine hu (left ++ name :: inner) s after traits ?_ hget t ht
      rw [List.append_assoc, List.cons_append]

theorem Closed.covers_of_derives (hs : g.Sound a) (hc : g.Closed a) {s : String} {v : List String}
    (h : g.Derives [s] v) : Covers a v := by
  induction h with
  | refl =>
    intro before s' after traits hsplit _ t ht
    have hnil : after = [] := by
      cases before with
      | nil => exact (List.cons.inj hsplit).2.symm
      | cons s'' before => exact absurd (List.cons.inj hsplit).2.symm (by simp)
    rw [hnil] at ht
    exact absurd ht (TerminalSet.not_mem_empty t)
  | tail _ hstep ih => exact hc.covers_of_produces hs hstep ih

/-! ## Exactness -/

theorem mem_firstOf_analysis {w : List String} {t : String} :
    t ∈ (g.analysis.firstOf w).1 ↔ g.Starts w t := by
  constructor
  · exact (g.sound_analysis.firstOf w).1 t
  · rintro ⟨ht, rest, hd⟩
    have hnone := g.sound_analysis.get?_eq_none_iff.mpr ht
    refine (g.closed_analysis.of_derives g.sound_analysis hd).1 t ?_
    rw [Analysis.firstOf_cons_terminal hnone]
    exact TerminalSet.mem_singleton.mpr rfl

theorem firstOf_analysis_snd {w : List String} :
    (g.analysis.firstOf w).2 = true ↔ g.Derives w [] := by
  constructor
  · exact (g.sound_analysis.firstOf w).2
  · intro hd
    exact (g.closed_analysis.of_derives g.sound_analysis hd).2 rfl

theorem nullable_analysis {s : String} {traits : Traits} (h : g.analysis.get? s = some traits) :
    traits.nullable = true ↔ g.Derives [s] [] := by
  rw [← firstOf_analysis_snd, g.analysis.firstOf_single_snd h]

theorem mem_first_analysis {s t : String} {traits : Traits} (h : g.analysis.get? s = some traits) :
    t ∈ traits.first ↔ g.Starts [s] t := by
  rw [← mem_firstOf_analysis, g.analysis.mem_firstOf_single h]

theorem mem_follow_analysis {s t : String} {traits : Traits} (h : g.analysis.get? s = some traits) :
    t ∈ traits.follow ↔ g.Follows s t := by
  constructor
  · exact (g.sound_analysis.justified h).follow t
  · rintro ⟨ht, x, _, before, after, hd⟩
    have hnone := g.sound_analysis.get?_eq_none_iff.mpr ht
    refine g.closed_analysis.covers_of_derives g.sound_analysis hd before s (t :: after) traits rfl h t ?_
    rw [Analysis.firstOf_cons_terminal hnone]
    exact TerminalSet.mem_singleton.mpr rfl

/-- **Exactness of the analysis.** For every nonterminal, `nullable`, `first` and `follow` hold
exactly the facts that derivations show, and so does what is computed from them for a sequence. -/
theorem analysis_exact (g : Grammar) :
    (∀ name ∈ g.names, ∃ traits, g.analysis.get? name = some traits ∧
      (traits.nullable = true ↔ g.Derives [name] []) ∧
      (∀ t, t ∈ traits.first ↔ g.Starts [name] t) ∧
      (∀ t, t ∈ traits.follow ↔ g.Follows name t)) ∧
    ∀ w, (∀ t, t ∈ (g.analysis.firstOf w).1 ↔ g.Starts w t) ∧
      ((g.analysis.firstOf w).2 = true ↔ g.Derives w []) := by
  constructor
  · intro name hname
    obtain ⟨traits, hget⟩ := g.sound_analysis.exists_get? hname
    exact ⟨traits, hget, nullable_analysis hget, fun _ => mem_first_analysis hget,
      fun _ => mem_follow_analysis hget⟩
  · intro w
    exact ⟨fun _ => mem_firstOf_analysis, firstOf_analysis_snd⟩

/-- Lists of statements in the calculator language. -/
theorem analysis_exact_statements :
    "SL" ∈ calculator.names ∧ ∃ traits, calculator.analysis.get? "SL" = some traits ∧
      (traits.nullable = true ↔ calculator.Derives ["SL"] []) ∧
      (∀ t, t ∈ traits.first ↔ calculator.Starts ["SL"] t) ∧
      (∀ t, t ∈ traits.follow ↔ calculator.Follows "SL" t) :=
  ⟨by decide, (analysis_exact calculator).1 "SL" (by decide)⟩

end Grammar

end StepCalc

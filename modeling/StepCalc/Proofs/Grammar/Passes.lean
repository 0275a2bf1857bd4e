import Mathlib.Data.List.Forall2
import StepCalc.Proofs.Grammar.FixedPoint

/-!
# The climb of the passes

The passes go up from the analysis that knows nothing and stop at the first one that changes
nothing.

1. A step notes a change exactly if it makes one (`Sound.changed_step_eq_false_iff`). Each addition
   goes up and touches one entry, so an entry with the same number of facts is the same entry
   (`Sound.eq_of_factsAbout_eq`). The invariant `Notes` carries this through the step.
2. A step that changes nothing is repeated by all later ones (`stepped_add`).
3. Each step but the last adds a fact, and there are no more facts than `Sound.weight_le` allows, so
   the last one comes in time (`exists_climb_eq`). What the passes end with is a fixed point
   (`pass_analysis`), so it is closed (`closed_analysis`).
-/

namespace StepCalc

theorem Traits.includes_iff {later earlier : Traits} :
    later.includes earlier = true ↔ earlier ≤ later := by
  unfold includes
  rw [Bool.and_eq_true, Bool.and_eq_true, TerminalSet.includes_iff, TerminalSet.includes_iff,
    Bool.or_eq_true, Bool.not_eq_true']
  constructor
  · rintro ⟨⟨hnullable, hfirst⟩, hfollow⟩
    refine ⟨fun hearlier => hnullable.resolve_right ?_, hfirst, hfollow⟩
    rw [hearlier]
    exact Bool.noConfusion
  · rintro ⟨hnullable, hfirst, hfollow⟩
    refine ⟨⟨?_, hfirst⟩, hfollow⟩
    cases hearlier : earlier.nullable with
    | false => exact Or.inr rfl
    | true => exact Or.inl (hnullable hearlier)

namespace Analysis

/-- Entry by entry, `later` has the names of `earlier` and includes its facts. -/
def Includes (later earlier : Analysis) : Prop :=
  List.Forall₂ (fun before now => before.1 = now.1 ∧ now.2.includes before.2 = true)
    earlier.entries later.entries

theorem includes_of_le {later earlier : Analysis} (h : earlier ≤ later) : later.Includes earlier :=
  h.imp fun _ _ hentry => ⟨hentry.1, Traits.includes_iff.mpr hentry.2⟩

end Analysis

namespace Grammar

variable {g : Grammar} {a b : Analysis}

/-! ## One addition -/

/-- If all entries but one are the same and that one has no more facts, nothing has changed. -/
theorem Sound.eq_of_factsAbout_eq (ha : g.Sound a) (hb : g.Sound b) (hle : a ≤ b) {name : String}
    (hother : ∀ s, s ≠ name → b.get? s = a.get? s)
    (hfacts : b.factsAbout name = a.factsAbout name) : b = a := by
  obtain ⟨hlength, hentries⟩ := List.forall₂_iff_zip.mp hle
  refine (Analysis.eq_of_entries_eq ?_).symm
  refine List.forall₂_eq_eq_eq ▸ List.forall₂_iff_zip.mpr ⟨hlength, fun {x y} hxy => ?_⟩
  obtain ⟨hx, hy⟩ := List.of_mem_zip hxy
  obtain ⟨hname, htraits⟩ := hentries hxy
  have hgeta := ha.get?_of_mem hx
  have hgetb := hb.get?_of_mem hy
  rw [← hname] at hgetb
  refine Prod.ext hname ?_
  by_cases hx' : x.1 = name
  · refine Traits.Below.eq_of_weight_le htraits (Nat.le_of_eq ?_)
    unfold Analysis.factsAbout at hfacts
    rw [← hx', hgeta, hgetb] at hfacts
    exact hfacts
  · have := hother x.1 hx'
    rw [hgeta, hgetb] at this
    exact (Option.some.inj this).symm

theorem get?_modify_of_ne {s name : String} (h : s ≠ name) (f : Traits → Traits) :
    (a.modify name f).get? s = a.get? s := by
  rw [a.get?_modify, if_neg h]

theorem get?_visitFollow_of_ne {rule : Rule} {s : String} (h : s ≠ rule.name)
    (context : RightContext) : (visitFollow rule a context).get? s = a.get? s := by
  unfold visitFollow
  simp only
  split
  · rw [get?_modify_of_ne h, get?_modify_of_ne h]
  · rw [get?_modify_of_ne h]

/-! ## One step -/

/-- In the course of a step from `start`: the analysis has gone up, and a change is noted exactly if
there has been one. -/
structure Notes (g : Grammar) (start : Analysis) (s : Survey) : Prop where
  sound : g.Sound s.analysis
  le : start ≤ s.analysis
  changed : s.changed = false ↔ s.analysis = start

variable {start : Analysis} {s : Survey}

theorem notes_start (h : g.Sound a) : g.Notes a ⟨a, false⟩ := ⟨h, le_refl a, iff_of_true rfl rfl⟩

theorem Notes.noting (h : g.Notes start s) {name : String} {add : Analysis → Analysis}
    (hsound : g.Sound (add s.analysis)) (hle : s.analysis ≤ add s.analysis)
    (hother : ∀ t, t ≠ name → (add s.analysis).get? t = s.analysis.get? t) :
    g.Notes start (s.noting name add) := by
  refine ⟨hsound, le_trans h.le hle, ?_⟩
  show (s.changed || (add s.analysis).factsAbout name != s.analysis.factsAbout name) = false ↔
    add s.analysis = start
  rw [Bool.or_eq_false_iff, h.changed, bne_eq_false_iff_eq]
  constructor
  · rintro ⟨hstart, hfacts⟩
    rw [h.sound.eq_of_factsAbout_eq hsound hle hother hfacts, hstart]
  · intro hstart
    have hs : s.analysis = start := le_antisymm (hstart ▸ hle) h.le
    exact ⟨hs, by rw [hstart, hs]⟩

theorem Notes.survey (h : g.Notes start s) {rule : Rule} (hrule : rule ∈ g.rules) :
    g.Notes start (g.survey s rule) := by
  unfold Grammar.survey
  refine List.foldlRecOn _ _ (List.foldlRecOn _ _ ?_ fun s hs rhs hrhs => ?_) fun s hs c hc => ?_
  · exact h.noting (h.sound.visitNullable hrule) (le_visitNullable rule _)
      fun t ht => get?_modify_of_ne ht _
  · exact hs.noting (hs.sound.visitFirst hrule hrhs) (le_visitFirst rule _ rhs)
      fun t ht => get?_modify_of_ne ht _
  · exact hs.noting (hs.sound.visitFollow hc) (le_visitFollow rule _ c)
      fun t ht => get?_visitFollow_of_ne ht c

theorem Sound.notes_step (h : g.Sound a) : g.Notes a (g.step a) :=
  List.foldlRecOn _ _ (notes_start h) fun _ hs _ hrule => hs.survey hrule

/-- A step says that it has changed nothing exactly if it has. -/
theorem Sound.changed_step_eq_false_iff (h : g.Sound a) :
    (g.step a).changed = false ↔ (g.step a).analysis = a :=
  h.notes_step.changed

theorem analysis_foldl_noting {α : Type} (name : String) (add : Analysis → α → Analysis)
    (l : List α) (s : Survey) :
    (l.foldl (fun s x => s.noting name (add · x)) s).analysis = l.foldl add s.analysis :=
  (List.foldl_hom Survey.analysis fun _ _ => rfl).symm

theorem analysis_survey (s : Survey) (rule : Rule) :
    (g.survey s rule).analysis = g.visit s.analysis rule := by
  unfold survey visit
  simp only
  rw [analysis_foldl_noting, analysis_foldl_noting]
  rfl

theorem analysis_step (a : Analysis) : (g.step a).analysis = g.pass a :=
  (List.foldl_hom Survey.analysis fun s rule => (analysis_survey s rule).symm).symm

/-! ## Step after step -/

/-- The analysis after the given number of steps. -/
def stepped (g : Grammar) : Nat → Analysis
  | 0 => g.blankAnalysis
  | n + 1 => (g.step (g.stepped n)).analysis

theorem sound_stepped (g : Grammar) (n : Nat) : g.Sound (g.stepped n) := by
  induction n with
  | zero => exact g.sound_blankAnalysis
  | succ n ih => exact ih.notes_step.sound

/-- Behind a step that changes nothing, no step changes anything. -/
theorem stepped_add {n : Nat} (h : (g.step (g.stepped n)).changed = false) (k : Nat) :
    g.stepped (n + k) = g.stepped n := by
  induction k with
  | zero => rfl
  | succ k ih =>
    show (g.step (g.stepped (n + k))).analysis = g.stepped n
    rw [ih]
    exact (g.sound_stepped n).changed_step_eq_false_iff.mp h

theorem step_stepped_add {n : Nat} (h : (g.step (g.stepped n)).changed = false) (k : Nat) :
    g.step (g.stepped (n + k)) = ⟨g.stepped n, false⟩ := by
  have hsame := (g.sound_stepped n).changed_step_eq_false_iff.mp h
  rw [stepped_add h]
  calc g.step (g.stepped n)
      = ⟨(g.step (g.stepped n)).analysis, (g.step (g.stepped n)).changed⟩ := rfl
    _ = ⟨g.stepped n, false⟩ := by rw [hsame, h]

/-- A step notes a change exactly if the number of all facts has changed. -/
theorem Sound.changed_step_eq_false_iff_weight (h : g.Sound a) :
    (g.step a).changed = false ↔ (g.pass a).weight = a.weight := by
  rw [h.changed_step_eq_false_iff, analysis_step]
  constructor
  · intro hsame
    rw [hsame]
  · intro hw
    exact (Analysis.eq_of_weight_le (le_pass a) (Nat.le_of_eq hw)).symm

/-- The passes from the `n`-th one on are the steps up to the first one that changes nothing, if the
limit exceeds the number of the facts that are still to be found. -/
theorem exists_climb_eq {limit n : Nat}
    (hlimit : g.rules.length + 2 * g.rules.length * g.terminals.size <
      (g.stepped n).weight + limit) :
    ∃ m < limit, g.climb limit (g.stepped n) = (List.range' (n + 1) (m + 1)).map g.stepped ∧
      (∀ k < m, (g.step (g.stepped (n + k))).changed = true) ∧
      (g.step (g.stepped (n + m))).changed = false := by
  have hsound := g.sound_stepped n
  induction limit generalizing n with
  | zero =>
    have := hsound.weight_le
    omega
  | succ limit ih =>
    have hnext : g.stepped (n + 1) = g.pass (g.stepped n) := analysis_step _
    have hle := Analysis.weight_le_weight (le_pass (g := g) (g.stepped n))
    unfold climb
    simp only
    rw [← hnext] at hle ⊢
    split
    case isTrue hw =>
      rw [hnext] at hw
      exact ⟨0, Nat.succ_pos limit, rfl, fun k hk => absurd hk (Nat.not_lt_zero k),
        hsound.changed_step_eq_false_iff_weight.mpr hw⟩
    case isFalse hw =>
      obtain ⟨m, hm, hclimb, hchanged, hend⟩ := ih (by omega) (g.sound_stepped (n + 1))
      refine ⟨m + 1, Nat.succ_lt_succ hm, ?_, fun k hk => ?_, ?_⟩
      · rw [hclimb]
        rfl
      · cases k with
        | zero =>
          rw [hnext] at hw
          exact (Bool.not_eq_false _).mp (mt hsound.changed_step_eq_false_iff_weight.mp hw)
        | succ k =>
          have := hchanged k (by omega)
          rwa [Nat.add_right_comm, Nat.add_assoc] at this
      · rwa [Nat.add_right_comm, Nat.add_assoc] at hend

/-- The analysis of a grammar is found by the steps up to the first one that changes nothing. -/
theorem exists_analysis_eq (g : Grammar) :
    ∃ m < g.passLimit, g.passCount = m + 1 ∧ g.analysis = g.stepped (m + 1) ∧
      (∀ k < m, (g.step (g.stepped k)).changed = true) ∧
      (g.step (g.stepped m)).changed = false := by
  have hlimit : g.rules.length + 2 * g.rules.length * g.terminals.size <
      (g.stepped 0).weight + g.passLimit := by
    unfold passLimit
    omega
  obtain ⟨m, hm, hclimb, hchanged, hend⟩ := exists_climb_eq hlimit
  simp only [Nat.zero_add] at hclimb hchanged hend
  have hpasses : g.passes = (List.range' 1 (m + 1)).map g.stepped := hclimb
  refine ⟨m, hm, ?_, ?_, hchanged, hend⟩
  · unfold passCount
    rw [hpasses, List.length_map, List.length_range']
  · unfold analysis
    rw [hpasses, List.range'_concat, List.map_append, List.map_singleton, List.getLastD_concat,
      Nat.one_mul, Nat.add_comm]

/-! ## The end of the steps -/

theorem sound_analysis (g : Grammar) : g.Sound g.analysis := by
  obtain ⟨m, _, _, hanalysis, _⟩ := g.exists_analysis_eq
  rw [hanalysis]
  exact g.sound_stepped (m + 1)

/-- **The fixed point.** A further pass does not change the analysis. -/
theorem pass_analysis (g : Grammar) : g.pass g.analysis = g.analysis := by
  obtain ⟨m, _, _, hanalysis, _, hend⟩ := g.exists_analysis_eq
  rw [hanalysis, ← analysis_step]
  exact (stepped_add hend 2).trans (stepped_add hend 1).symm

theorem closed_analysis (g : Grammar) : g.Closed g.analysis :=
  closed_of_pass_eq g.sound_analysis g.pass_analysis

/-- **The passes climb and stop.** After any number of steps, the next one keeps all facts and says
that it has changed nothing exactly if it has; then no later one changes anything. The sets have
terminals of the grammar only. The analysis of a grammar is found by taking steps up to the first
one that changes nothing, and for `n` rules and `t` terminals these are at most `n + 2 n t + 1`. -/
theorem passes_climb_and_stop (g : Grammar) :
    (∀ n, (g.step (g.stepped n)).analysis.Includes (g.stepped n) ∧
      (∀ entry ∈ (g.stepped n).entries,
        (∀ t ∈ entry.2.first, t ∈ g.terminals) ∧ ∀ t ∈ entry.2.follow, t ∈ g.terminals) ∧
      ((g.step (g.stepped n)).changed = false ↔
        (g.step (g.stepped n)).analysis = g.stepped n) ∧
      ((g.step (g.stepped n)).changed = false →
        ∀ k, g.step (g.stepped (n + k)) = ⟨g.stepped n, false⟩)) ∧
    g.analysis = g.stepped g.passCount ∧ 0 < g.passCount ∧
    (∀ k < g.passCount, (g.step (g.stepped k)).changed = false ↔ k + 1 = g.passCount) ∧
    g.passCount ≤ g.rules.length + 2 * g.rules.length * g.terminals.size + 1 := by
  obtain ⟨m, hm, hcount, hanalysis, hchanged, hend⟩ := g.exists_analysis_eq
  rw [hcount]
  refine ⟨fun n => ?_, hanalysis, Nat.succ_pos m, fun k hk => ?_, hm⟩
  · have hnotes := (g.sound_stepped n).notes_step
    exact ⟨Analysis.includes_of_le hnotes.le, fun entry => (g.sound_stepped n).subset_terminals,
      hnotes.changed, step_stepped_add⟩
  · rcases Nat.lt_or_eq_of_le (Nat.le_of_lt_succ hk) with hk | rfl
    · rw [hchanged k hk]
      exact iff_of_false Bool.noConfusion (by omega)
    · exact iff_of_true hend rfl

/-- A grammar in which each nonterminal starts with the other one, and `B` with itself. -/
def cyclic : Grammar where
  rules := [⟨"A", [["B", "x"], []]⟩, ⟨"B", [["A"], ["B", "y"]]⟩]
  nonempty := by decide
  distinct := by decide
  named := by decide

theorem passes_climb_and_stop_cyclic :
    (cyclic.step (cyclic.stepped 1)).changed = true ∧
      (cyclic.step (cyclic.stepped 2)).changed = false ∧
      (∀ k, cyclic.step (cyclic.stepped (2 + k)) = ⟨cyclic.stepped 2, false⟩) ∧
      cyclic.passCount = 3 ∧ cyclic.analysis = cyclic.stepped 3 := by
  have hchanged : (cyclic.step (cyclic.stepped 1)).changed = true := by decide +kernel
  have hend : (cyclic.step (cyclic.stepped 2)).changed = false := by decide +kernel
  have hcount : cyclic.passCount = 3 := by decide +kernel
  obtain ⟨hsteps, hanalysis, _⟩ := passes_climb_and_stop cyclic
  rw [hcount] at hanalysis
  exact ⟨hchanged, hend, (hsteps 2).2.2.2 hend, hcount, hanalysis⟩

end Grammar

end StepCalc

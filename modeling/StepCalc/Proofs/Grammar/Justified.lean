import StepCalc.Grammar.Analysis
import StepCalc.Proofs.Grammar.Derivation

/-!
# Every fact of the analysis has a derivation

`Grammar.Sound`: the entries of an analysis are named by the rules, in order, and each fact in them
is witnessed by a derivation. Nothing is known at first (`sound_blankAnalysis`), and a fact is added
only when facts known before justify it, so each of the changes that a visit to a rule makes keeps
this (`Sound.visitNullable`, `Sound.visitFirst`, `Sound.visitFollow`), in whatever order they come.
-/

namespace StepCalc

namespace Analysis

/-! ## Changing one entry -/

theorem map_fst_modify (a : Analysis) (name : String) (f : Traits → Traits) :
    (a.modify name f).entries.map Prod.fst = a.entries.map Prod.fst := by
  unfold modify
  rw [List.map_map]
  refine List.map_congr_left fun entry _ => ?_
  show (if entry.1 = name then (entry.1, f entry.2) else entry).1 = entry.1
  split <;> rfl

/-- A look-up passes an entry with another name. -/
theorem lookup_cons_ne {s : String} {e : String × Traits} (h : s ≠ e.1)
    (entries : List (String × Traits)) : (e :: entries).lookup s = entries.lookup s := by
  rw [List.lookup_cons, beq_false_of_ne h]

theorem get?_modify (a : Analysis) (name : String) (f : Traits → Traits) (s : String) :
    (a.modify name f).get? s = if s = name then (a.get? s).map f else a.get? s := by
  obtain ⟨entries⟩ := a
  unfold modify get?
  induction entries with
  | nil => simp
  | cons entry entries ih =>
    obtain ⟨key, traits⟩ := entry
    rw [List.map_cons]
    by_cases hs : s = key
    · subst hs
      by_cases hkey : s = name
      · simp [hkey]
      · simp [hkey]
    · rw [lookup_cons_ne (e := (key, traits)) hs]
      rw [lookup_cons_ne (by split <;> exact hs)]
      exact ih

theorem get?_modify_self (a : Analysis) (name : String) (f : Traits → Traits) :
    (a.modify name f).get? name = (a.get? name).map f := by
  rw [get?_modify, if_pos rfl]

/-- Exactly the names of the entries can be looked up. -/
theorem get?_eq_none_iff (a : Analysis) (s : String) :
    a.get? s = none ↔ s ∉ a.entries.map Prod.fst := by
  unfold get?
  rw [List.lookup_eq_none_iff, List.mem_map]
  constructor
  · rintro h ⟨entry, hentry, rfl⟩
    simpa using h entry hentry
  · intro h entry hentry
    exact bne_iff_ne.mpr fun heq => h ⟨entry, hentry, heq.symm⟩

theorem mem_entries_of_get? {a : Analysis} {s : String} {traits : Traits}
    (h : a.get? s = some traits) : (s, traits) ∈ a.entries := by
  obtain ⟨before, after, hsplit, _⟩ := List.lookup_eq_some_iff.mp h
  rw [hsplit]
  exact List.mem_append_right before List.mem_cons_self

/-! ## The first terminals of a sequence -/

theorem firstOf_cons_terminal {a : Analysis} {s : String} (h : a.get? s = none)
    (rest : List String) : a.firstOf (s :: rest) = (.singleton s, false) := by
  unfold firstOf
  rw [h]

theorem firstOf_cons_nullable {a : Analysis} {s : String} {traits : Traits}
    (h : a.get? s = some traits) (hn : traits.nullable = true) (rest : List String) :
    a.firstOf (s :: rest) = (traits.first ∪ (a.firstOf rest).1, (a.firstOf rest).2) := by
  rw [firstOf, h]
  simp only [hn, if_true]

theorem firstOf_cons_solid {a : Analysis} {s : String} {traits : Traits}
    (h : a.get? s = some traits) (hn : traits.nullable = false) (rest : List String) :
    a.firstOf (s :: rest) = (traits.first, false) := by
  rw [firstOf, h]
  simp [hn]

end Analysis

namespace Grammar

variable (g : Grammar)

/-! ## Justified facts -/

/-- Each fact about the nonterminal `s` is witnessed by a derivation. -/
structure Justified (s : String) (traits : Traits) : Prop where
  nullable : traits.nullable = true → g.Derives [s] []
  first : ∀ t ∈ traits.first, g.Starts [s] t
  follow : ∀ t ∈ traits.follow, g.Follows s t

/-- The entries belong to the rules, in order, and each fact is witnessed by a derivation. -/
structure Sound (a : Analysis) : Prop where
  names : a.entries.map Prod.fst = g.names
  justified : ∀ {s traits}, a.get? s = some traits → g.Justified s traits

variable {g} {a : Analysis}

namespace Sound

theorem get?_eq_none_iff (h : g.Sound a) {s : String} : a.get? s = none ↔ s ∉ g.names := by
  rw [a.get?_eq_none_iff, h.names]

theorem exists_get? (h : g.Sound a) {s : String} (hs : s ∈ g.names) :
    ∃ traits, a.get? s = some traits := by
  refine Option.ne_none_iff_exists'.mp fun hnone => ?_
  exact h.get?_eq_none_iff.mp hnone hs

theorem mem_names_of_get? (h : g.Sound a) {s : String} {traits : Traits}
    (hs : a.get? s = some traits) : s ∈ g.names := by
  rw [← h.names]
  exact List.mem_map_of_mem (f := Prod.fst) (Analysis.mem_entries_of_get? hs)

/-- What the analysis says about a sequence is witnessed by derivations. -/
theorem firstOf (h : g.Sound a) (w : List String) :
    (∀ t ∈ (a.firstOf w).1, g.Starts w t) ∧ ((a.firstOf w).2 = true → g.Derives w []) := by
  induction w with
  | nil => exact ⟨fun t ht => absurd ht (TerminalSet.not_mem_empty t), fun _ => Derives.refl []⟩
  | cons s rest ih =>
    cases hs : a.get? s with
    | none =>
      rw [Analysis.firstOf_cons_terminal hs]
      refine ⟨fun t ht => ?_, fun hn => by cases hn⟩
      rw [TerminalSet.mem_singleton.mp ht]
      exact starts_terminal (h.get?_eq_none_iff.mp hs) rest
    | some traits =>
      have hj := h.justified hs
      cases hn : traits.nullable with
      | true =>
        rw [Analysis.firstOf_cons_nullable hs hn]
        have hvanish := hj.nullable hn
        refine ⟨fun t ht => ?_, fun hrest => hvanish.append (ih.2 hrest)⟩
        rcases TerminalSet.mem_union.mp ht with ht | ht
        · exact (hj.first t ht).append rest
        · exact Starts.after hvanish (ih.1 t ht)
      | false =>
        rw [Analysis.firstOf_cons_solid hs hn]
        exact ⟨fun t ht => (hj.first t ht).append rest, fun hn => by cases hn⟩

/-! ## Visits -/

/-- An entry may be changed to anything that is justified. -/
theorem modify (h : g.Sound a) {name : String} {f : Traits → Traits}
    (hf : ∀ traits, g.Justified name traits → g.Justified name (f traits)) :
    g.Sound (a.modify name f) := by
  refine ⟨(a.map_fst_modify name f).trans h.names, fun {s traits} hs => ?_⟩
  rw [a.get?_modify] at hs
  by_cases hname : s = name
  · subst hname
    rw [if_pos rfl] at hs
    obtain ⟨before, hbefore, rfl⟩ := Option.map_eq_some_iff.mp hs
    exact hf before (h.justified hbefore)
  · rw [if_neg hname] at hs
    exact h.justified hs

theorem visitNullable (h : g.Sound a) {rule : Rule} (hrule : rule ∈ g.rules) :
    g.Sound (visitNullable rule a) := by
  refine h.modify fun traits hj => ⟨fun hn => ?_, hj.first, hj.follow⟩
  rcases Bool.or_eq_true_iff.mp hn with hn | hn
  · exact hj.nullable hn
  · obtain ⟨rhs, hrhs, hvanish⟩ := List.any_eq_true.mp hn
    have halt : g.HasAlternative rule.name rhs := ⟨rule, hrule, rfl, hrhs⟩
    exact halt.derives.trans ((h.firstOf rhs).2 hvanish)

theorem visitFirst (h : g.Sound a) {rule : Rule} (hrule : rule ∈ g.rules) {rhs : List String}
    (hrhs : rhs ∈ rule.alternatives) : g.Sound (visitFirst rule a rhs) := by
  refine h.modify fun traits hj => ⟨hj.nullable, fun t ht => ?_, hj.follow⟩
  rcases TerminalSet.mem_union.mp ht with ht | ht
  · exact hj.first t ht
  · have halt : g.HasAlternative rule.name rhs := ⟨rule, hrule, rfl, hrhs⟩
    exact Starts.of_derives halt.derives ((h.firstOf rhs).1 t ht)

/-- New members of a follow set only have to follow. -/
theorem modifyFollow (h : g.Sound a) {name : String} {new : TerminalSet}
    (hnew : ∀ t ∈ new, g.Follows name t) :
    g.Sound (a.modify name fun traits => { traits with follow := traits.follow ∪ new }) := by
  refine h.modify fun traits hj => ⟨hj.nullable, hj.first, fun t ht => ?_⟩
  rcases TerminalSet.mem_union.mp ht with ht | ht
  · exact hj.follow t ht
  · exact hnew t ht

theorem visitFollow (h : g.Sound a) {rule : Rule} {context : RightContext}
    (hcontext : context ∈ g.rightContexts rule.name) : g.Sound (visitFollow rule a context) := by
  obtain ⟨before, halt⟩ := mem_rightContexts.mp hcontext
  have htrailer := h.firstOf context.trailer
  have hstarts := h.modifyFollow fun t ht => Follows.of_starts halt (htrailer.1 t ht)
  unfold Grammar.visitFollow
  simp only
  split
  case h_1 outer hvanish houter =>
    refine hstarts.modifyFollow fun t ht => ?_
    exact Follows.of_follows halt (htrailer.2 hvanish) ((hstarts.justified houter).follow t ht)
  case h_2 => exact hstarts

end Sound

theorem sound_blankAnalysis (g : Grammar) : g.Sound g.blankAnalysis := by
  have hnames : g.blankAnalysis.entries.map Prod.fst = g.names := by
    unfold blankAnalysis names
    rw [List.map_map]
    rfl
  refine ⟨hnames, fun {s traits} hs => ?_⟩
  obtain ⟨rule, _, heq⟩ := List.mem_map.mp (Analysis.mem_entries_of_get? hs)
  have hblank : traits = .none := (congrArg Prod.snd heq).symm
  subst hblank
  exact ⟨fun hn => absurd hn Bool.false_ne_true, fun t ht => absurd ht (TerminalSet.not_mem_empty t),
    fun t ht => absurd ht (TerminalSet.not_mem_empty t)⟩

end Grammar

end StepCalc

import Mathlib.Data.List.Forall2
import Mathlib.Data.List.Perm.Subperm
import Mathlib.Order.Defs.PartialOrder
import Mathlib.Tactic.Ring
import StepCalc.Proofs.Grammar.Justified

/-!
# Fixed points of a pass

Analyses are ordered entry by entry: more nullable nonterminals, larger sets. Every visit to a rule
goes up in this order (`le_visit`), and of two comparable analyses with the same weight neither
knows more (`Analysis.eq_of_weight_le`). A sound analysis has at most
`n + 2 n t` facts for `n` rules and `t` terminals (`Sound.weight_le`).

A pass that changes nothing changes nothing at any visit, so the analysis is closed under all the
rules by which facts are added (`closed_of_pass_eq`).
-/

namespace StepCalc

/-! ## Sizes -/

namespace TerminalSet

theorem nodup (set : TerminalSet) : set.toList.Nodup := by
  refine set.sorted.imp fun {t u} htu heq => ?_
  rw [heq] at htu
  exact String.lt_irrefl u htu

theorem size_le_of_subset {a b : TerminalSet} (h : ∀ t ∈ a, t ∈ b) : a.size ≤ b.size :=
  (a.nodup.subperm h).length_le

/-- A set that is not smaller than one that includes it is the same set. -/
theorem eq_of_subset_of_size_le {a b : TerminalSet} (h : ∀ t ∈ a, t ∈ b) (hsize : b.size ≤ a.size) :
    a = b := by
  have hperm := (a.nodup.subperm h).perm_of_length_le hsize
  exact ext_mem fun t => hperm.mem_iff

end TerminalSet

theorem total_le {counts : List Nat} {m : Nat} (h : ∀ n ∈ counts, n ≤ m) :
    total counts ≤ counts.length * m := by
  induction counts with
  | nil => exact Nat.zero_le _
  | cons n counts ih =>
    have hn := h n List.mem_cons_self
    have hrest := ih fun k hk => h k (List.mem_cons_of_mem n hk)
    rw [total, List.length_cons, Nat.succ_mul]
    omega

/-! ## The order -/

namespace Traits

/-- All facts of `earlier` are facts of `later`. -/
structure Below (earlier later : Traits) : Prop where
  nullable : earlier.nullable = true → later.nullable = true
  first : ∀ t ∈ earlier.first, t ∈ later.first
  follow : ∀ t ∈ earlier.follow, t ∈ later.follow

theorem Below.toNat_nullable_le {s t : Traits} (h : s.Below t) :
    s.nullable.toNat ≤ t.nullable.toNat := by
  cases hs : s.nullable with
  | false => exact Nat.zero_le _
  | true => exact Nat.le_of_eq (congrArg Bool.toNat (h.nullable hs).symm)

theorem Below.weight_le {s t : Traits} (h : s.Below t) : s.weight ≤ t.weight := by
  have hn := h.toNat_nullable_le
  have hfirst := TerminalSet.size_le_of_subset h.first
  have hfollow := TerminalSet.size_le_of_subset h.follow
  unfold weight
  omega

/-- Of two comparable collections of facts with the same number of facts neither has more. -/
theorem Below.eq_of_weight_le {s t : Traits} (h : s.Below t) (hw : t.weight ≤ s.weight) :
    s = t := by
  have hfirst := TerminalSet.size_le_of_subset h.first
  have hfollow := TerminalSet.size_le_of_subset h.follow
  have hn := h.toNat_nullable_le
  unfold weight at hw
  obtain ⟨n, first, follow⟩ := s
  obtain ⟨n', first', follow'⟩ := t
  simp only at h hfirst hfollow hn hw
  have e₁ : n = n' := by
    cases n <;> cases n' <;> simp only [Bool.toNat_true, Bool.toNat_false] at hn hw <;>
      first | rfl | omega
  have e₂ : first = first' := TerminalSet.eq_of_subset_of_size_le h.first (by omega)
  have e₃ : follow = follow' := TerminalSet.eq_of_subset_of_size_le h.follow (by omega)
  rw [e₁, e₂, e₃]

instance : PartialOrder Traits where
  le := Below
  le_refl _ := ⟨id, fun _ => id, fun _ => id⟩
  le_trans _ _ _ h₁ h₂ :=
    ⟨h₂.nullable ∘ h₁.nullable, fun t => h₂.first t ∘ h₁.first t,
      fun t => h₂.follow t ∘ h₁.follow t⟩
  le_antisymm _ _ h₁ h₂ := h₁.eq_of_weight_le h₂.weight_le

end Traits

namespace Analysis

/-- Entries of one name, of which the later one has all facts of the earlier one. -/
def EntryBelow (earlier later : String × Traits) : Prop :=
  earlier.1 = later.1 ∧ earlier.2 ≤ later.2

theorem weight_le_of_forall₂ {l m : List (String × Traits)} (h : List.Forall₂ EntryBelow l m) :
    total (l.map fun entry => entry.2.weight) ≤ total (m.map fun entry => entry.2.weight) := by
  induction h with
  | nil => exact Nat.le_refl _
  | cons hentry _ ih =>
    have hw := Traits.Below.weight_le hentry.2
    rw [List.map_cons, List.map_cons, total, total]
    omega

theorem eq_of_forall₂_of_weight_le {l m : List (String × Traits)}
    (h : List.Forall₂ EntryBelow l m)
    (hw : total (m.map fun entry => entry.2.weight) ≤ total (l.map fun entry => entry.2.weight)) :
    l = m := by
  induction h with
  | nil => rfl
  | @cons x y l m hentry hrest ih =>
    rw [List.map_cons, List.map_cons, total, total] at hw
    -- the heads and the tails can only grow, so neither of them has
    have hx := Traits.Below.weight_le hentry.2
    have hl := weight_le_of_forall₂ hrest
    have htraits : x.2 = y.2 := Traits.Below.eq_of_weight_le hentry.2 (by omega)
    have hxy : x = y := Prod.ext hentry.1 htraits
    rw [hxy, ih (by omega)]

theorem eq_of_entries_eq {a b : Analysis} (h : a.entries = b.entries) : a = b := by
  obtain ⟨l⟩ := a
  obtain ⟨m⟩ := b
  exact congrArg Analysis.mk h

instance : PartialOrder Analysis where
  le a b := List.Forall₂ EntryBelow a.entries b.entries
  le_refl a := List.forall₂_same.mpr fun entry _ => ⟨rfl, le_refl entry.2⟩
  le_trans a b c hab hbc := by
    obtain ⟨l⟩ := a
    obtain ⟨m⟩ := b
    obtain ⟨n⟩ := c
    simp only at hab hbc ⊢
    induction hab generalizing n with
    | nil => exact hbc
    | cons hentry _ ih =>
      cases hbc with
      | cons hentry' hrest =>
        exact .cons ⟨hentry.1.trans hentry'.1, le_trans hentry.2 hentry'.2⟩ (ih _ hrest)
  le_antisymm _ _ hab hba :=
    eq_of_entries_eq (eq_of_forall₂_of_weight_le hab (weight_le_of_forall₂ hba))

theorem weight_le_weight {a b : Analysis} (h : a ≤ b) : a.weight ≤ b.weight :=
  weight_le_of_forall₂ h

theorem eq_of_weight_le {a b : Analysis} (h : a ≤ b) (hw : b.weight ≤ a.weight) : a = b :=
  eq_of_entries_eq (eq_of_forall₂_of_weight_le h hw)

theorem le_modify (a : Analysis) (name : String) {f : Traits → Traits} (hf : ∀ t, t ≤ f t) :
    a ≤ a.modify name f := by
  show List.Forall₂ EntryBelow a.entries (a.entries.map _)
  refine List.forall₂_map_right_iff.mpr (List.forall₂_same.mpr fun entry _ => ?_)
  split
  · exact ⟨rfl, hf entry.2⟩
  · exact ⟨rfl, le_refl entry.2⟩

end Analysis

/-! ## Going up -/

section Fold

variable {α β : Type} {f : β → α → β}

theorem le_foldl [Preorder β] (hf : ∀ b x, b ≤ f b x) (l : List α) (b : β) : b ≤ l.foldl f b := by
  induction l generalizing b with
  | nil => exact le_refl b
  | cons x l ih => exact le_trans (hf b x) (ih (f b x))

/-- If only going up leads back to the start, no step has moved. -/
theorem eq_of_foldl_eq [PartialOrder β] (hf : ∀ b x, b ≤ f b x) {l : List α} {b : β}
    (h : l.foldl f b = b) {x : α} (hx : x ∈ l) : f b x = b := by
  induction l with
  | nil => cases hx
  | cons y l ih =>
    rw [List.foldl_cons] at h
    have hy : f b y = b := le_antisymm (le_of_le_of_eq (le_foldl hf l (f b y)) h) (hf b y)
    rw [hy] at h
    rcases List.mem_cons.mp hx with rfl | hx
    · exact hy
    · exact ih h hx

end Fold

namespace Grammar

theorem le_visitNullable (rule : Rule) (a : Analysis) : a ≤ visitNullable rule a :=
  a.le_modify rule.name fun _ =>
    ⟨fun hn => Bool.or_eq_true_iff.mpr (Or.inl hn), fun _ => id, fun _ => id⟩

theorem le_visitFirst (rule : Rule) (a : Analysis) (rhs : List String) :
    a ≤ visitFirst rule a rhs :=
  a.le_modify rule.name fun _ => ⟨id, fun _ ht => TerminalSet.mem_union.mpr (Or.inl ht), fun _ => id⟩

theorem le_modifyFollow (name : String) (a : Analysis) (new : TerminalSet) :
    a ≤ a.modify name fun traits => { traits with follow := traits.follow ∪ new } :=
  a.le_modify name fun _ => ⟨id, fun _ => id, fun _ ht => TerminalSet.mem_union.mpr (Or.inl ht)⟩

theorem le_visitFollow (rule : Rule) (a : Analysis) (context : RightContext) :
    a ≤ visitFollow rule a context := by
  unfold visitFollow
  simp only
  have hstarts := le_modifyFollow rule.name a (a.firstOf context.trailer).1
  split
  · exact le_trans hstarts (le_modifyFollow rule.name _ _)
  · exact hstarts

variable {g : Grammar} {a : Analysis}

theorem le_visit (a : Analysis) (rule : Rule) : a ≤ g.visit a rule :=
  le_trans (le_visitNullable rule a)
    (le_trans (le_foldl (le_visitFirst rule) _ _) (le_foldl (le_visitFollow rule) _ _))

theorem le_pass (a : Analysis) : a ≤ g.pass a := le_foldl le_visit _ _

/-! ## Counting facts -/

theorem Sound.get?_of_mem (h : g.Sound a) {s : String} {traits : Traits}
    (hmem : (s, traits) ∈ a.entries) : a.get? s = some traits := by
  obtain ⟨before, after, hsplit⟩ := List.append_of_mem hmem
  refine List.lookup_eq_some_iff.mpr ⟨before, after, hsplit, fun entry hentry => ?_⟩
  have hnodup : (a.entries.map Prod.fst).Nodup := by
    rw [h.names]
    exact g.distinct
  rw [hsplit, List.map_append, List.nodup_append] at hnodup
  refine bne_iff_ne.mpr fun heq => ?_
  exact hnodup.2.2 entry.1 (List.mem_map_of_mem hentry) s List.mem_cons_self heq.symm

/-- The sets of an entry have terminals of the grammar only. -/
theorem Sound.subset_terminals (h : g.Sound a) {entry : String × Traits}
    (hmem : entry ∈ a.entries) :
    (∀ t ∈ entry.2.first, t ∈ g.terminals) ∧ ∀ t ∈ entry.2.follow, t ∈ g.terminals := by
  have hname : entry.1 ∈ g.names := by
    rw [← h.names]
    exact List.mem_map_of_mem hmem
  have hj := h.justified (h.get?_of_mem hmem)
  exact ⟨fun t ht => (hj.first t ht).mem_terminals hname, fun t ht => (hj.follow t ht).mem_terminals⟩

/-- The bound on the passes counts all the facts that can be found. -/
theorem Sound.weight_le (h : g.Sound a) :
    a.weight ≤ g.rules.length + 2 * g.rules.length * g.terminals.size := by
  have hentry : ∀ n ∈ a.entries.map (fun entry => entry.2.weight),
      n ≤ 1 + 2 * g.terminals.size := by
    intro n hn
    obtain ⟨entry, hmem, rfl⟩ := List.mem_map.mp hn
    have hfirst := TerminalSet.size_le_of_subset (h.subset_terminals hmem).1
    have hfollow := TerminalSet.size_le_of_subset (h.subset_terminals hmem).2
    have hn := Bool.toNat_le entry.2.nullable
    show entry.2.nullable.toNat + entry.2.first.size + entry.2.follow.size ≤ _
    omega
  have hlength : a.entries.length = g.rules.length := by
    have := congrArg List.length h.names
    unfold Grammar.names at this
    rwa [List.length_map, List.length_map] at this
  calc a.weight ≤ (a.entries.map fun entry => entry.2.weight).length * (1 + 2 * g.terminals.size) :=
        total_le hentry
    _ = g.rules.length * (1 + 2 * g.terminals.size) := by rw [List.length_map, hlength]
    _ = g.rules.length + 2 * g.rules.length * g.terminals.size := by ring

/-! ## Closure -/

/-- Every fact that other facts justify is among the facts. -/
structure Closed (g : Grammar) (a : Analysis) : Prop where
  nullable : ∀ {name rhs traits}, g.HasAlternative name rhs → a.get? name = some traits →
    (a.firstOf rhs).2 = true → traits.nullable = true
  first : ∀ {name rhs traits t}, g.HasAlternative name rhs → a.get? name = some traits →
    t ∈ (a.firstOf rhs).1 → t ∈ traits.first
  follow : ∀ {name before s after traits t}, g.HasAlternative name (before ++ s :: after) →
    a.get? s = some traits → t ∈ (a.firstOf after).1 → t ∈ traits.follow
  outer : ∀ {name before s after traits outer t}, g.HasAlternative name (before ++ s :: after) →
    a.get? s = some traits → a.get? name = some outer → (a.firstOf after).2 = true →
    t ∈ outer.follow → t ∈ traits.follow

/-- A change that leaves the analysis as it was leaves the entry as it was. -/
theorem eq_of_modify_eq {name : String} {f : Traits → Traits} (h : a.modify name f = a)
    {traits : Traits} (hget : a.get? name = some traits) : f traits = traits := by
  have := a.get?_modify_self name f
  rw [h, hget] at this
  exact (Option.some.inj this).symm

theorem visit_eq_of_pass_eq (h : g.pass a = a) {rule : Rule} (hrule : rule ∈ g.rules) :
    g.visit a rule = a :=
  eq_of_foldl_eq le_visit h hrule

/-- A visit that changes nothing consists of steps that change nothing. -/
theorem steps_eq_of_visit_eq {rule : Rule} (h : g.visit a rule = a) :
    visitNullable rule a = a ∧ (∀ rhs ∈ rule.alternatives, visitFirst rule a rhs = a) ∧
      ∀ context ∈ g.rightContexts rule.name, visitFollow rule a context = a := by
  have h₁ := le_visitNullable rule a
  have h₂ := le_foldl (le_visitFirst rule) rule.alternatives (visitNullable rule a)
  have h₃ := le_foldl (le_visitFollow rule) (g.rightContexts rule.name)
    (rule.alternatives.foldl (visitFirst rule) (visitNullable rule a))
  have hend : (g.rightContexts rule.name).foldl (visitFollow rule)
      (rule.alternatives.foldl (visitFirst rule) (visitNullable rule a)) = a := h
  have e₁ : visitNullable rule a = a :=
    le_antisymm (le_trans h₂ (le_of_le_of_eq h₃ hend)) h₁
  rw [e₁] at h₂ h₃ hend
  have e₂ : rule.alternatives.foldl (visitFirst rule) a = a :=
    le_antisymm (le_of_le_of_eq h₃ hend) h₂
  rw [e₂] at hend
  exact ⟨e₁, fun _ => eq_of_foldl_eq (le_visitFirst rule) e₂,
    fun _ => eq_of_foldl_eq (le_visitFollow rule) hend⟩

/-- A visit to a right context that changes nothing has found nothing new to follow. -/
theorem follow_of_visitFollow_eq {rule : Rule} {context : RightContext} {traits : Traits}
    (h : visitFollow rule a context = a) (hget : a.get? rule.name = some traits) :
    (∀ t ∈ (a.firstOf context.trailer).1, t ∈ traits.follow) ∧
      ((a.firstOf context.trailer).2 = true → ∀ outer, a.get? context.lhs = some outer →
        ∀ t ∈ outer.follow, t ∈ traits.follow) := by
  have hunion : ∀ {new : TerminalSet},
      (a.modify rule.name fun traits => { traits with follow := traits.follow ∪ new }) = a →
        ∀ t ∈ new, t ∈ traits.follow := by
    intro new heq t ht
    have hsame := congrArg Traits.follow (eq_of_modify_eq heq hget)
    rw [← hsame]
    exact TerminalSet.mem_union.mpr (Or.inr ht)
  have hstarts := le_modifyFollow rule.name a (a.firstOf context.trailer).1
  unfold visitFollow at h
  simp only at h
  split at h
  case h_1 vanishes found outer hvanish houter =>
    have e₁ := le_antisymm (le_of_le_of_eq (le_modifyFollow rule.name _ outer.follow) h) hstarts
    rw [e₁] at h houter
    refine ⟨hunion e₁, fun _ outer' houter' => ?_⟩
    rw [houter'] at houter
    rw [Option.some.inj houter]
    exact hunion h
  case h_2 hnone =>
    refine ⟨hunion h, fun hvanish outer houter => ?_⟩
    rw [h] at hnone
    exact absurd houter (hnone outer hvanish)

/-- An analysis that a pass does not change is closed. -/
theorem closed_of_pass_eq (hs : g.Sound a) (h : g.pass a = a) : g.Closed a := by
  constructor
  case nullable =>
    rintro name rhs traits ⟨rule, hrule, rfl, hrhs⟩ hget hvanish
    have hsame := eq_of_modify_eq (steps_eq_of_visit_eq (visit_eq_of_pass_eq h hrule)).1 hget
    rw [← congrArg Traits.nullable hsame]
    exact Bool.or_eq_true_iff.mpr (Or.inr (List.any_eq_true.mpr ⟨rhs, hrhs, hvanish⟩))
  case first =>
    rintro name rhs traits t ⟨rule, hrule, rfl, hrhs⟩ hget ht
    have hstep := (steps_eq_of_visit_eq (visit_eq_of_pass_eq h hrule)).2.1 rhs hrhs
    rw [← congrArg Traits.first (eq_of_modify_eq hstep hget)]
    exact TerminalSet.mem_union.mpr (Or.inr ht)
  case follow =>
    intro name before s after traits t halt hget ht
    obtain ⟨rule, hrule, rfl⟩ := List.mem_map.mp (hs.mem_names_of_get? hget)
    have hcontext : ⟨name, after⟩ ∈ g.rightContexts rule.name := mem_rightContexts.mpr ⟨before, halt⟩
    have hstep := (steps_eq_of_visit_eq (visit_eq_of_pass_eq h hrule)).2.2 _ hcontext
    exact (follow_of_visitFollow_eq hstep hget).1 t ht
  case outer =>
    intro name before s after traits outer t halt hget houter hvanish ht
    obtain ⟨rule, hrule, rfl⟩ := List.mem_map.mp (hs.mem_names_of_get? hget)
    have hcontext : ⟨name, after⟩ ∈ g.rightContexts rule.name := mem_rightContexts.mpr ⟨before, halt⟩
    have hstep := (steps_eq_of_visit_eq (visit_eq_of_pass_eq h hrule)).2.2 _ hcontext
    exact (follow_of_visitFollow_eq hstep hget).2 hvanish outer houter t ht

end Grammar

end StepCalc

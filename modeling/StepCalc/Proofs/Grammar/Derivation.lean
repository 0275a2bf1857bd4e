import Mathlib.Data.List.Nodup
import Mathlib.Logic.Relation
import StepCalc.Grammar.Basic

/-!
# Derivations

A sentential form is a list of symbols. `Grammar.Produces` replaces one nonterminal in it by one of
its alternatives and `Grammar.Derives` does so any number of times; `Grammar.Unfolds` is the same
without an order among the replacements, as a tree. On top of them stand the three notions that the
analysis of a grammar computes:

1. a form can vanish if it derives the empty form;
2. a terminal starts a form if the form derives one with this terminal in front (`Starts`);
3. a terminal follows a symbol if some nonterminal derives a form with the terminal right after
   the symbol (`Follows`).
-/

namespace StepCalc.Grammar

variable (g : Grammar)

/-! ## Alternatives -/

/-- `rhs` is one of the alternatives of the nonterminal `name`. -/
def HasAlternative (name : String) (rhs : List String) : Prop :=
  ∃ rule ∈ g.rules, rule.name = name ∧ rhs ∈ rule.alternatives

instance (name : String) (rhs : List String) : Decidable (g.HasAlternative name rhs) :=
  inferInstanceAs (Decidable (∃ rule ∈ g.rules, _ ∧ _))

variable {g}

theorem name_mem_names {rule : Rule} (h : rule ∈ g.rules) : rule.name ∈ g.names :=
  List.mem_map.mpr ⟨rule, h, rfl⟩

theorem HasAlternative.mem_names {name : String} {rhs : List String}
    (h : g.HasAlternative name rhs) : name ∈ g.names := by
  obtain ⟨rule, hrule, rfl, _⟩ := h
  exact name_mem_names hrule

/-- A symbol of an alternative occurs on a right-hand side. -/
theorem HasAlternative.mem_symbols {name : String} {rhs : List String}
    (h : g.HasAlternative name rhs) {s : String} (hs : s ∈ rhs) :
    s ∈ g.rules.flatMap Rule.symbols := by
  obtain ⟨rule, hrule, _, hrhs⟩ := h
  exact List.mem_flatMap.mpr ⟨rule, hrule, List.mem_flatten.mpr ⟨rhs, hrhs, hs⟩⟩

/-- The rules have distinct names, so a name has the alternatives of one rule only. -/
theorem hasAlternative_iff_of_mem {rule : Rule} (h : rule ∈ g.rules) {rhs : List String} :
    g.HasAlternative rule.name rhs ↔ rhs ∈ rule.alternatives := by
  constructor
  · rintro ⟨other, hother, hname, hrhs⟩
    have heq : other = rule := List.inj_on_of_nodup_map g.distinct hother h hname
    rwa [heq] at hrhs
  · intro hrhs
    exact ⟨rule, h, rfl, hrhs⟩

/-! ## Right contexts -/

theorem mem_occurrences {s : String} {trailer w : List String} :
    (s, trailer) ∈ occurrences w ↔ ∃ before, w = before ++ s :: trailer := by
  induction w with
  | nil => simp [occurrences]
  | cons u rest ih =>
    unfold occurrences
    rw [List.mem_cons, ih]
    constructor
    · rintro (h | ⟨before, rfl⟩)
      · cases h
        exact ⟨[], rfl⟩
      · exact ⟨u :: before, rfl⟩
    · rintro ⟨before, h⟩
      cases before with
      | nil =>
        cases h
        exact Or.inl rfl
      | cons v before =>
        cases h
        exact Or.inr ⟨before, rfl⟩

/-- The right contexts of `s` are exactly its occurrences on right-hand sides. -/
theorem mem_rightContexts {s : String} {context : RightContext} :
    context ∈ g.rightContexts s ↔
      ∃ before, g.HasAlternative context.lhs (before ++ s :: context.trailer) := by
  obtain ⟨lhs, trailer⟩ := context
  unfold rightContexts
  simp only [List.mem_eraseDups, List.mem_flatMap, List.mem_filterMap]
  constructor
  · rintro ⟨rule, hrule, rhs, hrhs, ⟨symbol, after⟩, hocc, h⟩
    split at h
    case isTrue heq =>
      cases h
      subst heq
      obtain ⟨before, rfl⟩ := mem_occurrences.mp hocc
      exact ⟨before, rule, hrule, rfl, hrhs⟩
    case isFalse => cases h
  · rintro ⟨before, rule, hrule, rfl, hrhs⟩
    exact ⟨rule, hrule, _, hrhs, (s, trailer), mem_occurrences.mpr ⟨before, rfl⟩, if_pos rfl⟩

/-! ## Derivations -/

variable (g)

/-- One nonterminal of a form is replaced by one of its alternatives. -/
inductive Produces : List String → List String → Prop
  | expand (before after : List String) {name : String} {rhs : List String}
      (h : g.HasAlternative name rhs) :
      Produces (before ++ name :: after) (before ++ (rhs ++ after))

/-- Nonterminals of a form are replaced, one after the other, any number of times. -/
def Derives : List String → List String → Prop := Relation.ReflTransGen g.Produces

variable {g}

theorem Derives.refl (w : List String) : g.Derives w w := Relation.ReflTransGen.refl

theorem Derives.trans {u v w : List String} (h₁ : g.Derives u v) (h₂ : g.Derives v w) :
    g.Derives u w :=
  Relation.ReflTransGen.trans h₁ h₂

theorem HasAlternative.derives {name : String} {rhs : List String}
    (h : g.HasAlternative name rhs) : g.Derives [name] rhs := by
  have hstep := Produces.expand [] [] h
  rw [List.nil_append, List.nil_append, List.append_nil] at hstep
  exact Relation.ReflTransGen.single hstep

theorem Produces.between {u v : List String} (h : g.Produces u v) (left right : List String) :
    g.Produces (left ++ (u ++ right)) (left ++ (v ++ right)) := by
  obtain @⟨before, after, name, rhs, halt⟩ := h
  have := Produces.expand (left ++ before) (after ++ right) halt
  simpa only [List.append_assoc, List.cons_append] using this

/-- What a part of a form derives can be put in its place. -/
theorem Derives.between {u v : List String} (h : g.Derives u v) (left right : List String) :
    g.Derives (left ++ (u ++ right)) (left ++ (v ++ right)) := by
  induction h with
  | refl => exact Derives.refl _
  | tail _ hstep ih => exact Relation.ReflTransGen.tail ih (hstep.between left right)

theorem Derives.append {u u' v v' : List String} (hu : g.Derives u u') (hv : g.Derives v v') :
    g.Derives (u ++ v) (u' ++ v') := by
  have h₁ := hu.between [] v
  have h₂ := hv.between u' []
  rw [List.append_nil, List.append_nil] at h₂
  exact Derives.trans h₁ h₂

/-- A symbol of a derived form was there before or occurs on a right-hand side. -/
theorem Derives.mem_symbols {u v : List String} (h : g.Derives u v) {s : String} (hs : s ∈ v) :
    s ∈ u ∨ s ∈ g.rules.flatMap Rule.symbols := by
  induction h with
  | refl => exact Or.inl hs
  | tail _ hstep ih =>
    obtain @⟨before, after, name, rhs, halt⟩ := hstep
    rcases List.mem_append.mp hs with hb | hs
    · exact ih (List.mem_append_left _ hb)
    · rcases List.mem_append.mp hs with hr | ha
      · exact Or.inr (halt.mem_symbols hr)
      · exact ih (List.mem_append_right _ (List.mem_cons_of_mem _ ha))

/-! ## Derivations as trees -/

/-- Each symbol of a form is kept, or replaced by what one of its alternatives unfolds to. -/
inductive Unfolds (g : Grammar) : List String → List String → Prop
  | nil : Unfolds g [] []
  | keep (s : String) {u v : List String} (hrest : Unfolds g u v) : Unfolds g (s :: u) (s :: v)
  | expand {name : String} {rhs u v w : List String} (halt : g.HasAlternative name rhs)
      (hinner : Unfolds g rhs v) (hrest : Unfolds g u w) : Unfolds g (name :: u) (v ++ w)

namespace Unfolds

theorem refl (w : List String) : g.Unfolds w w := by
  induction w with
  | nil => exact .nil
  | cons s w ih => exact .keep s ih

theorem append {u u' v v' : List String} (h : g.Unfolds u v) (h' : g.Unfolds u' v') :
    g.Unfolds (u ++ u') (v ++ v') := by
  induction h with
  | nil => exact h'
  | keep s _ ih => exact .keep s ih
  | expand halt hinner _ _ ih =>
    rw [List.append_assoc]
    exact .expand halt hinner ih

theorem exists_split {u u' w : List String} (h : g.Unfolds (u ++ u') w) :
    ∃ v v', w = v ++ v' ∧ g.Unfolds u v ∧ g.Unfolds u' v' := by
  induction u generalizing w with
  | nil => exact ⟨[], w, rfl, .nil, h⟩
  | cons s u ih =>
    cases h with
    | keep _ hrest =>
      obtain ⟨v, v', rfl, hv, hv'⟩ := ih hrest
      exact ⟨s :: v, v', rfl, .keep s hv, hv'⟩
    | @expand _ _ _ inner _ halt hinner hrest =>
      obtain ⟨v, v', rfl, hv, hv'⟩ := ih hrest
      refine ⟨inner ++ v, v', ?_, .expand halt hinner hv, hv'⟩
      rw [List.append_assoc]

theorem of_produces {u v w : List String} (h : g.Produces u v) (hv : g.Unfolds v w) :
    g.Unfolds u w := by
  obtain @⟨before, after, name, rhs, halt⟩ := h
  obtain ⟨w₁, w', rfl, hbefore, hv⟩ := hv.exists_split
  obtain ⟨w₂, w₃, rfl, hrhs, hafter⟩ := hv.exists_split
  exact hbefore.append (.expand halt hrhs hafter)

theorem derives {u v : List String} (h : g.Unfolds u v) : g.Derives u v := by
  induction h with
  | nil => exact Derives.refl []
  | keep s _ ih => exact (Derives.refl [s]).append ih
  | expand halt _ _ ih₁ ih₂ => exact (halt.derives.trans ih₁).append ih₂

end Unfolds

theorem Derives.unfolds {u v : List String} (h : g.Derives u v) : g.Unfolds u v := by
  induction h using Relation.ReflTransGen.head_induction_on with
  | refl => exact Unfolds.refl v
  | head hstep _ ih => exact ih.of_produces hstep

/-- The parts of a form that vanishes vanish. -/
theorem Derives.nil_of_append {u v : List String} (h : g.Derives (u ++ v) []) :
    g.Derives u [] ∧ g.Derives v [] := by
  obtain ⟨w₁, w₂, hw, hu, hv⟩ := h.unfolds.exists_split
  obtain ⟨rfl, rfl⟩ := List.append_eq_nil_iff.mp hw.symm
  exact ⟨hu.derives, hv.derives⟩

/-! ## Starting and following -/

variable (g)

/-- The terminal `t` can come first in what `w` derives. -/
def Starts (w : List String) (t : String) : Prop :=
  t ∉ g.names ∧ ∃ rest, g.Derives w (t :: rest)

/-- An alternative of `name` has `s` after nothing but what can vanish. -/
def LeftCorner (name s : String) : Prop :=
  ∃ before after, g.HasAlternative name (before ++ s :: after) ∧ g.Derives before []

/-- The terminal `t` can come right after `s` in what some nonterminal derives. -/
def Follows (s t : String) : Prop :=
  t ∉ g.names ∧ ∃ x ∈ g.names, ∃ before after, g.Derives [x] (before ++ s :: t :: after)

variable {g}

theorem starts_terminal {t : String} (ht : t ∉ g.names) (rest : List String) :
    g.Starts (t :: rest) t :=
  ⟨ht, rest, Derives.refl _⟩

theorem Starts.of_derives {u v : List String} {t : String} (h : g.Derives u v)
    (hs : g.Starts v t) : g.Starts u t := by
  obtain ⟨ht, rest, hd⟩ := hs
  exact ⟨ht, rest, h.trans hd⟩

theorem Starts.append {u : List String} {t : String} (h : g.Starts u t) (v : List String) :
    g.Starts (u ++ v) t := by
  obtain ⟨ht, rest, hd⟩ := h
  exact ⟨ht, rest ++ v, hd.append (Derives.refl v)⟩

/-- What starts the rest of a form starts the form if the part before can vanish. -/
theorem Starts.after {u v : List String} {t : String} (hu : g.Derives u []) (h : g.Starts v t) :
    g.Starts (u ++ v) t :=
  Starts.of_derives (hu.append (Derives.refl v)) h

/-- What starts the form after an occurrence of `s` follows `s`. -/
theorem Follows.of_starts {name s t : String} {before after : List String}
    (halt : g.HasAlternative name (before ++ s :: after)) (h : g.Starts after t) :
    g.Follows s t := by
  obtain ⟨ht, rest, hd⟩ := h
  refine ⟨ht, name, halt.mem_names, before, rest, halt.derives.trans ?_⟩
  exact (Derives.refl before).append ((Derives.refl [s]).append hd)

/-- What follows the left-hand side follows `s` if the form after `s` can vanish. -/
theorem Follows.of_follows {name s t : String} {before after : List String}
    (halt : g.HasAlternative name (before ++ s :: after)) (hd : g.Derives after [])
    (h : g.Follows name t) : g.Follows s t := by
  obtain ⟨ht, x, hx, left, right, hx'⟩ := h
  refine ⟨ht, x, hx, left ++ before, right, hx'.trans ?_⟩
  have hrhs : g.Derives [name] (before ++ [s]) :=
    halt.derives.trans ((Derives.refl before).append ((Derives.refl [s]).append hd))
  have := hrhs.between left (t :: right)
  simpa only [List.append_assoc, List.cons_append, List.nil_append] using this

theorem not_starts_nil (t : String) : ¬ g.Starts [] t := by
  rintro ⟨_, rest, hderives⟩
  cases hderives.unfolds

/-- What starts a form is its first symbol, or starts one of the alternatives of that symbol, or
starts the rest of the form if the symbol can vanish. -/
theorem Starts.cases {s t : String} {w : List String} (h : g.Starts (s :: w) t) :
    s = t ∨ (∃ rhs, g.HasAlternative s rhs ∧ g.Starts rhs t) ∨
      (g.Derives [s] [] ∧ g.Starts w t) := by
  obtain ⟨ht, rest, hderives⟩ := h
  generalize hv : t :: rest = v at hderives
  cases hderives.unfolds with
  | keep => exact Or.inl (List.cons.inj hv).1.symm
  | @expand _ rhs _ inner after halt hinner hrest =>
    rcases List.cons_eq_append_iff.mp hv with ⟨rfl, rfl⟩ | ⟨rest', rfl, _⟩
    · exact Or.inr (Or.inr ⟨halt.derives.trans hinner.derives, ht, rest, hrest.derives⟩)
    · exact Or.inr (Or.inl ⟨rhs, halt, ht, rest', hinner.derives⟩)

/-- A terminal that starts what nonterminals derive belongs to the grammar. -/
theorem Starts.mem_terminals {s t : String} (hs : s ∈ g.names) (h : g.Starts [s] t) :
    t ∈ g.terminals := by
  obtain ⟨ht, rest, hd⟩ := h
  refine TerminalSet.mem_without.mpr ⟨?_, ht⟩
  rcases hd.mem_symbols List.mem_cons_self with h | h
  · rw [List.mem_singleton.mp h] at ht
    exact absurd hs ht
  · exact h

theorem Follows.mem_terminals {s t : String} (h : g.Follows s t) : t ∈ g.terminals := by
  obtain ⟨ht, x, hx, before, after, hd⟩ := h
  refine TerminalSet.mem_without.mpr ⟨?_, ht⟩
  rcases hd.mem_symbols (s := t) (by simp) with h | h
  · rw [List.mem_singleton.mp h] at ht
    exact absurd hx ht
  · exact h

/-- No symbol of a grammar has the empty name. -/
theorem ne_empty_of_mem_terminals {t : String} (h : t ∈ g.terminals) : t ≠ "" := by
  obtain ⟨rule, hrule, hs⟩ := List.mem_flatMap.mp (TerminalSet.mem_without.mp h).1
  exact (g.named rule hrule).2 t hs

end StepCalc.Grammar

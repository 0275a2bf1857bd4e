import StepCalc.Proofs.FirstOccurrences
import StepCalc.Proofs.Grammar.Derivation

/-!
# Right contexts

The right contexts of all nonterminals are collected in one pass over the grammar, with one list of
what has been entered so far for all of them. The table that comes out keeps, under each
nonterminal, the first occurrences of its right contexts: entering one more keeps this
(`Records.enter`), so it holds after the whole pass (`records_contextTable`), and the table has for
each nonterminal what `rightContexts` finds for it alone (`getD_get?_contextTable`).

Right contexts stand at places of the grammar, ordered by rule, alternative and index, and they are
listed in the order of the places where they first occur (`pairwise_rightContexts`).
-/

namespace StepCalc.Grammar

/-! ## Entering -/

/-- The right contexts of `s` among some pairs of a symbol and a right context. -/
def contextsOf (s : String) (pairs : List (String × RightContext)) : List RightContext :=
  pairs.filterMap fun pair => if pair.1 = s then some pair.2 else none

section

variable {s : String} {pairs : List (String × RightContext)} {context : RightContext}

theorem mem_contextsOf : context ∈ contextsOf s pairs ↔ (s, context) ∈ pairs := by
  simp [contextsOf, List.mem_filterMap]

theorem contextsOf_concat_of_ne {name : String} (hname : name ≠ s) :
    contextsOf name (pairs ++ [(s, context)]) = contextsOf name pairs := by
  unfold contextsOf
  rw [List.filterMap_append, List.filterMap_cons, if_neg (Ne.symm hname)]
  exact List.append_nil _

/-- Without repetitions, the list is as long as it was or has one more context at its end. -/
theorem eraseDups_contextsOf_concat : (contextsOf s (pairs ++ [(s, context)])).eraseDups =
    if (s, context) ∈ pairs then (contextsOf s pairs).eraseDups
    else (contextsOf s pairs).eraseDups ++ [context] := by
  have hconcat : contextsOf s (pairs ++ [(s, context)]) = contextsOf s pairs ++ [context] := by
    unfold contextsOf
    rw [List.filterMap_append, List.filterMap_cons, if_pos rfl]
    rfl
  rw [hconcat, eraseDups_concat]
  simp only [mem_contextsOf]

end

namespace ContextTable

theorem lookup_appendUnder (s name : String) (context : RightContext)
    (entries : List (String × List RightContext)) :
    (appendUnder s context entries).lookup name =
      if name = s then some ((entries.lookup s).getD [] ++ [context]) else entries.lookup name := by
  induction entries with
  | nil =>
    rw [appendUnder, List.lookup_cons]
    by_cases hname : name = s
    · simp [hname]
    · simp [hname, beq_false_of_ne hname]
  | cons entry rest ih =>
    obtain ⟨other, contexts⟩ := entry
    rw [appendUnder]
    split
    case isTrue hother =>
      subst hother
      by_cases hname : name = other
      · simp [hname]
      · simp [hname, List.lookup_cons, beq_false_of_ne hname]
    case isFalse hother =>
      rw [List.lookup_cons, ih, List.lookup_cons, List.lookup_cons, beq_false_of_ne (Ne.symm hother)]
      by_cases hname : name = other
      · simp [hname, hother]
      · simp [beq_false_of_ne hname]

/-- The table holds, under each symbol, the right contexts that occur with it in `pairs`, each at
its first occurrence; a symbol without any has no entry. -/
structure Records (t : ContextTable) (pairs : List (String × RightContext)) : Prop where
  seen : ∀ pair, pair ∈ t.seen ↔ pair ∈ pairs
  listed : ∀ s, (t.get? s).getD [] = (contextsOf s pairs).eraseDups
  filled : ∀ s, t.get? s ≠ some []

theorem records_empty : Records .empty [] where
  seen := fun _ => Iff.rfl
  listed := fun _ => rfl
  filled := fun _ h => by cases h

variable {t : ContextTable} {pairs : List (String × RightContext)}

theorem Records.enter (h : t.Records pairs) (pair : String × RightContext) :
    (t.enter pair.1 pair.2).Records (pairs ++ [pair]) := by
  obtain ⟨s, context⟩ := pair
  unfold ContextTable.enter
  split
  case isTrue hold =>
    rw [h.seen] at hold
    refine ⟨fun pair => ?_, fun name => ?_, h.filled⟩
    · rw [h.seen, List.mem_append, List.mem_singleton]
      exact ⟨Or.inl, fun hpair => hpair.elim id fun heq => heq ▸ hold⟩
    · rw [h.listed]
      by_cases hname : name = s
      · rw [hname, eraseDups_contextsOf_concat, if_pos hold]
      · rw [contextsOf_concat_of_ne hname]
  case isFalse hnew =>
    rw [h.seen] at hnew
    refine ⟨fun pair => ?_, fun name => ?_, fun name => ?_⟩
    · rw [List.mem_cons, h.seen, List.mem_append, List.mem_singleton]
      exact or_comm
    · show ((appendUnder s context t.entries).lookup name).getD [] = _
      rw [lookup_appendUnder]
      by_cases hname : name = s
      · rw [if_pos hname, hname, eraseDups_contextsOf_concat, if_neg hnew, ← h.listed]
        rfl
      · rw [if_neg hname, contextsOf_concat_of_ne hname, ← h.listed]
        rfl
    · show (appendUnder s context t.entries).lookup name ≠ some []
      rw [lookup_appendUnder]
      by_cases hname : name = s
      · rw [if_pos hname]
        simp
      · rw [if_neg hname]
        exact h.filled name

theorem Records.foldl_enter (h : t.Records pairs) (more : List (String × RightContext)) :
    (more.foldl (fun t pair => t.enter pair.1 pair.2) t).Records (pairs ++ more) := by
  induction more generalizing t pairs with
  | nil => rwa [List.append_nil]
  | cons pair more ih =>
    rw [List.append_cons]
    exact ih (h.enter pair)

end ContextTable

/-! ## The whole pass -/

variable (g : Grammar)

/-- The nonterminals on right-hand sides with their right contexts, by rule, alternative and
place. -/
def occurrencePairs : List (String × RightContext) :=
  g.rules.flatMap fun rule =>
    rule.alternatives.flatMap fun rhs =>
      (occurrences rhs).filterMap fun (symbol, trailer) =>
        if g.isNonterminal symbol then some (symbol, ⟨rule.name, trailer⟩) else none

theorem contextTable_eq_foldl : g.contextTable =
    g.occurrencePairs.foldl (fun t pair => t.enter pair.1 pair.2) .empty := by
  simp only [contextTable, occurrencePairs, List.foldl_flatMap, List.foldl_filterMap]
  congr 1
  funext t rule
  congr 1
  funext t rhs
  congr 1
  funext t occurrence
  by_cases hsymbol : g.isNonterminal occurrence.1 <;> simp [hsymbol]

theorem records_contextTable : g.contextTable.Records g.occurrencePairs := by
  rw [contextTable_eq_foldl]
  exact ContextTable.records_empty.foldl_enter g.occurrencePairs

theorem contextsOf_occurrencePairs {s : String} (hs : g.isNonterminal s = true) :
    (contextsOf s g.occurrencePairs).eraseDups = g.rightContexts s := by
  simp only [contextsOf, occurrencePairs, rightContexts, List.filterMap_flatMap,
    List.filterMap_filterMap]
  congr 2
  funext rule
  congr 1
  funext rhs
  refine List.filterMap_congr fun occurrence _ => ?_
  by_cases hsymbol : occurrence.1 = s
  · simp [hsymbol, hs]
  · by_cases hnonterminal : g.isNonterminal occurrence.1 <;> simp [hsymbol, hnonterminal]

/-- The table has for each nonterminal what is found for it alone. -/
theorem getD_get?_contextTable {s : String} (hs : g.isNonterminal s = true) :
    (g.contextTable.get? s).getD [] = g.rightContexts s := by
  rw [g.records_contextTable.listed, contextsOf_occurrencePairs g hs]

theorem lookup_filterMap_get? (t : ContextTable) (names : List String) (s : String) :
    (names.filterMap fun name => (t.get? name).map fun contexts => (name, contexts)).lookup s =
      if s ∈ names then t.get? s else none := by
  induction names with
  | nil => rfl
  | cons name names ih =>
    rw [List.filterMap_cons]
    by_cases hname : s = name
    · subst hname
      cases hget : t.get? s with
      | none => simp [ih, hget]
      | some contexts => simp
    · cases t.get? name with
      | none => simp [ih, hname]
      | some contexts => simp [ih, hname, List.lookup_cons, beq_false_of_ne hname]

/-- The listed entries are those of the table. -/
theorem lookup_contexts {s : String} (hs : g.isNonterminal s = true) :
    g.contexts.lookup s = g.contextTable.get? s := by
  rw [contexts, lookup_filterMap_get?, if_pos (List.contains_iff_mem.mp hs)]

theorem keys_contexts :
    g.contexts.map Prod.fst = g.names.filter fun name => (g.contextTable.get? name).isSome := by
  rw [contexts, List.map_filterMap, ← List.filterMap_eq_filter]
  refine List.filterMap_congr fun name _ => ?_
  cases hget : g.contextTable.get? name <;> simp [Option.guard, hget]

/-! ## Order -/

/-- A place on a right-hand side. -/
structure Place where
  rule : Nat
  alternative : Nat
  index : Nat

/-- Places are ordered by rule, then by alternative, then by index. -/
def Place.Before (p q : Place) : Prop :=
  p.rule < q.rule ∨ p.rule = q.rule ∧
    (p.alternative < q.alternative ∨ p.alternative = q.alternative ∧ p.index < q.index)

/-- `s` stands at a place, and `context` is its right context there. -/
def OccursAt (s : String) (context : RightContext) (p : Place) : Prop :=
  ∃ rule before, g.rules[p.rule]? = some rule ∧ rule.name = context.lhs ∧
    rule.alternatives[p.alternative]? = some (before ++ s :: context.trailer) ∧
    before.length = p.index

/-- The right context `c` of `s` occurs somewhere before `d` first occurs. -/
def Precedes (s : String) (c d : RightContext) : Prop :=
  ∃ p, g.OccursAt s c p ∧ ∀ q, g.OccursAt s d q → p.Before q

/-- The occurrences of `s` on a right-hand side of `lhs`, with their places. -/
def locatedOn (s lhs : String) (i j : Nat) (rhs : List String) : List (Place × RightContext) :=
  (occurrences rhs).zipIdx.filterMap fun ((symbol, trailer), k) =>
    if symbol = s then some (⟨i, j, k⟩, ⟨lhs, trailer⟩) else none

/-- All occurrences of `s` on right-hand sides, with their places. -/
def located (s : String) : List (Place × RightContext) :=
  g.rules.zipIdx.flatMap fun (rule, i) =>
    rule.alternatives.zipIdx.flatMap fun (rhs, j) => locatedOn s rule.name i j rhs

theorem getElem?_occurrences {s : String} {trailer w : List String} {k : Nat} :
    (occurrences w)[k]? = some (s, trailer) ↔
      ∃ before, w = before ++ s :: trailer ∧ before.length = k := by
  induction w generalizing k with
  | nil => simp [occurrences]
  | cons u rest ih =>
    cases k with
    | zero =>
      rw [occurrences, List.getElem?_cons_zero, Option.some_inj, Prod.mk.injEq]
      constructor
      · rintro ⟨rfl, rfl⟩
        exact ⟨[], rfl, rfl⟩
      · rintro ⟨before, hw, hlength⟩
        cases List.length_eq_zero_iff.mp hlength
        exact List.cons.inj hw
    | succ k =>
      rw [occurrences, List.getElem?_cons_succ, ih]
      constructor
      · rintro ⟨before, rfl, hlength⟩
        exact ⟨u :: before, rfl, congrArg (· + 1) hlength⟩
      · rintro ⟨before, hw, hlength⟩
        cases before with
        | nil => cases hlength
        | cons v before =>
          cases hw
          exact ⟨before, rfl, Nat.succ.inj hlength⟩

theorem mem_locatedOn {s lhs : String} {i j : Nat} {rhs : List String} {p : Place}
    {context : RightContext} :
    (p, context) ∈ locatedOn s lhs i j rhs ↔
      p.rule = i ∧ p.alternative = j ∧ lhs = context.lhs ∧
        ∃ before, rhs = before ++ s :: context.trailer ∧ before.length = p.index := by
  obtain ⟨pi, pj, k⟩ := p
  obtain ⟨name, trailer⟩ := context
  simp only [locatedOn, List.mem_filterMap, Prod.exists, List.mem_zipIdx_iff_getElem?]
  constructor
  · rintro ⟨symbol, after, _, hoccurs, h⟩
    split at h
    case isTrue heq =>
      cases h
      subst heq
      exact ⟨rfl, rfl, rfl, getElem?_occurrences.mp hoccurs⟩
    case isFalse => cases h
  · rintro ⟨rfl, rfl, rfl, hbefore⟩
    exact ⟨s, trailer, k, getElem?_occurrences.mpr hbefore, if_pos rfl⟩

theorem mem_located {s : String} {p : Place} {context : RightContext} :
    (p, context) ∈ g.located s ↔ g.OccursAt s context p := by
  simp only [located, List.mem_flatMap, Prod.exists, List.mem_zipIdx_iff_getElem?, mem_locatedOn]
  constructor
  · rintro ⟨rule, _, hrule, _, _, hrhs, rfl, rfl, hlhs, before, rfl, hlength⟩
    exact ⟨rule, before, hrule, hlhs, hrhs, hlength⟩
  · rintro ⟨rule, before, hrule, hlhs, hrhs, hlength⟩
    exact ⟨rule, p.rule, hrule, _, p.alternative, hrhs, rfl, rfl, hlhs, before, rfl, hlength⟩

theorem pairwise_zipIdx {α : Type} (l : List α) : l.zipIdx.Pairwise fun x y => x.2 < y.2 := by
  refine List.pairwise_map.mp ?_
  rw [List.zipIdx_map_snd]
  exact List.pairwise_lt_range' 1

/-- The occurrences are located from the first place to the last. -/
theorem pairwise_located (s : String) : (g.located s).Pairwise fun x y => x.1.Before y.1 := by
  unfold located
  refine List.pairwise_flatMap.mpr ⟨?_, (pairwise_zipIdx g.rules).imp ?_⟩
  · rintro ⟨rule, i⟩ _
    refine List.pairwise_flatMap.mpr ⟨?_, (pairwise_zipIdx rule.alternatives).imp ?_⟩
    · rintro ⟨rhs, j⟩ _
      refine List.pairwise_filterMap.mpr ((pairwise_zipIdx (occurrences rhs)).imp ?_)
      rintro ⟨⟨u, _⟩, k⟩ ⟨⟨v, _⟩, k'⟩ hk x hx y hy
      dsimp only at hx hy
      split at hx <;> cases hx
      split at hy <;> cases hy
      exact Or.inr ⟨rfl, Or.inr ⟨rfl, hk⟩⟩
    · rintro ⟨rhs, j⟩ ⟨rhs', j'⟩ hj ⟨p, _⟩ hp ⟨q, _⟩ hq
      obtain ⟨hi, rfl, _⟩ := mem_locatedOn.mp hp
      obtain ⟨hi', rfl, _⟩ := mem_locatedOn.mp hq
      exact Or.inr ⟨hi.trans hi'.symm, Or.inl hj⟩
  · rintro ⟨rule, i⟩ ⟨rule', i'⟩ hi ⟨p, _⟩ hp ⟨q, _⟩ hq
    obtain ⟨_, _, hp⟩ := List.mem_flatMap.mp hp
    obtain ⟨_, _, hq⟩ := List.mem_flatMap.mp hq
    obtain ⟨rfl, _⟩ := mem_locatedOn.mp hp
    obtain ⟨rfl, _⟩ := mem_locatedOn.mp hq
    exact Or.inl hi

theorem map_snd_locatedOn (s lhs : String) (i j : Nat) (rhs : List String) :
    (locatedOn s lhs i j rhs).map Prod.snd = (occurrences rhs).filterMap fun (symbol, trailer) =>
      if symbol = s then some ⟨lhs, trailer⟩ else none := by
  rw [locatedOn, List.map_filterMap]
  conv_rhs => rw [← List.zipIdx_map_fst 0 (occurrences rhs), List.filterMap_map]
  refine List.filterMap_congr fun ⟨⟨symbol, _⟩, _⟩ _ => ?_
  by_cases hsymbol : symbol = s <;> simp [hsymbol]

theorem eraseDups_located (s : String) :
    ((g.located s).map Prod.snd).eraseDups = g.rightContexts s := by
  simp only [located, rightContexts, List.map_flatMap, map_snd_locatedOn]
  conv_rhs => rw [← List.zipIdx_map_fst 0 g.rules, List.flatMap_map]
  congr 2
  funext ⟨rule, i⟩
  conv_rhs => rw [← List.zipIdx_map_fst 0 rule.alternatives, List.flatMap_map]

/-- Right contexts are listed in the order in which they first occur. -/
theorem pairwise_rightContexts (s : String) : (g.rightContexts s).Pairwise (g.Precedes s) := by
  have h := pairwise_eraseDups (g.pairwise_located s)
  rw [eraseDups_located] at h
  simp only [mem_located] at h
  exact h

theorem nodup_rightContexts (s : String) : (g.rightContexts s).Nodup := by
  refine (g.pairwise_rightContexts s).imp ?_
  rintro c d ⟨p, hp, hfirst⟩ rfl
  have hirrefl := hfirst p hp
  unfold Place.Before at hirrefl
  omega

theorem rightContexts_ne_nil_iff {s : String} :
    g.rightContexts s ≠ [] ↔ ∃ lhs rhs, g.HasAlternative lhs rhs ∧ s ∈ rhs := by
  constructor
  · intro hne
    obtain ⟨context, hcontext⟩ := List.exists_mem_of_ne_nil _ hne
    obtain ⟨before, halternative⟩ := mem_rightContexts.mp hcontext
    exact ⟨context.lhs, _, halternative, List.mem_append_right before List.mem_cons_self⟩
  · rintro ⟨lhs, rhs, halternative, hs⟩
    obtain ⟨before, trailer, rfl⟩ := List.append_of_mem hs
    have hcontext : ⟨lhs, trailer⟩ ∈ g.rightContexts s :=
      mem_rightContexts.mpr ⟨before, halternative⟩
    exact List.ne_nil_of_mem hcontext

/-- **Right contexts are complete, and each is listed once.** The entries are in grammar order, with
at most one for each nonterminal. For a nonterminal, the listed right contexts are exactly those in
which it occurs in some alternative; none is listed twice, and they are in the order in which they
first occur, by rule, alternative and index; and a nonterminal has an entry exactly if it occurs on
some right-hand side. These are the right contexts that the analysis goes through. -/
theorem contexts_exact (g : Grammar) :
    (g.contexts.map Prod.fst).Sublist g.names ∧
    ∀ s, g.isNonterminal s = true →
      (∀ context, context ∈ (g.contexts.lookup s).getD [] ↔
        ∃ before, g.HasAlternative context.lhs (before ++ s :: context.trailer)) ∧
      ((g.contexts.lookup s).getD []).Nodup ∧
      ((g.contexts.lookup s).getD []).Pairwise (g.Precedes s) ∧
      ((g.contexts.lookup s).isSome = true ↔ ∃ lhs rhs, g.HasAlternative lhs rhs ∧ s ∈ rhs) ∧
      (g.contexts.lookup s).getD [] = g.rightContexts s := by
  refine ⟨g.keys_contexts ▸ List.filter_sublist, fun s hs => ?_⟩
  have hlisted : (g.contexts.lookup s).getD [] = g.rightContexts s := by
    rw [lookup_contexts g hs, getD_get?_contextTable g hs]
  have hentry : (g.contexts.lookup s).isSome = true ↔ g.rightContexts s ≠ [] := by
    rw [← hlisted, lookup_contexts g hs]
    have hfilled := g.records_contextTable.filled s
    cases hget : g.contextTable.get? s with
    | none => simp
    | some contexts =>
      rw [hget] at hfilled
      simpa using hfilled
  rw [hlisted, hentry]
  exact ⟨fun context => mem_rightContexts, g.nodup_rightContexts s, g.pairwise_rightContexts s,
    g.rightContexts_ne_nil_iff, rfl⟩

/-- `A` occurs twice in the first alternative, the second of these right contexts occurs again in
another one, and `B` has the same right context in two places. -/
def crowdedContexts : Grammar where
  rules := [
    ⟨"S", [["A", "x", "A"], ["y", "A"], ["A", "B", "x"]]⟩,
    ⟨"A", [["B", "z"], ["z", "B", "z"]]⟩,
    ⟨"B", [[]]⟩]
  nonempty := by decide
  distinct := by decide
  named := by decide

/-- Three of the four occurrences of `A` are listed and two of the three of `B`; `S` has no entry.
The right context that `A` has at the end of two alternatives is listed second, as it first occurs
before the one in the third alternative. -/
theorem contexts_exact_crowdedContexts :
    crowdedContexts.contexts.lookup "A" =
      some [⟨"S", ["x", "A"]⟩, ⟨"S", []⟩, ⟨"S", ["B", "x"]⟩] ∧
    crowdedContexts.contexts.lookup "B" = some [⟨"S", ["x"]⟩, ⟨"A", ["z"]⟩] ∧
    ¬ (∃ lhs rhs, crowdedContexts.HasAlternative lhs rhs ∧ "S" ∈ rhs) ∧
    crowdedContexts.HasAlternative "A" (["z"] ++ "B" :: ["z"]) ∧
    crowdedContexts.Precedes "A" ⟨"S", []⟩ ⟨"S", ["B", "x"]⟩ := by
  have hA : crowdedContexts.contexts.lookup "A" =
      some [⟨"S", ["x", "A"]⟩, ⟨"S", []⟩, ⟨"S", ["B", "x"]⟩] := by decide
  have hB : crowdedContexts.contexts.lookup "B" = some [⟨"S", ["x"]⟩, ⟨"A", ["z"]⟩] := by decide
  obtain ⟨_, hlisted⟩ := contexts_exact crowdedContexts
  obtain ⟨_, _, hordered, _⟩ := hlisted "A" (by decide)
  obtain ⟨_, _, _, hentry, _⟩ := hlisted "S" (by decide)
  rw [hA] at hordered
  refine ⟨hA, hB, fun h => ?_, by decide, ?_⟩
  · have hnone : crowdedContexts.contexts.lookup "S" = none := by decide
    rw [← hentry, hnone] at h
    cases h
  · simp only [Option.getD_some, List.pairwise_cons] at hordered
    exact hordered.2.1 _ List.mem_cons_self

end StepCalc.Grammar

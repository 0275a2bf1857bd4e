import StepCalc.Grammar.Prediction
import StepCalc.Proofs.Grammar.FixedPoint

/-!
# Conflicts

For a nonterminal and a terminal, the first row that the terminal selects shadows all the others
that it selects. The conflicts of a table are exactly these, each reported once
(`filter_conflicts`), and the first row is the one that a look-up returns (`lookup?_eq`). So a
table has no conflicts if and only if no two rows of a nonterminal share a terminal
(`conflicts_eq_nil_iff`), and these are the tables that are strict (`conflicts_exact`).

The rows of a nonterminal are visited in order. The invariant is on the rows before the one that is
visited: as long as the terminal selects none of them nothing is reported for it, and once it
selects one of them all is reported (`filter_flatMap_conflictsFor`).
-/

namespace StepCalc

theorem TerminalSet.filter_eq_of_mem {set : TerminalSet} {t : String} (h : t ∈ set) :
    set.toList.filter (fun u => u = t) = [t] := by
  rw [List.filter_eq, List.count_eq_one_of_mem set.nodup h, List.replicate_one]

namespace PredictionTable

/-! ## Selected rows -/

/-- Whether the terminal `t` selects a row. -/
def selects (t : String) (p : Prediction) : Bool := p.predict.contains t

@[simp] theorem selects_iff {t : String} {p : Prediction} : selects t p = true ↔ t ∈ p.predict :=
  TerminalSet.contains_iff

/-- No terminal selects both rows. -/
def Apart (p q : Prediction) : Prop := ∀ t ∈ p.predict, t ∉ q.predict

/-- The first of some rows, given by their numbers, shadows each of the others. -/
def shadowings (name t : String) : List Nat → List Conflict
  | [] => []
  | chosen :: rest => rest.map fun shadowed => ⟨name, t, chosen, shadowed⟩

theorem shadowings_eq_nil_iff (name t : String) {rows : List Nat} :
    shadowings name t rows = [] ↔ rows.length ≤ 1 := by
  cases rows with
  | nil => simp [shadowings]
  | cons chosen rest => simp [shadowings, List.map_eq_nil_iff]

section Table

variable (table : PredictionTable)

/-- The rows of `name`; a name that is no nonterminal has none. -/
def rowsOf (name : String) : List Prediction := (table.row? name).getD []

/-- The numbers of the rows of `name` that `t` selects, in increasing order. -/
def selectedRows (name t : String) : List Nat := (table.rowsOf name).findIdxs (selects t)

theorem mem_selectedRows {name t : String} {i : Nat} :
    i ∈ table.selectedRows name t ↔ ∃ p, (table.rowsOf name)[i]? = some p ∧ t ∈ p.predict := by
  unfold selectedRows
  rw [List.mem_findIdxs_iff_exists_getElem_pos]
  constructor
  · rintro ⟨hi, hp⟩
    exact ⟨_, List.getElem?_eq_getElem hi, selects_iff.mp hp⟩
  · rintro ⟨p, hget, hp⟩
    obtain ⟨hi, rfl⟩ := List.getElem?_eq_some_iff.mp hget
    exact ⟨hi, selects_iff.mpr hp⟩

end Table

/-- The first selected row is the one that is found first. -/
theorem find?_selects (t : String) (predictions : List Prediction) :
    predictions.find? (selects t) =
      (predictions.findIdxs (selects t)).head?.bind fun i => predictions[i]? := by
  induction predictions with
  | nil => rfl
  | cons p rest ih =>
    rw [List.find?_cons, List.findIdxs_cons]
    cases hp : selects t p with
    | true => simp
    | false =>
      simp only [Bool.false_eq_true, if_false]
      rw [ih, List.findIdxs_start (s := 0 + 1), List.head?_map, Option.bind_map]
      rfl

theorem lookup?_eq (table : PredictionTable) (name t : String) :
    table.lookup? name t = (table.selectedRows name t).head?.bind fun i =>
      (table.rowsOf name)[i]?.map Prediction.rhs := by
  have hchoose : ∀ predictions, choose? predictions t =
      (predictions.findIdxs (selects t)).head?.bind fun i =>
        predictions[i]?.map Prediction.rhs := by
    intro predictions
    show (predictions.find? (selects t)).map Prediction.rhs = _
    rw [find?_selects, Option.map_bind]
    rfl
  unfold lookup? selectedRows rowsOf
  cases table.row? name with
  | none => rfl
  | some predictions => exact hchoose predictions

/-! ## The conflicts of one nonterminal -/

/-- The conflicts in which the given row, with its number, is the chosen one. -/
def conflictsFor (name : String) (predictions : List Prediction) (chosen : Prediction × Nat) :
    List Conflict :=
  (predictions.zipIdx.drop (chosen.2 + 1)).flatMap fun (later, j) =>
    ((chosen.1.predict.inter later.predict).filter fun terminal =>
      !(predictions.take chosen.2).any fun p => p.predict.contains terminal).map fun terminal =>
        ⟨name, terminal, chosen.2, j⟩

theorem rowConflicts_eq (name : String) (predictions : List Prediction) :
    rowConflicts name predictions = predictions.zipIdx.flatMap (conflictsFor name predictions) :=
  rfl

section Row

variable (name t : String)

/-- Of the terminals that two rows share, `t` is reported once or not at all. -/
theorem filter_shared (chosen later : Prediction) (i j : Nat) (earliest : String → Bool) :
    (((chosen.predict.inter later.predict).filter earliest).map fun terminal =>
        (⟨name, terminal, i, j⟩ : Conflict)).filter (fun c => c.terminal = t) =
      if earliest t && selects t chosen && selects t later then [⟨name, t, i, j⟩] else [] := by
  have hcomm : (chosen.predict.inter later.predict).filter (fun u => u = t && earliest u) =
      ((chosen.predict.toList.filter fun u => u = t).filter later.predict.contains).filter
        earliest := by
    unfold TerminalSet.inter
    rw [List.filter_filter, List.filter_filter, List.filter_filter]
    refine List.filter_congr fun u _ => ?_
    cases decide (u = t) <;> cases earliest u <;> cases later.predict.contains u <;> rfl
  rw [List.filter_map, List.filter_filter]
  show ((chosen.predict.inter later.predict).filter fun u => u = t && earliest u).map _ = _
  rw [hcomm]
  by_cases hchosen : t ∈ chosen.predict
  · rw [TerminalSet.filter_eq_of_mem hchosen, selects_iff.mpr hchosen]
    cases hlater : later.predict.contains t <;> cases hearliest : earliest t <;>
      simp [hlater, hearliest, selects]
  · have hnone : chosen.predict.toList.filter (fun u => u = t) = [] :=
      List.filter_eq_nil_iff.mpr fun u hu hut => hchosen (of_decide_eq_true hut ▸ hu)
    rw [hnone, Bool.eq_false_iff.mpr (mt selects_iff.mp hchosen)]
    simp

/-- A visit to each row that adds something for the selected ones alone. -/
theorem flatMap_zipIdx_selects (found : Nat → Conflict) (rows : List Prediction) (k : Nat) :
    (rows.zipIdx k).flatMap (fun row => if selects t row.1 then [found row.2] else []) =
      (rows.findIdxs (selects t) k).map found := by
  induction rows generalizing k with
  | nil => rfl
  | cons p rows ih =>
    rw [List.zipIdx_cons, List.flatMap_cons, ih, List.findIdxs_cons]
    cases selects t p <;> rfl

/-- What is reported for `t` in which the row behind `before` is the chosen one. -/
theorem filter_conflictsFor (before after : List Prediction) (chosen : Prediction) :
    (conflictsFor name (before ++ chosen :: after) (chosen, before.length)).filter
        (fun c => c.terminal = t) =
      if !before.any (selects t) && selects t chosen then
        (after.findIdxs (selects t) (before.length + 1)).map fun j => ⟨name, t, before.length, j⟩
      else [] := by
  have hafter : (before ++ chosen :: after).zipIdx.drop (before.length + 1) =
      after.zipIdx (before.length + 1) := by
    have hlength : (before ++ [chosen]).zipIdx.length = before.length + 1 := by simp
    rw [List.append_cons, List.zipIdx_append, ← hlength, List.drop_left]
    simp
  unfold conflictsFor
  rw [hafter, List.take_left, List.filter_flatMap]
  simp only [filter_shared]
  show (after.zipIdx (before.length + 1)).flatMap (fun row =>
    if !before.any (selects t) && selects t chosen && selects t row.1
    then [(⟨name, t, before.length, row.2⟩ : Conflict)] else []) = _
  split
  case isTrue hchosen =>
    rw [hchosen]
    exact flatMap_zipIdx_selects t (fun j => ⟨name, t, before.length, j⟩) after _
  case isFalse hchosen =>
    refine List.flatMap_eq_nil_iff.mpr fun row _ => ?_
    rw [Bool.eq_false_iff.mpr hchosen]
    rfl

/-- What is reported for `t` from the visit to the row behind `before` on. -/
theorem filter_flatMap_conflictsFor (before rest : List Prediction) :
    ((rest.zipIdx before.length).flatMap (conflictsFor name (before ++ rest))).filter
        (fun c => c.terminal = t) =
      if before.any (selects t) then []
      else shadowings name t (rest.findIdxs (selects t) before.length) := by
  induction rest generalizing before with
  | nil => simp [shadowings]
  | cons p rest ih =>
    have hrest := ih (before ++ [p])
    rw [List.length_append, List.length_singleton, ← List.append_cons, List.any_append] at hrest
    rw [List.zipIdx_cons, List.flatMap_cons, List.filter_append, filter_conflictsFor, hrest,
      List.findIdxs_cons]
    cases hbefore : before.any (selects t) <;> cases hp : selects t p <;> simp [shadowings, hp]

theorem filter_rowConflicts (predictions : List Prediction) :
    (rowConflicts name predictions).filter (fun c => c.terminal = t) =
      shadowings name t (predictions.findIdxs (selects t)) := by
  rw [rowConflicts_eq]
  exact filter_flatMap_conflictsFor name t [] predictions

example : rowConflicts "S" [⟨.ofList ["a", "b"], ["x"]⟩, ⟨.ofList ["a"], ["y"]⟩,
      ⟨.ofList ["a", "b", "c"], ["z"]⟩] =
    [⟨"S", "a", 0, 1⟩, ⟨"S", "a", 0, 2⟩, ⟨"S", "b", 0, 2⟩] := by decide

theorem nonterminal_of_mem_rowConflicts {name : String} {predictions : List Prediction}
    {c : Conflict} (h : c ∈ rowConflicts name predictions) : c.nonterminal = name := by
  obtain ⟨_, _, h⟩ := List.mem_flatMap.mp h
  obtain ⟨_, _, h⟩ := List.mem_flatMap.mp h
  obtain ⟨_, _, rfl⟩ := List.mem_map.mp h
  rfl

end Row

/-! ## The conflicts of a table -/

/-- The conflicts with one nonterminal are those of its rows. -/
theorem filter_flatMap_rowConflicts (name t : String) {rows : List (String × List Prediction)}
    (hdistinct : (rows.map Prod.fst).Nodup) :
    (rows.flatMap fun row => rowConflicts row.1 row.2).filter
        (fun c => c.nonterminal = name ∧ c.terminal = t) =
      (rowConflicts name ((rows.lookup name).getD [])).filter fun c => c.terminal = t := by
  induction rows with
  | nil => rfl
  | cons row rows ih =>
    obtain ⟨key, predictions⟩ := row
    rw [List.map_cons, List.nodup_cons] at hdistinct
    rw [List.flatMap_cons, List.filter_append, ih hdistinct.2]
    by_cases hname : name = key
    · subst hname
      have hlookup : rows.lookup name = none := by
        refine List.lookup_eq_none_iff.mpr fun row hrow => bne_iff_ne.mpr fun heq => ?_
        exact hdistinct.1 (List.mem_map.mpr ⟨row, hrow, heq.symm⟩)
      rw [hlookup, List.lookup_cons_self]
      show _ ++ [] = _
      rw [List.append_nil]
      refine List.filter_congr fun c hc => ?_
      simp [nonterminal_of_mem_rowConflicts hc]
    · have hnone : (rowConflicts key predictions).filter
          (fun c => c.nonterminal = name ∧ c.terminal = t) = [] := by
        refine List.filter_eq_nil_iff.mpr fun c hc hboth => hname ?_
        rw [← (of_decide_eq_true hboth).1]
        exact nonterminal_of_mem_rowConflicts hc
      rw [hnone, List.nil_append, List.lookup_cons, beq_false_of_ne hname]

/-- Exactly the rows behind the first selected one are reported, each once and in order. -/
theorem filter_conflicts {table : PredictionTable} (hdistinct : (table.rows.map Prod.fst).Nodup)
    (name t : String) :
    table.conflicts.filter (fun c => c.nonterminal = name ∧ c.terminal = t) =
      shadowings name t (table.selectedRows name t) := by
  show (table.rows.flatMap fun row => rowConflicts row.1 row.2).filter _ = _
  rw [filter_flatMap_rowConflicts name t hdistinct, filter_rowConflicts]
  rfl

theorem pairwise_apart_iff {predictions : List Prediction} :
    predictions.Pairwise Apart ↔ ∀ t, predictions.countP (selects t) ≤ 1 := by
  induction predictions with
  | nil => simp
  | cons p rest ih =>
    rw [List.pairwise_cons, ih]
    constructor
    · rintro ⟨hp, hrest⟩ t
      rw [List.countP_cons]
      split
      case isTrue hsel =>
        have hzero : rest.countP (selects t) = 0 := List.countP_eq_zero.mpr fun q hq hq' =>
          hp q hq t (selects_iff.mp hsel) (selects_iff.mp hq')
        omega
      case isFalse => exact hrest t
    · intro h
      refine ⟨fun q hq t hp hq' => ?_, fun t => ?_⟩
      · have hpos : 0 < rest.countP (selects t) :=
          List.countP_pos_iff.mpr ⟨q, hq, selects_iff.mpr hq'⟩
        have hle := h t
        rw [List.countP_cons_of_pos (selects_iff.mpr hp)] at hle
        omega
      · exact Nat.le_trans (List.sublist_cons_self p rest).countP_le (h t)

theorem conflicts_eq_nil_iff {table : PredictionTable}
    (hdistinct : (table.rows.map Prod.fst).Nodup) :
    table.conflicts = [] ↔ ∀ name, (table.rowsOf name).Pairwise Apart := by
  have hselected : ∀ name t, (table.selectedRows name t).length =
      (table.rowsOf name).countP (selects t) := fun _ _ => List.length_findIdxs
  constructor
  · intro hnil name
    refine pairwise_apart_iff.mpr fun t => ?_
    rw [← hselected, ← shadowings_eq_nil_iff name t, ← filter_conflicts hdistinct, hnil]
    rfl
  · intro hapart
    refine List.eq_nil_iff_forall_not_mem.mpr fun c hc => ?_
    have hmem : c ∈ table.conflicts.filter
        fun c' => c'.nonterminal = c.nonterminal ∧ c'.terminal = c.terminal :=
      List.mem_filter.mpr ⟨hc, by simp⟩
    have hle := pairwise_apart_iff.mp (hapart c.nonterminal) c.terminal
    rw [← hselected] at hle
    rw [filter_conflicts hdistinct, (shadowings_eq_nil_iff _ _).mpr hle] at hmem
    cases hmem

/-! ## The table of a grammar -/

variable {g : Grammar}

theorem distinct_ofGrammar (g : Grammar) : ((ofGrammar g).rows.map Prod.fst).Nodup := by
  show ((g.rules.map _).map Prod.fst).Nodup
  rw [List.map_map]
  exact g.distinct

theorem strict_eq_ok {table : PredictionTable} (h : strict g = .ok table) :
    table = ofGrammar g ∧ (ofGrammar g).conflicts = [] := by
  unfold strict at h
  simp only at h
  split at h
  case isTrue hnil => exact ⟨(Except.ok.inj h).symm, List.isEmpty_iff.mp hnil⟩
  case isFalse => cases h

theorem strict_of_conflicts_eq_nil (h : (ofGrammar g).conflicts = []) :
    strict g = .ok (ofGrammar g) := by
  unfold strict
  simp only
  rw [if_pos (List.isEmpty_iff.mpr h)]

theorem strict_eq_ok_iff {table : PredictionTable} :
    strict g = .ok table ↔ table = ofGrammar g ∧ (ofGrammar g).conflicts = [] := by
  refine ⟨strict_eq_ok, ?_⟩
  rintro ⟨rfl, hnil⟩
  exact strict_of_conflicts_eq_nil hnil

theorem strict_eq_error_iff {error : TableError} :
    strict g = .error error ↔
      error = .overlapping (ofGrammar g).conflicts ∧ (ofGrammar g).conflicts ≠ [] := by
  unfold strict
  simp only
  split
  case isTrue hnil => simp [List.isEmpty_iff.mp hnil]
  case isFalse hsome =>
    rw [List.isEmpty_iff] at hsome
    rw [Except.error.injEq, and_iff_left hsome, eq_comm]

/-- **Conflicts are reported exactly.** Let a terminal select some rows of a nonterminal in the table
of a grammar. The conflicts for the two are those of the first of these rows with each of the
others, each reported once, and a look-up returns the right-hand side of the first row, or nothing
if there is none. A grammar is accepted as strict, with its table, if and only if no two rows of a
nonterminal share a terminal, and else it is refused with exactly the conflicts of its table. -/
theorem conflicts_exact (g : Grammar) :
    (∀ name t, ((ofGrammar g).selectedRows name t).Pairwise (· < ·) ∧
      (∀ i, i ∈ (ofGrammar g).selectedRows name t ↔
        ∃ p, ((ofGrammar g).rowsOf name)[i]? = some p ∧ t ∈ p.predict) ∧
      (ofGrammar g).conflicts.filter (fun c => c.nonterminal = name ∧ c.terminal = t) =
        shadowings name t ((ofGrammar g).selectedRows name t) ∧
      (ofGrammar g).lookup? name t =
        ((ofGrammar g).selectedRows name t).head?.bind fun i =>
          ((ofGrammar g).rowsOf name)[i]?.map Prediction.rhs) ∧
    (∀ table, strict g = .ok table ↔
      table = ofGrammar g ∧ ∀ name, ((ofGrammar g).rowsOf name).Pairwise Apart) ∧
    ∀ error, strict g = .error error ↔
      error = .overlapping (ofGrammar g).conflicts ∧
        ¬ ∀ name, ((ofGrammar g).rowsOf name).Pairwise Apart := by
  have hdistinct := distinct_ofGrammar g
  have hnil := conflicts_eq_nil_iff hdistinct
  refine ⟨fun name t => ⟨List.pairwise_findIdxs, fun _ => mem_selectedRows _,
    filter_conflicts hdistinct name t, lookup?_eq _ name t⟩, fun table => ?_, fun error => ?_⟩
  · rw [strict_eq_ok_iff, hnil]
  · rw [strict_eq_error_iff, Ne, hnil]

end PredictionTable

end StepCalc

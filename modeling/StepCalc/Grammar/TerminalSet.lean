/-!
# Sets of terminals

A `TerminalSet` lists its members once each, in increasing order of their code points, so that
two sets with the same members are equal (`TerminalSet.ext_mem`) and every report shows them in
one order.
-/

namespace StepCalc

/-- A finite set of names, kept as its strictly increasing list. -/
structure TerminalSet where
  toList : List String
  sorted : toList.Pairwise (· < ·)
deriving DecidableEq

namespace TerminalSet

/-- Insertion into a strictly increasing list. -/
def insertSorted (t : String) : List String → List String
  | [] => [t]
  | u :: rest =>
    if t < u then t :: u :: rest
    else if t = u then u :: rest
    else u :: insertSorted t rest

theorem mem_insertSorted {s t : String} {l : List String} :
    s ∈ insertSorted t l ↔ s = t ∨ s ∈ l := by
  induction l with
  | nil => simp [insertSorted]
  | cons u rest ih =>
    unfold insertSorted
    split
    · simp
    · split
      · rename_i h; subst h; simp
      · simp only [List.mem_cons, ih]
        constructor
        · rintro (h | h | h) <;> simp [h]
        · rintro (h | h | h) <;> simp [h]

theorem sorted_insertSorted {t : String} {l : List String} (h : l.Pairwise (· < ·)) :
    (insertSorted t l).Pairwise (· < ·) := by
  induction l with
  | nil => simp [insertSorted]
  | cons u rest ih =>
    have hu := List.pairwise_cons.mp h
    unfold insertSorted
    split
    case isTrue htu =>
      refine List.pairwise_cons.mpr ⟨fun s hs => ?_, h⟩
      rcases List.mem_cons.mp hs with rfl | hs
      · exact htu
      · exact String.lt_trans htu (hu.1 s hs)
    case isFalse htu =>
      split
      · exact h
      · rename_i hne
        refine List.pairwise_cons.mpr ⟨fun s hs => ?_, ih hu.2⟩
        rcases mem_insertSorted.mp hs with rfl | hs
        · refine Decidable.byContradiction fun hus => hne ?_
          exact String.le_antisymm (String.not_lt.mp hus) (String.not_lt.mp htu)
        · exact hu.1 s hs

/-! ## The operations -/

def empty : TerminalSet := ⟨[], List.Pairwise.nil⟩

/-- The set with `t` as an additional member. -/
def insert (t : String) (set : TerminalSet) : TerminalSet :=
  ⟨insertSorted t set.toList, sorted_insertSorted set.sorted⟩

def singleton (t : String) : TerminalSet := empty.insert t

def union (a b : TerminalSet) : TerminalSet :=
  b.toList.foldl (fun set t => set.insert t) a

def ofList (names : List String) : TerminalSet :=
  names.foldl (fun set t => set.insert t) empty

def contains (set : TerminalSet) (t : String) : Bool :=
  set.toList.contains t

/-- The members of `a` that are also in `b`. -/
def inter (a b : TerminalSet) : List String :=
  a.toList.filter b.contains

def size (set : TerminalSet) : Nat := set.toList.length

/-- Whether every member of `b` is in `a`. -/
def includes (a b : TerminalSet) : Bool :=
  b.toList.all a.contains

/-- The names of `names` that are not in `excluded`. -/
def without (names excluded : List String) : TerminalSet :=
  ofList (names.filter fun t => !excluded.contains t)

instance : EmptyCollection TerminalSet := ⟨empty⟩
instance : Union TerminalSet := ⟨union⟩
instance : Membership String TerminalSet := ⟨fun set t => t ∈ set.toList⟩

instance (t : String) (set : TerminalSet) : Decidable (t ∈ set) :=
  inferInstanceAs (Decidable (t ∈ set.toList))

/-! ## Membership -/

theorem mem_def {t : String} {set : TerminalSet} : t ∈ set ↔ t ∈ set.toList := Iff.rfl

@[simp] theorem not_mem_empty (t : String) : ¬ t ∈ (∅ : TerminalSet) :=
  List.not_mem_nil

@[simp] theorem mem_insert {s t : String} {set : TerminalSet} :
    s ∈ set.insert t ↔ s = t ∨ s ∈ set :=
  mem_insertSorted

@[simp] theorem mem_singleton {s t : String} : s ∈ singleton t ↔ s = t := by
  simp [singleton, mem_def, insert, empty, insertSorted]

theorem mem_foldl_insert {s : String} {names : List String} {set : TerminalSet} :
    s ∈ names.foldl (fun set t => set.insert t) set ↔ s ∈ set ∨ s ∈ names := by
  induction names generalizing set with
  | nil => simp
  | cons t rest ih =>
    simp only [List.foldl_cons, ih, mem_insert, List.mem_cons]
    constructor
    · rintro ((h | h) | h) <;> simp [h]
    · rintro (h | h | h) <;> simp [h]

@[simp] theorem mem_union {s : String} {a b : TerminalSet} : s ∈ a ∪ b ↔ s ∈ a ∨ s ∈ b :=
  mem_foldl_insert

@[simp] theorem mem_ofList {s : String} {names : List String} : s ∈ ofList names ↔ s ∈ names := by
  refine mem_foldl_insert.trans ?_
  exact ⟨fun h => h.resolve_left (not_mem_empty s), Or.inr⟩

@[simp] theorem contains_iff {t : String} {set : TerminalSet} : set.contains t = true ↔ t ∈ set := by
  simp [contains, mem_def]

@[simp] theorem mem_inter {s : String} {a b : TerminalSet} : s ∈ a.inter b ↔ s ∈ a ∧ s ∈ b := by
  simp [inter, mem_def, contains]

theorem includes_iff {a b : TerminalSet} : a.includes b = true ↔ ∀ t ∈ b, t ∈ a := by
  simp [includes, mem_def, contains]

@[simp] theorem mem_without {s : String} {names excluded : List String} :
    s ∈ without names excluded ↔ s ∈ names ∧ s ∉ excluded := by
  simp [without]

/-! ## Equality -/

theorem eq_of_sorted {l m : List String} (hl : l.Pairwise (· < ·)) (hm : m.Pairwise (· < ·))
    (h : ∀ s, s ∈ l ↔ s ∈ m) : l = m := by
  induction l generalizing m with
  | nil =>
    cases m with
    | nil => rfl
    | cons u _ => exact absurd ((h u).mpr List.mem_cons_self) List.not_mem_nil
  | cons t l ih =>
    cases m with
    | nil => exact absurd ((h t).mp List.mem_cons_self) List.not_mem_nil
    | cons u m =>
      have ht := List.pairwise_cons.mp hl
      have hu := List.pairwise_cons.mp hm
      -- the least members agree
      have htu : t = u := by
        rcases List.mem_cons.mp ((h t).mp List.mem_cons_self) with heq | h₁
        · exact heq
        · rcases List.mem_cons.mp ((h u).mpr List.mem_cons_self) with heq | h₂
          · exact heq.symm
          · exact absurd (String.lt_trans (hu.1 t h₁) (ht.1 u h₂)) (String.lt_irrefl u)
      subst htu
      refine congrArg (t :: ·) (ih ht.2 hu.2 fun s => ?_)
      constructor <;> intro hs
      · rcases List.mem_cons.mp ((h s).mp (List.mem_cons_of_mem t hs)) with heq | hs'
        · subst heq; exact absurd (ht.1 s hs) (String.lt_irrefl s)
        · exact hs'
      · rcases List.mem_cons.mp ((h s).mpr (List.mem_cons_of_mem t hs)) with heq | hs'
        · subst heq; exact absurd (hu.1 s hs) (String.lt_irrefl s)
        · exact hs'

/-- Sets with the same members are equal. -/
theorem ext_mem {a b : TerminalSet} (h : ∀ t, t ∈ a ↔ t ∈ b) : a = b := by
  obtain ⟨l, hl⟩ := a
  obtain ⟨m, hm⟩ := b
  have hlm : l = m := eq_of_sorted hl hm h
  subst hlm
  rfl

end TerminalSet

end StepCalc

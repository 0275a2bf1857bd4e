import Mathlib.Data.List.Basic
import StepCalc.Program.Statement

/-!
# Numbers of statements

`Program.preorder` lists the statements of a program in the order in which they are written, a body
right after the statement it belongs to; there are `statementCount` of them. The listing numbers
them by a counter that it takes along through nested bodies. Behind a statement the counter has gone
up by the size of the statement (`Statement.next_listing`).

The lines of the listing that start a statement go through `preorder`: they carry the numbers from
zero on (`ids_listing`), and the line with a given number is the header of the statement with this
number (`exists_line`).
-/

namespace StepCalc

namespace Statement

mutual

/-- The statement and those nested in it, in the order in which they are written. -/
def preorder (s : Statement) : List Statement :=
  s :: match s with
    | branch _ body => preorderOfAll body
    | loop body => preorderOfAll body
    | _ => []

def preorderOfAll : List Statement → List Statement
  | [] => []
  | s :: rest => s.preorder ++ preorderOfAll rest

end

mutual

theorem length_preorder : (s : Statement) → s.preorder.length = s.size
  | branch _ body => by simp [preorder, size, length_preorderOfAll body, Nat.add_comm]
  | loop body => by simp [preorder, size, length_preorderOfAll body, Nat.add_comm]
  | assign _ _ | read _ | write _ | check _ | erroneous => by simp [preorder, size]

theorem length_preorderOfAll :
    (statements : List Statement) → (preorderOfAll statements).length = sizeOfAll statements
  | [] => by simp [preorderOfAll, sizeOfAll]
  | s :: rest => by
    simp [preorderOfAll, sizeOfAll, length_preorder s, length_preorderOfAll rest]

end

end Statement

/-- The text of a line that starts a statement, with the id of the statement. -/
def ListingLine.tag? (line : ListingLine) : Option (String × Nat) :=
  line.statement.map fun id => (line.text, id)

namespace Statement

mutual

/-- The listing counts on by the size of what it lists. -/
theorem next_listing (depth next : Nat) : (s : Statement) → (s.listing depth next).2 = next + s.size
  | branch _ body | loop body => by
    simp only [listing, size, next_listingOfAll (depth + 1) (next + 1) body]
    omega
  | assign _ _ | read _ | write _ | check _ | erroneous => rfl

theorem next_listingOfAll (depth next : Nat) : (statements : List Statement) →
    (listingOfAll depth next statements).2 = next + sizeOfAll statements
  | [] => rfl
  | s :: rest => by
    simp only [listingOfAll, sizeOfAll, next_listing depth next s, next_listingOfAll depth _ rest]
    omega

end

mutual

theorem tags_listing (depth next : Nat) : (s : Statement) →
    (s.listing depth next).1.filterMap ListingLine.tag? = (s.preorder.map header).zipIdx next
  | branch _ body | loop body => by
    simp [listing, preorder, ListingLine.tag?, tags_listingOfAll (depth + 1) (next + 1) body]
  | assign _ _ | read _ | write _ | check _ | erroneous => by
    simp [listing, preorder, ListingLine.tag?]

/-- The lines that start a statement show the statements in order, numbered from `next` on. -/
theorem tags_listingOfAll (depth next : Nat) : (statements : List Statement) →
    (listingOfAll depth next statements).1.filterMap ListingLine.tag? =
      ((preorderOfAll statements).map header).zipIdx next
  | [] => rfl
  | s :: rest => by
    -- the counter is where the sizes say
    have hnext : (s.listing depth next).2 = next + (s.preorder.map header).length := by
      rw [next_listing, List.length_map, length_preorder]
    simp only [listingOfAll, preorderOfAll]
    rw [List.filterMap_append, tags_listing depth next s,
      tags_listingOfAll depth (s.listing depth next).2 rest, List.map_append, List.zipIdx_append,
      hnext]

end

end Statement

namespace Program

variable {program : Program}

/-- The statements of a program in the order in which they are written. -/
def preorder (program : Program) : List Statement := Statement.preorderOfAll program.statements

theorem length_preorder (program : Program) :
    program.preorder.length = program.statementCount :=
  Statement.length_preorderOfAll program.statements

theorem tags_listing (program : Program) :
    program.listing.filterMap ListingLine.tag? = (program.preorder.map Statement.header).zipIdx :=
  Statement.tags_listingOfAll 0 0 program.statements

/-- The listing numbers the statements from top to bottom. -/
theorem ids_listing (program : Program) :
    program.listing.filterMap ListingLine.statement = List.range program.statementCount := by
  have hids : program.listing.filterMap ListingLine.statement =
      (program.listing.filterMap ListingLine.tag?).map Prod.snd := by
    rw [List.map_filterMap]
    refine List.filterMap_congr fun line _ => ?_
    rw [ListingLine.tag?, Option.map_map]
    exact Option.map_id'.symm
  rw [hids, tags_listing, List.zipIdx_map_snd, List.length_map, length_preorder,
    List.range_eq_range']

theorem filter_zipIdx_eq_singleton {α : Type} {l : List α} {a : α} {i : Nat} (h : l[i]? = some a) :
    l.zipIdx.filter (fun entry => entry.2 = i) = [(a, i)] := by
  obtain ⟨hlt, rfl⟩ := List.getElem?_eq_some_iff.mp h
  have hlength : (l.take i).length = i := List.length_take_of_le (Nat.le_of_lt hlt)
  have hbefore : (l.take i).zipIdx.filter (fun entry => entry.2 = i) = [] := by
    refine List.filter_eq_nil_iff.mpr fun ⟨b, k⟩ hmem => ?_
    have hk := (List.mem_zipIdx hmem).2.1
    simp only [decide_eq_true_eq]
    omega
  have hafter : ((l.drop (i + 1)).zipIdx (i + 1)).filter (fun entry => entry.2 = i) = [] := by
    refine List.filter_eq_nil_iff.mpr fun ⟨b, k⟩ hmem => ?_
    have hk := (List.mem_zipIdx hmem).1
    simp only [decide_eq_true_eq]
    omega
  have hsplit : l.zipIdx =
      (l.take i).zipIdx ++ (l[i], i) :: (l.drop (i + 1)).zipIdx (i + 1) := by
    conv_lhs => rw [← List.take_append_drop i l, List.drop_eq_getElem_cons hlt]
    rw [List.zipIdx_append, hlength, Nat.zero_add, List.zipIdx_cons]
  rw [hsplit, List.filter_append, List.filter_cons_of_pos (by simp), hbefore, hafter]
  rfl

/-- Exactly one line of the listing has the number of a given statement, and it shows the header of
this statement. -/
theorem exists_line {s : Statement} {id : Nat} (h : program.preorder[id]? = some s) :
    ∃ line, program.listing.filter (fun line => line.statement = some id) = [line] ∧
      line.text = s.header := by
  have htext : (program.preorder.map Statement.header)[id]? = some s.header := by
    rw [List.getElem?_map, h]
    rfl
  have hpairs : (program.listing.filter fun line => line.statement = some id).map
      (fun line => (line.text, id)) = [(s.header, id)] := by
    rw [← filter_zipIdx_eq_singleton htext, ← tags_listing, List.filter_filterMap,
      ← List.filterMap_eq_map, List.filterMap_filter]
    refine List.filterMap_congr fun line _ => ?_
    rw [ListingLine.tag?]
    cases hid : line.statement with
    | none => simp
    | some k => by_cases hk : k = id <;> simp [hk, Option.filter_some]
  obtain ⟨line, hline, htag⟩ := List.map_eq_singleton_iff.mp hpairs
  exact ⟨line, hline, (Prod.mk.inj htag).1⟩

end Program

end StepCalc

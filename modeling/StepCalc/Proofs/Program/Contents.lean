import StepCalc.Program.OfTree
import StepCalc.Proofs.Parsing.Forest

/-!
# What a program keeps of its tree

A program names variables and spells out literals in a certain order, and so do the leaves of a
parse tree. Reading a tree as a program neither loses nor repeats nor reorders any of them, and
makes one statement of each node that puts a statement in front of a list
(`ofTree_keeps_contents`). This holds of all trees that can be read, also of those that no grammar
of the language has: closing words, the mark of an assignment and parentheses may be any words, and an
operator may be below any node.

For each kind of phrase there is one lemma that says of which trees it can be read
(`exists_of_toExpr` and those after it). What such trees hold follows by induction on the tree. The
tail of a sum or of a product is read after an operand, so it adds what it holds to what the operand
holds (`Adds`).
-/

namespace StepCalc

/-! ## Names and literals -/

/-- A name or a literal, with its text. -/
inductive Atom where
  | name (text : String)
  | number (text : String)
deriving DecidableEq, Repr

/-- The names and literals of an expression, in the order in which they are written. -/
def Expr.atoms : Expr → List Atom
  | ident name => [.name name]
  | number text => [.number text]
  | binary _ lhs rhs => lhs.atoms ++ rhs.atoms

namespace Statement

mutual

/-- The names and literals of a statement, in the order in which they are written. -/
def atoms : Statement → List Atom
  | assign name expr => .name name :: expr.atoms
  | read name => [.name name]
  | write expr => expr.atoms
  | branch condition body => condition.atoms ++ atomsOfAll body
  | loop body => atomsOfAll body
  | check condition => condition.atoms
  | erroneous => []

def atomsOfAll : List Statement → List Atom
  | [] => []
  | s :: rest => s.atoms ++ atomsOfAll rest

end

end Statement

def Program.atoms (p : Program) : List Atom := Statement.atomsOfAll p.statements

namespace ParseTree

/-- The name or literal at a leaf. -/
def atom? : ParseTree → Option Atom
  | identifier name => some (.name name)
  | number text => some (.number text)
  | _ => none

/-- The names and literals at the leaves of a tree, from left to right. -/
def atoms (tree : ParseTree) : List Atom := tree.leaves.filterMap atom?

mutual

/-- The number of nodes that put a statement in front of a list: those named `SL` that have two
children. -/
def statementNodes : ParseTree → Nat
  | node name children =>
    (if name = "SL" ∧ children.length = 2 then 1 else 0) + statementNodesOfAll children
  | _ => 0

/-- The number of such nodes in some trees. -/
def statementNodesOfAll : List ParseTree → Nat
  | [] => 0
  | tree :: rest => tree.statementNodes + statementNodesOfAll rest

end

/-! ## What trees hold -/

/-- The trees hold these names and literals, and as many nodes that list a statement. -/
structure Hold (trees : List ParseTree) (atoms : List Atom) (count : Nat) : Prop where
  atoms : (leavesOfAll trees).filterMap atom? = atoms
  count : statementNodesOfAll trees = count

theorem hold_nil : Hold [] [] 0 where
  atoms := by simp [leavesOfAll]
  count := by simp [statementNodesOfAll]

theorem hold_literal (text : String) : Hold [literal text] [] 0 where
  atoms := by simp [leavesOfAll, leaves, atom?]
  count := by simp [statementNodesOfAll, statementNodes]

theorem hold_identifier (name : String) : Hold [identifier name] [.name name] 0 where
  atoms := by simp [leavesOfAll, leaves, atom?]
  count := by simp [statementNodesOfAll, statementNodes]

theorem hold_number (text : String) : Hold [number text] [.number text] 0 where
  atoms := by simp [leavesOfAll, leaves, atom?]
  count := by simp [statementNodesOfAll, statementNodes]

namespace Hold

variable {tree : ParseTree} {trees : List ParseTree} {atoms others : List Atom} {n m : Nat}

theorem cons (h : Hold [tree] atoms n) (hrest : Hold trees others m) :
    Hold (tree :: trees) (atoms ++ others) (n + m) where
  atoms := by
    have hatoms := h.atoms
    simp only [leavesOfAll, List.append_nil] at hatoms
    rw [leavesOfAll, List.filterMap_append, hatoms, hrest.atoms]
  count := by
    have hcount := h.count
    simp only [statementNodesOfAll, Nat.add_zero] at hcount
    rw [statementNodesOfAll, hcount, hrest.count]

theorem node {name : String} (h : Hold trees atoms n)
    (hname : ¬ (name = "SL" ∧ trees.length = 2)) : Hold [node name trees] atoms n where
  atoms := by simpa [leavesOfAll, leaves] using h.atoms
  count := by simpa [statementNodesOfAll, statementNodes, hname] using h.count

theorem statementNode (h : Hold trees atoms n) (hlength : trees.length = 2) :
    Hold [.node "SL" trees] atoms (1 + n) where
  atoms := by simpa [leavesOfAll, leaves] using h.atoms
  count := by simpa [statementNodesOfAll, statementNodes, hlength] using h.count

end Hold

/-! ## Which trees can be read -/

theorem exists_of_bind {ε α β : Type} {x : Except ε α} {f : α → Except ε β} {b : β}
    (h : (x >>= f) = .ok b) : ∃ a, x = .ok a ∧ f a = .ok b := by
  cases x with
  | error error => cases h
  | ok a => exact ⟨a, rfl, h⟩

section

variable {tree : ParseTree} {lhs e : Expr}

theorem exists_of_toOperator {op : BinOp} (h : tree.toOperator = .ok op) :
    ∃ name mark, tree = node name [literal mark] := by
  revert h
  fun_cases toOperator tree with
  | case1 name mark => exact fun _ => ⟨name, mark, rfl⟩
  | _ => exact nofun

theorem exists_of_toExpr (h : tree.toExpr = .ok e) :
    ∃ term tail lhs, tree = node "E" [term, tail] ∧ term.toTerm = .ok lhs ∧
      tail.foldSum lhs = .ok e := by
  revert h
  fun_cases toExpr tree with
  | case1 term tail =>
    intro h
    obtain ⟨lhs, hterm, htail⟩ := exists_of_bind h
    exact ⟨term, tail, lhs, rfl, hterm, htail⟩
  | _ => exact nofun

theorem exists_of_toTerm (h : tree.toTerm = .ok e) :
    ∃ factor tail lhs, tree = node "T" [factor, tail] ∧ factor.toFactor = .ok lhs ∧
      tail.foldProduct lhs = .ok e := by
  revert h
  fun_cases toTerm tree with
  | case1 factor tail =>
    intro h
    obtain ⟨lhs, hfactor, htail⟩ := exists_of_bind h
    exact ⟨factor, tail, lhs, rfl, hfactor, htail⟩
  | _ => exact nofun

theorem cases_of_toFactor (h : tree.toFactor = .ok e) :
    (∃ name, tree = node "F" [identifier name] ∧ e = .ident name) ∨
    (∃ text, tree = node "F" [number text] ∧ e = .number text) ∨
    ∃ opening inner closing, tree = node "F" [literal opening, inner, literal closing] ∧
      inner.toExpr = .ok e := by
  revert h
  fun_cases toFactor tree with
  | case1 name =>
    rintro ⟨⟩
    exact Or.inl ⟨name, rfl, rfl⟩
  | case2 text =>
    rintro ⟨⟩
    exact Or.inr (Or.inl ⟨text, rfl, rfl⟩)
  | case3 opening inner closing =>
    intro h
    exact Or.inr (Or.inr ⟨opening, inner, closing, rfl, h⟩)
  | _ => exact nofun

theorem cases_of_foldSum (h : tree.foldSum lhs = .ok e) :
    (tree = node "TT" [] ∧ e = lhs) ∨
    ∃ mark operand tail op rhs, tree = node "TT" [mark, operand, tail] ∧
      mark.toOperator = .ok op ∧ operand.toTerm = .ok rhs ∧
      tail.foldSum (.binary op lhs rhs) = .ok e := by
  revert h
  fun_cases foldSum lhs tree with
  | case1 =>
    rintro ⟨⟩
    exact Or.inl ⟨rfl, rfl⟩
  | case2 mark operand tail =>
    intro h
    obtain ⟨op, hop, h⟩ := exists_of_bind h
    obtain ⟨rhs, hrhs, h⟩ := exists_of_bind h
    exact Or.inr ⟨mark, operand, tail, op, rhs, rfl, hop, hrhs, h⟩
  | _ => exact nofun

theorem cases_of_foldProduct (h : tree.foldProduct lhs = .ok e) :
    (tree = node "FT" [] ∧ e = lhs) ∨
    ∃ mark operand tail op rhs, tree = node "FT" [mark, operand, tail] ∧
      mark.toOperator = .ok op ∧ operand.toFactor = .ok rhs ∧
      tail.foldProduct (.binary op lhs rhs) = .ok e := by
  revert h
  fun_cases foldProduct lhs tree with
  | case1 =>
    rintro ⟨⟩
    exact Or.inl ⟨rfl, rfl⟩
  | case2 mark operand tail =>
    intro h
    obtain ⟨op, hop, h⟩ := exists_of_bind h
    obtain ⟨rhs, hrhs, h⟩ := exists_of_bind h
    exact Or.inr ⟨mark, operand, tail, op, rhs, rfl, hop, hrhs, h⟩
  | _ => exact nofun

theorem cases_of_toCondition (h : tree.toCondition = .ok e) :
    tree.toExpr = .ok e ∨
    (∃ left, tree = node "R" [left, node "ET" []] ∧ left.toExpr = .ok e) ∨
    ∃ left mark right lhs op rhs, tree = node "R" [left, node "ET" [mark, right]] ∧
      left.toExpr = .ok lhs ∧ mark.toOperator = .ok op ∧ right.toExpr = .ok rhs ∧
      e = .binary op lhs rhs := by
  revert h
  fun_cases toCondition tree with
  | case1 left rest =>
    intro h
    obtain ⟨lhs, hleft, hrest⟩ := exists_of_bind h
    match rest with
    | [] =>
      cases hrest
      exact Or.inr (Or.inl ⟨left, rfl, hleft⟩)
    | [mark, right] =>
      obtain ⟨op, hop, hrest⟩ := exists_of_bind hrest
      obtain ⟨rhs, hright, hrest⟩ := exists_of_bind hrest
      cases hrest
      exact Or.inr (Or.inr ⟨left, mark, right, lhs, op, rhs, rfl, hleft, hop, hright, rfl⟩)
    | [_] | _ :: _ :: _ :: _ => cases hrest
  | case4 | case5 => exact Or.inl
  | _ => exact nofun

/-- The trees that are read as a given statement. -/
def ReadsAs (tree : ParseTree) : Statement → Prop
  | .assign name e =>
    ∃ mark expr, tree = node "S" [identifier name, literal mark, expr] ∧ expr.toExpr = .ok e
  | .read name => tree = node "S" [literal "read", identifier name]
  | .write e => ∃ expr, tree = node "S" [literal "write", expr] ∧ expr.toExpr = .ok e
  | .check e =>
    ∃ condition, tree = node "S" [literal "check", condition] ∧ condition.toCondition = .ok e
  | .branch e statements => ∃ condition body closing,
    tree = node "S" [literal "if", condition, body, literal closing] ∧
      condition.toCondition = .ok e ∧ body.toStatements = .ok statements
  | .loop statements => ∃ body closing,
    tree = node "S" [literal "do", body, literal closing] ∧ body.toStatements = .ok statements
  | .erroneous => False

theorem readsAs_of_toStatement {statement : Statement} (h : tree.toStatement = .ok statement) :
    tree.ReadsAs statement := by
  revert h
  fun_cases toStatement tree with
  | case1 target mark expr =>
    intro h
    obtain ⟨e, hexpr, h⟩ := exists_of_bind h
    cases h
    exact ⟨mark, expr, rfl, hexpr⟩
  | case2 target =>
    rintro ⟨⟩
    rfl
  | case3 expr =>
    intro h
    obtain ⟨e, hexpr, h⟩ := exists_of_bind h
    cases h
    exact ⟨expr, rfl, hexpr⟩
  | case4 condition =>
    intro h
    obtain ⟨e, hcondition, h⟩ := exists_of_bind h
    cases h
    exact ⟨condition, rfl, hcondition⟩
  | case5 condition body closing =>
    intro h
    obtain ⟨e, hcondition, h⟩ := exists_of_bind h
    obtain ⟨statements, hbody, h⟩ := exists_of_bind h
    cases h
    exact ⟨condition, body, closing, rfl, hcondition, hbody⟩
  | case6 body closing =>
    intro h
    obtain ⟨statements, hbody, h⟩ := exists_of_bind h
    cases h
    exact ⟨body, closing, rfl, hbody⟩
  | _ => exact nofun

theorem cases_of_toStatements {statements : List Statement}
    (h : tree.toStatements = .ok statements) :
    (tree = node "SL" [] ∧ statements = []) ∨
    ∃ first rest statement others, tree = node "SL" [first, rest] ∧
      first.toStatement = .ok statement ∧ rest.toStatements = .ok others ∧
      statements = statement :: others := by
  revert h
  fun_cases toStatements tree with
  | case1 =>
    rintro ⟨⟩
    exact Or.inl ⟨rfl, rfl⟩
  | case2 first rest =>
    intro h
    obtain ⟨statement, hfirst, h⟩ := exists_of_bind h
    obtain ⟨others, hrest, h⟩ := exists_of_bind h
    cases h
    exact Or.inr ⟨first, rest, statement, others, rfl, hfirst, hrest, rfl⟩
  | _ => exact nofun

end

/-! ## What readable trees hold -/

theorem hold_of_toOperator {tree : ParseTree} {op : BinOp} (h : tree.toOperator = .ok op) :
    Hold [tree] [] 0 := by
  obtain ⟨name, mark, rfl⟩ := exists_of_toOperator h
  exact (hold_literal mark).node (by simp)

/-- The tree of a tail holds what `e` adds to the operand `lhs` in front of it. -/
def Adds (tree : ParseTree) (lhs e : Expr) : Prop :=
  ∃ atoms, e.atoms = lhs.atoms ++ atoms ∧ Hold [tree] atoms 0

section

variable {name : String} {mark operand tail : ParseTree} {op : BinOp} {lhs rhs e : Expr}

theorem adds_nothing (name : String) (lhs : Expr) : (node name []).Adds lhs lhs :=
  ⟨[], (List.append_nil _).symm, hold_nil.node (by simp)⟩

theorem Adds.after_operand (h : tail.Adds (.binary op lhs rhs) e) (hop : mark.toOperator = .ok op)
    (hrhs : Hold [operand] rhs.atoms 0) : (node name [mark, operand, tail]).Adds lhs e := by
  obtain ⟨atoms, hatoms, hrest⟩ := h
  refine ⟨rhs.atoms ++ atoms, hatoms.trans (List.append_assoc _ _ _), ?_⟩
  exact ((hold_of_toOperator hop).cons (hrhs.cons hrest)).node (by simp)

theorem Adds.hold (h : tail.Adds lhs e) (hlhs : Hold [operand] lhs.atoms 0) (hname : name ≠ "SL") :
    Hold [node name [operand, tail]] e.atoms 0 := by
  obtain ⟨atoms, hatoms, hrest⟩ := h
  rw [hatoms]
  exact (hlhs.cons hrest).node (by simp [hname])

end

-- The induction is on the tree: an expression comes up again only in parentheses below it.
mutual

theorem hold_of_toExpr {tree : ParseTree} {e : Expr} (h : tree.toExpr = .ok e) :
    Hold [tree] e.atoms 0 := by
  obtain ⟨term, tail, lhs, htree, hterm, htail⟩ := exists_of_toExpr h
  rw [htree]
  exact (adds_of_foldSum htail).hold (hold_of_toTerm hterm) (by decide)
termination_by tree
decreasing_by all_goals subst htree; decreasing_tactic

theorem adds_of_foldSum {tree : ParseTree} {lhs e : Expr} (h : tree.foldSum lhs = .ok e) :
    tree.Adds lhs e := by
  rcases cases_of_foldSum h with
    ⟨rfl, rfl⟩ | ⟨mark, operand, tail, op, rhs, htree, hop, hrhs, htail⟩
  · exact adds_nothing "TT" _
  · rw [htree]
    exact (adds_of_foldSum htail).after_operand hop (hold_of_toTerm hrhs)
termination_by tree
decreasing_by all_goals subst htree; decreasing_tactic

theorem hold_of_toTerm {tree : ParseTree} {e : Expr} (h : tree.toTerm = .ok e) :
    Hold [tree] e.atoms 0 := by
  obtain ⟨factor, tail, lhs, htree, hfactor, htail⟩ := exists_of_toTerm h
  rw [htree]
  exact (adds_of_foldProduct htail).hold (hold_of_toFactor hfactor) (by decide)
termination_by tree
decreasing_by all_goals subst htree; decreasing_tactic

theorem adds_of_foldProduct {tree : ParseTree} {lhs e : Expr} (h : tree.foldProduct lhs = .ok e) :
    tree.Adds lhs e := by
  rcases cases_of_foldProduct h with
    ⟨rfl, rfl⟩ | ⟨mark, operand, tail, op, rhs, htree, hop, hrhs, htail⟩
  · exact adds_nothing "FT" _
  · rw [htree]
    exact (adds_of_foldProduct htail).after_operand hop (hold_of_toFactor hrhs)
termination_by tree
decreasing_by all_goals subst htree; decreasing_tactic

theorem hold_of_toFactor {tree : ParseTree} {e : Expr} (h : tree.toFactor = .ok e) :
    Hold [tree] e.atoms 0 := by
  rcases cases_of_toFactor h with
    ⟨name, rfl, rfl⟩ | ⟨text, rfl, rfl⟩ | ⟨opening, inner, closing, htree, hinner⟩
  · exact (hold_identifier name).node (by simp)
  · exact (hold_number text).node (by simp)
  · have hparts := (hold_literal opening).cons ((hold_of_toExpr hinner).cons (hold_literal closing))
    rw [List.nil_append, List.append_nil] at hparts
    rw [htree]
    exact hparts.node (by simp)
termination_by tree
decreasing_by all_goals subst htree; decreasing_tactic

end

theorem hold_of_toCondition {tree : ParseTree} {e : Expr} (h : tree.toCondition = .ok e) :
    Hold [tree] e.atoms 0 := by
  rcases cases_of_toCondition h with
    hexpr | ⟨left, rfl, hleft⟩ | ⟨left, mark, right, lhs, op, rhs, rfl, hleft, hop, hright, rfl⟩
  · exact hold_of_toExpr hexpr
  · have htail : Hold [.node "ET" []] [] 0 := hold_nil.node (by simp)
    have hparts := (hold_of_toExpr hleft).cons htail
    rw [List.append_nil] at hparts
    exact hparts.node (by simp)
  · have htail : Hold [.node "ET" [mark, right]] rhs.atoms 0 :=
      ((hold_of_toOperator hop).cons (hold_of_toExpr hright)).node (by simp)
    exact ((hold_of_toExpr hleft).cons htail).node (by simp)

mutual

/-- The tree of a statement holds the nodes of all statements in it, but not its own. -/
theorem hold_of_toStatement {tree : ParseTree} {statement : Statement}
    (h : tree.toStatement = .ok statement) :
    ∃ n, statement.size = 1 + n ∧ Hold [tree] statement.atoms n := by
  have hreads := readsAs_of_toStatement h
  cases statement with
  | assign name e =>
    obtain ⟨mark, expr, rfl, hexpr⟩ := hreads
    have hparts := (hold_identifier name).cons ((hold_literal mark).cons (hold_of_toExpr hexpr))
    exact ⟨0, by simp [Statement.size], hparts.node (by simp)⟩
  | read name =>
    obtain rfl := hreads
    exact ⟨0, by simp [Statement.size],
      ((hold_literal "read").cons (hold_identifier name)).node (by simp)⟩
  | write e =>
    obtain ⟨expr, rfl, hexpr⟩ := hreads
    exact ⟨0, by simp [Statement.size],
      ((hold_literal "write").cons (hold_of_toExpr hexpr)).node (by simp)⟩
  | check e =>
    obtain ⟨condition, rfl, hcondition⟩ := hreads
    exact ⟨0, by simp [Statement.size],
      ((hold_literal "check").cons (hold_of_toCondition hcondition)).node (by simp)⟩
  | branch e statements =>
    obtain ⟨condition, body, closing, htree, hcondition, hbody⟩ := hreads
    have hparts := (hold_literal "if").cons ((hold_of_toCondition hcondition).cons
      ((hold_of_toStatements hbody).cons (hold_literal closing)))
    simp only [List.nil_append, List.append_nil, Nat.zero_add, Nat.add_zero] at hparts
    refine ⟨Statement.sizeOfAll statements, by rw [Statement.size], ?_⟩
    rw [htree, Statement.atoms]
    exact hparts.node (by simp)
  | loop statements =>
    obtain ⟨body, closing, htree, hbody⟩ := hreads
    have hparts := (hold_literal "do").cons
      ((hold_of_toStatements hbody).cons (hold_literal closing))
    simp only [List.nil_append, List.append_nil, Nat.zero_add, Nat.add_zero] at hparts
    refine ⟨Statement.sizeOfAll statements, by rw [Statement.size], ?_⟩
    rw [htree, Statement.atoms]
    exact hparts.node (by simp)
  | erroneous => exact hreads.elim
termination_by tree
decreasing_by all_goals subst htree; decreasing_tactic

theorem hold_of_toStatements {tree : ParseTree} {statements : List Statement}
    (h : tree.toStatements = .ok statements) :
    Hold [tree] (Statement.atomsOfAll statements) (Statement.sizeOfAll statements) := by
  rcases cases_of_toStatements h with
    ⟨rfl, rfl⟩ | ⟨first, rest, statement, others, htree, hfirst, hrest, rfl⟩
  · rw [Statement.atomsOfAll, Statement.sizeOfAll]
    exact hold_nil.node (by simp)
  · obtain ⟨n, hsize, hstatement⟩ := hold_of_toStatement hfirst
    have hparts := (hstatement.cons (hold_of_toStatements hrest)).statementNode rfl
    rw [htree, Statement.atomsOfAll, Statement.sizeOfAll, hsize, Nat.add_assoc]
    exact hparts
termination_by tree
decreasing_by all_goals subst htree; decreasing_tactic

end

end ParseTree

namespace Program

open ParseTree

theorem exists_of_ofTree {tree : ParseTree} {p : Program} (hparsed : tree ≠ .failed)
    (h : ofTree tree = .ok p) :
    ∃ list mark, tree = .node "P" [list, .literal mark] ∧ list.toStatements = .ok p.statements := by
  revert h
  fun_cases ofTree tree with
  | case1 => exact absurd rfl hparsed
  | case2 list mark =>
    intro h
    obtain ⟨statements, hlist, h⟩ := exists_of_bind h
    cases h
    exact ⟨list, mark, rfl, hlist⟩
  | _ => rintro ⟨⟩

/-- **Reading a tree keeps its contents.** The names and literals of a program are those at the
leaves of its tree, in the same order, and it has one statement for each node that puts a statement
in front of a list. The tree of a failed parse is left out, as it stands for a statement of its
own. -/
theorem ofTree_keeps_contents {tree : ParseTree} {p : Program} (hparsed : tree ≠ .failed)
    (h : ofTree tree = .ok p) :
    tree.atoms = p.atoms ∧ p.statementCount = tree.statementNodes := by
  obtain ⟨list, mark, rfl, hlist⟩ := exists_of_ofTree hparsed h
  have hparts := (hold_of_toStatements hlist).cons (hold_literal mark)
  rw [List.append_nil, Nat.add_zero] at hparts
  have htree : Hold [.node "P" [list, .literal mark]] p.atoms p.statementCount :=
    hparts.node (by simp)
  obtain ⟨hatoms, hcount⟩ := htree
  simp only [leavesOfAll, List.append_nil, statementNodesOfAll, Nat.add_zero] at hatoms hcount
  exact ⟨hatoms, hcount.symm⟩

/-- The tree of a product that is a single leaf. -/
def single (leaf : ParseTree) : ParseTree := .node "T" [.node "F" [leaf], .node "FT" []]

/-- A tree that no grammar of the language has: `do` is closed by another word, and the operator is
below a node with the name of a list. -/
def foreignTree : ParseTree :=
  .node "P" [.node "SL" [
    .node "S" [.literal "do", .node "SL" [
      .node "S" [.literal "check", .node "E" [single (.identifier "n"), .node "TT" []]],
      .node "SL" []], .literal "done"],
    .node "SL" [
      .node "S" [.identifier "x", .literal "=", .node "E" [single (.number "7"),
        .node "TT" [.node "SL" [.literal "-"], single (.identifier "n"), .node "TT" []]]],
      .node "SL" []]], .literal "end"]

/-- Three of the six nodes that are named as lists put a statement in front of one. -/
theorem ofTree_keeps_contents_foreign :
    ofTree foreignTree = .ok ⟨[.loop [.check (.ident "n")],
      .assign "x" (.binary .sub (.number "7") (.ident "n"))]⟩ ∧
    foreignTree.atoms = [.name "n", .name "x", .number "7", .name "n"] ∧
    foreignTree.statementNodes = 3 := by
  have hread : ofTree foreignTree = .ok ⟨[.loop [.check (.ident "n")],
      .assign "x" (.binary .sub (.number "7") (.ident "n"))]⟩ := by
    with_unfolding_all rfl
  obtain ⟨hatoms, hcount⟩ := ofTree_keeps_contents (by simp [foreignTree]) hread
  exact ⟨hread, hatoms.trans rfl, hcount.symm.trans rfl⟩

end Program

end StepCalc

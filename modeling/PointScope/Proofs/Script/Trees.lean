import PointScope.Proofs.Script.Formation
import PointScope.Proofs.Script.Visits

/-!
# Compiled trees

The evaluator and the display rely on things that neither of them checks: names are folded already,
an operator between two operands is not `!`, and a call has been looked up. `Expr.Proper` lists what
is true of a node by itself. Every node of every compiled script is proper, at every depth, whatever
the script looks like (`compile_proper`); unlike `Expr.WellFormed` this also covers numerals that
are too large for a number. So the evaluator never applies `!` to two numbers, and it finds under a
name what the host finds under the same name in any letter case (`Expr.Serves`).
-/

namespace PointScope.Script

/-! ### Nodes -/

/-- A name as scripts store it: an identifier without capital letters. -/
def IsStoredName (name : String) : Prop :=
  IsName name.toList ∧ ∀ c ∈ name.toList, c.isUpper = false

/-- What is true of a node of a compiled script, apart from its parts. -/
def Expr.Proper : Expr → Prop
  | .const value => value.isNaN = false ∧ Binary64.isNegative value = false
  | .var name | .assignVar name _ => IsStoredName name
  | .unary _ _ | .assignCell _ _ _ => True
  | .binary op _ _ => op ≠ .not
  | .call name function _ =>
    IsStoredName name ∧ name ≠ assignName ∧ function = Builtin.ofName? name
  | .assignNone target _ => target.isWritable = false

/-- What the evaluator relies on when it comes across a node: the operator is one that it applies
to two numbers, and a variable is the one that the host means by its name in any letter case. -/
def Expr.Serves : Expr → Environment → Prop
  | .binary op _ _, _ => op ≠ .not
  | .var name, env => env.read name = env.get name 0
  | .assignVar name _, env => ∀ value, env.write name value = env.set name value
  | _, _ => True

/-! ### Names -/

private theorem IsIdentifier.isStoredName {name : String} (h : IsIdentifier name) :
    IsStoredName name :=
  ⟨h.isName, Text.isUpper_eq_false h.folded⟩

/-- A name as scripts store it is in small letters. -/
theorem IsStoredName.folded {name : String} (h : IsStoredName name) : Text.fold name = name := by
  rw [← String.toList_inj, Text.toList_fold]
  refine (List.map_congr_left fun c hc => ?_).trans (List.map_id _)
  exact Char.toLower_eq_of_not_isUpper (by rw [h.2 c hc]; exact Bool.false_ne_true)

/-! ### Scripts -/

private theorem forall_mem_nodesOfArgs {Q : Expr → Prop} {es : List Expr} :
    (∀ node ∈ nodesOfArgs es, Q node) ↔ ∀ e ∈ es, ∀ node ∈ e.nodes, Q node := by
  induction es with
  | nil => exact ⟨fun _ => List.forall_mem_nil _, fun _ => List.forall_mem_nil _⟩
  | cons e es ih => rw [nodesOfArgs, List.forall_mem_append, List.forall_mem_cons, ih]

/-- Whatever is built of proper nodes has proper nodes only. -/
theorem builds_proper : Builds fun e => ∀ node ∈ e.nodes, node.Proper where
  zero := List.forall_mem_singleton.mpr (isNegative_of_isUnsigned Binary64.isUnsigned_zero)
  var hname := List.forall_mem_singleton.mpr hname.isStoredName
  unary he := List.forall_mem_cons.mpr ⟨trivial, he⟩
  binary hop hl hr :=
    List.forall_mem_cons.mpr ⟨(by rintro rfl; cases hop), List.forall_mem_append.mpr ⟨hl, hr⟩⟩
  call hname hne hargs := List.forall_mem_cons.mpr
    ⟨⟨hname.isStoredName, hne, rfl⟩, forall_mem_nodesOfArgs.mpr hargs⟩
  -- what a call holds was proper when the call was put together
  args hcall := forall_mem_nodesOfArgs.mp (List.forall_mem_cons.mp hcall).2
  assignVar hname hvalue :=
    List.forall_mem_cons.mpr ⟨hname (.var _) List.mem_cons_self, hvalue⟩
  assignCell hindex hvalue :=
    List.forall_mem_cons.mpr ⟨trivial, List.forall_mem_append.mpr ⟨hindex, hvalue⟩⟩
  assignNone htarget hwritable hvalue :=
    List.forall_mem_cons.mpr ⟨hwritable, List.forall_mem_append.mpr ⟨htarget, hvalue⟩⟩

private theorem Statement.All.proper {s : Statement}
    (h : s.All fun e => ∀ node ∈ e.nodes, node.Proper) : ∀ node ∈ s.nodes, node.Proper := by
  cases s with
  | assign name value => exact List.forall_mem_cons.mpr ⟨h.1.isStoredName, h.2⟩
  | expr e => exact h

/-- The evaluator may rely on a proper node. -/
theorem Expr.Proper.serves {e : Expr} (h : e.Proper) (env : Environment) : e.Serves env := by
  cases e with
  | var name =>
    change env.read name = (env.vars.get? (Text.fold name)).getD 0
    rw [IsStoredName.folded h]
    rfl
  | assignVar name value =>
    intro value
    rw [Environment.set, IsStoredName.folded h]
  | binary op l r => exact h
  | const | unary | call | assignCell | assignNone => trivial

/-- **Compiled trees are proper**, whatever the script looks like: every node at every depth is, and
a program that lists statements has at least one. So the evaluator, whatever it starts with, relies
on nothing that is not so. -/
theorem compile_proper (source : String) :
    (∀ node ∈ (compile source).program.nodes, node.Proper) ∧
      (compile source).program ≠ .listed [] ∧
      ∀ env, ∀ visit ∈ (compile source).program.visits env, visit.1.Serves visit.2 := by
  have hnodes : ∀ node ∈ (compile source).program.nodes, node.Proper := by
    intro node hnode
    obtain ⟨s, hs, hnode⟩ := List.mem_flatMap.mp hnode
    have hall := compile_all builds_proper (fun t ht hkind => List.forall_mem_singleton.mpr
      (isNegative_of_isUnsigned ((tokenize_formed source t ht).number hkind))) s hs
    exact hall.proper node hnode
  refine ⟨hnodes, Program.ofStatements_ne_listed_nil _, fun env visit hvisit => ?_⟩
  exact (hnodes _ (Program.mem_nodes_of_mem_visits _ env visit hvisit)).serves _

example : (compile " ; ").program = .empty := by cbv

end PointScope.Script

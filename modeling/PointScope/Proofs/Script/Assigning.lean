import PointScope.Proofs.Script.Display
import PointScope.Proofs.Script.Visits

/-!
# Assigning

The target of `assign` is settled before its value is computed: the variable when the script is
parsed, the address of a cell when its index is evaluated, which comes first. Whatever the value
does in between, to the same cell as well, what is stored is the value, there and nowhere else
(`assign_fixes_target`).
-/

namespace PointScope.Script

/-! ### Stores -/

/-- One cell of a memory holds the value, and everything else is as before. -/
structure StoresCell (bank : Bank) (address : Int) (value : Float) (before after : Environment) :
    Prop where
  cells : ∀ a, (after.bank bank).cells[a]? =
    if address = a then some value else (before.bank bank).cells[a]?
  bank : ∀ b, b ≠ bank → after.bank b = before.bank b
  vars : after.vars = before.vars
  random : after.random = before.random

/-- One variable has the value, and everything else is as before. -/
structure StoresVar (name : String) (value : Float) (before after : Environment) : Prop where
  vars : ∀ x, after.vars.get? x = if name = x then some value else before.vars.get? x
  bank : ∀ b, after.bank b = before.bank b
  random : after.random = before.random

private theorem storesCell_writeCell (env : Environment) (bank : Bank) (address : Int)
    (value : Float) :
    StoresCell bank address value env (env.writeCell bank address value) where
  cells a := by
    have hcells : ((env.writeCell bank address value).bank bank).cells =
        (env.bank bank).cells.insert address value := by
      cases bank <;> rfl
    rw [hcells, Std.ExtTreeMap.getElem?_insert]
    simp only [Std.LawfulEqCmp.compare_eq_iff_eq]
  bank b hb := by
    cases bank <;> cases b <;> first | exact absurd rfl hb | rfl
  vars := (env.writeCell_eq bank address value).1
  random := (env.writeCell_eq bank address value).2

private theorem storesVar_write (env : Environment) (name : String) (value : Float) :
    StoresVar name value env (env.write name value) where
  vars x := env.vars.get?_set name x value
  bank b := by
    cases b <;> rfl
  random := rfl

/-- A cell that was stored to is read back through any index that leads to it, unless the index
itself has stored something else there. -/
theorem StoresCell.eval_cell {bank : Bank} {address : Int} {value : Float}
    {before after : Environment} (h : StoresCell bank address value before after) (name : String)
    {index : Expr} (haddress : Binary64.toAddress (eval index after).1 = address)
    (hleaves : ((eval index after).2.bank bank).cells[address]? =
      (after.bank bank).cells[address]?) :
    (eval (.call name (some (.cell bank)) [index]) after).1 = value := by
  have hread : (eval (.call name (some (.cell bank)) [index]) after).1 =
      ((eval index after).2.bank bank).get (Binary64.toAddress (eval index after).1) := rfl
  rw [hread, haddress, Memory.get, hleaves, h.cells, if_pos rfl, Option.getD_some]

/-- A variable that was stored to is read back. -/
theorem StoresVar.eval_var {name : String} {value : Float} {before after : Environment}
    (h : StoresVar name value before after) : (eval (.var name) after).1 = value := by
  rw [eval, Environment.read, h.vars, if_pos rfl, Option.getD_some]

/-! ### Assignments -/

/-- How `assign(megabuf(index), value)` is evaluated, and likewise for the other memory: the index
first and then the value, each of them once. The result is the value. It is stored at the address
that the index had led to, whatever the value did in between, and is read back from there. -/
structure AssignsCell (bank : Bank) (index value : Expr) (env : Environment) : Prop where
  visits : visits (.assignCell bank index value) env =
    (.assignCell bank index value, env) :: (visits index env ++ visits value (eval index env).2)
  result : (eval (.assignCell bank index value) env).1 = (eval value (eval index env).2).1
  stores : StoresCell bank (Binary64.toAddress (eval index env).1)
    (eval value (eval index env).2).1 (eval value (eval index env).2).2
    (eval (.assignCell bank index value) env).2
  read : ∀ (name : String) (again : Expr),
    let after := (eval (.assignCell bank index value) env).2
    let address := Binary64.toAddress (eval index env).1
    Binary64.toAddress (eval again after).1 = address →
      ((eval again after).2.bank bank).cells[address]? = (after.bank bank).cells[address]? →
        (eval (.call name (some (.cell bank)) [again]) after).1 =
          (eval value (eval index env).2).1

/-- How `assign(name, value)` is evaluated: the value once. It is the result, it is stored in the
variable, and it is read back. -/
structure AssignsVar (name : String) (value : Expr) (env : Environment) : Prop where
  visits : visits (.assignVar name value) env = (.assignVar name value, env) :: visits value env
  result : (eval (.assignVar name value) env).1 = (eval value env).1
  stores : StoresVar name (eval value env).1 (eval value env).2 (eval (.assignVar name value) env).2
  read : (eval (.var name) (eval (.assignVar name value) env).2).1 = (eval value env).1

/-- An assignment to a cell evaluates its index and its value, and then stores the value. -/
private theorem assignsCell (bank : Bank) (index value : Expr) (env : Environment) :
    AssignsCell bank index value env := by
  have hstores : StoresCell bank (Binary64.toAddress (eval index env).1)
      (eval value (eval index env).2).1 (eval value (eval index env).2).2
      (eval (.assignCell bank index value) env).2 := by
    rw [eval]
    exact storesCell_writeCell _ bank _ _
  refine ⟨by rw [Script.visits], by rw [eval], hstores, ?_⟩
  exact fun name _ haddress hleaves => hstores.eval_cell name haddress hleaves

private theorem assignsVar (name : String) (value : Expr) (env : Environment) :
    AssignsVar name value env := by
  have hstores : StoresVar name (eval value env).1 (eval value env).2
      (eval (.assignVar name value) env).2 := by
    rw [eval]
    exact storesVar_write _ name _
  exact ⟨by rw [Script.visits], by rw [eval], hstores, hstores.eval_var⟩

/-! ### Texts -/

/-- A name is one in any letter case. -/
private theorem IsName.of_fold {name : String} (h : IsName (Text.fold name).toList) :
    IsName name.toList := by
  rw [Text.toList_fold] at h
  obtain ⟨c, rest, htext, hc, hrest⟩ := h
  obtain ⟨d, ds, hds, rfl, rfl⟩ := List.map_eq_cons_iff.mp htext
  refine ⟨d, ds, hds, (isNameStart_toLower d).symm.trans hc, ?_⟩
  rw [List.all_map, List.all_eq_true] at hrest
  exact List.all_eq_true.mpr fun e he => (isNamePart_toLower e).symm.trans (hrest e he)

section Texts

variable {assign s₂ : String} {ts₂ : List Token} {x₂ : Checked}
  (hassign : Text.fold assign = assignName) (hs₂ : Lexes s₂.toList ts₂)
  (hx₂ : Expression 0 ts₂ x₂)

include hassign hs₂ hx₂

/-- A call of `assign` in any letter case is compiled to what its two arguments are resolved to. -/
private theorem compile_assign {s₁ : String} {ts₁ : List Token} {x₁ : Checked}
    (hs₁ : Lexes s₁.toList ts₁) (hx₁ : Expression 0 ts₁ x₁) :
    (compile (assign ++ "(" ++ s₁ ++ ", " ++ s₂ ++ ")")).program.statements =
        [.expr (resolveCall assignName [x₁.1, x₂.1]).1] ∧
      (compile (assign ++ "(" ++ s₁ ++ ", " ++ s₂ ++ ")")).diagnostics.map (·.issue) =
        x₁.2 ++ x₂.2 ++ (resolveCall assignName [x₁.1, x₂.1]).2 := by
  have hname : IsName assign.toList := .of_fold (hassign ▸ isIdentifier_assignName.isName)
  have htext : Lexes (assign ++ "(" ++ s₁ ++ ", " ++ s₂ ++ ")").toList
      (callWords assign (pairWords ts₁ ts₂)) := by
    simpa using (hs₁.pair hs₂).call hname
  exact htext.compile_expression (.operand (operand_assign hassign hx₁ hx₂))

private theorem compile_assignCell {bank : Bank} {cell : String}
    (hcell : Text.fold cell = bank.functionName) {s₁ : String} {ts₁ : List Token} {x₁ : Checked}
    (hs₁ : Lexes s₁.toList ts₁) (hx₁ : Expression 0 ts₁ x₁) :
    let compiled := compile (assign ++ "(" ++ (cell ++ "(" ++ s₁ ++ ")") ++ ", " ++ s₂ ++ ")")
    compiled.program.statements = [.expr (.assignCell bank x₁.1 x₂.1)] ∧
      compiled.diagnostics.map (·.issue) = x₁.2 ++ x₂.2 := by
  intro compiled
  have hname : IsName cell.toList := .of_fold (hcell ▸ (isIdentifier_functionName bank).isName)
  have htext : Lexes (cell ++ "(" ++ s₁ ++ ")").toList (callWords cell ts₁) := by
    simpa using hs₁.call hname
  have hcompile := compile_assign hassign hs₂ hx₂ htext (.operand (operand_cell hcell hx₁))
  rwa [resolveCall_assignCell, List.append_nil] at hcompile

private theorem compile_assignVar {name : String} (hname : IsName name.toList) :
    (compile (assign ++ "(" ++ name ++ ", " ++ s₂ ++ ")")).program.statements =
        [.expr (.assignVar (Text.fold name) x₂.1)] ∧
      (compile (assign ++ "(" ++ name ++ ", " ++ s₂ ++ ")")).diagnostics.map (·.issue) = x₂.2 := by
  have hvariable : Operand [word .name name] (.var (Text.fold name), []) := .variable rfl
  have hcompile := compile_assign hassign hs₂ hx₂ hname.lexes (.operand hvariable)
  rwa [resolveCall_assignVar, List.nil_append, List.append_nil] at hcompile

end Texts

/-- **The target of `assign` is fixed before its value is computed**, for a cell of either memory
and for a variable, and whatever the index and the value are; and `assign(megabuf(…), …)`, in any
letter case and with any phrases for the index and the value, is compiled to that. -/
theorem assign_fixes_target :
    (∀ bank index value env, AssignsCell bank index value env) ∧
      (∀ name value env, AssignsVar name value env) ∧
      ∀ {assign s₂ : String} {ts₂ : List Token} {x₂ : Checked}, Text.fold assign = assignName →
        Lexes s₂.toList ts₂ → Expression 0 ts₂ x₂ →
          (∀ {bank : Bank} {cell s₁ : String} {ts₁ : List Token} {x₁ : Checked},
            Text.fold cell = bank.functionName → Lexes s₁.toList ts₁ → Expression 0 ts₁ x₁ →
              let compiled :=
                compile (assign ++ "(" ++ (cell ++ "(" ++ s₁ ++ ")") ++ ", " ++ s₂ ++ ")")
              compiled.program.statements = [.expr (.assignCell bank x₁.1 x₂.1)] ∧
                compiled.diagnostics.map (·.issue) = x₁.2 ++ x₂.2) ∧
          ∀ {name : String}, IsName name.toList →
            let compiled := compile (assign ++ "(" ++ name ++ ", " ++ s₂ ++ ")")
            compiled.program.statements = [.expr (.assignVar (Text.fold name) x₂.1)] ∧
              compiled.diagnostics.map (·.issue) = x₂.2 :=
  ⟨assignsCell, assignsVar, fun hassign hs₂ hx₂ =>
    ⟨fun hcell hs₁ hx₁ => compile_assignCell hassign hs₂ hx₂ hcell hs₁ hx₁,
      fun hname => compile_assignVar hassign hs₂ hx₂ hname⟩⟩

/-- The value reads the cell that is assigned. -/
theorem assign_fixes_target_read :
    let one : Expr := .const 1
    let cell : Expr := .call "megabuf" (some (.cell .own)) [one]
    (compile ("Assign" ++ "(" ++ ("MEGABUF" ++ "(" ++ "1" ++ ")") ++ ", " ++ "megabuf(1)" ++
        ")")).program.statements = [.expr (.assignCell .own one cell)] ∧
      (compile ("Assign" ++ "(" ++ "X" ++ ", " ++ "megabuf(1)" ++ ")")).program.statements =
        [.expr (.assignVar "x" cell)] ∧
      ∀ env, AssignsCell .own one cell env ∧ AssignsVar "x" cell env := by
  intro one cell
  have hdigits : NumberText.shortest 1 = "1" := by decide +kernel
  have hs₁ : Lexes "1".toList [word .number "1"] := hdigits ▸ lexes_shortest ⟨_, _, rfl⟩
  have hx₁ : Expression 0 [word .number "1"] (one, []) :=
    .operand (hdigits ▸ operand_shortest ⟨_, _, rfl⟩)
  have hs₂ : Lexes "megabuf(1)".toList (callWords "megabuf" [word .number "1"]) :=
    hs₁.call (isIdentifier_functionName .own).isName
  have hx₂ : Expression 0 (callWords "megabuf" [word .number "1"]) (cell, []) :=
    .operand (operand_cell (isIdentifier_functionName .own).folded hx₁)
  have hassign : Text.fold "Assign" = assignName := by decide +kernel
  have hcell : Text.fold "MEGABUF" = Bank.own.functionName := by decide +kernel
  have hfold : Text.fold "X" = "x" := by decide +kernel
  have hname : IsName "X".toList := ⟨_, _, rfl, by decide⟩
  obtain ⟨hcells, hvars, htexts⟩ := assign_fixes_target
  obtain ⟨hassignCell, hassignVar⟩ := htexts hassign hs₂ hx₂
  refine ⟨(hassignCell hcell hs₁ hx₁).1, ?_, fun env => ⟨hcells _ _ _ env, hvars _ _ env⟩⟩
  -- the name is written with a capital and stored without it
  rw [← hfold]
  exact (hassignVar hname).1

end PointScope.Script

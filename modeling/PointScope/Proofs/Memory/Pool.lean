import PointScope.Memory.Pool

/-!
# Memories behind handles

What is done through a handle is seen through every handle to the same memory, and through no
other.
-/

namespace PointScope.Pool

variable {p : Pool} {handle other : Nat}

/-- The handle stands for a memory of the pool. -/
def Holds (p : Pool) (handle : Nat) : Prop :=
  ∃ store, p.owners[handle]? = some store ∧ store < p.memories.size

theorem ofSize_holds {n : Nat} (h : handle < n) : (ofSize n).Holds handle := by
  refine ⟨handle, ?_, ?_⟩ <;> simp [ofSize, h]

/-- No two handles of a pool that was just made share a memory. -/
theorem ofSize_not_same {n : Nat} (h : handle < n) (hne : handle ≠ other) :
    (ofSize n).same handle other = false := by
  rw [same, beq_eq_false_iff_ne]
  intro heq
  have howner : (ofSize n).owners[handle]? = some handle := by simp [ofSize, h]
  obtain ⟨_, hother⟩ := Array.getElem?_eq_some_iff.mp (heq.symm.trans howner)
  rw [← hother] at hne
  simp [ofSize] at hne

/-- Nothing is changed through a handle that there is not. -/
theorem update_of_none (h : p.owners[handle]? = none) (f : Memory → Memory) :
    p.update handle f = p := by
  rw [update, h]

/-- What is changed through a handle is the memory that it stands for. -/
theorem update_of_some {store : Nat} (h : p.owners[handle]? = some store) (f : Memory → Memory) :
    p.update handle f = { p with memories := p.memories.modify store f } := by
  rw [update, h]

/-- Changing a memory leaves every handle where it is. -/
theorem owners_update (p : Pool) (handle : Nat) (f : Memory → Memory) :
    (p.update handle f).owners = p.owners := by
  rw [update]
  split <;> rfl

private theorem size_memories_update (p : Pool) (handle : Nat) (f : Memory → Memory) :
    (p.update handle f).memories.size = p.memories.size := by
  rw [update]
  split
  · exact Array.size_modify
  · rfl

theorem same_comm (p : Pool) (handle other : Nat) : p.same handle other = p.same other handle :=
  Bool.beq_comm

/-- Changing a memory makes no handles share one. -/
theorem same_update (p : Pool) (k : Nat) (f : Memory → Memory) :
    (p.update k f).same handle other = p.same handle other := by
  rw [same, same, owners_update]

theorem Holds.update (h : p.Holds handle) (k : Nat) (f : Memory → Memory) :
    (p.update k f).Holds handle := by
  rw [Holds, owners_update, size_memories_update]
  exact h

/-- What is done through a handle is seen through it. -/
theorem Holds.memory_update (h : p.Holds handle) (f : Memory → Memory) :
    (p.update handle f).memory handle = f (p.memory handle) := by
  obtain ⟨store, howner, hstore⟩ := h
  rw [update_of_some howner]
  simp [memory, howner, Array.getElem?_modify, hstore]

/-- Writing back what is there changes nothing. -/
theorem update_memory (p : Pool) (handle : Nat) :
    p.update handle (fun _ => p.memory handle) = p := by
  cases howner : p.owners[handle]? with
  | none => exact update_of_none howner _
  | some store =>
    rw [update_of_some howner]
    refine congrArg (Pool.mk p.owners) (Array.ext_getElem? fun i => ?_)
    rw [Array.getElem?_modify]
    split
    · subst i
      cases hstored : p.memories[store]? <;> simp [memory, howner, hstored]
    · rfl

section NotSame

variable (h : p.same handle other = false)

include h

private theorem stores_ne {store store' : Nat} (howner : p.owners[handle]? = some store)
    (hother : p.owners[other]? = some store') : store ≠ store' := fun heq =>
  ne_of_beq_false h (howner.trans (heq ▸ hother.symm))

/-- What is done through a handle is not seen through a handle to another memory. -/
theorem memory_update_of_not_same (f : Memory → Memory) :
    (p.update handle f).memory other = p.memory other := by
  cases howner : p.owners[handle]? with
  | none => rw [update_of_none howner]
  | some store =>
    rw [update_of_some howner, memory, memory]
    dsimp only
    cases hother : p.owners[other]? with
    | none => rfl
    | some store' =>
      rw [Option.bind_some, Option.bind_some, Array.getElem?_modify,
        if_neg (stores_ne h howner hother)]

/-- Different memories can be changed in either order. -/
theorem update_comm (f g : Memory → Memory) :
    (p.update handle f).update other g = (p.update other g).update handle f := by
  -- what a handle stands for does not change
  have howner' := congrArg (·[handle]?) (owners_update p other g)
  have hother' := congrArg (·[other]?) (owners_update p handle f)
  cases howner : p.owners[handle]? with
  | none => rw [update_of_none howner, update_of_none (howner'.trans howner)]
  | some store =>
    cases hother : p.owners[other]? with
    | none => rw [update_of_none hother, update_of_none (hother'.trans hother)]
    | some store' =>
      rw [update_of_some (howner'.trans howner), update_of_some (hother'.trans hother),
        update_of_some howner, update_of_some hother]
      refine congrArg (Pool.mk p.owners) (Array.ext_getElem? fun i => ?_)
      have hstore := stores_ne h howner hother
      simp only [Array.getElem?_modify]
      by_cases hi : store = i
      · rw [if_pos hi, if_pos hi, if_neg (hi ▸ hstore.symm), if_neg (hi ▸ hstore.symm)]
      · rw [if_neg hi, if_neg hi]

end NotSame

end PointScope.Pool

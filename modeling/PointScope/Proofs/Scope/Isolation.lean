import PointScope.Proofs.Memory.Pool
import PointScope.Proofs.Runs
import PointScope.Proofs.Scope.Agreement
import PointScope.Proofs.Script.Effects
import PointScope.Scope.Ensemble

/-!
# Scopes side by side

The members of an ensemble touch each other only through a memory that they share. An operation of
one member leaves the others as they are, and all memories but the one behind its handle
(`Ensemble.TouchesOnly`). Operations of two members can be swapped if the members hold different
memories, or if neither operation changes the memory that it finds (`Ensemble.perform_swap`); a
script that assigns to no cell of the shared memory does not (`Scope.perform_shared`). So a member
that shares its memory with nobody does what it would do alone (`Ensemble.performAll_alone`).
-/

namespace PointScope

/-! ### Operations that leave the shared memory -/

/-- The operation reaches into the shared memory from outside any script. -/
def Operation.reachesIn : Operation → Bool
  | .writeShared _ _ | .clearShared => true
  | _ => false

/-- The phases whose scripts an operation runs. -/
def Operation.phases : Operation → List Phase
  | .init _ _ => [.init]
  | .frame _ => [.frame]
  | .beat _ => [.beat]
  | .point _ => [.point]
  | .render _ hasBeat => if hasBeat then [.frame, .beat, .point] else [.frame, .point]
  | _ => []

namespace Scope

section Shared

variable {s : Scope}

/-- A script that nowhere assigns to shared memory leaves it. -/
private theorem run_shared {phase : Phase} (h : (s.program phase).NeverAssigns .shared) :
    (s.run phase).environment.shared = s.environment.shared :=
  Script.Program.run_bank h s.environment

private theorem frame_shared (h : (s.program .frame).NeverAssigns .shared) (m : Moment) :
    (s.frame m).environment.shared = s.environment.shared := by
  have hseeded : ((s.seed m false).program .frame).NeverAssigns .shared := h
  exact run_shared hseeded

private theorem beat_shared (h : (s.program .beat).NeverAssigns .shared) (m : Moment) :
    (s.beat m).environment.shared = s.environment.shared := by
  have hseeded : ((s.seed m true).program .beat).NeverAssigns .shared := h
  exact run_shared hseeded

/-- So `init` leaves shared memory if its script does. -/
private theorem init_shared (h : (s.program .init).NeverAssigns .shared) (m : Moment)
    (forced : Option Nat) : (s.init m forced).environment.shared = s.environment.shared := by
  let cleared := { s with environment := s.environment.clearVariables }
  have hseeded : ((cleared.seed m false).program .init).NeverAssigns .shared := h
  obtain ⟨_, hvars⟩ := ensureVars_vars (((cleared.seed m false).run .init).settle _) "x" "y"
  exact (congrArg (·.environment.shared) hvars).trans (run_shared hseeded)

private theorem point_shared (h : (s.program .point).NeverAssigns .shared) (i : Nat) :
    (s.point i).2.environment.shared = s.environment.shared := by
  let numbered := { s with environment := s.environment.write "i" (Float.ofNat i) }
  have hnumbered : (numbered.program .point).NeverAssigns .shared := h
  exact run_shared hnumbered

private theorem points_shared (h : (s.program .point).NeverAssigns .shared) (samples : List Nat) :
    (s.points samples).2.environment.shared = s.environment.shared := by
  rw [points_snd]
  induction samples generalizing s with
  | nil => rfl
  | cons i rest ih =>
    have hnext : ((s.point i).2.program .point).NeverAssigns .shared := h
    exact (ih hnext).trans (point_shared h i)

/-- **Scripts that assign to no cell of the shared memory leave it**, whatever operation runs
them. -/
theorem perform_shared {op : Operation} (hop : op.reachesIn = false)
    (h : ∀ phase ∈ op.phases, (s.program phase).NeverAssigns .shared) :
    (s.perform op).2.environment.shared = s.environment.shared := by
  cases op with
  | load sources => exact congrArg (·.shared) (s.load_environment sources)
  | loadSources a b c d => exact congrArg (·.shared) (s.load_environment ⟨a, b, c, d⟩)
  | init m forced => exact init_shared (h _ List.mem_cons_self) m forced
  | frame m => exact frame_shared (h _ List.mem_cons_self) m
  | beat m => exact beat_shared (h _ List.mem_cons_self) m
  | point i => exact point_shared (h _ List.mem_cons_self) i
  | render m hasBeat =>
    cases hasBeat with
    | false =>
      obtain ⟨hframe, hpoint⟩ := List.forall_mem_cons.mp h
      have hready : ((s.frame m).program .point).NeverAssigns .shared :=
        hpoint _ List.mem_cons_self
      exact (points_shared hready _).trans (frame_shared hframe m)
    | true =>
      obtain ⟨hframe, hrest⟩ := List.forall_mem_cons.mp h
      obtain ⟨hbeat, hpoint⟩ := List.forall_mem_cons.mp hrest
      have hframed : ((s.frame m).program .beat).NeverAssigns .shared := hbeat
      have hready : (((s.frame m).beat m).program .point).NeverAssigns .shared :=
        hpoint _ List.mem_cons_self
      exact (points_shared hready _).trans ((beat_shared hframed m).trans (frame_shared hframe m))
  | setVar name value => rfl
  | writeShared | clearShared => cases hop

end Shared

end Scope

namespace Ensemble

/-! ### One operation -/

/-- The handle of a member. -/
def handle? (e : Ensemble) (k : Nat) : Option Nat := e.members[k]?.map (·.handle)

/-- A member of the ensemble as a scope of its own. -/
def scopeOf (e : Ensemble) (m : Member) : Scope :=
  { m.scope with environment := m.scope.environment.setBank .shared (e.pool.memory m.handle) }

/-- The ensemble when the scope `s` has become its member `k`, and what `s` has in the shared
memory is in the pool. -/
def leave (e : Ensemble) (k handle : Nat) (s : Scope) : Ensemble where
  members := e.members.setIfInBounds k
    ⟨{ s with environment := s.environment.setBank .shared .empty }, handle⟩
  pool := e.pool.update handle fun _ => s.environment.shared

/-- What may differ after an operation of member `k`: the member itself, and the memory behind its
handle. -/
structure TouchesOnly (e e' : Ensemble) (k : Nat) : Prop where
  size : e'.members.size = e.members.size
  member : ∀ j ≠ k, e'.members[j]? = e.members[j]?
  handle : ∀ j, e'.handle? j = e.handle? j
  same : ∀ handle other, e'.pool.same handle other = e.pool.same handle other
  holds : ∀ handle, e.pool.Holds handle → e'.pool.Holds handle
  memory : ∀ other, (∀ handle ∈ e.handle? k, e.pool.same handle other = false) →
    e'.pool.memory other = e.pool.memory other

/-- A member leaves its shared memory in the pool. -/
private theorem pool_leave (e : Ensemble) (k handle : Nat) (s : Scope) :
    (e.leave k handle s).pool = e.pool.update handle fun _ => s.environment.shared := rfl

/-- A member that leaves its scope behind touches no other. -/
private theorem members_leave_of_ne (e : Ensemble) {k j : Nat} (hj : j ≠ k) (handle : Nat)
    (s : Scope) :
    (e.leave k handle s).members[j]? = e.members[j]? :=
  Array.getElem?_setIfInBounds_ne hj.symm

section Perform

variable {e : Ensemble} {k : Nat} {m : Member} (hm : e.members[k]? = some m)

include hm

private theorem scope?_eq : e.scope? k = some (e.scopeOf m) := by
  rw [scope?, hm]
  rfl

private theorem handle?_eq : e.handle? k = some m.handle := by
  rw [handle?, hm]
  rfl

/-- A member does what its scope does by itself, and leaves the rest behind. -/
private theorem perform_eq (op : Operation) :
    e.perform k op = some (((e.scopeOf m).perform op).1,
      e.leave k m.handle ((e.scopeOf m).perform op).2) := by
  rw [perform, scope?_eq hm, hm]
  rfl

private theorem members_leave_self (s : Scope) : (e.leave k m.handle s).members[k]? =
    some ⟨{ s with environment := s.environment.setBank .shared .empty }, m.handle⟩ :=
  Array.getElem?_setIfInBounds_self_of_lt (Array.getElem?_eq_some_iff.mp hm).1

/-- **An operation of a member touches no other member** and no memory but its own. -/
theorem leave_touchesOnly (s : Scope) : e.TouchesOnly (e.leave k m.handle s) k where
  size := Array.size_setIfInBounds
  member := fun j hj => e.members_leave_of_ne hj m.handle s
  handle := fun j => by
    by_cases hj : j = k
    · rw [hj, handle?, members_leave_self hm, handle?_eq hm]
      rfl
    · rw [handle?, e.members_leave_of_ne hj, handle?]
  same := fun handle other => e.pool.same_update m.handle _
  holds := fun handle hholds => hholds.update m.handle _
  memory := fun other hother => Pool.memory_update_of_not_same (hother _ (handle?_eq hm)) _

/-- A member that has a memory becomes what its scope became. -/
private theorem scope?_leave_self (hholds : e.pool.Holds m.handle) (s : Scope) :
    (e.leave k m.handle s).scope? k = some s := by
  rw [scope?_eq (members_leave_self hm s), scopeOf, leave, hholds.memory_update]
  rfl

end Perform

/-- A member that is not touched, with a memory that is not touched, is the same scope. -/
theorem TouchesOnly.scope?_eq {e e' : Ensemble} {k j : Nat} (h : e.TouchesOnly e' k) (hj : j ≠ k)
    (hmemory : ∀ handle ∈ e.handle? j, e'.pool.memory handle = e.pool.memory handle) :
    e'.scope? j = e.scope? j := by
  rw [scope?, scope?, h.member j hj]
  refine Option.map_congr fun m hm => ?_
  rw [hmemory m.handle (handle?_eq hm)]

/-! ### Two operations -/

/-- The members hold different memories. -/
def Apart (e : Ensemble) (k j : Nat) : Prop :=
  ∀ handle ∈ e.handle? k, ∀ other ∈ e.handle? j, e.pool.same handle other = false

/-- If member `k` carries out the operation, it leaves the shared memory as it finds it. -/
def LeavesShared (e : Ensemble) (k : Nat) (op : Operation) : Prop :=
  ∀ s ∈ e.scope? k, (s.perform op).2.environment.shared = s.environment.shared

/-- Lets one member carry out an operation, and then another. -/
def performBoth (e : Ensemble) (k : Nat) (op : Operation) (j : Nat) (op' : Operation) :
    Option (Answer × Answer × Ensemble) := do
  let (answer, e) ← e.perform k op
  let (answer', e) ← e.perform j op'
  return (answer, answer', e)

section Swap

variable {e : Ensemble} {k j : Nat} {mk mj : Member} (hk : e.members[k]? = some mk)
  (hj : e.members[j]? = some mj) (hkj : k ≠ j)

include hk hj hkj

/-- The second of two operations finds the same scope as if it were the first. -/
theorem performBoth_eq {s : Scope} {op op' : Operation} (hs : ((e.scopeOf mk).perform op).2 = s)
    (hmemory : (e.leave k mk.handle s).pool.memory mj.handle = e.pool.memory mj.handle) :
    e.performBoth k op j op' = some (((e.scopeOf mk).perform op).1, ((e.scopeOf mj).perform op').1,
      (e.leave k mk.handle s).leave j mj.handle ((e.scopeOf mj).perform op').2) := by
  have hj' : (e.leave k mk.handle s).members[j]? = some mj :=
    (e.members_leave_of_ne hkj.symm mk.handle s).trans hj
  have hscope : (e.leave k mk.handle s).scopeOf mj = e.scopeOf mj := by
    rw [scopeOf, hmemory, scopeOf]
  rw [performBoth, perform_eq hk, hs]
  dsimp only [Option.bind_eq_bind, Option.bind_some]
  rw [perform_eq hj', hscope]
  rfl

/-- Neither member leaves the other another memory, and it does not matter which one leaves
first. -/
private theorem leave_swap {op op' : Operation}
    (h : e.Apart k j ∨ e.LeavesShared k op ∧ e.LeavesShared j op') :
    let sk := ((e.scopeOf mk).perform op).2
    let sj := ((e.scopeOf mj).perform op').2
    (e.leave k mk.handle sk).pool.memory mj.handle = e.pool.memory mj.handle ∧
      (e.leave j mj.handle sj).pool.memory mk.handle = e.pool.memory mk.handle ∧
      (e.leave k mk.handle sk).leave j mj.handle sj =
        (e.leave j mj.handle sj).leave k mk.handle sk := by
  intro sk sj
  -- the members are put into different places, so only the pool matters
  have hleave (hpool : ((e.leave k mk.handle sk).leave j mj.handle sj).pool =
        ((e.leave j mj.handle sj).leave k mk.handle sk).pool) :
      (e.leave k mk.handle sk).leave j mj.handle sj =
        (e.leave j mj.handle sj).leave k mk.handle sk :=
    congrArg₂ Ensemble.mk (e.members.setIfInBounds_comm _ _ hkj) hpool
  rcases h with hapart | ⟨hleavesk, hleavesj⟩
  · have hkj' := hapart _ (handle?_eq hk) _ (handle?_eq hj)
    have hjk' : e.pool.same mj.handle mk.handle = false := Pool.same_comm _ _ _ ▸ hkj'
    exact ⟨Pool.memory_update_of_not_same hkj' _, Pool.memory_update_of_not_same hjk' _,
      hleave (Pool.update_comm hkj' _ _)⟩
  · -- both write back what they found
    have hpoolk : (e.leave k mk.handle sk).pool = e.pool := by
      rw [pool_leave, hleavesk _ (scope?_eq hk)]
      exact e.pool.update_memory mk.handle
    have hpoolj : (e.leave j mj.handle sj).pool = e.pool := by
      rw [pool_leave, hleavesj _ (scope?_eq hj)]
      exact e.pool.update_memory mj.handle
    refine ⟨congrArg (·.memory mj.handle) hpoolk, congrArg (·.memory mk.handle) hpoolj,
      hleave ?_⟩
    calc ((e.leave k mk.handle sk).leave j mj.handle sj).pool
      _ = (e.leave j mj.handle sj).pool := by rw [pool_leave, hpoolk, pool_leave]
      _ = (e.leave k mk.handle sk).pool := hpoolj.trans hpoolk.symm
      _ = ((e.leave j mj.handle sj).leave k mk.handle sk).pool := by
        rw [pool_leave (e.leave j mj.handle sj), hpoolj, pool_leave]

end Swap

/-- Nothing can be done with a member that there is not. -/
theorem perform_eq_none {e : Ensemble} {k : Nat} (hk : e.members[k]? = none) (op : Operation) :
    e.perform k op = none := by
  rw [perform, hk]
  rfl

/-- **Operations of two members can be swapped** if the members hold different memories, or if
both operations leave the shared memory as they find it. -/
theorem perform_swap {e : Ensemble} {k j : Nat} (hkj : k ≠ j) {op op' : Operation}
    (h : e.Apart k j ∨ e.LeavesShared k op ∧ e.LeavesShared j op') :
    e.performBoth k op j op' =
      (e.performBoth j op' k op).map fun (answer', answer, e') => (answer, answer', e') := by
  -- without one of the members neither order is possible
  have habsent : ∀ {k j op op'}, k ≠ j → e.members[k]? = none →
      e.performBoth k op j op' = none ∧ e.performBoth j op' k op = none := by
    intro k j op op' hkj hk
    refine ⟨by rw [performBoth, perform_eq_none hk]; rfl, ?_⟩
    cases hj : e.members[j]? with
    | none => rw [performBoth, perform_eq_none hj]; rfl
    | some mj =>
      rw [performBoth, perform_eq hj]
      dsimp only [Option.bind_eq_bind, Option.bind_some]
      rw [perform_eq_none ((e.members_leave_of_ne hkj _ _).trans hk)]
      rfl
  cases hk : e.members[k]? with
  | none => rw [(habsent hkj hk).1, (habsent hkj hk).2, Option.map_none]
  | some mk =>
    cases hj : e.members[j]? with
    | none => rw [(habsent hkj.symm hj).1, (habsent hkj.symm hj).2, Option.map_none]
    | some mj =>
      obtain ⟨hmemoryj, hmemoryk, hleave⟩ := leave_swap hk hj hkj h
      rw [performBoth_eq hk hj hkj rfl hmemoryj, performBoth_eq hj hk hkj.symm rfl hmemoryk, hleave]
      rfl

/-! ### Any number of operations -/

/-- Lets members carry out operations in order, and lists the answers. -/
def performAll (e : Ensemble) : List (Nat × Operation) → Option (List (Nat × Answer) × Ensemble)
  | [] => some ([], e)
  | (k, op) :: rest => do
    let (answer, e) ← e.perform k op
    let (answers, e) ← e.performAll rest
    return ((k, answer) :: answers, e)

/-- The part of a list that belongs to member `k`. -/
def ofMember {α : Type} (k : Nat) (entries : List (Nat × α)) : List α :=
  entries.filterMap fun (j, a) => if j = k then some a else none

private theorem ofMember_cons_self {α : Type} (k : Nat) (a : α) (entries : List (Nat × α)) :
    ofMember k ((k, a) :: entries) = a :: ofMember k entries :=
  List.filterMap_cons_some (if_pos rfl)

private theorem ofMember_cons_of_ne {α : Type} {k j : Nat} (h : j ≠ k) (a : α)
    (entries : List (Nat × α)) : ofMember k ((j, a) :: entries) = ofMember k entries :=
  List.filterMap_cons_none (if_neg h)

/-- Member `k` has a memory that no other member has. -/
def HoldsAlone (e : Ensemble) (k : Nat) : Prop :=
  ∃ handle, e.handle? k = some handle ∧ e.pool.Holds handle ∧ ∀ j ≠ k, e.Apart k j

/-- A member that holds its memory alone does so still after another one has done something. -/
private theorem HoldsAlone.of_touchesOnly {e e' : Ensemble} {k i : Nat} (h : e.HoldsAlone k)
    (htouches : e.TouchesOnly e' i) : e'.HoldsAlone k := by
  obtain ⟨handle, hhandle, hholds, hapart⟩ := h
  refine ⟨handle, (htouches.handle k).trans hhandle, htouches.holds handle hholds, ?_⟩
  intro j hj handle hhandle other hother
  rw [htouches.same]
  exact hapart j hj handle (htouches.handle k ▸ hhandle) other (htouches.handle j ▸ hother)

/-- An operation of another member does not reach a member that shares its memory with nobody. -/
theorem HoldsAlone.scope?_eq {e e' : Ensemble} {k i : Nat} (h : e.HoldsAlone k) (hi : i ≠ k)
    (htouches : e.TouchesOnly e' i) : e'.scope? k = e.scope? k := by
  obtain ⟨-, -, -, hapart⟩ := h
  refine htouches.scope?_eq hi.symm fun handle hhandle => htouches.memory handle ?_
  intro other hother
  rw [Pool.same_comm]
  exact hapart i hi handle hhandle other hother

/-- **A member that shares its memory with nobody** does what its scope does alone: whatever the
others do in between, it answers the same and ends in the same state. -/
theorem HoldsAlone.performAll {e : Ensemble} {k : Nat} (h : e.HoldsAlone k) {s : Scope}
    (hs : e.scope? k = some s) {schedule : List (Nat × Operation)}
    (hschedule : ∀ entry ∈ schedule, entry.1 < e.members.size) :
    ∃ answers e', e.performAll schedule = some (answers, e') ∧
      ofMember k answers = (trace Scope.perform s (ofMember k schedule)).map Prod.fst ∧
      e'.scope? k = some (s.performAll (ofMember k schedule)) := by
  induction schedule generalizing e s with
  | nil => exact ⟨[], e, rfl, rfl, hs⟩
  | cons entry rest ih =>
    obtain ⟨i, op⟩ := entry
    obtain ⟨hi, hrest⟩ := List.forall_mem_cons.mp hschedule
    obtain ⟨m, hm⟩ : ∃ m, e.members[i]? = some m := ⟨_, Array.getElem?_eq_getElem hi⟩
    let e₁ := e.leave i m.handle ((e.scopeOf m).perform op).2
    have htouches : e.TouchesOnly e₁ i := leave_touchesOnly hm _
    -- the rest of the schedule, from the scope that member `k` is then
    have hnext : ∀ s₁, e₁.scope? k = some s₁ → ∃ answers e',
        e.performAll ((i, op) :: rest) =
            some ((i, ((e.scopeOf m).perform op).1) :: answers, e') ∧
          ofMember k answers = (trace Scope.perform s₁ (ofMember k rest)).map Prod.fst ∧
          e'.scope? k = some (s₁.performAll (ofMember k rest)) := by
      intro s₁ hs₁
      obtain ⟨answers, e', hrun, hanswers, hscope⟩ :=
        ih (h.of_touchesOnly htouches) hs₁ fun entry hentry => htouches.size ▸ hrest entry hentry
      refine ⟨answers, e', ?_, hanswers, hscope⟩
      rw [Ensemble.performAll, perform_eq hm]
      dsimp only [Option.bind_eq_bind, Option.bind_some]
      rw [hrun]
      rfl
    by_cases hik : i = k
    · subst hik
      obtain ⟨handle, hhandle, hholds, -⟩ := h
      have hscope : e.scopeOf m = s := Option.some.inj ((Ensemble.scope?_eq hm).symm.trans hs)
      have hhandle : m.handle = handle := Option.some.inj ((handle?_eq hm).symm.trans hhandle)
      obtain ⟨answers, e', hrun, hanswers, hlast⟩ :=
        hnext _ (scope?_leave_self hm (hhandle ▸ hholds) _)
      refine ⟨_, e', hrun, ?_, ?_⟩
      · rw [ofMember_cons_self, ofMember_cons_self, hanswers, hscope]
        rfl
      · rw [ofMember_cons_self, hlast, hscope]
        rfl
    · obtain ⟨answers, e', hrun, hanswers, hlast⟩ :=
        hnext s ((h.scope?_eq hik htouches).trans hs)
      refine ⟨_, e', hrun, ?_, ?_⟩
      · rw [ofMember_cons_of_ne hik, ofMember_cons_of_ne hik, hanswers]
      · rw [ofMember_cons_of_ne hik, hlast]

/-- A member that is made with a handle that no other member gets holds its memory alone. -/
theorem new_holdsAlone {members : List (Config × Nat)} {memories k handle : Nat} {c : Config}
    (hk : members[k]? = some (c, handle)) (hhandle : handle < memories)
    (hothers : ∀ j ≠ k, ∀ other ∈ members[j]?, handle ≠ other.2) :
    (Ensemble.new members memories).HoldsAlone k := by
  have hhandles : ∀ j, (Ensemble.new members memories).handle? j = members[j]?.map Prod.snd := by
    intro j
    simp only [handle?, Ensemble.new, List.getElem?_toArray, List.getElem?_map, Option.map_map]
    rfl
  have hkhandle : (Ensemble.new members memories).handle? k = some handle := by
    rw [hhandles, hk]
    rfl
  refine ⟨handle, hkhandle, Pool.ofSize_holds hhandle, fun j hj own hown other hother => ?_⟩
  obtain rfl : handle = own := Option.some.inj (hkhandle.symm.trans hown)
  rw [hhandles] at hother
  obtain ⟨entry, hentry, rfl⟩ := Option.map_eq_some_iff.mp hother
  exact Pool.ofSize_not_same hhandle (hothers j hj entry hentry)

/-- **Members are isolated but for memories that they share.** An operation of a member that exists
succeeds, and touches no other member and no memory but the one behind its handle. Operations of
two members can be swapped, with the same answers and the same ensemble in the end, if the members
hold different memories or if both operations leave the shared memory as they find it, which they
do if no script that they run assigns to one of its cells. A member that shares its memory with
nobody does in any schedule what its scope does alone. -/
theorem isolated (e : Ensemble) :
    (∀ k op, k < e.members.size →
        ∃ answer e', e.perform k op = some (answer, e') ∧ e.TouchesOnly e' k) ∧
      (∀ k j op op', k ≠ j → e.Apart k j ∨ e.LeavesShared k op ∧ e.LeavesShared j op' →
        e.performBoth k op j op' =
          (e.performBoth j op' k op).map fun (answer', answer, e') => (answer, answer', e')) ∧
      (∀ k op, op.reachesIn = false →
        (∀ s ∈ e.scope? k, ∀ phase ∈ op.phases, (s.program phase).NeverAssigns .shared) →
        e.LeavesShared k op) ∧
      ∀ k s schedule, e.HoldsAlone k → e.scope? k = some s →
        (∀ entry ∈ schedule, entry.1 < e.members.size) →
        ∃ answers e', e.performAll schedule = some (answers, e') ∧
          ofMember k answers = (trace Scope.perform s (ofMember k schedule)).map Prod.fst ∧
          e'.scope? k = some (s.performAll (ofMember k schedule)) := by
  refine ⟨fun k op hk => ?_, fun k j op op' hkj h => perform_swap hkj h,
    fun k op hop h s hs => Scope.perform_shared hop (h s hs),
    fun k s schedule h hs hschedule => h.performAll hs hschedule⟩
  have hm : e.members[k]? = some e.members[k] := Array.getElem?_eq_getElem hk
  exact ⟨_, _, perform_eq hm op, leave_touchesOnly hm _⟩

/-- A member with a memory of its own, between operations of another one. -/
theorem isolated_between :
    let e := Ensemble.new [({}, 0), ({}, 1)] 2
    let sources : Phased String := ⟨"", "", "", "assign(gmegabuf(0), gmegabuf(0) + 1)"⟩
    let s := Scope.new {} .empty
    e.HoldsAlone 0 ∧ e.scope? 0 = some s ∧
      ∃ answers e', e.performAll [(0, .load sources), (1, .load sources), (1, .point 0),
          (0, .point 0), (1, .point 1)] = some (answers, e') ∧
        e'.scope? 0 = some (s.performAll [.load sources, .point 0]) := by
  intro e sources s
  have hothers : ∀ j ≠ 0, ∀ other ∈ ([({}, 0), ({}, 1)] : List (Config × Nat))[j]?,
      0 ≠ other.2 := by
    rintro (_ | _ | j) hj other hother
    · exact absurd rfl hj
    · obtain rfl := Option.some.inj hother
      exact Nat.zero_ne_one
    · cases hother
  have halone : e.HoldsAlone 0 := new_holdsAlone rfl Nat.zero_lt_two hothers
  obtain ⟨answers, e', hrun, -, hscope⟩ :=
    (isolated e).2.2.2 0 s [(0, .load sources), (1, .load sources), (1, .point 0), (0, .point 0),
      (1, .point 1)] halone rfl (by simp [e, Ensemble.new])
  exact ⟨halone, rfl, answers, e', hrun, hscope⟩

end Ensemble

end PointScope

import Mathlib.Data.Finset.Card
import PointScope.Proofs.Memory.Pool
import PointScope.Proofs.Runs

/-!
# Families of handles

A handle is made new, or as another handle to the memory of one that there is. So each descends from
one that was made new (`Pool.origins`), and those that descend from the same one are a family. A
family has one memory to itself: through each of its handles the memory shows what was done through
any of them since it was emptied, and nothing that was done through others.

`Pool.Tracks` relates a pool to the actions that led to it. The memory behind a handle is told by
the writes of its family (`Pool.written`), and handles stand for the same memory just if they are of
one family. Every action keeps this (`Pool.Tracks.perform`), whichever handles it names, as long as
they have been made before (`Pool.Proper`).
-/

namespace PointScope

/-! ### Written memories -/

namespace Memory

/-- The memory in which some values were written, each at an address, in order. -/
def ofWrites (writes : List (ℤ × Float)) : Memory :=
  writes.foldl (fun m (address, value) => m.set address value) .empty

/-- The last of some writes is made in the memory that the others leave. -/
theorem ofWrites_concat (writes : List (ℤ × Float)) (address : ℤ) (value : Float) :
    ofWrites (writes ++ [(address, value)]) = (ofWrites writes).set address value :=
  List.foldl_concat ..

/-- A cell reads as it was written last. -/
theorem get_ofWrites (writes : List (ℤ × Float)) (address : ℤ) :
    (ofWrites writes).get address = (writes.reverse.lookup address).getD 0 := by
  induction writes using List.reverseRecOn with
  | nil => exact get_empty address
  | append_singleton writes write ih =>
    obtain ⟨written, value⟩ := write
    rw [ofWrites_concat, get_set, List.reverse_concat, List.lookup_cons, ih]
    by_cases heq : written = address
    · rw [if_pos heq, beq_iff_eq.mpr heq.symm]
      rfl
    · rw [if_neg heq, beq_eq_false_iff_ne.mpr (Ne.symm heq)]

private theorem mem_cells_ofWrites {writes : List (ℤ × Float)} {address : ℤ} :
    address ∈ (ofWrites writes).cells ↔ address ∈ (writes.map Prod.fst).toFinset := by
  induction writes using List.reverseRecOn with
  | nil => simp [ofWrites, empty]
  | append_singleton writes write ih =>
    rw [ofWrites_concat, set, Std.ExtTreeMap.mem_insert, Std.LawfulEqCmp.compare_eq_iff_eq, ih]
    simp [eq_comm]

/-- A cell counts once, however often and with whatever it was written. -/
theorem size_ofWrites (writes : List (ℤ × Float)) :
    (ofWrites writes).size = (writes.map Prod.fst).toFinset.card := by
  induction writes using List.reverseRecOn with
  | nil => rfl
  | append_singleton writes write ih =>
    have hinsert : ((writes ++ [write]).map Prod.fst).toFinset =
        insert write.1 (writes.map Prod.fst).toFinset := by
      ext address
      simp
    unfold size at ih ⊢
    rw [ofWrites_concat, set, Std.ExtTreeMap.size_insert, hinsert, ih]
    -- a write to an address that is there already adds no cell
    by_cases hmem : write.1 ∈ (ofWrites writes).cells
    · rw [if_pos (Std.ExtTreeMap.mem_iff_contains.mp hmem),
        Finset.insert_eq_of_mem (mem_cells_ofWrites.mp hmem)]
    · rw [if_neg (Std.ExtTreeMap.mem_iff_contains.not.mp hmem),
        Finset.card_insert_of_notMem (mem_cells_ofWrites.not.mp hmem)]

end Memory

namespace Pool

/-! ### Actions -/

/-- What a host does with handles. -/
inductive Action where
  /-- Make a handle to a new memory. -/
  | create
  /-- Make another handle to a memory. -/
  | share (handle : ℕ)
  | set (handle : ℕ) (address : ℤ) (value : Float)
  | clear (handle : ℕ)
  | get (handle : ℕ) (address : ℤ)
  | size (handle : ℕ)
  | same (handle other : ℕ)

/-- What an action answers. -/
inductive Answer where
  | none
  | handle (n : ℕ)
  | value (value : Float)
  | size (n : ℕ)
  | same (b : Bool)

namespace Action

/-- The handles that an action names. -/
def handles : Action → List ℕ
  | create => []
  | share handle | set handle _ _ | clear handle | get handle _ | size handle => [handle]
  | same handle other => [handle, other]

/-- The handle through which a memory is changed, if one is. -/
def changes? : Action → Option ℕ
  | set handle _ _ | clear handle => some handle
  | _ => none

/-- Whether a memory is empty afterwards. -/
def clears : Action → Bool
  | clear _ => true
  | _ => false

/-- What is written where, if anything is. -/
def write? : Action → Option (ℤ × Float)
  | set _ address value => some (address, value)
  | _ => none

private theorem mem_handles_of_changes? {action : Action} {handle : ℕ}
    (h : action.changes? = some handle) : handle ∈ action.handles := by
  cases action <;> cases h <;> exact List.mem_singleton_self handle

end Action

/-- Carries an action out. -/
def perform (p : Pool) : Action → Answer × Pool
  | .create => (.handle p.create.1, p.create.2)
  | .share handle => (.handle (p.share handle).1, (p.share handle).2)
  | .set handle address value => (.none, p.update handle (·.set address value))
  | .clear handle => (.none, p.update handle fun _ => .empty)
  | .get handle address => (.value ((p.memory handle).get address), p)
  | .size handle => (.size (p.memory handle).size, p)
  | .same handle other => (.same (p.same handle other), p)

/-- Carries actions out in order. -/
def performAll (p : Pool) (actions : List Action) : Pool :=
  actions.foldl (fun p action => (p.perform action).2) p

/-! ### Families -/

/-- The origins of the handles that there are after an action. -/
def originsAfter (origins : List ℕ) : Action → List ℕ
  | .create => origins ++ [origins.length]
  | .share handle => origins ++ [origins.getD handle origins.length]
  | _ => origins

/-- For each handle that was made the one, made new, that it descends from. Handles are numbered as
they are made. -/
def origins (actions : List Action) : List ℕ := actions.foldl originsAfter []

/-- The handles descend from the same one. -/
def SameFamily (actions : List Action) (handle other : ℕ) : Prop :=
  (origins actions)[handle]? = (origins actions)[other]?

instance (actions : List Action) (handle other : ℕ) :
    Decidable (SameFamily actions handle other) :=
  inferInstanceAs (Decidable (_ = _))

/-- What was done to memories through the family of a handle. -/
def familyChanges (actions : List Action) (handle : ℕ) : List Action :=
  actions.filter fun action => action.changes?.any fun other => SameFamily actions other handle

/-- What was written through the family of a handle since its memory was emptied. -/
def written (actions : List Action) (handle : ℕ) : List (ℤ × Float) :=
  (since Action.clears (familyChanges actions handle)).filterMap Action.write?

/-- Each handle that an action names has been made before. -/
def Proper (actions : List Action) : Prop :=
  ∀ i (hi : i < actions.length), ∀ handle ∈ actions[i].handles,
    handle < (origins (actions.take i)).length

instance (actions : List Action) : Decidable (Proper actions) :=
  inferInstanceAs (Decidable (∀ i (hi : i < actions.length), ∀ handle ∈ actions[i].handles,
    handle < (origins (actions.take i)).length))

/-- Origins are told action by action. -/
private theorem origins_concat (actions : List Action) (action : Action) :
    origins (actions ++ [action]) = originsAfter (origins actions) action :=
  List.foldl_concat ..

private theorem length_origins_le (actions : List Action) (action : Action) :
    (origins actions).length ≤ (origins (actions ++ [action])).length := by
  rw [origins_concat]
  cases action with
  | create | share => exact List.length_append ▸ Nat.le_add_right _ _
  | _ => exact le_rfl

/-- A handle descends from one that was made before or with it. -/
theorem lt_of_mem_origins {actions : List Action} {origin : ℕ} (h : origin ∈ origins actions) :
    origin < (origins actions).length := by
  -- from the last action back, as origins are told action by action
  induction actions using List.reverseRecOn generalizing origin with
  | nil => cases h
  | append_singleton actions action ih =>
    rw [origins_concat] at h ⊢
    cases action with
    | create =>
      rw [originsAfter, List.length_append]
      rcases List.mem_append.mp h with h | h
      · exact (ih h).trans (Nat.lt_succ_self _)
      · exact List.mem_singleton.mp h ▸ Nat.lt_succ_self _
    | share handle =>
      rw [originsAfter, List.length_append]
      rcases List.mem_append.mp h with h | h
      · exact (ih h).trans (Nat.lt_succ_self _)
      · rw [List.mem_singleton.mp h, List.getD_eq_getElem?_getD]
        cases hshared : (origins actions)[handle]? with
        | none => exact Nat.lt_succ_self _
        | some shared => exact (ih (List.mem_of_getElem? hshared)).trans (Nat.lt_succ_self _)
    | _ => exact ih h

/-- The last of some actions is proper if the others have made its handles. -/
private theorem proper_concat_iff {actions : List Action} {action : Action} :
    Proper (actions ++ [action]) ↔
      Proper actions ∧ ∀ handle ∈ action.handles, handle < (origins actions).length := by
  constructor
  · intro h
    refine ⟨fun i hi => ?_, ?_⟩
    · have hi' := h i (by rw [List.length_append]; omega)
      rwa [List.getElem_append_left hi, List.take_append_of_le_length hi.le] at hi'
    · have hlast := h actions.length (by simp)
      rwa [List.getElem_concat_length rfl, List.take_left] at hlast
  · rintro ⟨h, hlast⟩ i hi
    rcases Nat.lt_or_ge i actions.length with hlt | hge
    · rw [List.getElem_append_left hlt, List.take_append_of_le_length hlt.le]
      exact h i hlt
    · obtain rfl : i = actions.length := by
        rw [List.length_append, List.length_singleton] at hi
        omega
      rwa [List.getElem_concat_length rfl, List.take_left]

/-- No action names a handle that has not been made in the end. -/
theorem Proper.lt {actions : List Action} (h : Proper actions) {action : Action}
    (hmem : action ∈ actions) {handle : ℕ} (hhandle : handle ∈ action.handles) :
    handle < (origins actions).length := by
  induction actions using List.reverseRecOn with
  | nil => cases hmem
  | append_singleton actions last ih =>
    obtain ⟨h, hlast⟩ := proper_concat_iff.mp h
    refine lt_of_lt_of_le ?_ (length_origins_le actions last)
    rcases List.mem_append.mp hmem with hmem | hmem
    · exact ih h hmem
    · obtain rfl := List.mem_singleton.mp hmem
      exact hlast handle hhandle

/-- What a handle descends from does not change. -/
private theorem getElem?_origins_append {actions : List Action} {handle : ℕ}
    (h : handle < (origins actions).length) (rest : List Action) :
    handle < (origins (actions ++ rest)).length ∧
      (origins (actions ++ rest))[handle]? = (origins actions)[handle]? := by
  induction rest using List.reverseRecOn with
  | nil =>
    rw [List.append_nil]
    exact ⟨h, rfl⟩
  | append_singleton rest action ih =>
    obtain ⟨hlt, hsame⟩ := ih
    rw [← List.append_assoc]
    refine ⟨hlt.trans_le (length_origins_le _ action), ?_⟩
    rw [origins_concat]
    cases action with
    | create | share => exact (List.getElem?_append_left hlt).trans hsame
    | _ => exact hsame

/-- Handles that there are already stay in their families. -/
private theorem sameFamily_append {actions : List Action} {handle other : ℕ}
    (h : handle < (origins actions).length) (hother : other < (origins actions).length)
    (rest : List Action) :
    SameFamily (actions ++ rest) handle other ↔ SameFamily actions handle other := by
  rw [SameFamily, SameFamily, (getElem?_origins_append h rest).2,
    (getElem?_origins_append hother rest).2]

/-! ### What is written -/

section Written

variable {actions : List Action} {action : Action}

/-- The changes of a family are those made through one of its handles. -/
private theorem mem_familyChanges {change : Action} {handle : ℕ} :
    change ∈ familyChanges actions handle ↔
      change ∈ actions ∧
        ∃ other, change.changes? = some other ∧ SameFamily actions other handle := by
  rw [familyChanges, List.mem_filter, Option.any_eq_true]
  simp only [decide_eq_true_eq]

/-- Which changes belong to a family is told by what the handles descend from that were used. -/
private theorem familyChanges_congr {actions' : List Action} {handle handle' : ℕ}
    (h : ∀ change ∈ actions, ∀ other, change.changes? = some other →
      (SameFamily actions' other handle' ↔ SameFamily actions other handle)) :
    (actions.filter fun change => change.changes?.any fun other =>
      SameFamily actions' other handle') = familyChanges actions handle := by
  refine List.filter_congr fun change hmem => ?_
  cases hchange : change.changes? with
  | none => rfl
  | some other => exact decide_eq_decide.mpr (h change hmem other hchange)

/-- What is done through other families is not written through that of a handle. -/
private theorem written_append {rest : List Action} (hproper : Proper actions) {handle : ℕ}
    (hhandle : handle < (origins actions).length)
    (hrest : ∀ action ∈ rest, ∀ other, action.changes? = some other →
      ¬SameFamily (actions ++ rest) other handle) :
    written (actions ++ rest) handle = written actions handle := by
  have hnone : rest.filter (fun action => action.changes?.any fun other =>
      SameFamily (actions ++ rest) other handle) = [] := by
    refine List.filter_eq_nil_iff.mpr fun action haction hchanged => ?_
    obtain ⟨other, hother, hfamily⟩ := (Option.any_eq_true ..).mp hchanged
    exact hrest action haction other hother (of_decide_eq_true hfamily)
  have hchanges : familyChanges (actions ++ rest) handle = familyChanges actions handle := by
    rw [familyChanges, List.filter_append, hnone, List.append_nil]
    refine familyChanges_congr fun change hmem other hother => ?_
    exact sameFamily_append (hproper.lt hmem (Action.mem_handles_of_changes? hother)) hhandle rest
  rw [written, written, hchanges]

section NoHandle

variable (horigins : originsAfter (origins actions) action = origins actions)

include horigins

private theorem sameFamily_concat (handle other : ℕ) :
    SameFamily (actions ++ [action]) handle other = SameFamily actions handle other := by
  rw [SameFamily, origins_concat, horigins, SameFamily]

private theorem familyChanges_concat (handle : ℕ) :
    familyChanges (actions ++ [action]) handle = familyChanges actions handle ++
      if action.changes?.any fun other => SameFamily actions other handle then [action]
      else [] := by
  unfold familyChanges
  simp only [sameFamily_concat horigins, List.filter_append]
  rw [List.filter_singleton, Bool.cond_eq_ite]

private theorem written_concat_of_none (hchanges : action.changes? = none) (handle : ℕ) :
    written (actions ++ [action]) handle = written actions handle := by
  rw [written, familyChanges_concat horigins, hchanges]
  exact congrArg _ (congrArg _ (List.append_nil _))

end NoHandle

/-- A write reaches the handles of its family. -/
private theorem written_set (handle : ℕ) (address : ℤ) (value : Float) (other : ℕ) :
    written (actions ++ [.set handle address value]) other =
      if SameFamily actions handle other then written actions other ++ [(address, value)]
      else written actions other := by
  unfold written
  rw [familyChanges_concat rfl]
  by_cases hfamily : SameFamily actions handle other
  · simp [Action.changes?, hfamily, since_concat (rfl : (Action.set _ _ _).clears = false),
      Action.write?]
  · simp [Action.changes?, hfamily]

/-- Clearing reaches the handles of its family. -/
private theorem written_clear (handle other : ℕ) :
    written (actions ++ [.clear handle]) other =
      if SameFamily actions handle other then [] else written actions other := by
  unfold written
  rw [familyChanges_concat rfl]
  by_cases hfamily : SameFamily actions handle other
  · simp [Action.changes?, hfamily, since_concat_of_restarts (rfl : (Action.clear _).clears = true)]
  · simp [Action.changes?, hfamily]

/-! ### New handles -/

private theorem length_origins_create (actions : List Action) :
    (origins (actions ++ [.create])).length = (origins actions).length + 1 := by
  rw [origins_concat, originsAfter, List.length_append, List.length_singleton]

/-- No handle that was made before is of the family of one that is made new. -/
private theorem not_sameFamily_create {handle : ℕ} (h : handle < (origins actions).length) :
    ¬SameFamily (actions ++ [.create]) handle (origins actions).length := by
  have hnew : (origins (actions ++ [.create]))[(origins actions).length]? =
      some (origins actions).length := by
    rw [origins_concat]
    exact List.getElem?_concat_length
  intro hfamily
  rw [SameFamily, hnew, (getElem?_origins_append h _).2] at hfamily
  exact absurd (lt_of_mem_origins (List.mem_of_getElem? hfamily)) (lt_irrefl _)

/-- Nothing is written through a new family. -/
private theorem written_create (hproper : Proper actions) :
    written (actions ++ [.create]) (origins actions).length = [] := by
  have hchanges : familyChanges (actions ++ [.create]) (origins actions).length = [] := by
    refine List.eq_nil_iff_forall_not_mem.mpr fun change hmem => ?_
    obtain ⟨hmem, other, hother, hfamily⟩ := mem_familyChanges.mp hmem
    rcases List.mem_append.mp hmem with hmem | hmem
    · have hlt := hproper.lt hmem (Action.mem_handles_of_changes? hother)
      exact not_sameFamily_create hlt hfamily
    · cases List.mem_singleton.mp hmem
      cases hother
  rw [written, hchanges]
  rfl

/-- The handle that showed what a handle shows, before the handle `n` was made as another `k`. -/
def twin (n k handle : ℕ) : ℕ := if handle = n then k else handle

private theorem twin_of_lt {n k handle : ℕ} (hhandle : handle < n) : twin n k handle = handle :=
  if_neg hhandle.ne

/-- A twin is a handle that there was before. -/
private theorem twin_lt {n k handle : ℕ} (hk : k < n) (hhandle : handle < n + 1) :
    twin n k handle < n := by
  rcases Nat.lt_succ_iff_lt_or_eq.mp hhandle with hlt | rfl
  · rwa [twin_of_lt hlt]
  · rwa [twin, if_pos rfl]

section Share

variable {k : ℕ} (hk : k < (origins actions).length)

private theorem length_origins_share (actions : List Action) (k : ℕ) :
    (origins (actions ++ [.share k])).length = (origins actions).length + 1 := by
  rw [origins_concat, originsAfter, List.length_append, List.length_singleton]

include hk

/-- A shared handle has the origin of its twin, and the others keep theirs. -/
private theorem getElem?_origins_share (handle : ℕ) : (origins (actions ++ [.share k]))[handle]? =
    (origins actions)[twin (origins actions).length k handle]? := by
  rw [origins_concat, originsAfter, twin]
  split
  · subst handle
    rw [List.getElem?_concat_length, List.getD_eq_getElem?_getD, List.getElem?_eq_getElem hk,
      Option.getD_some]
  · rename_i hne
    rcases Nat.lt_or_gt_of_ne hne with hlt | hgt
    · exact List.getElem?_append_left hlt
    · rw [List.getElem?_eq_none (by simp; omega), List.getElem?_eq_none hgt.le]

/-- A shared handle joins the family of its twin. -/
private theorem sameFamily_share (handle other : ℕ) :
    SameFamily (actions ++ [.share k]) handle other ↔
      SameFamily actions (twin (origins actions).length k handle)
        (twin (origins actions).length k other) := by
  rw [SameFamily, SameFamily, getElem?_origins_share hk, getElem?_origins_share hk]

/-- What was written through a family was also written through a handle that joins it. -/
private theorem written_share (hproper : Proper actions) (handle : ℕ) :
    written (actions ++ [.share k]) handle =
      written actions (twin (origins actions).length k handle) := by
  have hchanges : familyChanges (actions ++ [.share k]) handle =
      familyChanges actions (twin (origins actions).length k handle) := by
    rw [familyChanges, List.filter_append]
    refine (List.append_nil _).trans (familyChanges_congr fun change hmem other hother => ?_)
    rw [sameFamily_share hk, twin_of_lt (hproper.lt hmem (Action.mem_handles_of_changes? hother))]
  rw [written, written, hchanges]

end Share

end Written

/-! ### What the handles show -/

section Shown

variable {p : Pool}

private theorem memory_congr {handle other : ℕ} (h : p.same handle other = true) :
    p.memory handle = p.memory other := by
  rw [memory, memory, beq_iff_eq.mp h]

/-- What is done through a handle is seen through those to the same memory, and no others. -/
private theorem Holds.memory_update_eq {handle : ℕ} (h : p.Holds handle) (f : Memory → Memory)
    (other : ℕ) : (p.update handle f).memory other =
      if p.same handle other then f (p.memory other) else p.memory other := by
  cases hsame : p.same handle other with
  | false => exact memory_update_of_not_same hsame f
  | true =>
    rw [if_pos rfl, ← memory_congr hsame, ← h.memory_update f]
    exact (memory_congr ((same_update p handle f).trans hsame)).symm

/-- A handle that is made new stands for a new memory. -/
private theorem owners_create (p : Pool) (handle : ℕ) : p.create.2.owners[handle]? =
    if handle = p.owners.size then some p.memories.size else p.owners[handle]? :=
  Array.getElem?_push

private theorem memories_create (p : Pool) (store : ℕ) : p.create.2.memories[store]? =
    if store = p.memories.size then some .empty else p.memories[store]? :=
  Array.getElem?_push

/-- Making a handle to a new memory leaves the others as they are. -/
theorem Holds.create {handle : ℕ} (h : p.Holds handle) :
    p.create.2.owners[handle]? = p.owners[handle]? ∧ p.create.2.Holds handle ∧
      p.create.2.memory handle = p.memory handle := by
  obtain ⟨store, howner, hstore⟩ := h
  have hne : handle ≠ p.owners.size := by
    rintro rfl
    simp at howner
  have howner' : p.create.2.owners[handle]? = some store := by
    rw [owners_create, if_neg hne, howner]
  have hstored : p.create.2.memories[store]? = p.memories[store]? := by
    rw [memories_create, if_neg hstore.ne]
  refine ⟨howner'.trans howner.symm, ⟨store, howner', ?_⟩, ?_⟩
  · exact Array.size_push _ ▸ hstore.trans (Nat.lt_succ_self _)
  · rw [Pool.memory, Pool.memory, howner', howner, Option.bind_some, Option.bind_some, hstored]

/-- A handle to a new memory shows an empty one. -/
private theorem create_new (p : Pool) :
    p.create.2.owners[p.owners.size]? = some p.memories.size ∧ p.create.2.Holds p.owners.size ∧
      p.create.2.memory p.owners.size = .empty := by
  have howner : p.create.2.owners[p.owners.size]? = some p.memories.size := by
    rw [owners_create, if_pos rfl]
  refine ⟨howner, ⟨p.memories.size, howner, ?_⟩, ?_⟩
  · exact Array.size_push _ ▸ Nat.lt_succ_self _
  · rw [Pool.memory, howner, Option.bind_some, memories_create, if_pos rfl, Option.getD_some]

/-- A handle stands for another memory than one that is made new. -/
private theorem Holds.not_same_create {handle : ℕ} (h : p.Holds handle) :
    ¬p.create.2.same handle p.owners.size = true := by
  intro hsame
  have heq : p.owners[handle]? = some p.memories.size := by
    rw [← h.create.1, beq_iff_eq.mp hsame, p.create_new.1]
  obtain ⟨store, howner, hstore⟩ := h
  rw [howner] at heq
  exact absurd (Option.some.inj heq) hstore.ne

/-- A shared handle stands for the memory of its twin. -/
private theorem Holds.owners_share {k : ℕ} (h : p.Holds k) (handle : ℕ) :
    (p.share k).2.owners[handle]? = p.owners[twin p.owners.size k handle]? := by
  obtain ⟨store, howner, -⟩ := h
  rw [twin, Pool.share, howner, Option.getD_some, Array.getElem?_push]
  split
  · exact howner.symm
  · rfl

end Shown

/-! ### Runs -/

/-- A pool to which some actions have led. -/
structure Tracks (actions : List Action) (p : Pool) : Prop where
  size : p.owners.size = (origins actions).length
  holds : ∀ handle < (origins actions).length, p.Holds handle
  same_iff : ∀ handle < (origins actions).length, ∀ other < (origins actions).length,
    (p.same handle other = true ↔ SameFamily actions handle other)
  memory : ∀ handle < (origins actions).length,
    p.memory handle = .ofWrites (written actions handle)

/-- An empty pool belongs to the empty history. -/
theorem tracks_empty : Tracks [] {} := ⟨rfl, nofun, nofun, nofun⟩

section Kept

variable {actions : List Action} {action : Action} {p : Pool} (h : Tracks actions p)

include h

/-- What changes the memories of one family, as it changes what was written through it, is
tracked. -/
theorem Tracks.update (horigins : originsAfter (origins actions) action = origins actions)
    {handle : ℕ} (hhandle : handle < (origins actions).length) {f : Memory → Memory}
    (hwritten : ∀ other, Memory.ofWrites (written (actions ++ [action]) other) =
      if SameFamily actions handle other then f (.ofWrites (written actions other))
      else .ofWrites (written actions other)) :
    Tracks (actions ++ [action]) (p.update handle f) := by
  have hlength : (origins (actions ++ [action])).length = (origins actions).length := by
    rw [origins_concat, horigins]
  refine ⟨?_, ?_, ?_, ?_⟩
  · rw [owners_update, hlength, h.size]
  · intro other hother
    exact (h.holds other (hlength ▸ hother)).update handle f
  · intro k hk other hother
    rw [same_update, sameFamily_concat horigins]
    exact h.same_iff k (hlength ▸ hk) other (hlength ▸ hother)
  · intro other hother
    have hsame := h.same_iff handle hhandle other (hlength ▸ hother)
    rw [(h.holds handle hhandle).memory_update_eq f, hwritten, h.memory other (hlength ▸ hother)]
    -- the handles whose memory changes are those of the family
    by_cases hfamily : SameFamily actions handle other
    · rw [if_pos (hsame.mpr hfamily), if_pos hfamily]
    · rw [if_neg (hsame.not.mpr hfamily), if_neg hfamily]

/-- A question changes nothing. -/
theorem Tracks.query (horigins : originsAfter (origins actions) action = origins actions)
    (hchanges : action.changes? = none) : Tracks (actions ++ [action]) p := by
  refine ⟨?_, ?_, ?_, ?_⟩
  · rw [origins_concat, horigins, h.size]
  · rw [origins_concat, horigins]
    exact h.holds
  · simp only [origins_concat, horigins, sameFamily_concat horigins]
    exact h.same_iff
  · simp only [origins_concat, horigins, written_concat_of_none horigins hchanges]
    exact h.memory

/-- A handle to a new memory is a family of its own. -/
theorem Tracks.create (hproper : Proper actions) : Tracks (actions ++ [.create]) p.create.2 := by
  have hnot_same : ∀ handle < (origins actions).length,
      ¬p.create.2.same handle (origins actions).length = true := fun handle hhandle =>
    h.size ▸ (h.holds handle hhandle).not_same_create
  refine ⟨?_, ?_, ?_, ?_⟩
  · rw [length_origins_create, ← h.size]
    exact Array.size_push _
  -- a handle was made before or is the new one
  all_goals
    intro handle hhandle
    rw [length_origins_create] at hhandle
    rcases Nat.lt_succ_iff_lt_or_eq.mp hhandle with hlt | rfl
  · exact (h.holds handle hlt).create.2.1
  · exact h.size ▸ p.create_new.2.1
  · intro other hother
    rw [length_origins_create] at hother
    rcases Nat.lt_succ_iff_lt_or_eq.mp hother with hlt' | rfl
    · rw [sameFamily_append hlt hlt', ← h.same_iff handle hlt other hlt', same, same,
        (h.holds handle hlt).create.1, (h.holds other hlt').create.1]
    · exact iff_of_false (hnot_same handle hlt) (not_sameFamily_create hlt)
  · intro other hother
    rw [length_origins_create] at hother
    rcases Nat.lt_succ_iff_lt_or_eq.mp hother with hlt' | rfl
    · refine iff_of_false ?_ fun hfamily => not_sameFamily_create hlt' hfamily.symm
      rw [same_comm]
      exact hnot_same other hlt'
    · exact iff_of_true BEq.rfl rfl
  · rw [(h.holds handle hlt).create.2.2, h.memory handle hlt, written_append hproper hlt]
    rintro action hmem other hother
    cases List.mem_singleton.mp hmem
    cases hother
  · rw [written_create hproper, ← h.size, p.create_new.2.2]
    rfl

/-- Another handle joins the family of the one that it was made from. -/
theorem Tracks.share (hproper : Proper actions) {k : ℕ} (hk : k < (origins actions).length) :
    Tracks (actions ++ [.share k]) (p.share k).2 := by
  have howners := (h.holds k hk).owners_share
  rw [h.size] at howners
  refine ⟨?_, ?_, ?_, ?_⟩
  · rw [length_origins_share, ← h.size]
    exact Array.size_push _
  -- what holds of a handle now held of its twin before
  all_goals
    intro handle hhandle
    rw [length_origins_share] at hhandle
    have hlt := twin_lt hk hhandle
  · obtain ⟨store, howner, hstore⟩ := h.holds _ hlt
    exact ⟨store, (howners handle).trans howner, hstore⟩
  · intro other hother
    rw [length_origins_share] at hother
    rw [sameFamily_share hk, ← h.same_iff _ hlt _ (twin_lt hk hother), same, same, howners, howners]
  · rw [written_share hk hproper, ← h.memory _ hlt, Pool.memory, Pool.memory, howners]
    rfl

/-- **An action keeps track**, if it names handles that have been made. -/
theorem Tracks.perform (hproper : Proper (actions ++ [action])) :
    Tracks (actions ++ [action]) (p.perform action).2 := by
  obtain ⟨hactions, hhandles⟩ := proper_concat_iff.mp hproper
  cases action with
  | create => exact h.create hactions
  | share k => exact h.share hactions (hhandles k (List.mem_singleton_self k))
  | set handle address value =>
    refine h.update rfl (hhandles handle (List.mem_singleton_self handle)) fun other => ?_
    rw [written_set]
    split
    · exact Memory.ofWrites_concat ..
    · rfl
  | clear handle =>
    refine h.update rfl (hhandles handle (List.mem_singleton_self handle)) fun other => ?_
    rw [written_clear]
    split <;> rfl
  | get | size | same => exact h.query rfl rfl

end Kept

/-- **A run keeps track.** -/
theorem tracks_performAll {actions : List Action} (hproper : Proper actions) :
    Tracks actions (performAll {} actions) := by
  induction actions using List.reverseRecOn with
  | nil => exact tracks_empty
  | append_singleton actions action ih =>
    rw [performAll, List.foldl_concat]
    exact (ih (proper_concat_iff.mp hproper).1).perform hproper

/-- **A family of handles has one memory to itself.** After any run in which handles are used that
have been made before, a cell reads through a handle as it was written last through its family since
the memory was emptied through the family, or as zero; as many cells count as were written then; and
two handles stand for the same memory just if they are of one family. Handles are numbered as they
are made. Nothing that is done through other families, and no handle that is made, changes what is
read. -/
theorem family_shares_memory {actions : List Action} (hproper : Proper actions) {handle : ℕ}
    (hhandle : handle < (origins actions).length) :
    let p := performAll {} actions
    (∀ address, (p.perform (.get handle address)).1 =
      .value (((written actions handle).reverse.lookup address).getD 0)) ∧
    (p.perform (.size handle)).1 = .size ((written actions handle).map Prod.fst).toFinset.card ∧
    (∀ other < (origins actions).length, (p.perform (.same handle other)).1 =
      .same (decide (SameFamily actions handle other))) ∧
    ((p.perform .create).1 = .handle (origins actions).length ∧
      (p.perform (.share handle)).1 = .handle (origins actions).length) ∧
    ∀ rest, Proper (actions ++ rest) →
      (∀ action ∈ rest, ∀ other, action.changes? = some other →
        ¬SameFamily (actions ++ rest) other handle) →
      let q := performAll {} (actions ++ rest)
      (∀ address, (q.perform (.get handle address)).1 = (p.perform (.get handle address)).1) ∧
        (q.perform (.size handle)).1 = (p.perform (.size handle)).1 := by
  intro p
  have htracks : Tracks actions p := tracks_performAll hproper
  have hmemory : p.memory handle = .ofWrites (written actions handle) :=
    htracks.memory handle hhandle
  refine ⟨fun address => ?_, ?_, fun other hother => ?_, ?_, fun rest hrest hothers => ?_⟩
  · rw [← Memory.get_ofWrites, ← hmemory]
    rfl
  · rw [← Memory.size_ofWrites, ← hmemory]
    rfl
  · refine congrArg Answer.same (Bool.eq_iff_iff.mpr ?_)
    exact (htracks.same_iff handle hhandle other hother).trans decide_eq_true_iff.symm
  · exact ⟨congrArg Answer.handle htracks.size, congrArg Answer.handle htracks.size⟩
  · -- nothing in the rest reaches the family of this handle
    intro q
    have hafter : q.memory handle = p.memory handle := by
      rw [(tracks_performAll hrest).memory handle (getElem?_origins_append hhandle rest).1,
        written_append hproper hhandle hothers, hmemory]
    exact ⟨fun address => congrArg (Answer.value <| Memory.get · address) hafter,
      congrArg (Answer.size <| Memory.size ·) hafter⟩

/-- Two families, one of them of two handles: what is written through the second of these is read
through the first, until it is emptied. -/
theorem family_shares_memory_cleared :
    let actions : List Action := [.create, .create, .share 0, .set 0 7 1, .set 1 7 2, .clear 2,
      .set 2 5 3, .set 0 5 4, .set 2 (-1) 0]
    Proper actions ∧ 0 < (origins actions).length ∧
      ((performAll {} actions).perform (.get 0 5)).1 = .value 4 ∧
      ((performAll {} actions).perform (.get 0 7)).1 = .value 0 ∧
      ((performAll {} actions).perform (.size 0)).1 = .size 2 ∧
      ((performAll {} actions).perform (.same 0 2)).1 = .same true ∧
      ((performAll {} actions).perform (.same 0 1)).1 = .same false := by
  intro actions
  have hproper : Proper actions := by decide
  have hhandle : 0 < (origins actions).length := by decide
  obtain ⟨hget, hsize, hsame, -⟩ := family_shares_memory hproper hhandle
  refine ⟨hproper, hhandle, ?_, ?_, ?_, ?_, ?_⟩
  · exact (hget 5).trans rfl
  · exact (hget 7).trans rfl
  · exact hsize.trans rfl
  · exact (hsame 2 (by decide)).trans rfl
  · exact (hsame 1 (by decide)).trans rfl

end Pool

end PointScope

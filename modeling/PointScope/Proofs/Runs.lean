import Mathlib.Data.List.DropRight

/-!
# Runs and histories

A run carries operations out one after another; its `trace` is what the steps answer and the states
that they leave. Many a state remembers nothing from before the last operation that starts afresh,
as a log that is emptied or a clock that is reset. What has happened behind that operation is the
end of the history that `since` cuts off, and `foldl_since` is the induction over a run that
follows it.
-/

namespace PointScope

/-- What every step of a run answers, and the state that it leaves. -/
def trace {σ ω α : Type} (step : σ → ω → α × σ) (s : σ) : List ω → List (α × σ)
  | [] => []
  | op :: ops => step s op :: trace step (step s op).2 ops

/-- A run takes as many steps as it has operations. -/
theorem length_trace {σ ω α : Type} (step : σ → ω → α × σ) (s : σ) (ops : List ω) :
    (trace step s ops).length = ops.length := by
  induction ops generalizing s with
  | nil => rfl
  | cons op rest ih => exact congrArg (· + 1) (ih _)

/-- A run goes on from the state that its first part leaves. -/
theorem trace_append {σ ω α : Type} (step : σ → ω → α × σ) (s : σ) (ops rest : List ω) :
    trace step s (ops ++ rest) =
      trace step s ops ++ trace step (ops.foldl (fun s op => (step s op).2) s) rest := by
  induction ops generalizing s with
  | nil => rfl
  | cons op ops ih => exact congrArg (step s op :: ·) (ih _)

/-! ### Histories -/

section Since

variable {σ ω : Type} {restarts : ω → Bool}

/-- What has happened behind the last operation that starts afresh. -/
def since (restarts : ω → Bool) (ops : List ω) : List ω := ops.rtakeWhile fun op => !restarts op

/-- Nothing has happened behind an operation that starts afresh. -/
theorem since_concat_of_restarts {op : ω} (h : restarts op = true) (ops : List ω) :
    since restarts (ops ++ [op]) = [] :=
  List.rtakeWhile_concat_neg _ _ op (by simp [h])

/-- Any other operation is one more that has happened. -/
theorem since_concat {op : ω} (h : restarts op = false) (ops : List ω) :
    since restarts (ops ++ [op]) = since restarts ops ++ [op] :=
  List.rtakeWhile_concat_pos _ _ op (by simp [h])

/-- A history in which nothing starts afresh counts as a whole. -/
theorem since_append {ops : List ω} (h : ∀ op ∈ ops, restarts op = false) (before : List ω) :
    since restarts (before ++ ops) = since restarts before ++ ops := by
  induction ops using List.reverseRecOn with
  | nil => rw [List.append_nil, List.append_nil]
  | append_singleton ops op ih =>
    obtain ⟨hops, hop⟩ := List.forall_mem_append.mp h
    rw [← List.append_assoc, since_concat (hop op (List.mem_singleton_self op)), ih hops,
      List.append_assoc]

/-- **Induction over what has happened since.** A relation between a history and a state holds of a
run if it holds at the start and is kept by every operation, where one that starts afresh leaves a
state that belongs to the empty history. -/
theorem foldl_since {step : σ → ω → σ} {P : List ω → σ → Prop} {start : σ} (hstart : P [] start)
    (hrestart : ∀ past s op, restarts op = true → P past s → P [] (step s op))
    (hstep : ∀ past s op, restarts op = false → P past s → P (past ++ [op]) (step s op))
    (ops : List ω) : P (since restarts ops) (ops.foldl step start) := by
  induction ops using List.reverseRecOn with
  | nil => exact hstart
  | append_singleton ops op ih =>
    rw [List.foldl_append]
    cases hop : restarts op with
    | true =>
      rw [since_concat_of_restarts hop]
      exact hrestart _ _ op hop ih
    | false =>
      rw [since_concat hop]
      exact hstep _ _ op hop ih

end Since

end PointScope

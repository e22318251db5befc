import PointScope.Scope.Phase
import PointScope.Script.Diagnostic

/-!
# Bounded logs

A log keeps the newest entries, up to its capacity, oldest first. The diagnostics of a scope are
kept in such a log, each with the phase whose script it is about.
-/

namespace PointScope

/-- The newest entries that were pushed. -/
structure Log (α : Type) where
  capacity : Nat
  entries : List α := []
deriving Repr

namespace Log

variable {α : Type}

/-- The last `n` entries of a list, or all if there are fewer. -/
def newest (n : Nat) (entries : List α) : List α := entries.drop (entries.length - n)

/-- Adds an entry; the oldest one gives way when the log is full. A log without room stays as it
is. -/
def push (log : Log α) (entry : α) : Log α :=
  if log.capacity = 0 then log
  else
    let kept := if log.capacity ≤ log.entries.length then log.entries.tail else log.entries
    { log with entries := kept ++ [entry] }

/-- Adds entries in order. -/
def pushAll (log : Log α) (entries : List α) : Log α := entries.foldl push log

/-- The `n` newest entries, oldest first. -/
def recent (log : Log α) (n : Nat) : List α := newest n log.entries

/-- How many entries the log holds. -/
def size (log : Log α) : Nat := log.entries.length

/-- Forgets all entries. -/
def clear (log : Log α) : Log α := { log with entries := [] }

end Log

/-- A diagnostic and the phase whose script it is about. -/
structure LogEntry where
  phase : Phase
  diagnostic : Script.Diagnostic
deriving DecidableEq, Repr

/-- The log that a scope starts with. -/
def emptyDiagnosticLog : Log LogEntry := { capacity := 50 }

end PointScope

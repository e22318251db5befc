import PointScope.Scope.Basic

/-!
# Operations

Everything that a host can do to a scope, as data. `Scope.perform` carries an operation out;
running a list of operations is a fold over it.
-/

namespace PointScope

/-- What a host does to a scope. -/
inductive Operation where
  | load (sources : Phased String)
  | loadSources (init frame beat point : String)
  | init (m : Moment) (forced : Option Nat)
  | frame (m : Moment)
  | beat (m : Moment)
  | point (i : Nat)
  | render (m : Moment) (hasBeat : Bool)
  | setVar (name : String) (value : Float)
  /-- Write a cell of the shared memory from outside any script. -/
  | writeShared (address : Int) (value : Float)
  /-- Empty the shared memory. -/
  | clearShared
deriving Inhabited

/-- What an operation answers. -/
inductive Answer where
  | none
  /-- How many scripts were compiled. -/
  | compiled (count : Nat)
  | point (p : Point)
  | points (ps : Array Point)

namespace Scope

/-- Carries out an operation. -/
def perform (s : Scope) : Operation → Answer × Scope
  | .load sources =>
    let (count, s) := s.load sources
    (.compiled count, s)
  | .loadSources init frame beat point =>
    let (count, s) := s.loadSources init frame beat point
    (.compiled count, s)
  | .init m forced => (.none, s.init m forced)
  | .frame m => (.none, s.frame m)
  | .beat m => (.none, s.beat m)
  | .point i =>
    let (p, s) := s.point i
    (.point p, s)
  | .render m hasBeat =>
    let (ps, s) := s.render m hasBeat
    (.points ps, s)
  | .setVar name value => (.none, s.setVar name value)
  | .writeShared address value =>
    (.none, { s with environment := s.environment.writeCell .shared address value })
  | .clearShared => (.none, { s with environment := s.environment.setBank .shared .empty })

/-- Carries out operations in order. -/
def performAll (s : Scope) (ops : List Operation) : Scope :=
  ops.foldl (fun s op => (s.perform op).2) s

end Scope

end PointScope

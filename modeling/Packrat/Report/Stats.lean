/-
Counters of a run. They describe how much a run backtracked and what memoization saved, and nothing
depends on them.
-/

namespace Packrat

structure PointStats where
  /-- Lookups that found a match. -/
  hits : Nat
  /-- Lookups that found a failure. -/
  failHits : Nat
  misses : Nat
  /-- The bytes that hits skipped, all together. -/
  hitLength : Nat
  /-- The most bytes that one hit skipped. -/
  maxLength : Nat
deriving DecidableEq, Repr

namespace PointStats

def zero : PointStats := ⟨0, 0, 0, 0, 0⟩

instance : Inhabited PointStats := ⟨zero⟩

def hit (stats : PointStats) (consumed : Nat) : PointStats :=
  { stats with
    hits := stats.hits + 1
    hitLength := stats.hitLength + consumed
    maxLength := max stats.maxLength consumed }

def failHit (stats : PointStats) : PointStats :=
  { stats with failHits := stats.failHits + 1 }

def miss (stats : PointStats) : PointStats :=
  { stats with misses := stats.misses + 1 }

def lookups (stats : PointStats) : Nat :=
  stats.hits + stats.failHits + stats.misses

end PointStats

/-- A quotient of counters as a double, zero where there is nothing to divide by. -/
def ratio (n d : Nat) : Float :=
  if d = 0 then 0.0 else (UInt64.ofNat n).toFloat / (UInt64.ofNat d).toFloat

namespace PointStats

def hitRatio (stats : PointStats) : Float := ratio stats.hits stats.lookups

def failHitRatio (stats : PointStats) : Float := ratio stats.failHits stats.lookups

def meanLength (stats : PointStats) : Float := ratio stats.hitLength stats.hits

end PointStats

structure RunStats where
  /-- Failures, with a choice point to resume at or without. -/
  failures : Nat
  /-- Failures that moved the cursor back. -/
  backtracks : Nat
  /-- The bytes given back, all together. -/
  backtrackLength : Nat
  /-- The longest way back, from the furthest position reached. -/
  longestBacktrack : Nat
  memoStored : Nat
  memoUsed : Nat
  memoInvalidated : Nat
  /-- The lookups of each memo point. -/
  points : Array PointStats
deriving DecidableEq, Repr

namespace RunStats

def initial (points : Nat) : RunStats :=
  ⟨0, 0, 0, 0, 0, 0, 0, Array.replicate points .zero⟩

instance : Inhabited RunStats := ⟨initial 0⟩

/-- Count a failure that returns the cursor from `current` to `saved`, where `head` is the furthest
position that earlier returns left behind. -/
def backtrack (stats : RunStats) (saved current head : Nat) : RunStats :=
  if saved < current then
    { stats with
      failures := stats.failures + 1
      backtracks := stats.backtracks + 1
      backtrackLength := stats.backtrackLength + (current - saved)
      longestBacktrack := max stats.longestBacktrack (max head current - saved) }
  else { stats with failures := stats.failures + 1 }

def countPoint (stats : RunStats) (index : Nat) (count : PointStats → PointStats) : RunStats :=
  { stats with points := stats.points.modify index count }

end RunStats

end Packrat

/-
When a heap collects: the thresholds, counted in live objects, and how a
threshold follows from the survivors of the last collection.  Thresholds are
signed machine words and their products wrap.
-/
import StackVm.Text.Basic

namespace StackVm

/-- The collection policy of a heap. -/
structure Config where
  /-- The first threshold, below which no later threshold falls. -/
  initialThreshold : Int64 := 0
  /-- The survivors are multiplied by this to give the next threshold. -/
  growthFactor : Int64 := 0
  /-- With fewer survivors than this the threshold goes back to the first one. -/
  minThreshold : Int64 := 0
  /-- The most live objects the heap may hold; no limit unless positive. -/
  maxObjects : Int64 := 0
  deriving DecidableEq, Repr, Inhabited

namespace Config

/-- The policy of a heap that nobody configured. -/
def standard : Config := ⟨64, 2, 32, 0⟩

/-- The policy with unusable fields replaced by the standard ones. -/
def normalized (c : Config) : Config :=
  { c with
    initialThreshold := if c.initialThreshold ≤ 0 then standard.initialThreshold
      else c.initialThreshold
    growthFactor := if c.growthFactor ≤ 1 then standard.growthFactor else c.growthFactor
    minThreshold := if c.minThreshold < 0 then standard.minThreshold else c.minThreshold }

/-- The threshold after a collection that `live` objects survive. -/
def nextThreshold (c : Config) (live : Nat) : Int64 :=
  let survivors := Int64.ofNat live
  if survivors < c.minThreshold then c.initialThreshold
  else
    let grown := survivors * c.growthFactor
    if c.initialThreshold < grown then grown else c.initialThreshold

/-- Whether `live` objects reach the limit of the policy. -/
def isFull (c : Config) (live : Nat) : Bool :=
  0 < c.maxObjects && c.maxObjects.toInt ≤ live

end Config

end StackVm

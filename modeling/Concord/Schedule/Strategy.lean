/-!
# Thinning out a batch

Before a batch is processed, strategies mark some of its slots as skipped. A slot that is marked
stays marked; what is not marked at the end is processed, in the order in which it came.

* `Strategy.lastOnly` – keeps the last slot;
* `Strategy.latestPerKey` – of unmarked slots with one key keeps the latest;
* `Strategy.skipWhere` – marks the slots whose items have a property;
* `Strategy.survivors` – what some strategies leave of a batch.
-/

namespace Concord.Schedule

universe u v

/-- An item of a batch and whether it is to be skipped. -/
structure Slot (α : Type u) where
  item : α
  skip : Bool
deriving DecidableEq, Repr

/-- A way to mark slots of a batch. -/
abbrev Strategy (α : Type u) := List (Slot α) → List (Slot α)

namespace Strategy

variable {α : Type u}

/-- Keep the last slot. -/
def lastOnly : Strategy α
  | [] => []
  | [s] => [s]
  | s :: t :: rest => { s with skip := true } :: lastOnly (t :: rest)

/-- Mark the slots whose key an unmarked slot after them has, and collect the keys of the slots
that stay unmarked. -/
def markOlder {κ : Type v} [BEq κ] (key : α → κ) : List (Slot α) → List (Slot α) × List κ
  | [] => ([], [])
  | s :: rest =>
    let (marked, seen) := markOlder key rest
    if s.skip then (s :: marked, seen)
    else if seen.contains (key s.item) then ({ s with skip := true } :: marked, seen)
    else (s :: marked, key s.item :: seen)

/-- Of the unmarked slots with one key keep the latest. -/
def latestPerKey {κ : Type v} [BEq κ] (key : α → κ) : Strategy α :=
  fun slots => (markOlder key slots).1

/-- Mark the slots whose items have a property. -/
def skipWhere (p : α → Bool) : Strategy α :=
  fun slots => slots.map fun s => if p s.item then { s with skip := true } else s

/-- A batch as slots, after some strategies one after the other. -/
def organize (strategies : List (Strategy α)) (batch : List α) : List (Slot α) :=
  strategies.foldl (fun slots strategy => strategy slots) (batch.map fun x => ⟨x, false⟩)

/-- What some strategies leave of a batch. -/
def survivors (strategies : List (Strategy α)) (batch : List α) : List α :=
  ((organize strategies batch).filter fun s => !s.skip).map Slot.item

end Strategy

end Concord.Schedule

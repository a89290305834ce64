import Concord.Schedule.Clock
import Concord.Schedule.Scheduler

/-!
# Periodic cycles

A scheduler may be started: from then on it runs a cycle, sleeps for its interval, and so on. Only
one cycle runs at a time. A caller who asks for a cycle while another one is being processed waits
for its end; a periodic cycle that is due while a caller's cycle is being processed is queued, and
comes before any cycle asked for later.

* `Loop` – what the periodic cycle of a scheduler is doing;
* `Runner.tick` – what the periodic cycle does at a time;
* `Runner.runCycle` – a cycle that a caller asks for and waits for.
-/

namespace Concord.Schedule

universe u v

/-- What the periodic cycle of a scheduler is doing. -/
inductive Loop (α : Type u) where
  /-- The scheduler was not started. -/
  | absent
  /-- About to begin its first cycle. -/
  | ready
  /-- Next in line after the cycle of a caller. -/
  | queued
  | asleep (wake : Nat)
  /-- In the middle of a batch, with an item that is due at a time. -/
  | working (item : α) (due : Nat)
  | stopped

/-- A scheduler with its periodic cycle. -/
structure Runner (α : Type u) where
  scheduler : Scheduler α
  loop : Loop α

namespace Runner

variable {α : Type u} {σ : Type v}

/-- A scheduler that was not started. -/
def new (scheduler : Scheduler α) : Runner α := ⟨scheduler, .absent⟩

/-- Change the scheduler. -/
def onScheduler (r : Runner α) (f : Scheduler α → Scheduler α) : Runner α :=
  { r with scheduler := f r.scheduler }

/-- Start the periodic cycle, unless it was started before or the scheduler is disposed. -/
def start (r : Runner α) : Runner α :=
  match r.loop with
  | .absent => if r.scheduler.disposed then r else { r with loop := .ready }
  | _ => r

/-- Stop the periodic cycle of a disposed scheduler, but not in the middle of an item. -/
def settle (r : Runner α) : Runner α :=
  match r.loop with
  | .absent | .working .. => r
  | _ => if r.scheduler.disposed then { r with loop := .stopped } else r

/-- Dispose the scheduler. -/
def dispose (r : Runner α) : Runner α := (r.onScheduler Scheduler.dispose).settle

/-- After a periodic cycle, or in the middle of one. -/
def ofProgress (p : Progress α σ) : Runner α :=
  match p.running with
  | some (x, due) => ⟨p.scheduler, .working x due⟩
  | none =>
    ⟨p.scheduler,
      if p.scheduler.disposed then .stopped else .asleep (p.now + p.scheduler.interval)⟩

/-- Finish the item in the worker's hands when it is due and go on with the batch. -/
def resume (w : Worker α σ) (deadline : Option Nat) (item : α) (due : Nat) (s : Scheduler α)
    (st : σ) : Progress α σ :=
  let (st, e) := w.perform item st
  Scheduler.work w deadline due (s.batch.getD []) (e.on s) st

/-- What the periodic cycle does at a time. -/
def tick (w : Worker α σ) (now : Nat) (r : Runner α) (st : σ) : Runner α × σ :=
  let done (p : Progress α σ) : Runner α × σ := (ofProgress p, p.state)
  match r.loop with
  | .absent | .stopped => (r, st)
  | .ready | .queued => done (r.scheduler.cycle w (some now) now st)
  | .asleep wake => if wake ≤ now then done (r.scheduler.cycle w (some now) now st) else (r, st)
  | .working item due =>
    if due ≤ now then done (resume w (some now) item due r.scheduler st) else (r, st)

/-- When the periodic cycle has something to do again. -/
def wake? (r : Runner α) : Option Nat :=
  match r.loop with
  | .asleep wake => some wake
  | .working _ due => some due
  | _ => none

/-- Let a periodic cycle that has the turn come to its end, from a time on. -/
def giveWay (w : Worker α σ) (now : Nat) (r : Runner α) (st : σ) : Runner α × σ × Nat :=
  let done (p : Progress α σ) : Runner α × σ × Nat := (ofProgress p, p.state, p.now)
  match r.loop with
  | .queued => done (r.scheduler.cycle w none now st)
  | .working item due => done (resume w none item due r.scheduler st)
  | _ => (r, st, now)

/-- What the periodic cycle does while a caller's cycle runs up to a time. -/
def overtaken (now : Nat) : Loop α → Loop α
  | .ready => .queued
  | .asleep wake => if wake ≤ now then .queued else .asleep wake
  | loop => loop

/-- What a caller's cycle leaves behind. -/
structure Ran (α : Type u) (σ : Type v) where
  runner : Runner α
  state : σ
  count : Nat
  now : Nat

/-- A cycle that a caller asks for at a time and waits for. -/
def runCycle (w : Worker α σ) (now : Nat) (r : Runner α) (st : σ) : Ran α σ :=
  let (r, st, now) := r.giveWay w now st
  let p := r.scheduler.cycle w none now st
  let loop := if 0 < p.count then overtaken p.now r.loop else r.loop
  ⟨(Runner.mk p.scheduler loop).settle, p.state, p.count, p.now⟩

end Runner

end Concord.Schedule

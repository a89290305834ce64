import Concord.Schedule.Strategy

/-!
# Batch schedulers

Items are pushed without waiting and stay pending until a cycle begins. A cycle takes all pending
items at once, thins them out, and hands the rest one by one to a worker; what is pushed meanwhile
waits for the next cycle. A disposed scheduler drops what is pending, takes nothing more, and hands
nothing more over: at most the item in the worker's hands is finished.

* `Scheduler.push`, `Scheduler.begin`, `Scheduler.dispose` – the moves;
* `Worker` – how long an item takes, and what it does when its time is over;
* `Scheduler.work`, `Scheduler.cycle` – a whole batch or as much of it as fits before a deadline.
-/

namespace Concord.Schedule

universe u v

/-- Pending items, and the rest of the batch being processed, if one is. -/
structure Scheduler (α : Type u) where
  name : String
  /-- The milliseconds from the end of a periodic cycle to the next one. -/
  interval : Nat
  strategies : List (Strategy α)
  /-- Someone else can push. -/
  shared : Bool
  pending : List α
  batch : Option (List α)
  disposed : Bool

namespace Scheduler

variable {α : Type u}

/-- A scheduler without strategies and items. -/
def new (name : String) (interval : Nat) : Scheduler α where
  name := name
  interval := interval
  strategies := []
  shared := false
  pending := []
  batch := none
  disposed := false

/-- Let others push. -/
def share (s : Scheduler α) : Scheduler α := { s with shared := true }

/-- Add a strategy after those there are. A shared scheduler keeps those it has. -/
def addStrategy (s : Scheduler α) (strategy : Strategy α) : Scheduler α :=
  if s.shared then s else { s with strategies := s.strategies ++ [strategy] }

/-- Add an item for the next cycle. -/
def push (s : Scheduler α) (x : α) : Scheduler α :=
  if s.disposed then s else { s with pending := s.pending ++ [x] }

/-- Add items in order. -/
def pushAll (s : Scheduler α) (xs : List α) : Scheduler α := xs.foldl push s

/-- Stop for good. -/
def dispose (s : Scheduler α) : Scheduler α := { s with disposed := true, pending := [] }

/-- Whether nothing is pending and no batch is being processed. -/
def isIdle (s : Scheduler α) : Bool := s.batch.isNone && s.pending.isEmpty

/-- Make what is pending a batch, unless nothing is. -/
def begin (s : Scheduler α) : Scheduler α :=
  if s.disposed || s.pending.isEmpty then s
  else { s with pending := [], batch := some (Strategy.survivors s.strategies s.pending) }

/-- Be done with the batch. -/
def endBatch (s : Scheduler α) : Scheduler α := { s with batch := none }

end Scheduler

/-- What an item does to the scheduler it came from: it pushes items, then it may dispose it. -/
structure Effect (α : Type u) where
  pushes : List α
  disposes : Bool

namespace Effect

variable {α : Type u}

/-- No effect. -/
def none : Effect α := ⟨[], false⟩

/-- A scheduler after an effect. -/
def on (e : Effect α) (s : Scheduler α) : Scheduler α :=
  let pushed := s.pushAll e.pushes
  if e.disposes then pushed.dispose else pushed

end Effect

/-- What is done with items: how many milliseconds each takes, and what it does at their end.

Every item is a task of its own. It may end well, with an error or with a panic; the last two are
contained in the task and logged, and the batch goes on with the next item in all three cases. So
there is one end, and what an item did before it failed is its effect. This is about tasks that run:
the call that makes the task of an item is taken to return, as nothing would catch its panic. -/
structure Worker (α : Type u) (σ : Type v) where
  duration : α → Nat
  perform : α → σ → σ × Effect α

/-- How far a batch has come: the scheduler and the state, how many items are finished, the time,
and the item in the worker's hands with the time it is due. -/
structure Progress (α : Type u) (σ : Type v) where
  scheduler : Scheduler α
  state : σ
  count : Nat
  now : Nat
  running : Option (α × Nat)

namespace Scheduler

variable {α : Type u} {σ : Type v}

/-- Whether a time is not past a deadline. -/
def within (deadline : Option Nat) (time : Nat) : Bool := deadline.all fun d => time ≤ d

/-- Process a batch from a time on, as far as items are due before the deadline. -/
def work (w : Worker α σ) (deadline : Option Nat) (now : Nat) :
    List α → Scheduler α → σ → Progress α σ
  | [], s, st => ⟨s.endBatch, st, 0, now, none⟩
  | x :: rest, s, st =>
    if s.disposed then ⟨s.endBatch, st, 0, now, none⟩
    else
      let due := now + w.duration x
      let s := { s with batch := some rest }
      if within deadline due then
        let (st, e) := w.perform x st
        let p := work w deadline due rest (e.on s) st
        { p with count := p.count + 1 }
      -- the item stays in the worker's hands
      else ⟨s, st, 0, now, some (x, due)⟩

/-- Begin a cycle at a time and go on to the deadline. -/
def cycle (w : Worker α σ) (deadline : Option Nat) (now : Nat) (s : Scheduler α) (st : σ) :
    Progress α σ :=
  let s := s.begin
  match s.batch with
  | none => ⟨s, st, 0, now, none⟩
  | some batch => work w deadline now batch s st

end Scheduler

end Concord.Schedule

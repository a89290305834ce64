import Concord.Proofs.Schedule.Instant
import Concord.Proofs.Schedule.Survivors

/-!
# Histories of a scheduler

Between two waiting points a scheduler makes one *move*: an item is pushed, a cycle begins, an item
of the batch is handed over, it is finished, the batch is closed, the scheduler is disposed. Pushes
and disposal come between any two moves and from anyone, the item being processed included; the
other moves are those of the one cycle that runs, whoever asked for it.

Two things are assumed of the moves.

* **Each is one step.** To push is to look whether the scheduler is disposed and to add the item, to
  hand over is to look and to start the task, and to dispose is to say so and to drop what is
  pending, with no other move in between. Of a push that has looked when another thread disposes,
  and adds its item later, nothing is said here.
* **An item ends in one way.** Its task may end well, fail or panic: the last two are contained in
  the task, so the item is finished like any other. The call that makes the task comes before it and
  is taken to return; a panic of that call would end the cycle with its batch.

A *history* is a list of moves (`Run`), and what is said here is said of every history.

* **Items leave in the order in which they came.** As long as the scheduler is not disposed, a cycle
  hands over the batch it began with and nothing else (`Run.handed_append_rest`), and without
  strategies all that was pushed is handed over, in the batch or pending, in this order
  (`Run.handed_append_pending`).
* **After disposal** nothing is handed over (`Run.handed_of_disposed`), nothing is pending
  (`Run.of_disposed`), and no batch begins (`Run.isIdle_of_disposed`).
-/

namespace Concord.Schedule

universe u

variable {α : Type u}

/-- A scheduler and the item in the worker's hands, if there is one. -/
structure Desk (α : Type u) where
  scheduler : Scheduler α
  hands : Option α

namespace Desk

/-- The items of the batch that are still to be handed over. -/
def rest (d : Desk α) : List α := d.scheduler.batch.getD []

/-- Change the scheduler. -/
def onScheduler (d : Desk α) (f : Scheduler α → Scheduler α) : Desk α :=
  { d with scheduler := f d.scheduler }

end Desk

/-- What happens at a desk. -/
inductive Move (α : Type u) where
  | push (x : α)
  | begin
  | hand (x : α)
  | finish (x : α)
  | close
  | dispose
deriving DecidableEq, Repr

/-- One move. A cycle begins only when no other one has a batch, an item is handed over only when
the one before it is finished and the scheduler is not disposed, and a batch is closed when nothing
of it is left or the rest is given up. -/
inductive Step : Desk α → Move α → Desk α → Prop where
  | push (d : Desk α) (x : α) : Step d (.push x) (d.onScheduler fun s => s.push x)
  | begin {d : Desk α} (hbatch : d.scheduler.batch = none) :
    Step d .begin (d.onScheduler Scheduler.begin)
  | hand {s : Scheduler α} {x : α} {rest : List α} (hlive : s.disposed = false)
    (hbatch : s.batch = some (x :: rest)) :
    Step ⟨s, none⟩ (.hand x) ⟨{ s with batch := some rest }, some x⟩
  | finish (s : Scheduler α) (x : α) : Step ⟨s, some x⟩ (.finish x) ⟨s, none⟩
  | close {s : Scheduler α} {rest : List α} (hbatch : s.batch = some rest)
    (hdone : s.disposed ∨ rest = []) : Step ⟨s, none⟩ .close ⟨s.endBatch, none⟩
  | dispose (d : Desk α) : Step d .dispose (d.onScheduler Scheduler.dispose)

/-- A history: moves one after the other. -/
inductive Run : Desk α → List (Move α) → Desk α → Prop where
  | nil (d : Desk α) : Run d [] d
  | cons {d d' d'' : Desk α} {m : Move α} {ms : List (Move α)} :
    Step d m d' → Run d' ms d'' → Run d (m :: ms) d''

namespace Move

/-- The item that a move pushes. -/
def pushed? : Move α → Option α
  | push x => some x
  | _ => none

/-- The item that a move hands over. -/
def handed? : Move α → Option α
  | hand x => some x
  | _ => none

/-- The item that a move finishes. -/
def finished? : Move α → Option α
  | finish x => some x
  | _ => none

end Move

/-- The items that some moves push, in order. -/
def pushed (ms : List (Move α)) : List α := ms.filterMap Move.pushed?

/-- The items that some moves hand over, in order. -/
def handed (ms : List (Move α)) : List α := ms.filterMap Move.handed?

/-- The items that some moves finish, in order. -/
def finished (ms : List (Move α)) : List α := ms.filterMap Move.finished?

section Lists

variable (m : Move α) (ms ms' : List (Move α))

@[simp] theorem pushed_nil : pushed ([] : List (Move α)) = [] := rfl

@[simp] theorem handed_nil : handed ([] : List (Move α)) = [] := rfl

@[simp] theorem finished_nil : finished ([] : List (Move α)) = [] := rfl

theorem pushed_cons : pushed (m :: ms) = m.pushed?.toList ++ pushed ms := by
  cases m <;> rfl

theorem handed_cons : handed (m :: ms) = m.handed?.toList ++ handed ms := by
  cases m <;> rfl

theorem finished_cons : finished (m :: ms) = m.finished?.toList ++ finished ms := by
  cases m <;> rfl

@[simp] theorem pushed_append : pushed (ms ++ ms') = pushed ms ++ pushed ms' :=
  List.filterMap_append

@[simp] theorem finished_append : finished (ms ++ ms') = finished ms ++ finished ms' :=
  List.filterMap_append

end Lists

/-! ### What the moves of a scheduler do -/

namespace Scheduler

variable {s : Scheduler α}

theorem pending_push_of_live (hs : s.disposed = false) (x : α) :
    (s.push x).pending = s.pending ++ [x] := by
  simp [push, hs]

theorem push_of_disposed (hs : s.disposed) (x : α) : s.push x = s := by
  rw [push, if_pos hs]

theorem begin_of_disposed (hs : s.disposed) : s.begin = s := begin_of_idle (by simp [hs])

/-- A cycle takes what the strategies leave of what is pending, if anything is. -/
theorem taken_eq (hbatch : s.batch = none) (hlive : s.disposed = false) :
    s.taken = if s.pending = [] then [] else Strategy.survivors s.strategies s.pending := by
  by_cases hpending : s.pending = []
  · rw [taken, begin_of_idle (by simp [hpending]), hbatch, if_pos hpending, Option.getD_none]
  · rw [taken, begin_of_pending (by simp [hlive, hpending]), if_neg hpending, Option.getD_some]

/-- Without strategies a cycle takes all that is pending. -/
theorem taken_of_plain (hbatch : s.batch = none) (hlive : s.disposed = false)
    (hplain : s.strategies = []) : s.taken = s.pending := by
  rw [taken_eq hbatch hlive, hplain, Strategy.survivors_nil]
  split
  · next h => exact h.symm
  · rfl

theorem pending_begin (hlive : s.disposed = false) : s.begin.pending = [] := by
  by_cases hpending : s.pending = []
  · rw [begin_of_idle (by simp [hpending]), hpending]
  · rw [begin_of_pending (by simp [hlive, hpending])]

/-- Between batches a scheduler is idle when nothing is pending. -/
theorem isIdle_iff (hs : s.batch = none) : s.isIdle ↔ s.pending = [] := by
  simp [isIdle, hs]

end Scheduler

/-! ### One move -/

namespace Step

variable {d d' : Desk α} {m : Move α}

/-- A disposed scheduler stays so. -/
theorem disposed (h : Step d m d') (hd : d.scheduler.disposed) : d'.scheduler.disposed := by
  cases h with
  | push x => simpa [Desk.onScheduler] using hd
  | begin hbatch => simpa [Desk.onScheduler] using hd
  | hand hlive hbatch => exact hd
  | finish s x => exact hd
  | close hbatch hdone => exact hd
  | dispose => rfl

theorem live (h : Step d m d') (hd : d'.scheduler.disposed = false) :
    d.scheduler.disposed = false :=
  Bool.eq_false_iff.2 fun hc => Bool.eq_false_iff.1 hd (h.disposed hc)

/-- Only a disposal disposes. -/
theorem live_of_ne_dispose (h : Step d m d') (hm : m ≠ .dispose)
    (hd : d.scheduler.disposed = false) : d'.scheduler.disposed = false := by
  cases h with
  | push x => exact (Scheduler.disposed_push _ _).trans hd
  | begin hbatch => exact (Scheduler.disposed_begin _).trans hd
  | dispose => exact absurd rfl hm
  | _ => exact hd

theorem strategies (h : Step d m d') : d'.scheduler.strategies = d.scheduler.strategies := by
  cases h with
  | push x => exact Scheduler.strategies_push _ _
  | begin hbatch => exact Scheduler.strategies_begin _
  | _ => rfl

/-- What is handed over goes through the worker's hands. -/
theorem hands (h : Step d m d') :
    d.hands.toList ++ m.handed?.toList = m.finished?.toList ++ d'.hands.toList := by
  cases h <;> simp [Move.handed?, Move.finished?, Desk.onScheduler]

/-- A move other than the beginning of a cycle adds nothing to the batch: of what is to be handed
over it hands over the first item, or nothing. -/
theorem handed_append_rest (h : Step d m d') (hm : m ≠ .begin)
    (hd : d'.scheduler.disposed = false) : m.handed?.toList ++ d'.rest = d.rest := by
  cases h with
  | push x => simp [Move.handed?, Desk.rest, Desk.onScheduler]
  | begin hbatch => exact absurd rfl hm
  | hand hlive hbatch => simp [Move.handed?, Desk.rest, hbatch]
  | finish s x => rfl
  | close hbatch hdone =>
    rcases hdone with hdisposed | rfl
    · exact absurd hdisposed (Bool.eq_false_iff.1 hd)
    · simp [Move.handed?, Desk.rest, Scheduler.endBatch, hbatch]
  | dispose => simp [Desk.onScheduler, Scheduler.dispose] at hd

/-- A cycle that begins takes its batch from what is pending. -/
theorem of_begin (h : Step d .begin d') (hd : d'.scheduler.disposed = false) :
    d.scheduler.batch = none ∧ d'.rest = d.scheduler.taken ∧ d'.scheduler.pending = [] := by
  have hlive := h.live hd
  cases h with
  | begin hbatch => exact ⟨hbatch, rfl, Scheduler.pending_begin hlive⟩

/-- The worker's hands are empty between batches. -/
theorem hands_of_batch (h : Step d m d') (hd : d.scheduler.batch = none → d.hands = none) :
    d'.scheduler.batch = none → d'.hands = none := by
  cases h with
  | push x => simpa [Desk.onScheduler] using hd
  | begin hbatch => exact fun _ => hd hbatch
  | hand hlive hbatch => simp
  | finish s x => simp
  | close hbatch hdone => simp
  | dispose => exact hd

/-- Without strategies nothing is lost, repeated or reordered by a move. -/
theorem handed_append_pending (h : Step d m d') (hd : d'.scheduler.disposed = false)
    (hplain : d.scheduler.strategies = []) :
    m.handed?.toList ++ (d'.rest ++ d'.scheduler.pending) =
      d.rest ++ d.scheduler.pending ++ m.pushed?.toList := by
  by_cases hm : m = .begin
  · subst hm
    obtain ⟨hbatch, hrest', hpending'⟩ := h.of_begin hd
    have hrest : d.rest = [] := by rw [Desk.rest, hbatch, Option.getD_none]
    have htaken := Scheduler.taken_of_plain hbatch (h.live hd) hplain
    simp [Move.handed?, Move.pushed?, hrest, hrest', htaken, hpending']
  · rw [← List.append_assoc, h.handed_append_rest hm hd, List.append_assoc]
    congr 1
    have hlive := h.live hd
    cases h with
    | push x => exact Scheduler.pending_push_of_live hlive _
    | begin hbatch => exact absurd rfl hm
    | dispose => simp [Desk.onScheduler, Scheduler.dispose] at hd
    | _ => simp [Move.pushed?, Scheduler.endBatch]

end Step

/-! ### Histories -/

namespace Run

variable {d d' d'' : Desk α} {ms ms' : List (Move α)}

theorem singleton {m : Move α} (h : Step d m d') : Run d [m] d' := .cons h (.nil d')

theorem append (h : Run d ms d') (h' : Run d' ms' d'') : Run d (ms ++ ms') d'' := by
  induction h with
  | nil d => exact h'
  | cons hstep _ ih => exact .cons hstep (ih h')

theorem disposed_mono (h : Run d ms d') (hd : d.scheduler.disposed) :
    d'.scheduler.disposed := by
  induction h with
  | nil d => exact hd
  | cons hstep _ ih => exact ih (hstep.disposed hd)

theorem live (h : Run d ms d') (hd : d'.scheduler.disposed = false) :
    d.scheduler.disposed = false :=
  Bool.eq_false_iff.2 fun hc => Bool.eq_false_iff.1 hd (h.disposed_mono hc)

theorem strategies (h : Run d ms d') : d'.scheduler.strategies = d.scheduler.strategies := by
  induction h with
  | nil d => rfl
  | cons hstep _ ih => rw [ih, hstep.strategies]

theorem hands_of_batch (h : Run d ms d') (hd : d.scheduler.batch = none → d.hands = none) :
    d'.scheduler.batch = none → d'.hands = none := by
  induction h with
  | nil d => exact hd
  | cons hstep _ ih => exact ih (hstep.hands_of_batch hd)

/-- **What was handed over** is what was finished and what is in the worker's hands. -/
theorem hands_append_handed (h : Run d ms d') :
    d.hands.toList ++ handed ms = finished ms ++ d'.hands.toList := by
  induction h with
  | nil d => simp
  | cons hstep _ ih =>
    rw [handed_cons, finished_cons, ← List.append_assoc, hstep.hands, List.append_assoc, ih,
      List.append_assoc]

/-- **As long as no other cycle begins, what is handed over comes from the batch.** -/
theorem handed_append_rest (h : Run d ms d') (hms : .begin ∉ ms)
    (hd : d'.scheduler.disposed = false) : handed ms ++ d'.rest = d.rest := by
  induction h with
  | nil d => rfl
  | cons hstep hrun ih =>
    rw [List.mem_cons, not_or] at hms
    rw [handed_cons, List.append_assoc, ih hms.2 hd,
      hstep.handed_append_rest (Ne.symm hms.1) (hrun.live hd)]

/-- **A cycle hands over what it took when it began**, and nothing that came later. -/
theorem handed_of_cycle (h : Run d (.begin :: ms) d') (hms : .begin ∉ ms)
    (hd : d'.scheduler.disposed = false) : handed ms ++ d'.rest = d.scheduler.taken := by
  cases h with
  | cons hstep hrun =>
    rw [hrun.handed_append_rest hms hd, (hstep.of_begin (hrun.live hd)).2.1]

/-- **Nothing is lost, repeated or reordered** without strategies. -/
theorem handed_append_pending (h : Run d ms d') (hd : d'.scheduler.disposed = false)
    (hplain : d.scheduler.strategies = []) :
    handed ms ++ (d'.rest ++ d'.scheduler.pending) =
      d.rest ++ d.scheduler.pending ++ pushed ms := by
  induction h with
  | nil d => simp
  | cons hstep hrun ih =>
    rw [handed_cons, List.append_assoc, ih hd (hstep.strategies.trans hplain), ← List.append_assoc,
      hstep.handed_append_pending (hrun.live hd) hplain, pushed_cons, List.append_assoc]

end Run

/-! ### After disposal -/

/-- A disposed scheduler hands nothing over, whatever is pending. -/
theorem Run.handed_of_disposed {d d' : Desk α} {ms : List (Move α)} (h : Run d ms d')
    (hd : d.scheduler.disposed) : handed ms = [] := by
  induction h with
  | nil d => rfl
  | cons hstep _ ih =>
    rw [handed_cons, ih (hstep.disposed hd), List.append_nil]
    cases hstep with
    | hand hlive hbatch => exact absurd hd (Bool.eq_false_iff.1 hlive)
    | _ => rfl

/-- Nothing is taken and nothing is waiting. -/
structure Desk.Disposed (d : Desk α) : Prop where
  disposed : d.scheduler.disposed
  pending : d.scheduler.pending = []

theorem Desk.disposed_dispose (d : Desk α) : (d.onScheduler Scheduler.dispose).Disposed :=
  ⟨rfl, rfl⟩

namespace Step

variable {d d' : Desk α} {m : Move α}

theorem of_disposed (h : Step d m d') (hd : d.Disposed) : d'.Disposed := by
  obtain ⟨hdisposed, hpending⟩ := hd
  cases h with
  | push x =>
    rw [Desk.onScheduler, Scheduler.push_of_disposed hdisposed]
    exact ⟨hdisposed, hpending⟩
  | begin hbatch =>
    rw [Desk.onScheduler, Scheduler.begin_of_disposed hdisposed]
    exact ⟨hdisposed, hpending⟩
  | dispose => exact d.disposed_dispose
  | _ => exact ⟨hdisposed, hpending⟩

/-- No batch begins after disposal. -/
theorem batch_of_disposed (h : Step d m d') (hd : d.Disposed) (hbatch : d.scheduler.batch = none) :
    d'.scheduler.batch = none := by
  cases h with
  | push x => simpa [Desk.onScheduler] using hbatch
  | begin _ => simpa [Desk.onScheduler, Scheduler.begin_of_disposed hd.disposed] using hbatch
  | hand _ h => cases hbatch.symm.trans h
  | finish s x => exact hbatch
  | close h _ => cases hbatch.symm.trans h
  | dispose => exact hbatch

end Step

namespace Run

variable {d d' : Desk α} {ms : List (Move α)}

/-- **Nothing is waiting after disposal.** -/
theorem of_disposed (h : Run d ms d') (hd : d.Disposed) : d'.Disposed := by
  induction h with
  | nil d => exact hd
  | cons hstep _ ih => exact ih (hstep.of_disposed hd)

/-- **A disposed scheduler that has no batch stays idle.** -/
theorem isIdle_of_disposed (h : Run d ms d') (hd : d.Disposed)
    (hbatch : d.scheduler.batch = none) : d'.scheduler.isIdle := by
  induction h with
  | nil d => exact (Scheduler.isIdle_iff hbatch).2 hd.pending
  | cons hstep _ ih => exact ih (hstep.of_disposed hd) (hstep.batch_of_disposed hd hbatch)

end Run

end Concord.Schedule

import Concord.Schedule.Runner
import Mathlib.Data.List.Basic

/-!
# Workers that take no time

A worker is *instant* when no item takes time and no item pushes or disposes. Under such a worker a
cycle is over at once: it feeds the items it took to the worker one after the other and leaves the
scheduler without batch and without pending items. So whatever the periodic cycle is doing, a
scheduler that is at rest stays at rest, and each of its cycles either does nothing or meets all
that was pending (`Runner.runCycle_of_instant`, `Runner.tick_of_instant`).

A worker may be *traced*: it then records the items handed to it, in order, and does to the state
what it does anyway.
-/

namespace Concord.Schedule

universe u v

variable {α : Type u} {σ : Type v}

namespace Worker

/-- No item takes time, pushes or disposes. -/
structure Instant (w : Worker α σ) : Prop where
  duration (x : α) : w.duration x = 0
  effect (x : α) (st : σ) : (w.perform x st).2 = .none

/-- The state after some items, one after the other. -/
def feed (w : Worker α σ) (st : σ) (xs : List α) : σ :=
  xs.foldl (fun st x => (w.perform x st).1) st

@[simp] theorem feed_nil (w : Worker α σ) (st : σ) : w.feed st [] = st := rfl

@[simp] theorem feed_cons (w : Worker α σ) (st : σ) (x : α) (xs : List α) :
    w.feed st (x :: xs) = w.feed (w.perform x st).1 xs := rfl

/-- The worker that also records the items handed to it. -/
def traced (w : Worker α σ) : Worker α (σ × List α) where
  duration := w.duration
  perform := fun x st => (((w.perform x st.1).1, st.2 ++ [x]), (w.perform x st.1).2)

theorem Instant.traced {w : Worker α σ} (hw : w.Instant) : w.traced.Instant :=
  ⟨hw.duration, fun x st => hw.effect x st.1⟩

theorem feed_traced (w : Worker α σ) (st : σ) (log xs : List α) :
    w.traced.feed (st, log) xs = (w.feed st xs, log ++ xs) := by
  induction xs generalizing st log with
  | nil => simp
  | cons x xs ih =>
    rw [feed_cons, feed_cons]
    exact (ih _ _).trans (by simp)

end Worker

namespace Scheduler

@[simp] theorem batch_push (s : Scheduler α) (x : α) : (s.push x).batch = s.batch := by
  rw [push]
  split <;> rfl

@[simp] theorem disposed_push (s : Scheduler α) (x : α) : (s.push x).disposed = s.disposed := by
  rw [push]
  split <;> rfl

@[simp] theorem strategies_push (s : Scheduler α) (x : α) :
    (s.push x).strategies = s.strategies := by
  rw [push]
  split <;> rfl

@[simp] theorem disposed_begin (s : Scheduler α) : s.begin.disposed = s.disposed := by
  rw [begin]
  split <;> rfl

@[simp] theorem strategies_begin (s : Scheduler α) : s.begin.strategies = s.strategies := by
  rw [begin]
  split <;> rfl

/-- The items that a cycle takes when it begins. -/
def taken (s : Scheduler α) : List α := s.begin.batch.getD []

/-- The scheduler after a cycle that nothing was pushed in. -/
def cleared (s : Scheduler α) : Scheduler α := s.begin.endBatch

@[simp] theorem within_none (time : Nat) : within none time = true := rfl

@[simp] theorem within_now (time : Nat) : within (some time) time = true := by
  simp [within]

theorem begin_of_idle {s : Scheduler α} (h : s.disposed || s.pending.isEmpty) : s.begin = s := by
  rw [begin, if_pos h]

theorem begin_of_pending {s : Scheduler α} (h : ¬(s.disposed || s.pending.isEmpty)) :
    s.begin = { s with
      pending := [], batch := some (Strategy.survivors s.strategies s.pending) } := by
  rw [begin, if_neg h]

theorem endBatch_of_none {s : Scheduler α} (h : s.batch = none) : s.endBatch = s := by
  rw [endBatch, ← h]

@[simp] theorem disposed_cleared (s : Scheduler α) : s.cleared.disposed = s.disposed :=
  disposed_begin s

@[simp] theorem strategies_cleared (s : Scheduler α) : s.cleared.strategies = s.strategies :=
  strategies_begin s

/-- What is pending outlives a cycle only in a scheduler that was disposed. -/
theorem pending_cleared (s : Scheduler α) :
    s.cleared.pending = if s.disposed then s.pending else [] := by
  by_cases h : s.disposed || s.pending.isEmpty
  · rw [cleared, begin_of_idle h]
    cases hd : s.disposed <;> simp_all [endBatch]
  · rw [cleared, begin_of_pending h]
    simp_all [endBatch]

theorem idle_cleared (s : Scheduler α) : s.cleared.disposed || s.cleared.pending.isEmpty := by
  rw [disposed_cleared, pending_cleared]
  cases s.disposed <;> simp

/-- A second cycle takes nothing. -/
theorem taken_cleared (s : Scheduler α) : s.cleared.taken = [] := by
  rw [taken, begin_of_idle s.idle_cleared]
  rfl

theorem cleared_cleared (s : Scheduler α) : s.cleared.cleared = s.cleared := by
  rw [cleared, begin_of_idle s.idle_cleared]
  rfl

/-- **A batch under an instant worker** is over at once, with every item fed to the worker. -/
theorem work_of_instant {w : Worker α σ} (hw : w.Instant) {deadline : Option Nat} {now : Nat}
    (hnow : within deadline now) (xs : List α) {s : Scheduler α} (hs : s.disposed = false)
    (st : σ) :
    work w deadline now xs s st = ⟨s.endBatch, w.feed st xs, xs.length, now, none⟩ := by
  induction xs generalizing s st with
  | nil => rfl
  | cons x rest ih =>
    -- the item disposes of nothing, so the turn of the next one comes at the same time
    have heffect : (w.perform x st).2.on { s with batch := some rest } =
        { s with batch := some rest } := by
      rw [hw.effect]
      rfl
    rw [work, if_neg (by simp [hs])]
    simp only [hw.duration, Nat.add_zero, hnow, if_true, heffect]
    rw [ih (by exact hs)]
    rfl

/-- **A cycle under an instant worker** feeds what it takes to the worker. -/
theorem cycle_of_instant {w : Worker α σ} (hw : w.Instant) {deadline : Option Nat} {now : Nat}
    (hnow : within deadline now) {s : Scheduler α} (hs : s.batch = none) (st : σ) :
    s.cycle w deadline now st = ⟨s.cleared, w.feed st s.taken, s.taken.length, now, none⟩ := by
  by_cases h : s.disposed || s.pending.isEmpty
  · simp [cycle, cleared, taken, begin_of_idle h, hs, endBatch_of_none hs]
  · have hd : s.disposed = false := by
      cases hd : s.disposed <;> simp_all
    simp only [cycle, cleared, taken, begin_of_pending h, Option.getD_some]
    exact work_of_instant hw hnow _ (by exact hd) st

end Scheduler

namespace Runner

/-- No batch is being processed, by the periodic cycle or by anyone else. -/
structure AtRest (r : Runner α) : Prop where
  batch : r.scheduler.batch = none
  loop (x : α) (due : Nat) : r.loop ≠ .working x due

theorem atRest_new (s : Scheduler α) (h : s.batch = none) : (new s).AtRest :=
  ⟨h, fun _ _ => by simp [new]⟩

theorem AtRest.onScheduler {r : Runner α} (h : r.AtRest) {f : Scheduler α → Scheduler α}
    (hf : (f r.scheduler).batch = r.scheduler.batch) : (r.onScheduler f).AtRest :=
  ⟨hf.trans h.batch, h.loop⟩

@[simp] theorem scheduler_start (r : Runner α) : r.start.scheduler = r.scheduler := by
  rw [start]
  split
  · split <;> rfl
  · rfl

theorem AtRest.start {r : Runner α} (h : r.AtRest) : r.start.AtRest := by
  refine ⟨by rw [scheduler_start, h.batch], fun x due => ?_⟩
  rw [Runner.start]
  split
  · split
    · exact h.loop x due
    · simp
  · exact h.loop x due

@[simp] theorem scheduler_settle (r : Runner α) : r.settle.scheduler = r.scheduler := by
  rw [settle]
  split
  · rfl
  · rfl
  · split <;> rfl

theorem AtRest.settle {r : Runner α} (h : r.AtRest) : r.settle.AtRest := by
  refine ⟨by rw [scheduler_settle, h.batch], fun x due => ?_⟩
  rw [Runner.settle]
  split
  · exact h.loop x due
  · exact h.loop x due
  · split
    · simp
    · exact h.loop x due

theorem AtRest.dispose {r : Runner α} (h : r.AtRest) : r.dispose.AtRest :=
  (h.onScheduler rfl).settle

@[simp] theorem scheduler_dispose (r : Runner α) :
    r.dispose.scheduler = r.scheduler.dispose := by
  rw [dispose, scheduler_settle]
  rfl

theorem ofProgress_ne_working {p : Progress α σ} (hp : p.running = none) (x : α) (due : Nat) :
    (ofProgress p).loop ≠ .working x due := by
  rw [ofProgress, hp]
  dsimp only
  split <;> simp

/-- After a periodic cycle that came to its end the scheduler is at rest. -/
theorem atRest_ofProgress {s : Scheduler α} {st : σ} {count now : Nat} (hs : s.batch = none) :
    (ofProgress ⟨s, st, count, now, none⟩).AtRest :=
  ⟨hs, ofProgress_ne_working rfl⟩

theorem overtaken_ne_working {now : Nat} {loop : Loop α} (h : ∀ x due, loop ≠ .working x due)
    (x : α) (due : Nat) : overtaken now loop ≠ .working x due := by
  cases loop with
  | ready => simp [overtaken]
  | asleep wake =>
    rw [overtaken]
    split <;> simp
  | _ => exact h x due

/-- The items that the periodic cycle takes at a time: those pending, when it has the turn. -/
def takenAt (now : Nat) (r : Runner α) : List α :=
  match r.loop with
  | .ready | .queued => r.scheduler.taken
  | .asleep wake => if wake ≤ now then r.scheduler.taken else []
  | .absent | .working .. | .stopped => []

section Instant

variable {w : Worker α σ} (hw : w.Instant) {r : Runner α} (h : r.AtRest) (now : Nat) (st : σ)
include hw h

/-- A periodic cycle that has the turn meets all that was pending; otherwise nothing happens. -/
theorem giveWay_of_instant :
    r.giveWay w now st = (r, st, now) ∨
      ∃ r', r.giveWay w now st = (r', w.feed st r.scheduler.taken, now) ∧
        r'.scheduler = r.scheduler.cleared ∧ r'.AtRest := by
  rw [giveWay]
  split
  · rw [Scheduler.cycle_of_instant hw (Scheduler.within_none _) h.batch]
    exact Or.inr ⟨_, rfl, rfl, atRest_ofProgress rfl⟩
  · next x due hloop => exact absurd hloop (h.loop x due)
  · exact Or.inl rfl

/-- **A cycle that a caller asks for** meets all that was pending and leaves the scheduler at
rest. -/
theorem runCycle_of_instant :
    (r.runCycle w now st).state = w.feed st r.scheduler.taken ∧
      (r.runCycle w now st).runner.scheduler = r.scheduler.cleared ∧
      (r.runCycle w now st).runner.AtRest := by
  rcases giveWay_of_instant hw h now st with hgive | ⟨r', hgive, hs, hr'⟩
  · -- the periodic cycle does not have the turn: the caller's cycle meets everything
    have hcycle : r.scheduler.cycle w none now st =
        ⟨r.scheduler.cleared, w.feed st r.scheduler.taken, r.scheduler.taken.length, now, none⟩ :=
      Scheduler.cycle_of_instant hw (Scheduler.within_none now) h.batch st
    simp only [runCycle, hgive, hcycle, scheduler_settle, true_and]
    refine AtRest.settle ⟨rfl, fun x due => ?_⟩
    dsimp only
    split
    · exact overtaken_ne_working h.loop x due
    · exact h.loop x due
  · -- the periodic cycle has met everything, so the caller's cycle finds nothing
    have hcycle : r'.scheduler.cycle w none now (w.feed st r.scheduler.taken) =
        ⟨r.scheduler.cleared, w.feed st r.scheduler.taken, 0, now, none⟩ := by
      rw [Scheduler.cycle_of_instant hw (Scheduler.within_none now) hr'.batch, hs,
        Scheduler.taken_cleared, Scheduler.cleared_cleared]
      rfl
    simp only [runCycle, hgive, hcycle, scheduler_settle, true_and]
    exact AtRest.settle ⟨rfl, hr'.loop⟩

/-- **The periodic cycle** either does nothing or meets all that was pending. -/
theorem tick_of_instant :
    (r.tick w now st).1.AtRest ∧
      ((r.tick w now st).2 = st ∧ (r.tick w now st).1.scheduler = r.scheduler ∨
        (r.tick w now st).2 = w.feed st r.scheduler.taken ∧
          (r.tick w now st).1.scheduler = r.scheduler.cleared) := by
  have hcycle : r.scheduler.cycle w (some now) now st =
      ⟨r.scheduler.cleared, w.feed st r.scheduler.taken, r.scheduler.taken.length, now, none⟩ :=
    Scheduler.cycle_of_instant hw (Scheduler.within_now now) h.batch st
  rw [tick]
  split
  · exact ⟨h, Or.inl ⟨rfl, rfl⟩⟩
  · exact ⟨h, Or.inl ⟨rfl, rfl⟩⟩
  · rw [hcycle]
    exact ⟨atRest_ofProgress rfl, Or.inr ⟨rfl, rfl⟩⟩
  · rw [hcycle]
    exact ⟨atRest_ofProgress rfl, Or.inr ⟨rfl, rfl⟩⟩
  · split
    · rw [hcycle]
      exact ⟨atRest_ofProgress rfl, Or.inr ⟨rfl, rfl⟩⟩
    · exact ⟨h, Or.inl ⟨rfl, rfl⟩⟩
  · next x due hloop => exact absurd hloop (h.loop x due)

/-- The items that the periodic cycle takes at a time are fed to the worker, whatever the worker
is. -/
theorem state_tick_of_instant : (r.tick w now st).2 = w.feed st (r.takenAt now) := by
  have hcycle : r.scheduler.cycle w (some now) now st =
      ⟨r.scheduler.cleared, w.feed st r.scheduler.taken, r.scheduler.taken.length, now, none⟩ :=
    Scheduler.cycle_of_instant hw (Scheduler.within_now now) h.batch st
  rw [tick, takenAt]
  cases hloop : r.loop with
  | absent => rfl
  | ready => exact congrArg Progress.state hcycle
  | queued => exact congrArg Progress.state hcycle
  | asleep wake =>
    dsimp only
    split
    · exact congrArg Progress.state hcycle
    · rfl
  | working x due => exact absurd hloop (h.loop x due)
  | stopped => rfl

end Instant

end Runner

end Concord.Schedule

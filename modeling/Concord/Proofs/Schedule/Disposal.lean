import Concord.Proofs.Schedule.Deeds

/-!
# Nothing is handed over after disposal

A scheduler can be disposed between any two moves, between cycles or by the item being processed,
and by anyone. From then on, whatever its strategies are and whatever is done with it, nothing is
handed over: not the rest of the batch, nor what was pending, nor what is pushed later. At most the
item in the worker's hands is finished; then the batch is given up, and the scheduler is idle for
good.

This is said of histories that go on after a disposal, and of what is done with a scheduler and a
worker, where an item that disposes is the last one handed over.
-/

namespace Concord.Schedule

universe u v

variable {α : Type u} {σ : Type v}

/-- What is left for a disposed scheduler to do: nothing. -/
structure Shop.Closed (w : Worker α σ) (o : Shop α σ) : Prop where
  pending : o.runner.scheduler.pending = []
  start : o.runner.start = o.runner
  count (now : Nat) : (o.runner.runCycle w.booked now (o.state, o.books)).count = 0
  idle : o.runner.scheduler.batch = none →
    ∀ deeds, (o.after w deeds).runner.scheduler.isIdle

theorem Step.pending_of_disposed {d d' : Desk α} {m : Move α} (h : Step d m d')
    (hd : d.scheduler.disposed → d.scheduler.pending = []) (hd' : d'.scheduler.disposed) :
    d'.scheduler.pending = [] := by
  by_cases hdisposed : d.scheduler.disposed
  · exact (h.of_disposed ⟨hdisposed, hd hdisposed⟩).pending
  · -- only a disposal makes a difference, and it drops what is pending
    cases h with
    | dispose => rfl
    | push x => simp [Desk.onScheduler, hdisposed] at hd'
    | begin hbatch => simp [Desk.onScheduler, hdisposed] at hd'
    | _ => exact absurd hd' hdisposed

theorem Run.pending_of_disposed {d d' : Desk α} {ms : List (Move α)} (h : Run d ms d')
    (hd : d.scheduler.disposed → d.scheduler.pending = []) (hd' : d'.scheduler.disposed) :
    d'.scheduler.pending = [] := by
  induction h with
  | nil d => exact hd hd'
  | cons hstep _ ih => exact ih (hstep.pending_of_disposed hd) hd'

namespace Runner

variable (w : Worker α σ) {r : Runner α}

theorem start_of_disposed (h : r.scheduler.disposed) : r.start = r := by
  rw [start]
  split
  · rw [if_pos h]
  · rfl

/-- A cycle asked for after disposal processes nothing itself. -/
theorem count_of_disposed (hr : r.desk.Coherent) (h : r.scheduler.disposed) (now : Nat) (st : σ) :
    (r.runCycle w now st).count = 0 := by
  obtain ⟨ms, hms, hcoherent, hloop⟩ := runs_giveWay w now hr st
  have hdisposed : (r.giveWay w now st).1.scheduler.disposed := hms.run.disposed_mono h
  have hbatch := (batch_of_not_working hcoherent hloop).1
  simp only [runCycle, Scheduler.cycle, Scheduler.begin_of_disposed hdisposed, hbatch]

end Runner

namespace Shop

variable {w : Worker α σ} {o : Shop α σ}

theorem handed_after_of_disposed (ho : o.desk.Coherent) (h : o.runner.scheduler.disposed)
    (deeds : List (Deed α)) : (o.after w deeds).handed = o.handed := by
  obtain ⟨ms, hms, -⟩ := recorded_after w ho deeds
  have hhands := hms.run.hands_append_handed
  rw [hms.run.handed_of_disposed h, List.append_nil] at hhands
  rw [handed, handed, hms.finished, List.append_assoc, hhands]

theorem Recorded.stopsAfter_handed {s : Scheduler α} {st : σ} {ms : List (Move α)}
    (h : Recorded w (opened s st) ms o) : w.StopsAfter st o.handed := by
  have hhanded : o.handed = Schedule.finished ms ++ o.desk.hands.toList := by
    rw [handed, h.finished]
    rfl
  rw [hhanded]
  exact h.stopsAfter

theorem closed_of_disposed (ho : o.desk.Coherent) (h : o.desk.Disposed) : o.Closed w := by
  refine ⟨h.pending, Runner.start_of_disposed h.disposed,
    fun now => Runner.count_of_disposed _ ho h.disposed now _, fun hbatch deeds => ?_⟩
  obtain ⟨ms, hms, -⟩ := recorded_after w ho deeds
  exact hms.run.isIdle_of_disposed h hbatch

end Shop

/-- **Nothing is handed over after disposal.** However a history goes on after a disposal, it hands
nothing over and finishes at most the item in the worker's hands; nothing is pending, and once the
batch is over the scheduler stays idle. So it is for whatever is done with a scheduler and a worker
before and after: nothing is handed over after an item that disposes nor once the scheduler is
disposed, and a disposed scheduler neither starts nor processes anything. -/
theorem nothing_after_disposal {s : Scheduler α} (hs : s.Fresh) :
    (∀ (d : Desk α) ms d', Run (d.onScheduler Scheduler.dispose) ms d' →
      handed ms = [] ∧ finished ms ++ d'.hands.toList = d.hands.toList ∧
      d'.scheduler.pending = [] ∧
      (d'.scheduler.batch = none → ∀ ms' d'', Run d' ms' d'' → d''.scheduler.isIdle)) ∧
    ∀ (w : Worker α σ) (st : σ) (before later : List (Deed α)),
      let o := (Shop.opened s st).after w before
      let o' := o.after w later
      w.StopsAfter st o'.handed ∧
        (o.runner.scheduler.disposed → o'.handed = o.handed ∧ o'.Closed w) := by
  constructor
  · intro d ms d' hrun
    have hd' := hrun.of_disposed d.disposed_dispose
    have hhanded := hrun.handed_of_disposed rfl
    have hhands := hrun.hands_append_handed
    rw [hhanded, List.append_nil] at hhands
    exact ⟨hhanded, hhands.symm, hd'.pending,
      fun hnone ms' d'' hrun' => hrun'.isIdle_of_disposed hd' hnone⟩
  · intro w st before later o o'
    obtain ⟨ms, hms, ho⟩ := Shop.recorded_after w (Shop.coherent_opened hs st) before
    obtain ⟨ms', hms', ho'⟩ := Shop.recorded_after w ho later
    have hall := hms.append hms'
    refine ⟨hall.stopsAfter_handed, fun hdisposed =>
      ⟨Shop.handed_after_of_disposed ho hdisposed later, ?_⟩⟩
    have hdisposed' : o'.runner.scheduler.disposed := hms'.run.disposed_mono hdisposed
    exact Shop.closed_of_disposed ho'
      ⟨hdisposed', hall.run.pending_of_disposed (fun _ => hs.pending) hdisposed'⟩

/-- An item that disposes in the middle of a batch: the rest of the batch and what it pushed are
dropped, and what is pushed later too. -/
theorem nothing_after_disposal_sample :
    let s : Scheduler Nat := .new "orders" 500
    let w : Worker Nat Unit := ⟨fun _ => 0, fun x _ => ((), ⟨[x + 10], x = 2⟩)⟩
    let o := (Shop.opened s ()).after w [.push 1, .push 2, .push 3, .cycle 0]
    let o' := o.after w [.push 4, .start, .tick 0, .cycle 0]
    s.Fresh ∧ o.runner.scheduler.disposed ∧ o'.handed = [1, 2] ∧ o'.Closed w := by
  intro s w o o'
  have hs : s.Fresh := .new _ _
  have hdisposed : o.runner.scheduler.disposed := by decide
  have hhanded : o.handed = [1, 2] := by decide
  have hafter : o'.handed = o.handed ∧ o'.Closed w :=
    ((nothing_after_disposal hs).2 w () [.push 1, .push 2, .push 3, .cycle 0]
      [.push 4, .start, .tick 0, .cycle 0]).2 hdisposed
  exact ⟨hs, hdisposed, hafter.1.trans hhanded, hafter.2⟩

end Concord.Schedule

import Concord.Proofs.Schedule.Instant
import Concord.Proofs.Schedule.Moves

/-!
# What a scheduler does, as a history

A batch is processed as far as a deadline allows, by the periodic cycle or by a caller who waits for
it, and in between anyone may push, start or dispose. Whatever the worker is, all this is a history
of moves (`Shop.recorded_after`), so that what holds of every history holds of whatever is done with
a scheduler. In this history the worker's part is exactly what the worker does (`Worker.Runs`): the
state is that after the items finished, these items push what is pushed, and what an item does comes
before it is finished.

A worker may be *booked*: it then writes down the items it finished and those they pushed.
-/

namespace Concord.Schedule

universe u v

variable {α : Type u} {σ : Type v}

/-! ### Workers and their moves -/

/-- The moves of an effect. -/
def Effect.moves (e : Effect α) : List (Move α) :=
  e.pushes.map .push ++ if e.disposes then [.dispose] else []

/-- The items finished and the items pushed, so far. -/
structure Books (α : Type u) where
  finished : List α
  pushed : List α
deriving DecidableEq, Repr

/-- Write an item down that was pushed. -/
def Books.push (b : Books α) (x : α) : Books α := { b with pushed := b.pushed ++ [x] }

namespace Worker

variable (w : Worker α σ)

/-- What some items push, one after the other. -/
def pushes (st : σ) : List α → List α
  | [] => []
  | x :: xs => (w.perform x st).2.pushes ++ pushes (w.perform x st).1 xs

theorem feed_append (st : σ) (xs ys : List α) : w.feed st (xs ++ ys) = w.feed (w.feed st xs) ys :=
  List.foldl_append

/-- The worker that also keeps books. -/
def booked : Worker α (σ × Books α) where
  duration := w.duration
  perform := fun x st =>
    (((w.perform x st.1).1,
      ⟨st.2.finished ++ [x], st.2.pushed ++ (w.perform x st.1).2.pushes⟩), (w.perform x st.1).2)

theorem pushes_booked (st : σ × Books α) (xs : List α) :
    w.booked.pushes st xs = w.pushes st.1 xs := by
  induction xs generalizing st with
  | nil => rfl
  | cons x xs ih => exact congrArg ((w.perform x st.1).2.pushes ++ ·) (ih _)

theorem feed_booked (st : σ × Books α) (xs : List α) :
    w.booked.feed st xs =
      (w.feed st.1 xs, ⟨st.2.finished ++ xs, st.2.pushed ++ w.pushes st.1 xs⟩) := by
  induction xs generalizing st with
  | nil => simp [pushes]
  | cons x xs ih =>
    rw [feed_cons, ih]
    simp [booked, pushes]

/-- No item disposes. -/
def Quiet (st : σ) : List α → Prop
  | [] => True
  | x :: xs => ¬(w.perform x st).2.disposes ∧ Quiet (w.perform x st).1 xs

/-- Nothing comes after an item that disposes. -/
def StopsAfter (st : σ) : List α → Prop
  | [] => True
  | x :: xs => ((w.perform x st).2.disposes → xs = []) ∧ StopsAfter (w.perform x st).1 xs

theorem Quiet.append {st : σ} {xs ys : List α} (h : w.Quiet st xs)
    (h' : w.Quiet (w.feed st xs) ys) : w.Quiet st (xs ++ ys) := by
  induction xs generalizing st with
  | nil => exact h'
  | cons x xs ih => exact ⟨h.1, ih h.2 h'⟩

theorem Quiet.stopsAfter_append {st : σ} {xs ys : List α} (h : w.Quiet st xs)
    (h' : w.StopsAfter (w.feed st xs) ys) : w.StopsAfter st (xs ++ ys) := by
  induction xs generalizing st with
  | nil => exact h'
  | cons x xs ih => exact ⟨fun hx => absurd hx h.1, ih h.2 h'⟩

theorem stopsAfter_toList (st : σ) (x : Option α) : w.StopsAfter st x.toList := by
  cases x with
  | none => trivial
  | some x => exact ⟨fun _ => rfl, trivial⟩

variable {w}

theorem quiet_booked (st : σ × Books α) (xs : List α) :
    w.booked.Quiet st xs ↔ w.Quiet st.1 xs := by
  induction xs generalizing st with
  | nil => rfl
  | cons x xs ih => exact and_congr Iff.rfl (ih _)

theorem stopsAfter_booked (st : σ × Books α) (xs : List α) :
    w.booked.StopsAfter st xs ↔ w.StopsAfter st.1 xs := by
  induction xs generalizing st with
  | nil => rfl
  | cons x xs ih => exact and_congr Iff.rfl (ih _)

end Worker

namespace Effect

variable (e : Effect α)

@[simp] theorem batch_on (s : Scheduler α) : (e.on s).batch = s.batch := by
  have hpush : ∀ (xs : List α) (s : Scheduler α), (s.pushAll xs).batch = s.batch := by
    intro xs
    induction xs with
    | nil => exact fun s => rfl
    | cons x xs ih => exact fun s => (ih (s.push x)).trans (s.batch_push x)
  rw [on]
  split
  · exact hpush _ s
  · exact hpush _ s

theorem run_moves (d : Desk α) : Run d e.moves (d.onScheduler e.on) := by
  have hpush : ∀ (xs : List α) (d : Desk α),
      Run d (xs.map .push) (d.onScheduler fun s => s.pushAll xs) := by
    intro xs
    induction xs with
    | nil => exact Run.nil
    | cons x xs ih => exact fun d => .cons (.push d x) (ih _)
  cases hdisposes : e.disposes with
  | false =>
    have hon : d.onScheduler e.on = d.onScheduler fun s => s.pushAll e.pushes := by
      simp [Desk.onScheduler, on, hdisposes]
    rw [hon, moves, hdisposes]
    simpa using hpush e.pushes d
  | true =>
    have hon : d.onScheduler e.on =
        (d.onScheduler fun s => s.pushAll e.pushes).onScheduler Scheduler.dispose := by
      simp [Desk.onScheduler, on, hdisposes]
    rw [hon, moves, hdisposes]
    exact (hpush e.pushes d).append (.singleton (.dispose _))

@[simp] theorem finished_moves : finished e.moves = [] := by
  cases hdisposes : e.disposes <;>
    simp [moves, finished, hdisposes, List.filterMap_eq_nil_iff, Move.finished?]

@[simp] theorem pushed_moves : pushed e.moves = e.pushes := by
  have hpush : ∀ xs : List α, pushed (xs.map .push) = xs := by
    intro xs
    induction xs with
    | nil => rfl
    | cons x xs ih => exact congrArg (x :: ·) ih
  rw [moves, pushed_append, hpush]
  cases e.disposes <;> simp [pushed, Move.pushed?]

theorem begin_not_mem_moves : .begin ∉ e.moves := by
  cases hdisposes : e.disposes <;> simp [moves, hdisposes]

end Effect

/-! ### What a worker does, as a history -/

/-- Whether a move is of the scheduler alone: no item has a part in it, nor has anyone else. -/
def Move.isSilent : Move α → Bool
  | .begin | .hand _ | .close => true
  | _ => false

/-- A history in which nobody but the worker acts: an item that is finished has its effect before,
and on the state too. -/
inductive Worker.Runs (w : Worker α σ) : Desk α → σ → List (Move α) → Desk α → σ → Prop where
  | nil (d : Desk α) (st : σ) : w.Runs d st [] d st
  | silent {d d' d'' : Desk α} {st st' : σ} {m : Move α} {ms : List (Move α)} :
    Step d m d' → m.isSilent → w.Runs d' st ms d'' st' → w.Runs d st (m :: ms) d'' st'
  | perform {s : Scheduler α} {x : α} {d : Desk α} {st st' : σ} {ms : List (Move α)} :
    w.Runs ⟨(w.perform x st).2.on s, none⟩ (w.perform x st).1 ms d st' →
      w.Runs ⟨s, some x⟩ st ((w.perform x st).2.moves ++ .finish x :: ms) d st'

namespace Worker.Runs

variable {w : Worker α σ} {d d' d'' : Desk α} {st st' st'' : σ} {ms ms' : List (Move α)}

theorem append (h : w.Runs d st ms d' st') (h' : w.Runs d' st' ms' d'' st'') :
    w.Runs d st (ms ++ ms') d'' st'' := by
  induction h with
  | nil d st => exact h'
  | silent hstep hm _ ih => exact .silent hstep hm (ih h')
  | perform _ ih =>
    rw [List.append_assoc]
    exact .perform (ih h')

theorem run (h : w.Runs d st ms d' st') : Run d ms d' := by
  induction h with
  | nil d st => exact .nil d
  | silent hstep _ _ ih => exact .cons hstep ih
  | perform _ ih => exact (Effect.run_moves _ _).append (.cons (.finish _ _) ih)

theorem finished_silent {m : Move α} (hm : m.isSilent) : finished (m :: ms) = finished ms := by
  cases m <;> first | rfl | simp [Move.isSilent] at hm

theorem finished_perform (e : Effect α) (x : α) :
    finished (e.moves ++ .finish x :: ms) = x :: finished ms := by
  rw [finished_append, Effect.finished_moves]
  rfl

/-- The state is that after the items finished. -/
theorem state (h : w.Runs d st ms d' st') : st' = w.feed st (finished ms) := by
  induction h with
  | nil d st => rfl
  | silent _ hm _ ih => rw [ih, finished_silent hm]
  | perform _ ih => rw [ih, finished_perform, feed_cons]

/-- What is pushed is what the items finished push. -/
theorem pushed_eq (h : w.Runs d st ms d' st') : pushed ms = w.pushes st (finished ms) := by
  induction h with
  | nil d st => rfl
  | @silent _ _ _ _ _ m ms _ hm _ ih =>
    have hpushed : pushed (m :: ms) = pushed ms := by
      cases m <;> first | rfl | simp [Move.isSilent] at hm
    rw [hpushed, finished_silent hm, ih]
  | perform _ ih =>
    rw [finished_perform, pushed_append, Effect.pushed_moves, pushes, ← ih]
    rfl

/-- As long as the scheduler is not disposed, no item has disposed it. -/
theorem quiet (h : w.Runs d st ms d' st') (hd : d'.scheduler.disposed = false) :
    w.Quiet st (finished ms) := by
  induction h with
  | nil d st => trivial
  | silent _ hm _ ih =>
    rw [finished_silent hm]
    exact ih hd
  | @perform s x _ st _ _ hrun ih =>
    rw [finished_perform]
    refine ⟨fun hdisposes => ?_, ih hd⟩
    have hlive := hrun.run.live hd
    simp [Effect.on, hdisposes, Scheduler.dispose] at hlive

/-- **Nothing is handed over after an item that disposes.** -/
theorem stopsAfter (h : w.Runs d st ms d' st') :
    w.StopsAfter st (finished ms ++ d'.hands.toList) := by
  induction h with
  | nil d st => exact w.stopsAfter_toList st d.hands
  | silent _ hm _ ih =>
    rw [finished_silent hm]
    exact ih
  | @perform s x _ st _ _ hrun ih =>
    rw [finished_perform]
    refine ⟨fun hdisposes => ?_, ih⟩
    have hdisposed : ((w.perform x st).2.on s).disposed := by
      simp [Effect.on, hdisposes, Scheduler.dispose]
    exact hrun.run.hands_append_handed.symm.trans (hrun.run.handed_of_disposed hdisposed)

end Worker.Runs

/-! ### Batches and cycles -/

/-- Where a batch stands. -/
def Progress.desk (p : Progress α σ) : Desk α := ⟨p.scheduler, p.running.map Prod.fst⟩

/-- There is a batch exactly while an item of it is in the worker's hands: so it is whenever a batch
waits. -/
def Desk.Coherent (d : Desk α) : Prop := d.scheduler.batch = none ↔ d.hands = none

namespace Scheduler

variable (w : Worker α σ) (deadline : Option Nat)

/-- **A batch is processed by moves**, from the first item that was not handed over. -/
theorem runs_work (now : Nat) {xs : List α} {s : Scheduler α} (hs : s.batch = some xs) (st : σ) :
    ∃ ms, w.Runs ⟨s, none⟩ st ms (work w deadline now xs s st).desk
      (work w deadline now xs s st).state ∧ .begin ∉ ms ∧
        (work w deadline now xs s st).desk.Coherent := by
  induction xs generalizing now s st with
  | nil =>
    exact ⟨[.close], .silent (.close hs (.inr rfl)) rfl (.nil _ _), by simp, by
      simp [Desk.Coherent, Progress.desk, work, endBatch]⟩
  | cons x rest ih =>
    rw [work]
    by_cases hdisposed : s.disposed
    · rw [if_pos hdisposed]
      exact ⟨[.close], .silent (.close hs (.inl hdisposed)) rfl (.nil _ _), by simp, by
        simp [Desk.Coherent, Progress.desk, endBatch]⟩
    · rw [if_neg hdisposed]
      have hhand : Step ⟨s, none⟩ (.hand x) ⟨{ s with batch := some rest }, some x⟩ :=
        .hand (Bool.eq_false_iff.2 hdisposed) hs
      by_cases hdue : within deadline (now + w.duration x)
      · -- the item is finished in time, and the batch goes on
        obtain ⟨ms, hms, hbegin, hcoherent⟩ := ih (now + w.duration x)
          ((w.perform x st).2.batch_on { s with batch := some rest }) (w.perform x st).1
        simp only [hdue, if_true]
        refine ⟨_, .silent hhand rfl (.perform hms), ?_, hcoherent⟩
        simp [hbegin, Effect.begin_not_mem_moves]
      · simp only [hdue]
        exact ⟨[.hand x], .silent hhand rfl (.nil _ _), by simp, by
          simp [Desk.Coherent, Progress.desk]⟩

/-- **A cycle is a beginning and what becomes of its batch.** -/
theorem runs_cycle (now : Nat) {s : Scheduler α} (hs : s.batch = none) (st : σ) :
    ∃ ms, w.Runs ⟨s, none⟩ st (.begin :: ms) (s.cycle w deadline now st).desk
      (s.cycle w deadline now st).state ∧ .begin ∉ ms ∧
        (s.cycle w deadline now st).desk.Coherent := by
  have hbegin : Step ⟨s, none⟩ .begin ⟨s.begin, none⟩ := .begin hs
  rw [cycle]
  split
  · next hnone =>
    exact ⟨[], .silent hbegin rfl (.nil _ _), by simp, by
      simp [Desk.Coherent, Progress.desk, hnone]⟩
  · next batch hbatch =>
    obtain ⟨ms, hms, hnot, hcoherent⟩ := runs_work w deadline now hbatch st
    exact ⟨ms, .silent hbegin rfl hms, hnot, hcoherent⟩

/-- Without a deadline a batch comes to its end. -/
theorem running_work (now : Nat) (xs : List α) (s : Scheduler α) (st : σ) :
    (work w none now xs s st).running = none := by
  induction xs generalizing now s st with
  | nil => rfl
  | cons x rest ih =>
    rw [work]
    split
    · rfl
    · exact ih _ _ _

theorem running_cycle (now : Nat) (s : Scheduler α) (st : σ) :
    (s.cycle w none now st).running = none := by
  rw [cycle]
  split
  · rfl
  · exact running_work w now _ _ st

end Scheduler

/-! ### The periodic cycle and callers -/

namespace Runner

/-- The item that the periodic cycle is in the middle of. -/
def hands (r : Runner α) : Option α :=
  match r.loop with
  | .working x _ => some x
  | _ => none

/-- A scheduler with the item that its periodic cycle is in the middle of. -/
def desk (r : Runner α) : Desk α := ⟨r.scheduler, r.hands⟩

@[simp] theorem desk_start (r : Runner α) : r.start.desk = r.desk := by
  obtain ⟨s, loop⟩ := r
  cases loop with
  | absent =>
    rw [start]
    dsimp only
    split <;> rfl
  | _ => rfl

@[simp] theorem desk_settle (r : Runner α) : r.settle.desk = r.desk := by
  obtain ⟨s, loop⟩ := r
  cases loop with
  | absent => rfl
  | working x due => rfl
  | _ =>
    rw [settle]
    dsimp only
    split <;> rfl

@[simp] theorem desk_onScheduler (r : Runner α) (f : Scheduler α → Scheduler α) :
    (r.onScheduler f).desk = r.desk.onScheduler f := rfl

@[simp] theorem desk_dispose (r : Runner α) :
    r.dispose.desk = r.desk.onScheduler Scheduler.dispose := by
  rw [dispose, desk_settle, desk_onScheduler]

theorem desk_ofProgress (p : Progress α σ) : (ofProgress p).desk = p.desk := by
  cases hp : p.running with
  | none =>
    have hhands : (ofProgress p).hands = none := by
      rw [hands]
      split
      · next x due h => exact absurd h (ofProgress_ne_working hp x due)
      · rfl
    rw [desk, hhands, Progress.desk, ofProgress, hp]
    rfl
  | some item =>
    rw [ofProgress, hp, Progress.desk, hp]
    rfl

variable (w : Worker α σ) (now : Nat) {r : Runner α} (hr : r.desk.Coherent) (st : σ)
include hr

theorem runs_resume (deadline : Option Nat) {x : α} {due : Nat} (hloop : r.loop = .working x due) :
    ∃ ms, w.Runs r.desk st ms (resume w deadline x due r.scheduler st).desk
      (resume w deadline x due r.scheduler st).state ∧
        (resume w deadline x due r.scheduler st).desk.Coherent := by
  have hhands : r.hands = some x := by rw [hands, hloop]
  have hbatch : r.scheduler.batch = some (r.scheduler.batch.getD []) := by
    cases hb : r.scheduler.batch with
    | none => exact absurd (hr.1 hb) (by simp [desk, hhands])
    | some xs => rfl
  obtain ⟨ms, hms, -, hcoherent⟩ := Scheduler.runs_work w deadline due
    (((w.perform x st).2.batch_on r.scheduler).trans hbatch) (w.perform x st).1
  rw [desk, hhands]
  exact ⟨_, .perform hms, hcoherent⟩

theorem batch_of_not_working (hloop : ∀ x due, r.loop ≠ .working x due) :
    r.scheduler.batch = none ∧ r.desk = ⟨r.scheduler, none⟩ := by
  have hhands : r.hands = none := by
    rw [hands]
    split
    · next x due h => exact absurd h (hloop x due)
    · rfl
  exact ⟨hr.2 hhands, by rw [desk, hhands]⟩

/-- A cycle of a scheduler that is not in the middle of a batch. -/
theorem runs_cycle (deadline : Option Nat) (hloop : ∀ x due, r.loop ≠ .working x due) :
    ∃ ms, w.Runs r.desk st ms (r.scheduler.cycle w deadline now st).desk
      (r.scheduler.cycle w deadline now st).state ∧
        (r.scheduler.cycle w deadline now st).desk.Coherent := by
  obtain ⟨hbatch, hdesk⟩ := batch_of_not_working hr hloop
  obtain ⟨ms, hms, -, hcoherent⟩ := Scheduler.runs_cycle w deadline now hbatch st
  rw [hdesk]
  exact ⟨_, hms, hcoherent⟩

/-- **What the periodic cycle does at a time is a history.** -/
theorem runs_tick : ∃ ms, w.Runs r.desk st ms (r.tick w now st).1.desk (r.tick w now st).2 ∧
    (r.tick w now st).1.desk.Coherent := by
  rw [tick]
  split
  · exact ⟨[], .nil _ _, hr⟩
  · exact ⟨[], .nil _ _, hr⟩
  · next hloop =>
    rw [desk_ofProgress]
    exact runs_cycle w now hr st _ (by simp [hloop])
  · next hloop =>
    rw [desk_ofProgress]
    exact runs_cycle w now hr st _ (by simp [hloop])
  · next hloop =>
    split
    · rw [desk_ofProgress]
      exact runs_cycle w now hr st _ (by simp [hloop])
    · exact ⟨[], .nil _ _, hr⟩
  · next hloop =>
    split
    · rw [desk_ofProgress]
      exact runs_resume w hr st _ hloop
    · exact ⟨[], .nil _ _, hr⟩

theorem runs_giveWay : ∃ ms, w.Runs r.desk st ms (r.giveWay w now st).1.desk
    (r.giveWay w now st).2.1 ∧ (r.giveWay w now st).1.desk.Coherent ∧
      ∀ x due, (r.giveWay w now st).1.loop ≠ .working x due := by
  rw [giveWay]
  split
  · next hloop =>
    obtain ⟨ms, hms, hcoherent⟩ := runs_cycle w now hr st none (by simp [hloop])
    exact ⟨ms, by rwa [desk_ofProgress], by rwa [desk_ofProgress],
      ofProgress_ne_working (Scheduler.running_cycle w now _ st)⟩
  · next hloop =>
    obtain ⟨ms, hms, hcoherent⟩ := runs_resume w hr st none hloop
    exact ⟨ms, by rwa [desk_ofProgress], by rwa [desk_ofProgress],
      ofProgress_ne_working (Scheduler.running_work w _ _ _ _)⟩
  · next hqueued hworking => exact ⟨[], .nil _ _, hr, hworking⟩

/-- **A cycle that a caller asks for is a history.** -/
theorem runs_runCycle : ∃ ms, w.Runs r.desk st ms (r.runCycle w now st).runner.desk
    (r.runCycle w now st).state ∧ (r.runCycle w now st).runner.desk.Coherent := by
  obtain ⟨ms, hms, hcoherent, hloop⟩ := runs_giveWay w now hr st
  obtain ⟨ms', hms', hcoherent'⟩ :=
    runs_cycle w (r.giveWay w now st).2.2 hcoherent (r.giveWay w now st).2.1 none hloop
  have hdesk : (r.runCycle w now st).runner.desk =
      ((r.giveWay w now st).1.scheduler.cycle w none (r.giveWay w now st).2.2
        (r.giveWay w now st).2.1).desk := by
    -- neither the periodic cycle nor the caller's is in the middle of an item
    rw [runCycle, desk_settle, Progress.desk, Scheduler.running_cycle]
    refine congrArg (Desk.mk _) ?_
    rw [hands]
    split
    · next x due h =>
      dsimp only at h
      split at h
      · exact absurd h (overtaken_ne_working hloop x due)
      · exact absurd h (hloop x due)
    · rfl
  rw [hdesk]
  exact ⟨_, hms.append hms', hcoherent'⟩

end Runner

/-! ### Whatever is done with a scheduler -/

/-- What can be done with a scheduler: items are pushed from outside, the periodic cycle is started
and has its time, a caller asks for a cycle, and the scheduler is disposed. -/
inductive Deed (α : Type u) where
  | push (x : α)
  | start
  | tick (now : Nat)
  | cycle (now : Nat)
  | dispose
deriving DecidableEq, Repr

/-- Nothing was done with a scheduler yet. -/
structure Scheduler.Fresh (s : Scheduler α) : Prop where
  pending : s.pending = []
  batch : s.batch = none
  live : s.disposed = false

theorem Scheduler.Fresh.new (name : String) (interval : Nat) :
    (Scheduler.new name interval : Scheduler α).Fresh :=
  ⟨rfl, rfl, rfl⟩

/-- A scheduler with its periodic cycle, the state that its worker works on, and the books. -/
structure Shop (α : Type u) (σ : Type v) where
  runner : Runner α
  state : σ
  books : Books α

namespace Shop

/-- Before anything is done. -/
def opened (s : Scheduler α) (st : σ) : Shop α σ := ⟨.new s, st, ⟨[], []⟩⟩

/-- Where the batch stands. -/
def desk (o : Shop α σ) : Desk α := o.runner.desk

/-- The items handed over so far: those finished and the one in the worker's hands. -/
def handed (o : Shop α σ) : List α := o.books.finished ++ o.desk.hands.toList

/-- Do something. -/
def act (w : Worker α σ) (o : Shop α σ) : Deed α → Shop α σ
  | .push x => ⟨o.runner.onScheduler fun s => s.push x, o.state, o.books.push x⟩
  | .start => ⟨o.runner.start, o.state, o.books⟩
  | .tick now =>
    let (runner, st) := o.runner.tick w.booked now (o.state, o.books)
    ⟨runner, st.1, st.2⟩
  | .cycle now =>
    let ran := o.runner.runCycle w.booked now (o.state, o.books)
    ⟨ran.runner, ran.state.1, ran.state.2⟩
  | .dispose => ⟨o.runner.dispose, o.state, o.books⟩

/-- Do several things, one after the other. -/
def after (w : Worker α σ) (o : Shop α σ) (deeds : List (Deed α)) : Shop α σ :=
  deeds.foldl (act w) o

/-- A history that leads from one shop to another and that the books are kept of. -/
structure Recorded (w : Worker α σ) (o : Shop α σ) (ms : List (Move α)) (o' : Shop α σ) :
    Prop where
  run : Run o.desk ms o'.desk
  state : o'.state = w.feed o.state (finished ms)
  finished : o'.books.finished = o.books.finished ++ Schedule.finished ms
  pushed : o'.books.pushed = o.books.pushed ++ Schedule.pushed ms
  quiet : o'.runner.scheduler.disposed = false → w.Quiet o.state (Schedule.finished ms)
  stopsAfter : w.StopsAfter o.state (Schedule.finished ms ++ o'.desk.hands.toList)

variable {w : Worker α σ} {o o' o'' : Shop α σ} {ms ms' : List (Move α)}

theorem Recorded.append (h : Recorded w o ms o') (h' : Recorded w o' ms' o'') :
    Recorded w o (ms ++ ms') o'' := by
  refine ⟨h.run.append h'.run, ?_, ?_, ?_, fun hlive => ?_, ?_⟩
  · rw [h'.state, h.state, finished_append, Worker.feed_append]
  · rw [h'.finished, h.finished, finished_append, List.append_assoc]
  · rw [h'.pushed, h.pushed, pushed_append, List.append_assoc]
  · rw [finished_append]
    exact (h.quiet (h'.run.live hlive)).append w (h.state ▸ h'.quiet hlive)
  · rw [finished_append, List.append_assoc]
    by_cases hdisposed : o'.runner.scheduler.disposed
    · -- then at most the item in the worker's hands is finished in the second part
      have hrest := h'.run.hands_append_handed
      rw [h'.run.handed_of_disposed hdisposed, List.append_nil] at hrest
      exact hrest ▸ h.stopsAfter
    · exact (h.quiet (Bool.eq_false_iff.2 hdisposed)).stopsAfter_append w (h.state ▸ h'.stopsAfter)

/-- What is done without the worker. -/
theorem Recorded.of_idle (hrun : Run o.desk ms o'.desk) (hfinished : Schedule.finished ms = [])
    (hstate : o'.state = o.state) (hkept : o'.books.finished = o.books.finished)
    (hpushed : o'.books.pushed = o.books.pushed ++ Schedule.pushed ms) : Recorded w o ms o' := by
  refine ⟨hrun, ?_, ?_, hpushed, fun _ => ?_, ?_⟩
  · rw [hfinished, hstate, Worker.feed_nil]
  · rw [hfinished, hkept, List.append_nil]
  · rw [hfinished]
    trivial
  · rw [hfinished]
    exact w.stopsAfter_toList _ _

/-- What a booked worker does. -/
theorem Recorded.of_runs (h : w.booked.Runs o.desk (o.state, o.books) ms o'.desk
    (o'.state, o'.books)) : Recorded w o ms o' := by
  have hstate := h.state
  have hpushed := h.pushed_eq
  rw [Worker.feed_booked, Prod.mk.injEq] at hstate
  rw [Worker.pushes_booked] at hpushed
  refine ⟨h.run, hstate.1, ?_, ?_, fun hlive => (Worker.quiet_booked _ _).1 (h.quiet hlive),
    (Worker.stopsAfter_booked _ _).1 h.stopsAfter⟩
  · rw [hstate.2]
  · rw [hstate.2, hpushed]

/-- **Whatever is done with a scheduler is a history** that the books are kept of. -/
theorem recorded_act (w : Worker α σ) (ho : o.desk.Coherent) (deed : Deed α) :
    ∃ ms, Recorded w o ms (o.act w deed) ∧ (o.act w deed).desk.Coherent := by
  cases deed with
  | push x =>
    refine ⟨[.push x], .of_idle (.singleton (.push _ x)) rfl rfl rfl rfl, ?_⟩
    simpa [desk, act, Desk.Coherent, Desk.onScheduler] using ho
  | start =>
    refine ⟨[], .of_idle ?_ rfl rfl rfl (List.append_nil _).symm, ?_⟩
    · simpa [desk, act] using Run.nil o.desk
    · simpa [desk, act] using ho
  | tick now =>
    obtain ⟨ms, hms, hcoherent⟩ := Runner.runs_tick w.booked now ho (o.state, o.books)
    exact ⟨ms, .of_runs hms, hcoherent⟩
  | cycle now =>
    obtain ⟨ms, hms, hcoherent⟩ := Runner.runs_runCycle w.booked now ho (o.state, o.books)
    exact ⟨ms, .of_runs hms, hcoherent⟩
  | dispose =>
    refine ⟨[.dispose], .of_idle ?_ rfl rfl rfl (List.append_nil _).symm, ?_⟩
    · simpa [desk, act] using Run.singleton (.dispose o.desk)
    · simpa [desk, act, Desk.Coherent, Desk.onScheduler, Scheduler.dispose] using ho

theorem recorded_after (w : Worker α σ) (ho : o.desk.Coherent) (deeds : List (Deed α)) :
    ∃ ms, Recorded w o ms (o.after w deeds) ∧ (o.after w deeds).desk.Coherent := by
  induction deeds generalizing o with
  | nil => exact ⟨[], .of_idle (.nil _) rfl rfl rfl (List.append_nil _).symm, ho⟩
  | cons deed deeds ih =>
    obtain ⟨ms, hms, hcoherent⟩ := recorded_act w ho deed
    obtain ⟨ms', hms', hcoherent'⟩ := ih hcoherent
    exact ⟨ms ++ ms', hms.append hms', hcoherent'⟩

theorem coherent_opened {s : Scheduler α} (hs : s.Fresh) (st : σ) :
    (opened s st).desk.Coherent :=
  iff_of_true hs.batch rfl

/-- What was handed over since the opening is what the history hands over. -/
theorem Recorded.handed_eq {s : Scheduler α} {st : σ} (h : Recorded w (opened s st) ms o) :
    o.handed = Schedule.handed ms := by
  rw [handed, h.finished]
  exact h.run.hands_append_handed.symm

end Shop

end Concord.Schedule

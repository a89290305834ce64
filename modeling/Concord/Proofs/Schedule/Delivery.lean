import Concord.Proofs.Schedule.Deeds

/-!
# Every item is handed over once, in order

As long as a scheduler without strategies is not disposed, nothing that was pushed is lost, repeated
or reordered: what was handed over, what is left of the batch and what is pending make up all that
was pushed, in the order in which it was pushed (`InOrder`). This is so in every history, whoever
pushes and however items end, and a cycle hands over what was pending when it began and nothing that
came later. What the periodic cycle, callers and workers do is such a history, so it is so for them.
-/

namespace Concord.Schedule

universe u v

variable {α : Type u}

/-- The items handed over are the first of those pushed, followed by the rest of the batch and by
what is pending; and between batches a scheduler is idle exactly when all items were handed over. -/
structure InOrder (handed pushed : List α) (d : Desk α) : Prop where
  accounted : handed ++ (d.rest ++ d.scheduler.pending) = pushed
  idle : d.scheduler.batch = none → (d.scheduler.isIdle ↔ handed = pushed)

variable {s : Scheduler α} {d d' : Desk α} {ms ms' : List (Move α)}

theorem inOrder_of_accounted {handed pushed : List α}
    (h : handed ++ (d.rest ++ d.scheduler.pending) = pushed) : InOrder handed pushed d := by
  refine ⟨h, fun hbatch => ?_⟩
  have hrest : d.rest = [] := by rw [Desk.rest, hbatch, Option.getD_none]
  rw [hrest, List.nil_append] at h
  rw [Scheduler.isIdle_iff hbatch, ← h, List.self_eq_append_right]

theorem Run.inOrder (h : Run ⟨s, none⟩ ms d) (hs : s.Fresh) (hplain : s.strategies = [])
    (hd : d.scheduler.disposed = false) : InOrder (handed ms) (pushed ms) d := by
  have hrun := h.handed_append_pending hd hplain
  refine inOrder_of_accounted (hrun.trans ?_)
  simp [Desk.rest, hs.batch, hs.pending]

/-- Without strategies a cycle hands over what was pending when it began. -/
theorem Run.handed_of_cycle_of_plain (h : Run d (.begin :: ms) d') (hms : .begin ∉ ms)
    (hd' : d'.scheduler.disposed = false) (hplain : d.scheduler.strategies = []) :
    handed ms ++ d'.rest = d.scheduler.pending := by
  have hlive := h.live hd'
  rw [h.handed_of_cycle hms hd']
  cases h with
  | cons hstep hrun =>
    exact Scheduler.taken_of_plain (hstep.of_begin (hrun.live hd')).1 hlive hplain

/-- **Every item is handed over once, in order.** In every history of a scheduler without strategies
that is not disposed, the items handed over are accounted for, and a cycle that begins hands over
what is pending then. So it is for whatever is done with a scheduler and a worker: what was handed
over is accounted for, and a cycle goes on with what was pending when it began, as far as its
deadline allows. -/
theorem handed_over_once (hs : s.Fresh) (hplain : s.strategies = []) :
    (∀ ms d, Run ⟨s, none⟩ ms d → d.scheduler.disposed = false →
      InOrder (handed ms) (pushed ms) d ∧
      ∀ ms' d', Run d (.begin :: ms') d' → .begin ∉ ms' → d'.scheduler.disposed = false →
        handed ms' ++ d'.rest = d.scheduler.pending) ∧
    ∀ {σ : Type v} (w : Worker α σ) (st : σ) (deeds : List (Deed α)),
      let o := (Shop.opened s st).after w deeds
      o.runner.scheduler.disposed = false →
        InOrder o.handed o.books.pushed o.desk ∧
        (o.runner.scheduler.batch = none → ∀ deadline now,
          let p := o.runner.scheduler.cycle w.booked deadline now (o.state, o.books)
          p.scheduler.disposed = false →
            p.state.2.finished ++ (p.desk.hands.toList ++ p.desk.rest) =
              o.books.finished ++ o.runner.scheduler.pending) := by
  refine ⟨fun ms d hrun hd => ⟨hrun.inOrder hs hplain hd, fun ms' d' hrun' hms' hd' =>
    hrun'.handed_of_cycle_of_plain hms' hd' (hrun.strategies.trans hplain)⟩, ?_⟩
  intro σ w st deeds o hlive
  obtain ⟨ms, hms, -⟩ := Shop.recorded_after w (Shop.coherent_opened hs st) deeds
  refine ⟨?_, fun hbatch deadline now => ?_⟩
  · rw [hms.handed_eq, hms.pushed]
    exact hms.run.inOrder hs hplain hlive
  · intro p hp
    obtain ⟨ms', hms', hnot, -⟩ :=
      Scheduler.runs_cycle w.booked deadline now hbatch (o.state, o.books)
    have hfinished : p.state.2.finished = o.books.finished ++ finished ms' := by
      rw [hms'.state, Worker.feed_booked]
      rfl
    have hhanded : handed ms' = finished ms' ++ p.desk.hands.toList :=
      hms'.run.hands_append_handed
    have hcycle := hms'.run.handed_of_cycle_of_plain hnot hp (hms.run.strategies.trans hplain)
    rw [hfinished, List.append_assoc, ← hcycle, hhanded, List.append_assoc]

/-- An item that pushes another one: the second is pending when the cycle is over, and the next
cycle hands it over. -/
theorem handed_over_once_sample :
    let s : Scheduler Nat := .new "orders" 500
    let w : Worker Nat Unit := ⟨fun _ => 0, fun x _ => ((), ⟨if x = 1 then [10] else [], false⟩)⟩
    let o := (Shop.opened s ()).after w [.push 1, .push 2, .cycle 0]
    let p := o.runner.scheduler.cycle w.booked none 0 (o.state, o.books)
    s.Fresh ∧ s.strategies = [] ∧ o.runner.scheduler.disposed = false ∧
      o.books = ⟨[1, 2], [1, 2, 10]⟩ ∧ o.runner.scheduler.pending = [10] ∧
      InOrder o.handed o.books.pushed o.desk ∧
      p.state.2.finished ++ (p.desk.hands.toList ++ p.desk.rest) = [1, 2] ++ [10] := by
  intro s w o p
  have hs : s.Fresh := .new _ _
  have hlive : o.runner.scheduler.disposed = false := by decide
  have hbatch : o.runner.scheduler.batch = none := by decide
  have hpending : o.runner.scheduler.pending = [10] := by decide
  have hbooks : o.books = ⟨[1, 2], [1, 2, 10]⟩ := rfl
  have hplive : p.scheduler.disposed = false := by decide
  obtain ⟨horder, hcycle⟩ := (handed_over_once hs rfl).2 w () [.push 1, .push 2, .cycle 0] hlive
  have hnext := hcycle hbatch none 0
  -- The cycle in `hnext` is named before it is compared with `p`: otherwise both are run.
  extract_lets q at hnext
  have hq : q = p := rfl
  rw [hq] at hnext
  exact ⟨hs, rfl, hlive, hbooks, hpending, horder, hpending ▸ hnext hplive⟩

end Concord.Schedule

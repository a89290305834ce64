import Concord.Proofs.Cache.Rebuild
import Concord.Proofs.Schedule.Instant
import Concord.Proofs.Schedule.Survivors

/-!
# Skipping superseded requests changes nothing

A cache thins out each batch of requests before it meets them: of several requests for one file
only the latest is met. This file shows that what was read in the end is the same as if every
request had been met, one by one.

What carries the argument is `Cache.drained`, the entries that a cache would hold if everything
pending were met as it was asked for. A request adds one step to it, and cycles and flushes – those
of callers as well as periodic ones – leave it as it is, because a superseded request can be left
out (`Contents.entries_rebuildAll_of_mem`). After a flush nothing is pending, and then `drained` is
what was read.

* `Cache.AtRest` – what holds of every cache between two moves (`Cache.Reachable.atRest`);
* `Cache.runBatches_eq_rebuildAll` – **requests cut into batches in any way come to the same as all
  requests one by one**, and no batch meets two requests for one file.
-/

namespace Concord.Cache

open Schedule

universe u

variable {β : Type u}

/-- The requests not met yet. -/
def pending (c : Cache β) : List RebuildRequest := c.runner.scheduler.pending

/-- Whether the cache was disposed. -/
def disposed (c : Cache β) : Bool := c.runner.scheduler.disposed

/-- What holds of a cache between two moves: no batch is being processed, of the requests for one
file the latest counts, and nothing is pending once the cache was disposed. -/
structure AtRest (c : Cache β) : Prop where
  runner : c.runner.AtRest
  strategies : c.runner.scheduler.strategies = [.latestPerKey RebuildRequest.file]
  pending_eq_nil : c.disposed → c.pending = []

/-- Ask for some files one after the other. -/
def requestAll (c : Cache β) (rs : List RebuildRequest) : Cache β := rs.foldl request c

/-- Those of some requests that the cache takes: none once it was disposed. -/
def accepted (c : Cache β) (rs : List RebuildRequest) : List RebuildRequest :=
  if c.disposed then [] else rs

section Moves

variable [DecidableEq β] (o : Origin β) (now : Nat)

/-- One cycle that a caller asks for at a time. -/
def cycle (c : Cache β) : Cache β :=
  let ran := c.runner.runCycle (worker o) now c.contents
  ⟨ran.state, ran.runner⟩

/-- The requests that one cycle hands over to be met, in order. -/
def met (c : Cache β) : List RebuildRequest :=
  (c.runner.runCycle (worker o).traced now (c.contents, [])).state.2

/-- The entries that the cache would hold if all pending requests were met one by one. -/
def drained (c : Cache β) : Dict β := (c.contents.rebuildAll o c.pending).entries

/-- Push one batch of requests after the other, each followed by a cycle at its time. -/
def runBatches (c : Cache β) (batches : List (Nat × List RebuildRequest)) : Cache β :=
  batches.foldl (fun c b => (c.requestAll b.2).cycle o b.1) c

end Moves

/-! ### Requests -/

@[simp] theorem contents_request (c : Cache β) (r : RebuildRequest) :
    (c.request r).contents = c.contents := rfl

@[simp] theorem disposed_request (c : Cache β) (r : RebuildRequest) :
    (c.request r).disposed = c.disposed :=
  c.runner.scheduler.disposed_push r

theorem pending_request (c : Cache β) (r : RebuildRequest) :
    (c.request r).pending = if c.disposed then c.pending else c.pending ++ [r] := by
  by_cases hd : c.runner.scheduler.disposed <;>
    simp [pending, disposed, request, Runner.onScheduler, Scheduler.push, hd]

theorem AtRest.request {c : Cache β} (h : c.AtRest) (r : RebuildRequest) :
    (c.request r).AtRest := by
  refine ⟨Runner.AtRest.onScheduler (f := fun s => s.push r) h.runner (Scheduler.batch_push _ r),
    (Scheduler.strategies_push _ r).trans h.strategies, fun hd => ?_⟩
  -- a disposed scheduler takes no item, so nothing is pending after the request either
  rw [disposed_request] at hd
  rw [pending_request, if_pos hd, h.pending_eq_nil hd]

@[simp] theorem requestAll_nil (c : Cache β) : c.requestAll [] = c := rfl

@[simp] theorem requestAll_cons (c : Cache β) (r : RebuildRequest) (rs : List RebuildRequest) :
    c.requestAll (r :: rs) = (c.request r).requestAll rs := rfl

@[simp] theorem contents_requestAll (c : Cache β) (rs : List RebuildRequest) :
    (c.requestAll rs).contents = c.contents := by
  induction rs generalizing c with
  | nil => rfl
  | cons r rs ih => rw [requestAll_cons, ih, contents_request]

@[simp] theorem disposed_requestAll (c : Cache β) (rs : List RebuildRequest) :
    (c.requestAll rs).disposed = c.disposed := by
  induction rs generalizing c with
  | nil => rfl
  | cons r rs ih => rw [requestAll_cons, ih, disposed_request]

theorem pending_requestAll (c : Cache β) (rs : List RebuildRequest) :
    (c.requestAll rs).pending = c.pending ++ c.accepted rs := by
  induction rs generalizing c with
  | nil => simp [accepted]
  | cons r rs ih =>
    rw [requestAll_cons, ih, pending_request, accepted, accepted, disposed_request]
    cases c.disposed <;> simp

theorem AtRest.requestAll {c : Cache β} (h : c.AtRest) (rs : List RebuildRequest) :
    (c.requestAll rs).AtRest := by
  induction rs generalizing c with
  | nil => exact h
  | cons r rs ih => exact ih (h.request r)

/-! ### Cycles -/

/-- A cycle takes, of the pending requests for each file, the latest. -/
theorem AtRest.taken {c : Cache β} (h : c.AtRest) :
    c.runner.scheduler.taken = Strategy.latest RebuildRequest.file c.pending := by
  by_cases hidle : c.runner.scheduler.disposed || c.runner.scheduler.pending.isEmpty
  · have hpending : c.pending = [] := by
      rcases Bool.or_eq_true_iff.1 hidle with hd | he
      · exact h.pending_eq_nil hd
      · exact List.isEmpty_iff.1 he
    rw [Scheduler.taken, Scheduler.begin_of_idle hidle, h.runner.batch, hpending]
    rfl
  · rw [Scheduler.taken, Scheduler.begin_of_pending hidle, h.strategies]
    rfl

/-- What a cycle leaves of the scheduler has nothing pending. -/
theorem AtRest.pending_cleared {c : Cache β} (h : c.AtRest) :
    c.runner.scheduler.cleared.pending = [] := by
  rw [Scheduler.pending_cleared]
  split
  · next hd => exact h.pending_eq_nil hd
  · rfl

section Cycles

variable [DecidableEq β] (o : Origin β) (now : Nat)

theorem instant_worker : (worker o).Instant := ⟨fun _ => rfl, fun _ _ => rfl⟩

/-- Meeting only the latest request for each file comes to the same as meeting all. -/
theorem entries_rebuildAll_latest (rs : List RebuildRequest) (c : Contents β) :
    (c.rebuildAll o (Strategy.latest RebuildRequest.file rs)).entries =
      (c.rebuildAll o rs).entries := by
  induction rs generalizing c with
  | nil => rfl
  | cons r rs ih =>
    rw [Strategy.latest_cons, Contents.rebuildAll_cons]
    -- the first request is skipped exactly when its file comes again
    split
    · next hmem => rw [ih, Contents.entries_rebuildAll_of_mem o hmem]
    · rw [Contents.rebuildAll_cons, ih]

variable {c : Cache β} (h : c.AtRest)
include h

/-- **A cycle hands over the latest request for each file.** -/
theorem AtRest.met_eq : c.met o now = Strategy.latest RebuildRequest.file c.pending := by
  rw [met, (Runner.runCycle_of_instant (instant_worker o).traced h.runner now _).1,
    Worker.feed_traced, h.taken, List.nil_append]

theorem AtRest.contents_cycle :
    (c.cycle o now).contents = c.contents.rebuildAll o (c.met o now) := by
  rw [h.met_eq, ← h.taken]
  exact (Runner.runCycle_of_instant (instant_worker o) h.runner now c.contents).1

theorem AtRest.scheduler_cycle :
    (c.cycle o now).runner.scheduler = c.runner.scheduler.cleared :=
  (Runner.runCycle_of_instant (instant_worker o) h.runner now c.contents).2.1

/-- **After a cycle the cache holds what was drained.** -/
theorem AtRest.snapshot_cycle : (c.cycle o now).snapshot = c.drained o := by
  rw [snapshot, h.contents_cycle, h.met_eq, entries_rebuildAll_latest]
  rfl

theorem AtRest.disposed_cycle : (c.cycle o now).disposed = c.disposed := by
  rw [disposed, h.scheduler_cycle, Scheduler.disposed_cleared]
  rfl

theorem AtRest.pending_cycle : (c.cycle o now).pending = [] := by
  rw [pending, h.scheduler_cycle, h.pending_cleared]

theorem AtRest.cycle : (c.cycle o now).AtRest := by
  refine ⟨(Runner.runCycle_of_instant (instant_worker o) h.runner now c.contents).2.2, ?_,
    fun _ => h.pending_cycle o now⟩
  rw [h.scheduler_cycle, Scheduler.strategies_cleared, h.strategies]

/-- A flush is a cycle, or there is nothing to do. -/
theorem AtRest.flush_eq : c.flush o now = c.cycle o now ∨ c.flush o now = c ∧ c.pending = [] := by
  rw [flush]
  split
  · exact Or.inl rfl
  · next hwork =>
    refine Or.inr ⟨rfl, ?_⟩
    by_cases hd : c.disposed
    · exact h.pending_eq_nil hd
    · simp_all [hasWork, isIdle, Scheduler.isIdle, disposed, pending, h.runner.batch]

theorem AtRest.flush : (c.flush o now).AtRest := by
  rcases h.flush_eq o now with heq | ⟨heq, -⟩ <;> rw [heq]
  · exact h.cycle o now
  · exact h

/-- **After a flush the cache holds what was drained.** -/
theorem AtRest.snapshot_flush : (c.flush o now).snapshot = c.drained o := by
  rcases h.flush_eq o now with heq | ⟨heq, hpending⟩ <;> rw [heq]
  · exact h.snapshot_cycle o now
  · rw [drained, hpending]
    rfl

theorem AtRest.pending_flush : (c.flush o now).pending = [] := by
  rcases h.flush_eq o now with heq | ⟨heq, hpending⟩ <;> rw [heq]
  · exact h.pending_cycle o now
  · exact hpending

theorem AtRest.disposed_flush : (c.flush o now).disposed = c.disposed := by
  rcases h.flush_eq o now with heq | ⟨heq, -⟩ <;> rw [heq]
  exact h.disposed_cycle o now

/-- **After a flush the cache is idle.** -/
theorem AtRest.isIdle_flush : (c.flush o now).isIdle := by
  have hpending := h.pending_flush o now
  rw [pending] at hpending
  rw [isIdle, Scheduler.isIdle, (h.flush o now).runner.batch, hpending]
  rfl

end Cycles

/-! ### Other moves -/

theorem atRest_new (name : String) (interval : Nat) : (new name interval : Cache β).AtRest :=
  ⟨Runner.atRest_new _ rfl, rfl, fun _ => rfl⟩

theorem AtRest.start {c : Cache β} (h : c.AtRest) : c.start.AtRest := by
  have hs : c.start.runner.scheduler = c.runner.scheduler := Runner.scheduler_start _
  refine ⟨h.runner.start, by rw [hs, h.strategies], fun hd => ?_⟩
  rw [pending, hs]
  rw [disposed, hs] at hd
  exact h.pending_eq_nil hd

theorem AtRest.dispose {c : Cache β} (h : c.AtRest) : c.dispose.AtRest := by
  have hs : c.dispose.runner.scheduler = c.runner.scheduler.dispose := Runner.scheduler_dispose _
  refine ⟨h.runner.dispose, by rw [hs]; exact h.strategies, fun _ => ?_⟩
  rw [pending, hs]
  rfl

/-- A cache without pending requests holds what would be drained. -/
theorem drained_of_pending [DecidableEq β] (o : Origin β) {c : Cache β}
    (hpending : c.pending = []) : c.drained o = c.snapshot := by
  rw [drained, hpending]
  rfl

section Tick

variable [DecidableEq β] (o : Origin β) (now : Nat) {c : Cache β} (h : c.AtRest)
include h

/-- What the periodic cycle does is nothing, or what any cycle does. -/
theorem AtRest.tick_cases :
    ((c.tick o now).contents = c.contents ∧
        (c.tick o now).runner.scheduler = c.runner.scheduler) ∨
      ((c.tick o now).contents = c.contents.rebuildAll o c.runner.scheduler.taken ∧
        (c.tick o now).runner.scheduler = c.runner.scheduler.cleared) :=
  (Runner.tick_of_instant (instant_worker o) h.runner now c.contents).2

theorem AtRest.tick : (c.tick o now).AtRest := by
  have hr : (c.tick o now).runner.AtRest :=
    (Runner.tick_of_instant (instant_worker o) h.runner now c.contents).1
  rcases h.tick_cases o now with ⟨-, hs⟩ | ⟨-, hs⟩
  · refine ⟨hr, by rw [hs, h.strategies], fun hd => ?_⟩
    rw [pending, hs]
    rw [disposed, hs] at hd
    exact h.pending_eq_nil hd
  · refine ⟨hr, by rw [hs, Scheduler.strategies_cleared, h.strategies], fun _ => ?_⟩
    rw [pending, hs, h.pending_cleared]

/-- **The periodic cycle leaves what would be drained as it is.** -/
theorem AtRest.drained_tick : (c.tick o now).drained o = c.drained o := by
  rcases h.tick_cases o now with ⟨hc, hs⟩ | ⟨hc, hs⟩
  · rw [drained, pending, hc, hs]
    rfl
  · rw [drained, pending, hc, hs, h.pending_cleared, h.taken, Contents.rebuildAll_nil,
      entries_rebuildAll_latest]
    rfl

theorem AtRest.pending_tick (hpending : c.pending = []) : (c.tick o now).pending = [] := by
  rcases h.tick_cases o now with ⟨-, hs⟩ | ⟨-, hs⟩
  · rw [pending, hs]
    exact hpending
  · rw [pending, hs, h.pending_cleared]

/-- Without pending requests the periodic cycle changes nothing that was read. -/
theorem AtRest.snapshot_tick (hpending : c.pending = []) :
    (c.tick o now).snapshot = c.snapshot := by
  rw [← drained_of_pending o hpending, ← h.drained_tick o now,
    drained_of_pending o (h.pending_tick o now hpending)]

theorem AtRest.disposed_tick : (c.tick o now).disposed = c.disposed := by
  rcases h.tick_cases o now with ⟨-, hs⟩ | ⟨-, hs⟩
  · rw [disposed, hs]
    rfl
  · rw [disposed, hs, Scheduler.disposed_cleared]
    rfl

end Tick

/-! ### Any cache, any batches -/

/-- The caches there are: a new one, and what the moves make of it, whatever the origin is at each
of them. -/
inductive Reachable [DecidableEq β] : Cache β → Prop where
  | new (name : String) (interval : Nat) : Reachable (.new name interval)
  | request {c : Cache β} (r : RebuildRequest) : Reachable c → Reachable (c.request r)
  | cycle {c : Cache β} (o : Origin β) (now : Nat) : Reachable c → Reachable (c.cycle o now)
  | flush {c : Cache β} (o : Origin β) (now : Nat) : Reachable c → Reachable (c.flush o now)
  | tick {c : Cache β} (o : Origin β) (now : Nat) : Reachable c → Reachable (c.tick o now)
  | start {c : Cache β} : Reachable c → Reachable c.start
  | dispose {c : Cache β} : Reachable c → Reachable c.dispose

/-- **Every cache is at rest between two moves.** -/
theorem Reachable.atRest [DecidableEq β] {c : Cache β} (hc : Reachable c) : c.AtRest := by
  induction hc with
  | new name interval => exact atRest_new name interval
  | request r _ ih => exact ih.request r
  | cycle o now _ ih => exact ih.cycle o now
  | flush o now _ ih => exact ih.flush o now
  | tick o now _ ih => exact ih.tick o now
  | start _ ih => exact ih.start
  | dispose _ ih => exact ih.dispose

section Batches

variable [DecidableEq β] (o : Origin β)

theorem runBatches_append (c : Cache β) (bs bs' : List (Nat × List RebuildRequest)) :
    c.runBatches o (bs ++ bs') = (c.runBatches o bs).runBatches o bs' :=
  List.foldl_append

/-- What requests add to what would be drained. -/
theorem drained_requestAll (c : Cache β) (rs : List RebuildRequest) :
    (c.requestAll rs).drained o =
      (c.contents.rebuildAll o (c.pending ++ c.accepted rs)).entries := by
  rw [drained, contents_requestAll, pending_requestAll]

/-- What a run of batches leaves: a cache at rest that drains to what all requests come to when
they are met one by one. -/
theorem AtRest.runBatches {c : Cache β} (h : c.AtRest)
    (batches : List (Nat × List RebuildRequest)) :
    (c.runBatches o batches).AtRest ∧ (c.runBatches o batches).disposed = c.disposed ∧
      (c.runBatches o batches).drained o =
        (c.contents.rebuildAll o (c.pending ++ c.accepted (batches.flatMap Prod.snd))).entries := by
  induction batches generalizing c with
  | nil => exact ⟨h, rfl, by simp [Cache.runBatches, drained, accepted]⟩
  | cons b bs ih =>
    have hb := h.requestAll b.2
    have hdisposed : ((c.requestAll b.2).cycle o b.1).disposed = c.disposed := by
      rw [hb.disposed_cycle, disposed_requestAll]
    obtain ⟨hrest, hd, hdrained⟩ := ih (hb.cycle o b.1)
    refine ⟨hrest, hd.trans hdisposed, ?_⟩
    -- the cycle of the first batch holds what its requests come to when none is skipped
    have hentries : ((c.requestAll b.2).cycle o b.1).contents.entries =
        (c.contents.rebuildAll o (c.pending ++ c.accepted b.2)).entries := by
      rw [← drained_requestAll]
      exact hb.snapshot_cycle o b.1
    calc (Cache.runBatches o ((c.requestAll b.2).cycle o b.1) bs).drained o
        = (((c.requestAll b.2).cycle o b.1).contents.rebuildAll o
            (c.accepted (bs.flatMap Prod.snd))).entries := by
          rw [hdrained, hb.pending_cycle, List.nil_append, accepted, accepted, hdisposed]
      _ = ((c.contents.rebuildAll o (c.pending ++ c.accepted b.2)).rebuildAll o
            (c.accepted (bs.flatMap Prod.snd))).entries :=
          Contents.entries_rebuildAll_congr o hentries _
      _ = (c.contents.rebuildAll o
            (c.pending ++ c.accepted ((b :: bs).flatMap Prod.snd))).entries := by
          rw [← Contents.rebuildAll_append, accepted, accepted, accepted]
          split <;> simp

theorem AtRest.pending_runBatches {c : Cache β} (h : c.AtRest)
    {batches : List (Nat × List RebuildRequest)} (hcut : c.pending = [] ∨ batches ≠ []) :
    (c.runBatches o batches).pending = [] := by
  rcases List.eq_nil_or_concat batches with rfl | ⟨bs, b, rfl⟩
  · exact hcut.resolve_right fun hne => hne rfl
  · rw [List.concat_eq_append, runBatches_append]
    exact ((h.runBatches o bs).1.requestAll b.2).pending_cycle o b.1

/-- **Coalescing does not change the final state.** However requests are cut into batches, each
pushed and then processed by a cycle, what was read is in the end what it would be if every request
that the cache takes had been met, one by one and in order; no cycle hands over two requests for one
file; and a flush leaves the cache idle. Requests that were pending before the first batch count
as part of it, and a disposed cache takes none. -/
theorem runBatches_eq_rebuildAll {c : Cache β} (h : c.AtRest)
    (batches : List (Nat × List RebuildRequest)) :
    (c.pending = [] ∨ batches ≠ [] →
        (c.runBatches o batches).snapshot =
          (c.contents.rebuildAll o
            (c.pending ++ c.accepted (batches.flatMap Prod.snd))).entries) ∧
      (∀ before now rs after, batches = before ++ (now, rs) :: after →
        ((((c.runBatches o before).requestAll rs).met o now).map RebuildRequest.file).Nodup) ∧
      ∀ rs now, (((c.runBatches o batches).requestAll rs).flush o now).isIdle := by
  refine ⟨fun hcut => ?_, fun before now rs after _ => ?_, fun rs now => ?_⟩
  · obtain ⟨-, -, hdrained⟩ := h.runBatches o batches
    rw [← hdrained, drained, h.pending_runBatches o hcut]
    rfl
  · rw [((h.runBatches o before).1.requestAll rs).met_eq]
    exact Strategy.nodup_keys_latest _ _
  · exact ((h.runBatches o batches).1.requestAll rs).isIdle_flush o now

/-- An origin that holds one file, read as it stands. -/
def sampleOrigin : Origin String where
  read := fun file => if file = "a.po" then .ok "saved" else .error (.absent file)
  parse := fun _ text => text

/-- Two batches, in which a file is superseded, one cannot be read and one is deleted. -/
def sampleBatches : List (Nat × List RebuildRequest) :=
  [(0, [⟨"a.po", .created, some "draft"⟩, ⟨"b.po", .created, some "text"⟩,
      ⟨"a.po", .changed, none⟩]),
   (7, [⟨"b.po", .changed, none⟩, ⟨"c.po", .created, some "x"⟩, ⟨"c.po", .deleted, none⟩])]

/-- The batches above, met with and without skipping, leave the one file that can be read. -/
theorem runBatches_sample :
    (new "catalogs" 500 : Cache String).AtRest ∧ (new "catalogs" 500 : Cache String).pending = [] ∧
      ((new "catalogs" 500).runBatches sampleOrigin sampleBatches).snapshot.entries =
        [("a.po", "saved")] := by
  refine ⟨atRest_new _ _, rfl, ?_⟩
  rw [(runBatches_eq_rebuildAll sampleOrigin (atRest_new "catalogs" 500) sampleBatches).1
    (Or.inl rfl)]
  decide

end Batches

end Concord.Cache

import Concord.Proofs.Engine.Press
import Concord.Proofs.Engine.Reachable
import Concord.Workspace.Memory

/-!
# Engines publish the last change

An engine that was asked to publish has a press, and whatever it is asked to do or does by itself is
a history of that press: events and scans only ask for files, a flush and the periodic cycles of the
caches meet requests, and the publisher forwards changes and does its own cycles. So the accounts of
`Press.Keeps` are kept, and of an engine whose publisher has seen all changes and is idle the last
diagnostics published are those that hold.
-/

namespace Concord

open Schedule

/-! ### Histories of a press -/

namespace Press

theorem run_catalogs (p : Press) (o : Origin Catalog) (rs : List RebuildRequest) :
    Run p [] { p with catalogs := p.catalogs.rebuildAll o rs } := by
  induction rs generalizing p with
  | nil => exact .nil p
  | cons r rs ih => exact .cons (.catalogs p o r) (ih { p with catalogs := p.catalogs.rebuild o r })

theorem run_sources (p : Press) (o : Origin (List CallSite)) (rs : List RebuildRequest) :
    Run p [] { p with sources := p.sources.rebuildAll o rs } := by
  induction rs generalizing p with
  | nil => exact .nil p
  | cons r rs ih => exact .cons (.sources p o r) (ih { p with sources := p.sources.rebuild o r })

/-- What the worker of a publisher does is a history, as long as its diagnostics are those that
hold. -/
theorem run_of_runs {catalogs : Contents Catalog} {sources : Contents (List CallSite)}
    {seen : EngineSubscription} {d d' : Desk Unit} {published published' : List Findings}
    {ms : List (Move Unit)}
    (h : (Publisher.worker (Engine.findingsOf catalogs.entries sources.entries)).Runs d published
      ms d' published') :
    Run ⟨catalogs, sources, seen, d, published⟩ ms ⟨catalogs, sources, seen, d', published'⟩ := by
  induction h with
  | nil d published => exact .nil _
  | silent hstep hm _ ih => exact .cons (.silent hm hstep) ih
  | @perform s x _ published _ ms _ ih =>
    exact .cons (.publish (Schedule.Step.finish s ())) ih

end Press

namespace Publisher

theorem instant_worker (current : Findings) : (worker current).Instant :=
  ⟨fun _ => rfl, fun _ _ => rfl⟩

theorem feed_worker (current : Findings) (published : List Findings) (xs : List Unit) :
    (worker current).feed published xs = published ++ xs.map fun _ => current := by
  induction xs generalizing published with
  | nil => simp
  | cons x xs ih =>
    rw [Worker.feed_cons, ih]
    simp [worker]

end Publisher

theorem Schedule.Runner.AtRest.coherent {α : Type} {r : Runner α} (h : r.AtRest) :
    r.desk.Coherent := by
  refine iff_of_true h.batch ?_
  change r.hands = none
  rw [Runner.hands]
  split
  · next x due hloop => exact absurd hloop (h.loop x due)
  · rfl

/-! ### What a cache does -/

namespace Cache

variable {β : Type} [DecidableEq β] {c : Cache β}

theorem AtRest.contents_tick (h : c.AtRest) (o : Origin β) (now : Nat) :
    ∃ rs, (c.tick o now).contents = c.contents.rebuildAll o rs := by
  rcases h.tick_cases o now with ⟨hcontents, -⟩ | ⟨hcontents, -⟩
  · exact ⟨[], hcontents⟩
  · exact ⟨_, hcontents⟩

theorem AtRest.contents_flush (h : c.AtRest) (o : Origin β) (now : Nat) :
    ∃ rs, (c.flush o now).contents = c.contents.rebuildAll o rs := by
  rcases h.flush_eq o now with heq | ⟨heq, -⟩
  · exact ⟨_, heq ▸ h.contents_cycle o now⟩
  · exact ⟨[], congrArg contents heq⟩

end Cache

namespace Engine

/-- The press of an engine with the given publisher. -/
def press (e : Engine) (p : Publisher) : Press :=
  ⟨e.catalogs.contents, e.sources.contents, p.seen, p.runner.desk, e.published⟩

/-- What leads from one engine to another is a history of its press, if it has one. -/
def Presses (e e' : Engine) : Prop :=
  ∀ p, e.publisher = some p → p.runner.AtRest → ∃ p' ms, e'.publisher = some p' ∧
    p'.runner.AtRest ∧ Press.Run (e.press p) ms (e'.press p')

/-- Two engines whose caches hold the same, and that have the same publisher. -/
structure SamePress (e e' : Engine) : Prop where
  catalogs : e'.catalogs.contents = e.catalogs.contents
  sources : e'.sources.contents = e.sources.contents
  publisher : e'.publisher = e.publisher
  published : e'.published = e.published

theorem SamePress.refl (e : Engine) : SamePress e e := ⟨rfl, rfl, rfl, rfl⟩

theorem SamePress.trans {e e' e'' : Engine} (h : SamePress e e') (h' : SamePress e' e'') :
    SamePress e e'' :=
  ⟨h'.catalogs.trans h.catalogs, h'.sources.trans h.sources, h'.publisher.trans h.publisher,
    h'.published.trans h.published⟩

variable {e e' e'' : Engine}

theorem Presses.refl (e : Engine) : Presses e e := fun p hp hrest => ⟨p, [], hp, hrest, .nil _⟩

theorem Presses.trans (h : Presses e e') (h' : Presses e' e'') : Presses e e'' := by
  intro p hp hrest
  obtain ⟨p', ms, hp', hrest', hrun⟩ := h p hp hrest
  obtain ⟨p'', ms', hp'', hrest'', hrun'⟩ := h' p' hp' hrest'
  exact ⟨p'', ms ++ ms', hp'', hrest'', hrun.append hrun'⟩

theorem SamePress.presses (h : SamePress e e') : Presses e e' := by
  intro p hp hrest
  refine ⟨p, [], h.publisher.trans hp, hrest, ?_⟩
  rw [press, press, h.catalogs, h.sources, h.published]
  exact .nil _

/-! ### What asks for files only -/

theorem samePress_handleEvent (e : Engine) (r : RebuildRequest) :
    SamePress e (e.handleEvent r).2 := by
  rw [handleEvent]
  split
  · exact ⟨rfl, rfl, rfl, rfl⟩
  · split <;> exact ⟨rfl, rfl, rfl, rfl⟩

theorem samePress_hear (e : Engine) (rs : List RebuildRequest) : SamePress e (e.hear rs) := by
  induction rs generalizing e with
  | nil => exact .refl e
  | cons r rs ih => exact (samePress_handleEvent e r).trans (ih _)

section Moves

variable {ω : Type} [Workspace ω] (w : ω) (now : Nat)

theorem samePress_initialScan {scan : Scan} (hscan : e.initialScan w = .ok scan) :
    SamePress e scan.engine :=
  initialScan_induction w (fun e' r he => he.trans (samePress_handleEvent e' r)) (.refl e) hscan

theorem samePress_apply (e : Engine) (edits : EditSet) : SamePress e (e.apply w edits).2.2 := by
  rw [Engine.apply]
  split
  · exact .refl e
  · split
    · rw [refresh_eq_hear]
      exact samePress_hear e _
    · exact .refl e

theorem samePress_rename (e : Engine) (old new : String) :
    SamePress e (e.rename w old new).2.2 := by
  rw [Engine.rename]
  split
  · exact .refl e
  · next edits _ =>
    have happly := samePress_apply w e edits
    split <;> simp_all

/-! ### What meets requests and publishes -/

theorem presses_catalogs {c : Cache Catalog} {o : Origin Catalog}
    (h : ∃ rs, c.contents = e.catalogs.contents.rebuildAll o rs) :
    Presses e { e with catalogs := c } := by
  intro p hp hrest
  obtain ⟨rs, hrs⟩ := h
  refine ⟨p, [], hp, hrest, ?_⟩
  have hrun := (e.press p).run_catalogs o rs
  rwa [show (e.press p).catalogs.rebuildAll o rs = c.contents from hrs.symm] at hrun

theorem presses_sources {c : Cache (List CallSite)} {o : Origin (List CallSite)}
    (h : ∃ rs, c.contents = e.sources.contents.rebuildAll o rs) :
    Presses e { e with sources := c } := by
  intro p hp hrest
  obtain ⟨rs, hrs⟩ := h
  refine ⟨p, [], hp, hrest, ?_⟩
  have hrun := (e.press p).run_sources o rs
  rwa [show (e.press p).sources.rebuildAll o rs = c.contents from hrs.symm] at hrun

theorem presses_wake (e : Engine) :
    Presses e { e with publisher := e.publisher.map fun p => p.wake e } := by
  intro p hp hrest
  have hpush : (p.runner.onScheduler fun s => s.push ()).AtRest :=
    Runner.AtRest.onScheduler (f := fun s => s.push ()) hrest (Scheduler.batch_push _ _)
  cases htake : p.seen.take? e with
  | none =>
    have hwake : p.wake e = p := by rw [Publisher.wake, htake]
    exact ⟨p, [], by rw [hp, Option.map_some, hwake], hrest, .nil _⟩
  | some seen =>
    have hwake : p.wake e = ⟨p.runner.onScheduler fun s => s.push (), seen⟩ := by
      rw [Publisher.wake, htake]
    have hstep : Press.Step (e.press p) (some (.push ())) ((e.press p).pass seen) := by
      rw [EngineSubscription.take?] at htake
      split at htake
      · next catalogs hcatalogs =>
        obtain rfl := Option.some_inj.1 htake
        exact .seeCatalogs hcatalogs
      · obtain ⟨sources, hsources, rfl⟩ := Option.map_eq_some_iff.1 htake
        exact .seeSources hsources
    exact ⟨_, _, by rw [hp, Option.map_some, hwake], hpush, .cons hstep (.nil _)⟩

theorem presses_forward (e : Engine) : Presses e e.forward := by
  have htwice : e.forward = { e with
      publisher := (e.publisher.map fun p => p.wake e).map fun p => p.wake e } := by
    rw [forward, Option.map_map]
    rfl
  rw [htwice]
  exact (presses_wake e).trans (presses_wake _)

theorem presses_tickPublisher (e : Engine) : Presses e (e.tickPublisher now) := by
  intro p hp hrest
  obtain ⟨ms, hms, -⟩ :=
    Runner.runs_tick (Publisher.worker e.diagnostics) now hrest.coherent e.published
  have hafter := (Runner.tick_of_instant (Publisher.instant_worker e.diagnostics) hrest now
    e.published).1
  have hrun : Press.Run (e.press p) ms
      ⟨e.catalogs.contents, e.sources.contents, p.seen,
        (p.runner.tick (Publisher.worker e.diagnostics) now e.published).1.desk,
        (p.runner.tick (Publisher.worker e.diagnostics) now e.published).2⟩ :=
    Press.run_of_runs hms
  refine ⟨_, ms, by rw [tickPublisher, hp], hafter, ?_⟩
  simpa only [press, tickPublisher, hp] using hrun

/-! ### Whatever an engine does -/

section Routed

variable (h : e.Routed)
include h

theorem presses_tick : Presses e (e.tick w now) := by
  have hpublisher := h.tickPublisher now
  have hcatalogs := hpublisher.tickCatalogs w now
  exact ((((presses_tickPublisher now e).trans
    (presses_catalogs (hpublisher.atRest.catalogs.contents_tick _ now))).trans
    (presses_sources (hcatalogs.atRest.sources.contents_tick _ now))).trans
    (presses_forward _))

theorem presses_flushCatalogs : Presses e (e.flushCatalogs w now) := by
  rw [flushCatalogs]
  split
  · have hpublisher := h.tickPublisher now
    have hflush : Presses (e.tickPublisher now) { e.tickPublisher now with
        catalogs := (e.tickPublisher now).catalogs.flush (catalogOrigin w) now } :=
      presses_catalogs (hpublisher.atRest.catalogs.contents_flush _ now)
    exact (((presses_tickPublisher now e).trans hflush).trans
      (presses_sources (hpublisher.atRest.sources.contents_tick _ now))).trans (presses_forward _)
  · exact .refl e

theorem presses_flushSources : Presses e (e.flushSources w now) := by
  rw [flushSources]
  split
  · have hcatalogs := (h.tickPublisher now).tickCatalogs w now
    exact (((presses_tickPublisher now e).trans
      (presses_catalogs ((h.tickPublisher now).atRest.catalogs.contents_tick _ now))).trans
      (presses_sources (hcatalogs.atRest.sources.contents_flush _ now))).trans (presses_forward _)
  · exact .refl e

theorem presses_flush : Presses e (e.flush w now) :=
  (presses_flushCatalogs w now h).trans (presses_flushSources w now (h.flushCatalogs w now))

end Routed

end Moves

/-- What an engine becomes by whatever it does and is asked to do, apart from publishing anew or no
more. -/
inductive Continues (e₀ : Engine) : Engine → Prop where
  | refl : Continues e₀ e₀
  | event {e : Engine} (r : RebuildRequest) : Continues e₀ e → Continues e₀ (e.handleEvent r).2
  | scan {ω : Type} [Workspace ω] {w : ω} {e : Engine} {s : Scan} : Continues e₀ e →
    e.initialScan w = .ok s → Continues e₀ s.engine
  | flush {ω : Type} [Workspace ω] (w : ω) (now : Nat) {e : Engine} : Continues e₀ e →
    Continues e₀ (e.flush w now)
  | tick {ω : Type} [Workspace ω] (w : ω) (now : Nat) {e : Engine} : Continues e₀ e →
    Continues e₀ (e.tick w now)
  | apply {ω : Type} [Workspace ω] (w : ω) {e : Engine} (edits : EditSet) : Continues e₀ e →
    Continues e₀ (e.apply w edits).2.2
  | rename {ω : Type} [Workspace ω] (w : ω) {e : Engine} (old new : String) : Continues e₀ e →
    Continues e₀ (e.rename w old new).2.2
  | start {e : Engine} : Continues e₀ e → Continues e₀ e.start
  | dispose {e : Engine} : Continues e₀ e → Continues e₀ e.dispose

/-- **Whatever an engine does is a history of its press.** -/
theorem Continues.presses {e₀ e : Engine} (h : Continues e₀ e) (h₀ : e₀.Routed) :
    e.Routed ∧ Presses e₀ e := by
  induction h with
  | refl => exact ⟨h₀, .refl e₀⟩
  | event r _ ih => exact ⟨ih.1.handleEvent r, ih.2.trans (samePress_handleEvent _ r).presses⟩
  | scan _ hscan ih =>
    exact ⟨ih.1.initialScan _ hscan, ih.2.trans (samePress_initialScan _ hscan).presses⟩
  | flush w now _ ih => exact ⟨ih.1.flush w now, ih.2.trans (presses_flush w now ih.1)⟩
  | tick w now _ ih => exact ⟨ih.1.tick w now, ih.2.trans (presses_tick w now ih.1)⟩
  | apply w edits _ ih => exact ⟨ih.1.apply w edits, ih.2.trans (samePress_apply w _ edits).presses⟩
  | rename w old new _ ih =>
    exact ⟨ih.1.rename w old new, ih.2.trans (samePress_rename w _ old new).presses⟩
  | start _ ih => exact ⟨ih.1.start, ih.2.trans (SamePress.presses ⟨rfl, rfl, rfl, rfl⟩)⟩
  | dispose _ ih => exact ⟨ih.1.dispose, ih.2.trans (SamePress.presses ⟨rfl, rfl, rfl, rfl⟩)⟩

/-! ### The last change -/

theorem atRest_newPublisher (interval : Nat) (seen : EngineSubscription) :
    (Publisher.new interval seen).runner.AtRest :=
  (Runner.atRest_new ((Scheduler.new "diagnostics" interval).addStrategy .lastOnly) rfl).start

/-- An engine that has just been asked to publish. -/
theorem keeps_publish (e : Engine) (interval : Nat) :
    ((e.publish interval).press (.new interval e.subscribe)).Keeps
      ((e.publish interval).press (.new interval e.subscribe)) :=
  Press.keeps_self rfl rfl rfl rfl

/-- A periodic cycle of a publisher publishes once at most. -/
theorem published_tickPublisher {p : Publisher} (hp : e.publisher = some p)
    (hrest : p.runner.AtRest) {q : Press} (hkeeps : q.Keeps (e.press p)) (now : Nat) :
    ∃ given, (e.tickPublisher now).published = e.published ++ given ∧ given.length ≤ 1 := by
  have hpublished : (e.tickPublisher now).published =
      (p.runner.tick (Publisher.worker e.diagnostics) now e.published).2 := by
    rw [tickPublisher, hp]
  rw [hpublished]
  rcases (Runner.tick_of_instant (Publisher.instant_worker e.diagnostics) hrest now
    e.published).2 with ⟨hstate, -⟩ | ⟨hstate, -⟩
  · exact ⟨[], by rw [hstate, List.append_nil], Nat.zero_le 1⟩
  · refine ⟨_, by rw [hstate, Publisher.feed_worker], ?_⟩
    rw [List.length_map]
    exact Press.length_taken_le hrest.batch hkeeps.live hkeeps.strategies

/-- **The last change is published.** In every history that begins when an engine is asked to
publish, as soon as the forwarder has seen all changes and the scheduler is idle, either no cache
has changed since or the last diagnostics published are those that hold; and a cycle publishes once
at most. So it is for an engine whatever it does. -/
theorem last_change_published (e : Engine) (interval : Nat) :
    (∀ ms p, Press.Run ((e.publish interval).press (.new interval e.subscribe)) ms p →
      (p.seen = p.current → p.desk.scheduler.isIdle →
        p.catalogs ≠ e.catalogs.contents ∨ p.sources ≠ e.sources.contents →
        ∃ given, p.published = e.published ++ given ∧ given.getLast? = some p.findings) ∧
      ∀ ms' p', Press.Run p (.begin :: ms') p' → .begin ∉ ms' →
        ∃ given, p'.published = p.published ++ given ∧ given.length ≤ 1) ∧
    (e.Reachable → ∀ e', Continues (e.publish interval) e' →
      ∃ p, e'.publisher = some p ∧
        (p.seen = e'.subscribe → p.runner.scheduler.isIdle →
          e'.catalogs.contents ≠ e.catalogs.contents ∨
            e'.sources.contents ≠ e.sources.contents →
          ∃ given, e'.published = e.published ++ given ∧
            given.getLast? = some e'.diagnostics) ∧
        ∀ now, ∃ given, (e'.tickPublisher now).published = e'.published ++ given ∧
          given.length ≤ 1) := by
  have hkeeps := keeps_publish e interval
  refine ⟨fun ms p hrun => ⟨(hrun.keeps hkeeps).getLast?, fun ms' p' hrun' hms' =>
    (hrun.keeps hkeeps).given_of_cycle hrun' hms'⟩, fun he e' hcontinues => ?_⟩
  obtain ⟨p, ms, hp, hrest, hrun⟩ := (hcontinues.presses (he.publish interval).routed).2 _ rfl
    (atRest_newPublisher interval e.subscribe)
  exact ⟨p, hp, (hrun.keeps hkeeps).getLast?,
    published_tickPublisher hp hrest (hrun.keeps hkeeps)⟩

/-- A catalog that is read, which the next cycle of the publisher publishes. -/
theorem last_change_published_sample :
    let w := MemoryWorkspace.empty
    let e := new ⟨[], [], .po, ["/p"], ".po", [], none⟩ .standard 500
    let e' := (((e.publish 100).handleEvent ⟨"/p/en.po", .created, some "msgid"⟩).2.flush w 0).tick
      w 200
    e.Reachable ∧ Continues (e.publish 100) e' ∧ ∃ p, e'.publisher = some p ∧
      p.seen = e'.subscribe ∧ p.runner.scheduler.isIdle ∧
      e'.catalogs.contents ≠ e.catalogs.contents ∧
      ∃ given, e'.published = e.published ++ given ∧ given.getLast? = some e'.diagnostics := by
  intro w e e'
  have he : e.Reachable := .new _ _ _
  have hcontinues : Continues (e.publish 100) e' := .tick w 200 (.flush w 0 (.event _ .refl))
  obtain ⟨p, hp, hlast, -⟩ := (last_change_published e 100).2 he e' hcontinues
  have hstate : e'.publisher.map (fun p => (p.seen, p.runner.scheduler.isIdle)) =
      some (e'.subscribe, true) := by
    decide +kernel
  rw [hp, Option.map_some, Option.some_inj, Prod.mk.injEq] at hstate
  obtain ⟨hseen, hidle⟩ := hstate
  have hchanged : e'.catalogs.contents ≠ e.catalogs.contents := by
    intro h
    have hgeneration : e'.catalogs.contents.generation = 1 := by decide +kernel
    rw [h] at hgeneration
    exact absurd hgeneration (by decide)
  exact ⟨he, hcontinues, p, hp, hseen, hidle, hchanged, hlast hseen hidle (.inl hchanged)⟩

end Engine

end Concord

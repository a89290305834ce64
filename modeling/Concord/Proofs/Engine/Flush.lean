import Concord.Engine
import Concord.Proofs.Cache.Coalescing

/-!
# What events and flushes do to the caches of an engine

An engine passes each event to the cache that the file belongs to, and a flush drains both caches,
whatever the publisher and the periodic cycles do meanwhile. So the two caches of an engine can be
looked at one by one.

* `Engine.catalogs_hear`, `Engine.sources_hear` – the requests that reach each cache;
* `Engine.AtRest.flush_catalogs`, `Engine.AtRest.flush_sources` – what a flush leaves in them.
-/

namespace Concord

/-- Whether the code cache of a target is asked for a file: catalogs come first. -/
def Target.isSourceFile (t : Target) (file : String) : Bool :=
  !t.isCatalogFile file && t.isCodeFile file

namespace Engine

open Schedule

/-- Hear of some events one after the other. -/
def hear (e : Engine) (rs : List RebuildRequest) : Engine :=
  rs.foldl (fun e r => (e.handleEvent r).2) e

/-- Both caches are at rest. -/
structure AtRest (e : Engine) : Prop where
  catalogs : e.catalogs.AtRest
  sources : e.sources.AtRest

theorem atRest_new (t : Target) (reader : Source.Reader) (interval : Nat) :
    (new t reader interval).AtRest :=
  ⟨Cache.atRest_new _ _, Cache.atRest_new _ _⟩

/-! ### Events -/

@[simp] theorem target_handleEvent (e : Engine) (r : RebuildRequest) :
    (e.handleEvent r).2.target = e.target := by
  rw [handleEvent]
  split
  · rfl
  · split <;> rfl

@[simp] theorem reader_handleEvent (e : Engine) (r : RebuildRequest) :
    (e.handleEvent r).2.reader = e.reader := by
  rw [handleEvent]
  split
  · rfl
  · split <;> rfl

theorem catalogs_handleEvent (e : Engine) (r : RebuildRequest) :
    (e.handleEvent r).2.catalogs =
      if e.target.isCatalogFile r.file then e.catalogs.request r else e.catalogs := by
  rw [handleEvent]
  split
  · rfl
  · split <;> rfl

theorem sources_handleEvent (e : Engine) (r : RebuildRequest) :
    (e.handleEvent r).2.sources =
      if e.target.isSourceFile r.file then e.sources.request r else e.sources := by
  rw [handleEvent, Target.isSourceFile]
  cases e.target.isCatalogFile r.file <;> cases e.target.isCodeFile r.file <;> rfl

theorem AtRest.handleEvent {e : Engine} (h : e.AtRest) (r : RebuildRequest) :
    (e.handleEvent r).2.AtRest := by
  refine ⟨?_, ?_⟩
  · rw [catalogs_handleEvent]
    split
    · exact h.catalogs.request r
    · exact h.catalogs
  · rw [sources_handleEvent]
    split
    · exact h.sources.request r
    · exact h.sources

@[simp] theorem hear_nil (e : Engine) : e.hear [] = e := rfl

@[simp] theorem hear_cons (e : Engine) (r : RebuildRequest) (rs : List RebuildRequest) :
    e.hear (r :: rs) = (e.handleEvent r).2.hear rs := rfl

@[simp] theorem target_hear (e : Engine) (rs : List RebuildRequest) :
    (e.hear rs).target = e.target := by
  induction rs generalizing e with
  | nil => rfl
  | cons r rs ih => rw [hear_cons, ih, target_handleEvent]

@[simp] theorem reader_hear (e : Engine) (rs : List RebuildRequest) :
    (e.hear rs).reader = e.reader := by
  induction rs generalizing e with
  | nil => rfl
  | cons r rs ih => rw [hear_cons, ih, reader_handleEvent]

/-- **The catalog cache is asked for the catalogs among the files of the events.** -/
theorem catalogs_hear (e : Engine) (rs : List RebuildRequest) :
    (e.hear rs).catalogs =
      e.catalogs.requestAll (rs.filter fun r => e.target.isCatalogFile r.file) := by
  induction rs generalizing e with
  | nil => rfl
  | cons r rs ih =>
    rw [hear_cons, ih, catalogs_handleEvent, target_handleEvent, List.filter_cons]
    split <;> rfl

/-- **The code cache is asked for the code among the files of the events.** -/
theorem sources_hear (e : Engine) (rs : List RebuildRequest) :
    (e.hear rs).sources =
      e.sources.requestAll (rs.filter fun r => e.target.isSourceFile r.file) := by
  induction rs generalizing e with
  | nil => rfl
  | cons r rs ih =>
    rw [hear_cons, ih, sources_handleEvent, target_handleEvent, List.filter_cons]
    split <;> rfl

theorem AtRest.hear {e : Engine} (h : e.AtRest) (rs : List RebuildRequest) :
    (e.hear rs).AtRest := by
  induction rs generalizing e with
  | nil => exact h
  | cons r rs ih => exact ih (h.handleEvent r)

/-! ### The publisher -/

/-- Two engines that differ at most in what they publish. -/
structure SameCaches (e e' : Engine) : Prop where
  target : e'.target = e.target
  reader : e'.reader = e.reader
  catalogs : e'.catalogs = e.catalogs
  sources : e'.sources = e.sources

theorem sameCaches_tickPublisher (now : Nat) (e : Engine) : SameCaches e (e.tickPublisher now) := by
  rw [tickPublisher]
  split <;> exact ⟨rfl, rfl, rfl, rfl⟩

/-! ### Flushes -/

variable {ω : Type} [Workspace ω] (w : ω) (now : Nat)

theorem catalogs_flushCatalogs (e : Engine) :
    (e.flushCatalogs w now).catalogs = e.catalogs.flush (catalogOrigin w) now := by
  rw [flushCatalogs]
  split
  · change (e.tickPublisher now).catalogs.flush (catalogOrigin w) now = _
    rw [(sameCaches_tickPublisher now e).catalogs]
  · next h => rw [Cache.flush, if_neg h]

theorem sources_flushCatalogs (e : Engine) :
    (e.flushCatalogs w now).sources = e.sources ∨
      (e.flushCatalogs w now).sources = e.sources.tick (e.sourceOrigin w) now := by
  rw [flushCatalogs]
  split
  · right
    have h := sameCaches_tickPublisher now e
    change (e.tickPublisher now).sources.tick ((e.tickPublisher now).sourceOrigin w) now = _
    rw [h.sources, sourceOrigin, h.target, h.reader]
    rfl
  · exact Or.inl rfl

theorem sources_flushSources (e : Engine) :
    (e.flushSources w now).sources = e.sources.flush (e.sourceOrigin w) now := by
  rw [flushSources]
  split
  · have h := sameCaches_tickPublisher now e
    change (e.tickPublisher now).sources.flush ((e.tickPublisher now).sourceOrigin w) now = _
    rw [h.sources, sourceOrigin, h.target, h.reader]
    rfl
  · next h => rw [Cache.flush, if_neg h]

theorem catalogs_flushSources (e : Engine) :
    (e.flushSources w now).catalogs = e.catalogs ∨
      (e.flushSources w now).catalogs = e.catalogs.tick (catalogOrigin w) now := by
  rw [flushSources]
  split
  · right
    change (e.tickPublisher now).catalogs.tick (catalogOrigin w) now = _
    rw [(sameCaches_tickPublisher now e).catalogs]
  · exact Or.inl rfl

theorem target_flushCatalogs (e : Engine) : (e.flushCatalogs w now).target = e.target := by
  rw [flushCatalogs]
  split
  · exact (sameCaches_tickPublisher now e).target
  · rfl

theorem reader_flushCatalogs (e : Engine) : (e.flushCatalogs w now).reader = e.reader := by
  rw [flushCatalogs]
  split
  · exact (sameCaches_tickPublisher now e).reader
  · rfl

@[simp] theorem target_flush (e : Engine) : (e.flush w now).target = e.target := by
  rw [flush, ← target_flushCatalogs w now e, flushSources]
  split
  · exact (sameCaches_tickPublisher now _).target
  · rfl

@[simp] theorem reader_flush (e : Engine) : (e.flush w now).reader = e.reader := by
  rw [flush, ← reader_flushCatalogs w now e, flushSources]
  split
  · exact (sameCaches_tickPublisher now _).reader
  · rfl

theorem sourceOrigin_flushCatalogs (e : Engine) :
    (e.flushCatalogs w now).sourceOrigin w = e.sourceOrigin w := by
  rw [sourceOrigin, target_flushCatalogs, reader_flushCatalogs, sourceOrigin]

section AtRest

variable {e : Engine} (h : e.AtRest)
include h

/-- **A flush drains the catalog cache.** -/
theorem AtRest.flush_catalogs :
    (e.flush w now).catalogs.AtRest ∧ (e.flush w now).catalogs.pending = [] ∧
      (e.flush w now).catalogs.snapshot = e.catalogs.drained (catalogOrigin w) ∧
      (e.flush w now).catalogs.disposed = e.catalogs.disposed := by
  have hrest := h.catalogs.flush (catalogOrigin w) now
  have hpending := h.catalogs.pending_flush (catalogOrigin w) now
  have hsnapshot := h.catalogs.snapshot_flush (catalogOrigin w) now
  have hdisposed := h.catalogs.disposed_flush (catalogOrigin w) now
  rw [← catalogs_flushCatalogs w now e] at hrest hpending hsnapshot hdisposed
  rw [flush]
  -- while the code is flushed the catalogs may do a periodic cycle, with nothing left to read
  rcases catalogs_flushSources w now (e.flushCatalogs w now) with heq | heq <;> rw [heq]
  · exact ⟨hrest, hpending, hsnapshot, hdisposed⟩
  · exact ⟨hrest.tick _ now, hrest.pending_tick _ now hpending,
      (hrest.snapshot_tick _ now hpending).trans hsnapshot,
      (hrest.disposed_tick _ now).trans hdisposed⟩

/-- **A flush drains the code cache.** -/
theorem AtRest.flush_sources :
    (e.flush w now).sources.AtRest ∧ (e.flush w now).sources.pending = [] ∧
      (e.flush w now).sources.snapshot = e.sources.drained (e.sourceOrigin w) ∧
      (e.flush w now).sources.disposed = e.sources.disposed := by
  -- before its turn the code cache may have done a periodic cycle
  have hturn : (e.flushCatalogs w now).sources.AtRest ∧
      (e.flushCatalogs w now).sources.drained (e.sourceOrigin w) =
        e.sources.drained (e.sourceOrigin w) ∧
      (e.flushCatalogs w now).sources.disposed = e.sources.disposed := by
    rcases sources_flushCatalogs w now e with heq | heq <;> rw [heq]
    · exact ⟨h.sources, rfl, rfl⟩
    · exact ⟨h.sources.tick _ now, h.sources.drained_tick _ now, h.sources.disposed_tick _ now⟩
  obtain ⟨hrest, hdrained, hdisposed⟩ := hturn
  rw [flush, sources_flushSources, sourceOrigin_flushCatalogs]
  exact ⟨hrest.flush _ now, hrest.pending_flush _ now,
    (hrest.snapshot_flush _ now).trans hdrained, (hrest.disposed_flush _ now).trans hdisposed⟩

theorem AtRest.flush : (e.flush w now).AtRest :=
  ⟨(h.flush_catalogs w now).1, (h.flush_sources w now).1⟩

end AtRest

end Engine

end Concord

import Concord.Proofs.Engine.Flush
import Concord.Proofs.Source.Sites

/-!
# What holds of every engine

An engine asks each of its caches only for files that belong to it: the catalog cache for catalogs,
the code cache for code that is not taken for a catalog. So nothing else is ever pending or held
there, and what is held for a file was read from some text of that file. This is an invariant of
everything an engine does, in whatever order, with whatever workspace (`Engine.Reachable.routed`).
-/

namespace Concord

universe u

namespace Cache

open Schedule

variable {β : Type u}

/-- A cache that holds and asks for nothing but files that belong to it, and holds only what `p`
admits for them. -/
structure Only (belongs : String → Bool) (p : String → β → Prop) (c : Cache β) : Prop where
  atRest : c.AtRest
  pending (r : RebuildRequest) : r ∈ c.pending → belongs r.file
  held (file : String) (value : β) : c.get? file = some value → belongs file ∧ p file value

variable {belongs : String → Bool} {p : String → β → Prop} {c c' : Cache β}

theorem mem_values_snapshot_iff {value : β} :
    value ∈ c.snapshot.values ↔ ∃ file, c.get? file = some value := by
  simp only [Dict.values, List.mem_map, get?, snapshot, Dict.get?_eq_some_iff, Prod.exists,
    exists_eq_right]

theorem outcome_eq_some {o : Origin β} {r : RebuildRequest} {value : β}
    (h : o.outcome r = some value) : ∃ text, value = o.parse r.file text := by
  rw [Origin.outcome] at h
  split at h
  · simp at h
  all_goals
    split at h
    · next text _ => exact ⟨text, (Option.some_inj.1 h).symm⟩
    · obtain ⟨text, -, rfl⟩ := Option.map_eq_some_iff.1 h
      exact ⟨text, rfl⟩

theorem only_new (name : String) (interval : Nat) :
    (new name interval : Cache β).Only belongs p :=
  ⟨atRest_new name interval, fun _ hr => absurd hr List.not_mem_nil, fun _ _ h => nomatch h⟩

theorem Only.request (h : c.Only belongs p) {r : RebuildRequest} (hr : belongs r.file) :
    (c.request r).Only belongs p := by
  refine ⟨h.atRest.request r, fun r' hr' => ?_, h.held⟩
  rw [pending_request] at hr'
  split at hr'
  · exact h.pending r' hr'
  · rcases List.mem_append.1 hr' with hr' | hr'
    · exact h.pending r' hr'
    · exact List.mem_singleton.1 hr' ▸ hr

/-- A move that meets some of the pending requests, or none, and adds none. -/
theorem Only.of_rebuildAll [DecidableEq β] (h : c.Only belongs p) (o : Origin β)
    (hp : ∀ file text, belongs file → p file (o.parse file text)) (hrest : c'.AtRest)
    {rs : List RebuildRequest} (hrs : rs ⊆ c.pending)
    (hcontents : c'.contents = c.contents.rebuildAll o rs) (hpending : c'.pending ⊆ c.pending) :
    c'.Only belongs p := by
  refine ⟨hrest, fun r hr => h.pending r (hpending hr), fun file value hvalue => ?_⟩
  rw [get?, hcontents, Contents.get?_rebuildAll] at hvalue
  -- a value was there before or was read for a request that was pending
  cases hlast : RebuildRequest.lastFor file rs with
  | none =>
    rw [hlast] at hvalue
    exact h.held file value hvalue
  | some r =>
    obtain ⟨hr, rfl⟩ := RebuildRequest.file_of_lastFor hlast
    rw [hlast] at hvalue
    obtain ⟨text, rfl⟩ := outcome_eq_some hvalue
    exact ⟨h.pending r (hrs hr), hp r.file text (h.pending r (hrs hr))⟩

theorem Only.flush [DecidableEq β] (h : c.Only belongs p) (o : Origin β) (now : Nat)
    (hp : ∀ file text, belongs file → p file (o.parse file text)) :
    (c.flush o now).Only belongs p := by
  rcases h.atRest.flush_eq o now with heq | ⟨heq, -⟩ <;> rw [heq]
  · refine h.of_rebuildAll o hp (h.atRest.cycle o now) ?_ (h.atRest.contents_cycle o now) ?_
    · rw [h.atRest.met_eq]
      exact (Strategy.latest_sublist _ _).subset
    · rw [h.atRest.pending_cycle]
      exact List.nil_subset _
  · exact h

theorem Only.tick [DecidableEq β] (h : c.Only belongs p) (o : Origin β) (now : Nat)
    (hp : ∀ file text, belongs file → p file (o.parse file text)) :
    (c.tick o now).Only belongs p := by
  rcases h.atRest.tick_cases o now with ⟨hcontents, hscheduler⟩ | ⟨hcontents, hscheduler⟩
  · refine h.of_rebuildAll o hp (h.atRest.tick o now) (List.nil_subset _) hcontents ?_
    rw [Cache.pending, hscheduler]
    exact List.Subset.refl _
  · refine h.of_rebuildAll o hp (h.atRest.tick o now) ?_ hcontents ?_
    · rw [h.atRest.taken]
      exact (Strategy.latest_sublist _ _).subset
    · rw [Cache.pending, hscheduler, h.atRest.pending_cleared]
      exact List.nil_subset _

theorem Only.start (h : c.Only belongs p) : c.start.Only belongs p := by
  refine ⟨h.atRest.start, fun r hr => h.pending r ?_, h.held⟩
  rw [Cache.pending, Cache.start, Runner.scheduler_start] at hr
  exact hr

theorem Only.dispose (h : c.Only belongs p) : c.dispose.Only belongs p := by
  refine ⟨h.atRest.dispose, fun r hr => ?_, h.held⟩
  rw [Cache.pending, Cache.dispose, Runner.scheduler_dispose] at hr
  exact absurd hr List.not_mem_nil

end Cache

namespace Engine

open Schedule

theorem file_of_mem_parseSource {t : Target} {reader : Source.Reader} {file text : String}
    {s : CallSite} (h : s ∈ parseSource t reader file text) : s.location.file = file := by
  rw [parseSource] at h
  split at h
  · exact Source.file_of_mem_extract h
  · exact absurd h List.not_mem_nil

/-! ### The invariant -/

/-- Each cache of an engine holds and asks for its own files, and what it holds for a file was read
from a text. -/
structure Routed (e : Engine) : Prop where
  catalogs : e.catalogs.Only e.target.isCatalogFile fun file c =>
    ∃ text, c = Catalog.parse file text
  sources : e.sources.Only e.target.isSourceFile fun file sites =>
    ∃ text, sites = parseSource e.target e.reader file text

theorem Routed.atRest {e : Engine} (h : e.Routed) : e.AtRest :=
  ⟨h.catalogs.atRest, h.sources.atRest⟩

/-- **The call sites of a key are those that are held for it**, each for the file it stands in. -/
theorem Routed.mem_codeSites_iff {e : Engine} (h : e.Routed) {key : String} {s : CallSite} :
    s ∈ e.codeSites key ↔
      s.key = key ∧ ∃ sites, e.sources.get? s.location.file = some sites ∧ s ∈ sites := by
  simp only [codeSites, List.mem_mergeSort, List.mem_flatMap, List.mem_filter, decide_eq_true_eq,
    Cache.mem_values_snapshot_iff]
  constructor
  · rintro ⟨sites, ⟨file, hsites⟩, hs, hkey⟩
    obtain ⟨-, text, rfl⟩ := h.sources.held file sites hsites
    obtain rfl := file_of_mem_parseSource hs
    exact ⟨hkey, _, hsites, hs⟩
  · rintro ⟨hkey, sites, hsites, hs⟩
    exact ⟨sites, ⟨_, hsites⟩, hs, hkey⟩

theorem routed_new (t : Target) (reader : Source.Reader) (interval : Nat) :
    (new t reader interval).Routed :=
  ⟨Cache.only_new _ _, Cache.only_new _ _⟩

theorem Routed.handleEvent {e : Engine} (h : e.Routed) (r : RebuildRequest) :
    (e.handleEvent r).2.Routed := by
  refine ⟨?_, ?_⟩
  · rw [catalogs_handleEvent, target_handleEvent]
    split
    · next hr => exact h.catalogs.request hr
    · exact h.catalogs
  · rw [sources_handleEvent, target_handleEvent, reader_handleEvent]
    split
    · next hr => exact h.sources.request hr
    · exact h.sources

theorem Routed.hear {e : Engine} (h : e.Routed) (rs : List RebuildRequest) :
    (e.hear rs).Routed := by
  induction rs generalizing e with
  | nil => exact h
  | cons r rs ih => exact ih (h.handleEvent r)

/-- The invariant is about the caches, not about what is published. -/
theorem Routed.of_sameCaches {e e' : Engine} (h : e.Routed) (hsame : SameCaches e e') :
    e'.Routed := by
  refine ⟨?_, ?_⟩
  · rw [hsame.catalogs, hsame.target]
    exact h.catalogs
  · rw [hsame.sources, hsame.target, hsame.reader]
    exact h.sources

section Moves

variable {ω : Type} [Workspace ω] (w : ω) (now : Nat) {e : Engine}

/-- **A scan is a number of events**: what each event keeps, a scan keeps. -/
theorem initialScan_induction {P : Engine → Prop}
    (hevent : ∀ e r, P e → P (Engine.handleEvent e r).2) (he : P e) {scan : Scan}
    (hscan : e.initialScan w = .ok scan) : P scan.engine := by
  -- looking at one more file is at most one more event
  have hfold : ∀ (files : List String) (s : Scan), P s.engine →
      P (files.foldl (scanFile w) s).engine := by
    intro files
    induction files with
    | nil => exact fun _ hs => hs
    | cons file files ih =>
      refine fun s hs => ih _ ?_
      rw [scanFile]
      split
      · exact hs
      · exact hevent _ _ hs
  rw [Engine.initialScan] at hscan
  cases hfiles : targetFiles w e.target with
  | error error => simp [hfiles, bind, Except.bind] at hscan
  | ok files =>
    obtain rfl : files.foldl (scanFile w) ⟨e, 0, []⟩ = scan := by
      simpa [hfiles, bind, Except.bind, pure, Except.pure] using hscan
    exact hfold files _ he

variable (h : e.Routed)
include h

theorem Routed.tickCatalogs : (e.tickCatalogs w now).Routed :=
  ⟨h.catalogs.tick _ now fun _ text _ => ⟨text, rfl⟩, h.sources⟩

theorem Routed.tickSources : (e.tickSources w now).Routed :=
  ⟨h.catalogs, h.sources.tick _ now fun _ text _ => ⟨text, rfl⟩⟩

theorem Routed.tickPublisher : (e.tickPublisher now).Routed :=
  h.of_sameCaches (sameCaches_tickPublisher now e)

theorem Routed.forward : e.forward.Routed := h.of_sameCaches ⟨rfl, rfl, rfl, rfl⟩

theorem Routed.tick : (e.tick w now).Routed :=
  (((h.tickPublisher now).tickCatalogs w now).tickSources w now).forward

/-- Meeting all requests for catalogs, in a flush. -/
theorem Routed.drainCatalogs :
    Routed { e with catalogs := e.catalogs.flush (catalogOrigin w) now } :=
  ⟨h.catalogs.flush _ now fun _ text _ => ⟨text, rfl⟩, h.sources⟩

/-- Meeting all requests for code, in a flush. -/
theorem Routed.drainSources :
    Routed { e with sources := e.sources.flush (e.sourceOrigin w) now } :=
  ⟨h.catalogs, h.sources.flush _ now fun _ text _ => ⟨text, rfl⟩⟩

theorem Routed.flushCatalogs : (e.flushCatalogs w now).Routed := by
  rw [Engine.flushCatalogs]
  split
  · exact (((h.tickPublisher now).drainCatalogs w now).tickSources w now).forward
  · exact h

theorem Routed.flushSources : (e.flushSources w now).Routed := by
  rw [Engine.flushSources]
  split
  · exact (((h.tickPublisher now).tickCatalogs w now).drainSources w now).forward
  · exact h

theorem Routed.flush : (e.flush w now).Routed := (h.flushCatalogs w now).flushSources w now

theorem Routed.initialScan {scan : Scan} (hscan : e.initialScan w = .ok scan) :
    scan.engine.Routed :=
  initialScan_induction w (fun _ r he => he.handleEvent r) h hscan

omit h in
/-- Asking for edited files anew is hearing that they changed. -/
theorem refresh_eq_hear (e : Engine) (edits : EditSet) :
    e.refresh edits = e.hear (edits.files.map fun f => ⟨f.1, .changed, none⟩) := by
  rw [refresh, Engine.hear, List.foldl_map]

theorem Routed.apply (edits : EditSet) : (e.apply w edits).2.2.Routed := by
  rw [Engine.apply]
  split
  · exact h
  · split
    · rw [refresh_eq_hear]
      exact h.hear _
    · exact h

theorem Routed.rename (old new : String) : (e.rename w old new).2.2.Routed := by
  rw [Engine.rename]
  split
  · exact h
  · next edits _ =>
    have happly := h.apply w edits
    split <;> simp_all

end Moves

theorem Routed.start {e : Engine} (h : e.Routed) : e.start.Routed :=
  ⟨h.catalogs.start, h.sources.start⟩

theorem Routed.dispose {e : Engine} (h : e.Routed) : e.dispose.Routed :=
  ⟨h.catalogs.dispose, h.sources.dispose⟩

/-! ### Any engine -/

/-- The engines there are: a new one, and what everything that an engine does makes of it, whatever
the workspace is at each step. -/
inductive Reachable : Engine → Prop where
  | new (t : Target) (reader : Source.Reader) (interval : Nat) : Reachable (.new t reader interval)
  | event {e : Engine} (r : RebuildRequest) : Reachable e → Reachable (e.handleEvent r).2
  | scan {ω : Type} [Workspace ω] {w : ω} {e : Engine} {s : Scan} : Reachable e →
    e.initialScan w = .ok s → Reachable s.engine
  | flush {ω : Type} [Workspace ω] (w : ω) (now : Nat) {e : Engine} : Reachable e →
    Reachable (e.flush w now)
  | tick {ω : Type} [Workspace ω] (w : ω) (now : Nat) {e : Engine} : Reachable e →
    Reachable (e.tick w now)
  | apply {ω : Type} [Workspace ω] (w : ω) {e : Engine} (edits : EditSet) : Reachable e →
    Reachable (e.apply w edits).2.2
  | rename {ω : Type} [Workspace ω] (w : ω) {e : Engine} (old new : String) : Reachable e →
    Reachable (e.rename w old new).2.2
  | start {e : Engine} : Reachable e → Reachable e.start
  | dispose {e : Engine} : Reachable e → Reachable e.dispose
  | publish {e : Engine} (interval : Nat) : Reachable e → Reachable (e.publish interval)
  | stopPublishing {e : Engine} : Reachable e → Reachable e.stopPublishing

/-- **Every engine holds and asks for nothing but its own files.** -/
theorem Reachable.routed {e : Engine} (he : Reachable e) : e.Routed := by
  induction he with
  | new t reader interval => exact routed_new t reader interval
  | event r _ ih => exact ih.handleEvent r
  | scan _ hscan ih => exact ih.initialScan _ hscan
  | flush w now _ ih => exact ih.flush w now
  | tick w now _ ih => exact ih.tick w now
  | apply w edits _ ih => exact ih.apply w edits
  | rename w old new _ ih => exact ih.rename w old new
  | start _ ih => exact ih.start
  | dispose _ ih => exact ih.dispose
  | publish interval _ ih => exact ih.of_sameCaches ⟨rfl, rfl, rfl, rfl⟩
  | stopPublishing _ ih => exact ih.of_sameCaches ⟨rfl, rfl, rfl, rfl⟩

end Engine

end Concord

import Concord.Proofs.Engine.Scan

/-!
# Following changes is as good as a new scan

An engine that scanned a workspace and is then told of every change of a file need not scan again:
after a flush it holds what a new engine would hold after scanning the workspace as it is now. It
does not matter in which order files change and flushes come, nor whether an event carries the new
text or leaves it to be read later.

The invariant is about one cache and the files of the workspace (`Cache.Tracks`). It does not speak
of what was read so far, which may be out of date, but of what *would be* read if the cache were
drained now: for each file that belongs to the cache, what its present text says. A change makes
this true again by itself (`Cache.Tracks.change`), since the event for the file is now the last
request for it, and every other pending request reads files that did not change. A flush turns what
would be read into what was read.

* `Engine.follows_run` – the invariant along a run of changes and flushes;
* `Engine.incremental_eq_scan` – **the caches of an engine that followed the changes and those of a
  new engine are equal**, and so is all that is answered from them.
-/

namespace Concord

universe u

/-- Where requests get what they need when some files are held in memory. -/
def Origin.ofFiles {β : Type u} (files : Dict String) (parse : String → String → β) : Origin β :=
  ⟨(MemoryWorkspace.ofFiles files).readText, parse⟩

namespace Cache

open Schedule

variable {β : Type u} [DecidableEq β]

/-- Drained now, a cache would hold what the present text of each file says that belongs to it. -/
structure Tracks (c : Cache β) (files : Dict String) (parse : String → String → β)
    (belongs : String → Bool) : Prop where
  atRest : c.AtRest
  live : c.disposed = false
  pending (r : RebuildRequest) : r ∈ c.pending → belongs r.file
  drained (file : String) : (c.drained (.ofFiles files parse)).get? file =
    if belongs file then (files.get? file).map (parse file) else none

variable {c : Cache β} {files : Dict String} {parse : String → String → β}
  {belongs : String → Bool}

omit [DecidableEq β] in
/-- Two origins with one parser give the same for a file that they read the same text of. -/
theorem outcome_ofFiles_congr {files' : Dict String} {r : RebuildRequest}
    (h : files'.get? r.file = files.get? r.file) :
    (Origin.ofFiles files parse).outcome r = (Origin.ofFiles files' parse).outcome r := by
  simp only [Origin.outcome, Origin.ofFiles, MemoryWorkspace.readText_ofFiles, h]

/-- **A change and its event keep a cache on track**, whether the file belongs to it or not. -/
theorem Tracks.change (h : c.Tracks files parse belongs) {files' : Dict String}
    {r : RebuildRequest} (hfiles : ∀ q, q ≠ r.file → files'.get? q = files.get? q)
    (hr : (Origin.ofFiles files' parse).outcome r = (files'.get? r.file).map (parse r.file)) :
    (if belongs r.file then c.request r else c).Tracks files' parse belongs := by
  -- what is pending reads the same as before for every file but the changed one
  have hother : ∀ q, q ≠ r.file →
      (c.drained (.ofFiles files' parse)).get? q =
        if belongs q then (files'.get? q).map (parse q) else none := by
    intro q hq
    rw [hfiles q hq, ← h.drained q]
    refine Contents.get?_rebuildAll_congr (fun x _ hx => (outcome_ofFiles_congr ?_).symm)
      fun _ => rfl
    rw [hx, hfiles q hq]
  by_cases hb : belongs r.file
  · rw [if_pos hb]
    have hpending : (c.request r).pending = c.pending ++ [r] := by
      rw [pending_request, h.live]
      rfl
    refine ⟨h.atRest.request r, by rw [disposed_request, h.live], fun x hx => ?_, fun q => ?_⟩
    · rw [hpending, List.mem_append, List.mem_singleton] at hx
      rcases hx with hx | rfl
      · exact h.pending x hx
      · exact hb
    · rw [Cache.drained, hpending, contents_request, Contents.rebuildAll_append,
        Contents.rebuildAll_cons, Contents.rebuildAll_nil, Contents.get?_rebuild]
      split
      · next hq => rw [hr, hq, if_pos hb]
      · next hq => exact hother q hq
  · rw [if_neg hb]
    refine ⟨h.atRest, h.live, h.pending, fun q => ?_⟩
    by_cases hq : q = r.file
    · -- no request is pending for a file that does not belong to the cache
      rw [hq, if_neg hb]
      have hold := h.drained r.file
      rw [if_neg hb] at hold
      rw [← hold]
      refine Contents.get?_rebuildAll_congr (fun x hx hfile => ?_) fun _ => rfl
      exact absurd (hfile ▸ h.pending x hx) hb
    · exact hother q hq

/-- What a flush makes of a cache on track: it still is, and it holds what it tracks. -/
theorem Tracks.of_drained (h : c.Tracks files parse belongs) {c' : Cache β} (hrest : c'.AtRest)
    (hpending : c'.pending = [])
    (hsnapshot : c'.snapshot = c.drained (.ofFiles files parse))
    (hdisposed : c'.disposed = c.disposed) : c'.Tracks files parse belongs := by
  refine ⟨hrest, hdisposed.trans h.live, fun r hr => ?_, fun file => ?_⟩
  · rw [hpending] at hr
    exact absurd hr List.not_mem_nil
  · rw [drained_of_pending _ hpending, hsnapshot, h.drained]

/-- **Two caches that track the same files would be drained to the same entries.** -/
theorem Tracks.drained_eq (h : c.Tracks files parse belongs) {c' : Cache β}
    (h' : c'.Tracks files parse belongs) :
    c.drained (.ofFiles files parse) = c'.drained (.ofFiles files parse) :=
  Dict.ext_get? fun file => by rw [h.drained, h'.drained]

/-- A new cache that is asked for all files that belong to it, with their texts, is on track. -/
theorem tracks_of_scan (name : String) (interval : Nat) {found : List String}
    (hfound : ∀ file ∈ files.keys, belongs file → file ∈ found) :
    ((new name interval : Cache β).requestAll
      ((Engine.scanRequests files found).filter fun r => belongs r.file)).Tracks
        files parse belongs := by
  have hrequest : ∀ r ∈ (Engine.scanRequests files found).filter (fun r => belongs r.file),
      belongs r.file ∧ ∃ text, files.get? r.file = some text ∧
        r = ⟨r.file, .created, some text⟩ := by
    intro r hr
    obtain ⟨hscan, hb⟩ := List.mem_filter.1 hr
    obtain ⟨file, -, hmap⟩ := List.mem_filterMap.1 hscan
    obtain ⟨text, htext, rfl⟩ := Option.map_eq_some_iff.1 hmap
    exact ⟨hb, text, htext, rfl⟩
  have hpending : ((new name interval : Cache β).requestAll
      ((Engine.scanRequests files found).filter fun r => belongs r.file)).pending =
        (Engine.scanRequests files found).filter fun r => belongs r.file := by
    rw [pending_requestAll]
    rfl
  refine ⟨(atRest_new _ _).requestAll _, by rw [disposed_requestAll]; rfl, fun r hr => ?_,
    fun file => ?_⟩
  · rw [hpending] at hr
    exact (hrequest r hr).1
  · rw [Cache.drained, hpending, contents_requestAll, Contents.get?_rebuildAll]
    cases hlast : RebuildRequest.lastFor file
        ((Engine.scanRequests files found).filter fun r => belongs r.file) with
    | some r =>
      obtain ⟨hmem, rfl⟩ := RebuildRequest.file_of_lastFor hlast
      obtain ⟨hb, text, htext, hr⟩ := hrequest r hmem
      rw [if_pos hb, htext, hr]
      rfl
    | none =>
      -- then the file is not there, or does not belong to the cache
      have hnone := RebuildRequest.lastFor_eq_none_iff.1 hlast
      split
      · next hb =>
        cases htext : files.get? file with
        | none => rfl
        | some text =>
          have hkey : file ∈ files.keys := Dict.mem_keys_iff.2 ⟨text, htext⟩
          refine absurd rfl (hnone ⟨file, .created, some text⟩ (List.mem_filter.2 ⟨?_, hb⟩))
          exact List.mem_filterMap.2 ⟨file, hfound file hkey hb, by rw [htext]; rfl⟩
      · rfl

end Cache

namespace Engine

open MemoryWorkspace

/-- A change of one file that the engine is told of, or a flush. The event of a change says that
the file is new or was changed, and may carry the text; the event of a removal may carry any. -/
inductive Turn where
  | write (file text : String) (isNew carried : Bool)
  | remove (file : String) (text : Option String)
  | flush (now : Nat)
deriving DecidableEq, Repr

namespace Turn

/-- The file that a turn changes. -/
def file? : Turn → Option String
  | write file .. => some file
  | remove file _ => some file
  | flush _ => none

/-- What a turn does to the workspace and to the engine. -/
def apply (s : MemoryWorkspace × Engine) : Turn → MemoryWorkspace × Engine
  | write file text isNew carried =>
    (s.1.put file text,
      (s.2.handleEvent ⟨file, if isNew then .created else .changed,
        if carried then some text else none⟩).2)
  | remove file text => (s.1.remove file, (s.2.handleEvent ⟨file, .deleted, text⟩).2)
  | flush now => (s.1, s.2.flush s.1 now)

/-- What some turns do, one after the other. -/
def run (turns : List Turn) (s : MemoryWorkspace × Engine) : MemoryWorkspace × Engine :=
  turns.foldl apply s

end Turn

/-- Drained now, both caches of an engine would hold what the files say. -/
structure Follows (files : Dict String) (e : Engine) : Prop where
  catalogs : e.catalogs.Tracks files Catalog.parse e.target.isCatalogFile
  sources : e.sources.Tracks files (parseSource e.target e.reader) e.target.isSourceFile

theorem Follows.atRest {files : Dict String} {e : Engine} (h : e.Follows files) : e.AtRest :=
  ⟨h.catalogs.atRest, h.sources.atRest⟩

theorem Follows.change {files files' : Dict String} {e : Engine} (h : e.Follows files)
    {r : RebuildRequest} (hfiles : ∀ q, q ≠ r.file → files'.get? q = files.get? q)
    (hr : ∀ {β : Type} (parse : String → String → β),
      (Origin.ofFiles files' parse).outcome r = (files'.get? r.file).map (parse r.file)) :
    (e.handleEvent r).2.Follows files' := by
  refine ⟨?_, ?_⟩
  · rw [catalogs_handleEvent, target_handleEvent]
    exact h.catalogs.change hfiles (hr _)
  · rw [sources_handleEvent, target_handleEvent, reader_handleEvent]
    exact h.sources.change hfiles (hr _)

theorem Follows.flush {files : Dict String} {e : Engine} (h : e.Follows files) (now : Nat) :
    (e.flush (ofFiles files) now).Follows files := by
  obtain ⟨hrest, hpending, hsnapshot, hdisposed⟩ := h.atRest.flush_catalogs (ofFiles files) now
  obtain ⟨hrest', hpending', hsnapshot', hdisposed'⟩ := h.atRest.flush_sources (ofFiles files) now
  refine ⟨?_, ?_⟩
  · rw [target_flush]
    exact h.catalogs.of_drained hrest hpending hsnapshot hdisposed
  · rw [target_flush, reader_flush]
    exact h.sources.of_drained hrest' hpending' hsnapshot' hdisposed'

/-- **One turn**: the engine goes on following the files. -/
theorem Follows.apply {files : Dict String} {e : Engine} (h : e.Follows files) (turn : Turn) :
    ∃ files', (turn.apply (ofFiles files, e)).1 = ofFiles files' ∧
      (∀ file ∈ files'.keys, file ∈ files.keys ∨ turn.file? = some file) ∧
      (turn.apply (ofFiles files, e)).2.Follows files' := by
  cases turn with
  | write file text isNew carried =>
    refine ⟨files.insert file text, rfl, fun q hq => ?_, h.change (fun q hq => ?_) ?_⟩
    · obtain ⟨v, hv⟩ := Dict.mem_keys_iff.1 hq
      rw [Dict.get?_insert] at hv
      split at hv
      · next hqf => exact Or.inr (by rw [Turn.file?, hqf])
      · exact Or.inl (Dict.mem_keys_iff.2 ⟨v, hv⟩)
    · rw [Dict.get?_insert, if_neg hq]
    · intro β parse
      cases isNew <;> cases carried <;>
        simp [Origin.outcome, Origin.ofFiles, readText_ofFiles, Dict.get?_insert, Except.toOption]
  | remove file text =>
    refine ⟨files.erase file, rfl, fun q hq => ?_, h.change (fun q hq => ?_) ?_⟩
    · obtain ⟨v, hv⟩ := Dict.mem_keys_iff.1 hq
      rw [Dict.get?_erase] at hv
      split at hv
      · simp at hv
      · exact Or.inl (Dict.mem_keys_iff.2 ⟨v, hv⟩)
    · rw [Dict.get?_erase, if_neg hq]
    · intro β parse
      simp [Origin.outcome, Dict.get?_erase]
  | flush now => exact ⟨files, rfl, fun _ hq => Or.inl hq, h.flush now⟩

theorem target_apply (s : MemoryWorkspace × Engine) (turn : Turn) :
    (turn.apply s).2.target = s.2.target := by
  cases turn with
  | write file text isNew carried => exact target_handleEvent _ _
  | remove file text => exact target_handleEvent _ _
  | flush now => exact target_flush _ _ _

theorem reader_apply (s : MemoryWorkspace × Engine) (turn : Turn) :
    (turn.apply s).2.reader = s.2.reader := by
  cases turn with
  | write file text isNew carried => exact reader_handleEvent _ _
  | remove file text => exact reader_handleEvent _ _
  | flush now => exact reader_flush _ _ _

theorem target_run (turns : List Turn) (s : MemoryWorkspace × Engine) :
    (Turn.run turns s).2.target = s.2.target := by
  induction turns generalizing s with
  | nil => rfl
  | cons turn turns ih => exact (ih _).trans (target_apply s turn)

theorem reader_run (turns : List Turn) (s : MemoryWorkspace × Engine) :
    (Turn.run turns s).2.reader = s.2.reader := by
  induction turns generalizing s with
  | nil => rfl
  | cons turn turns ih => exact (ih _).trans (reader_apply s turn)

/-- **A run of turns**: the engine follows the files to the end. -/
theorem follows_run {files : Dict String} {e : Engine} (h : e.Follows files) (turns : List Turn) :
    ∃ files', (Turn.run turns (ofFiles files, e)).1 = ofFiles files' ∧
      (∀ file ∈ files'.keys, file ∈ files.keys ∨ ∃ turn ∈ turns, turn.file? = some file) ∧
      (Turn.run turns (ofFiles files, e)).2.Follows files' := by
  induction turns generalizing files e with
  | nil => exact ⟨files, rfl, fun _ hq => Or.inl hq, h⟩
  | cons turn turns ih =>
    obtain ⟨files₁, hw, hkeys, hfollows⟩ := h.apply turn
    obtain ⟨files', hw', hkeys', hfollows'⟩ := ih hfollows
    rw [← hw] at hw' hfollows'
    refine ⟨files', hw', fun q hq => ?_, hfollows'⟩
    rcases hkeys' q hq with hq | ⟨t, ht, hfile⟩
    · rcases hkeys q hq with hq | hfile
      · exact Or.inl hq
      · exact Or.inr ⟨turn, List.mem_cons_self, hfile⟩
    · exact Or.inr ⟨t, List.mem_cons_of_mem _ ht, hfile⟩

/-- A new engine that scans files follows them, provided both ways to read extensions agree. -/
theorem follows_scan (t : Target) (reader : Source.Reader) (interval : Nat) {files : Dict String}
    (hext : ∀ file ∈ files.keys, Path.extension? file = extensionOf? file) :
    ∃ scan, (new t reader interval).initialScan (ofFiles files) = .ok scan ∧
      scan.engine.Follows files ∧ scan.engine.target = t ∧ scan.engine.reader = reader := by
  obtain ⟨scan, hscan, hengine⟩ := initialScan_ofFiles (new t reader interval) files
  refine ⟨scan, hscan, ⟨?_, ?_⟩, by rw [hengine, target_hear]; rfl,
    by rw [hengine, reader_hear]; rfl⟩
  · rw [hengine, catalogs_hear, target_hear]
    exact Cache.tracks_of_scan _ _ fun file hfile hb =>
      mem_scanned (hext file hfile) hfile (Or.inl hb)
  · rw [hengine, sources_hear, target_hear, reader_hear]
    refine Cache.tracks_of_scan _ _ fun file hfile hb => ?_
    rw [Target.isSourceFile, Bool.and_eq_true] at hb
    exact mem_scanned (hext file hfile) hfile (Or.inr hb.2)

/-- Two engines that read the same answer the same. -/
structure SameAnswers (e e' : Engine) : Prop where
  catalogs : e.catalogs.snapshot = e'.catalogs.snapshot
  sources : e.sources.snapshot = e'.sources.snapshot
  keys : e.keys = e'.keys
  codeSites (key : String) : e.codeSites key = e'.codeSites key
  values (key : String) : e.values key = e'.values key
  diagnostics : e.diagnostics = e'.diagnostics

theorem sameAnswers_of_snapshots {e e' : Engine}
    (hcatalogs : e.catalogs.snapshot = e'.catalogs.snapshot)
    (hsources : e.sources.snapshot = e'.sources.snapshot) : SameAnswers e e' where
  catalogs := hcatalogs
  sources := hsources
  keys := by rw [keys, keys, hcatalogs]
  codeSites key := by rw [codeSites, codeSites, hsources]
  values key := by rw [values, values, hcatalogs]
  diagnostics := by rw [diagnostics, diagnostics, hcatalogs, hsources]

/-- Two engines of one target that follow the same files answer the same after a flush. -/
theorem Follows.sameAnswers {files : Dict String} {e e' : Engine} (h : e.Follows files)
    (h' : e'.Follows files) (ht : e'.target = e.target) (hr : e'.reader = e.reader)
    (now now' : Nat) :
    SameAnswers (e.flush (ofFiles files) now) (e'.flush (ofFiles files) now') := by
  obtain ⟨-, -, hcatalogs, -⟩ := h.atRest.flush_catalogs (ofFiles files) now
  obtain ⟨-, -, hcatalogs', -⟩ := h'.atRest.flush_catalogs (ofFiles files) now'
  obtain ⟨-, -, hsources, -⟩ := h.atRest.flush_sources (ofFiles files) now
  obtain ⟨-, -, hsources', -⟩ := h'.atRest.flush_sources (ofFiles files) now'
  have hc := h'.catalogs
  have hs := h'.sources
  rw [ht] at hc
  rw [ht, hr] at hs
  refine sameAnswers_of_snapshots ?_ ?_
  · rw [hcatalogs, hcatalogs']
    exact h.catalogs.drained_eq hc
  · rw [hsources, hsources', sourceOrigin, sourceOrigin, ht, hr]
    exact h.sources.drained_eq hs

/-- **Incremental equals from scratch.** An engine scans files in memory and is flushed; then files
are written and removed, each change followed by its event, with flushes anywhere in between. After
a last flush the engine has read, and answers, what a new engine of the target has read and answers
after scanning the files as they are then. The one assumption is that on the paths involved the two
ways to read an extension agree. -/
theorem incremental_eq_scan (t : Target) (reader : Source.Reader) (interval interval' : Nat)
    (files : Dict String) (turns : List Turn) (start stop again : Nat)
    (hext : ∀ file, (file ∈ files.keys ∨ ∃ turn ∈ turns, turn.file? = some file) →
      Path.extension? file = extensionOf? file) :
    ∃ first, (new t reader interval).initialScan (ofFiles files) = .ok first ∧
      let now := Turn.run turns (ofFiles files, first.engine.flush (ofFiles files) start)
      ∃ last, (new t reader interval').initialScan now.1 = .ok last ∧
        SameAnswers (now.2.flush now.1 stop) (last.engine.flush now.1 again) := by
  obtain ⟨first, hfirst, hfollows, ht, hr⟩ :=
    follows_scan t reader interval fun file hfile => hext file (Or.inl hfile)
  refine ⟨first, hfirst, ?_⟩
  obtain ⟨files', hw, hkeys, hrun⟩ := follows_run (hfollows.flush start) turns
  obtain ⟨last, hlast, hfollows', ht', hr'⟩ :=
    follows_scan t reader interval' fun file hfile => hext file (hkeys file hfile)
  dsimp only
  rw [hw]
  refine ⟨last, hlast, hrun.sameAnswers hfollows' ?_ ?_ stop again⟩
  · rw [ht', target_run, target_flush, ht]
  · rw [hr', reader_run, reader_flush, hr]

/-- A target with catalogs and Python code. -/
def sampleTarget : Target where
  languages := [.python]
  codeDirs := ["/p/src"]
  format := .po
  catalogDirs := ["/p/locales"]
  catalogExtension := ".po"
  functions := ["_"]
  settingsFile := none

/-- One catalog. -/
def sampleFiles : Dict String :=
  Dict.empty.insert "/p/locales/en.po" "msgid \"a\"\nmsgstr \"A\"\n"

/-- A catalog that is written twice with a flush in between, the second time without telling the
text, one that is removed, and code. -/
def sampleTurns : List Turn :=
  [.write "/p/locales/ja.po" "msgid \"a\"\nmsgstr \"B\"\n" true true, .flush 1,
   .write "/p/locales/ja.po" "msgid \"b\"\nmsgstr \"B\"\n" false false,
   .remove "/p/locales/en.po" none, .write "/p/src/m.py" "_('b')" true false]

/-- The run above is one of those that the general statement speaks of. -/
theorem incremental_eq_scan_sample :
    (∀ file, (file ∈ sampleFiles.keys ∨ ∃ turn ∈ sampleTurns, turn.file? = some file) →
      Path.extension? file = extensionOf? file) ∧
    ∃ first, (new sampleTarget .standard 500).initialScan (ofFiles sampleFiles) = .ok first ∧
      let now := Turn.run sampleTurns
        (ofFiles sampleFiles, first.engine.flush (ofFiles sampleFiles) 0)
      ∃ last, (new sampleTarget .standard 500).initialScan now.1 = .ok last ∧
        SameAnswers (now.2.flush now.1 2) (last.engine.flush now.1 0) := by
  have hext : ∀ file, (file ∈ sampleFiles.keys ∨ ∃ turn ∈ sampleTurns, turn.file? = some file) →
      Path.extension? file = extensionOf? file := by
    intro file hfile
    have hmem : file ∈ ["/p/locales/en.po", "/p/locales/ja.po", "/p/src/m.py"] := by
      rcases hfile with hfile | ⟨turn, hturn, hfile⟩
      · rw [show sampleFiles.keys = ["/p/locales/en.po"] by decide] at hfile
        simp_all
      · simp only [sampleTurns, List.mem_cons, List.not_mem_nil, or_false] at hturn
        rcases hturn with rfl | rfl | rfl | rfl | rfl <;> simp_all [Turn.file?]
    simp only [List.mem_cons, List.not_mem_nil, or_false] at hmem
    rcases hmem with rfl | rfl | rfl <;> decide
  exact ⟨hext,
    incremental_eq_scan sampleTarget .standard 500 500 sampleFiles sampleTurns 0 2 0 hext⟩

end Engine

end Concord

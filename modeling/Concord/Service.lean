import Concord.Engine
import Concord.Repeats

/-!
# All targets of a project

A service has one engine per target. Events go to every engine, and every answer is put together
from theirs. A key shared by several targets is renamed in all of them or in none.

* `Service.diagnostics` – the findings of all targets and of the settings;
* `Service.planRename`, `Service.rename` – a rename over all targets;
* `Service.flush` – all requests of all engines.
-/

namespace Concord

open Schedule

/-- The engines of a project, and what is wrong with its settings. -/
structure Service where
  engines : List Engine
  settings : Findings

namespace Service

/-- The name of a settings file. -/
def settingsFileName : String := ".locsyncrc.json"

/-- What is wrong with settings, reported at the beginning of a file. -/
def settingsFindings (file : String) (messages : List String) : Findings :=
  if messages.isEmpty then Dict.empty
  else Dict.empty.insert file (messages.map fun m => ⟨.zero, m, .warning, .settings⟩)

/-- A service for some targets. Settings that came from no file are reported at the file in the
root directory. -/
def new (targets : List Target) (messages : List String) (settingsFile : Option String)
    (root : String) (reader : Source.Reader) (interval : Nat) : Service where
  engines := targets.map fun t => .new t reader interval
  settings := settingsFindings (settingsFile.getD (Path.join root settingsFileName)) messages

/-- The number of code files that were read. -/
def codeFileCount (s : Service) : Nat :=
  (s.engines.map fun e => e.sources.snapshot.size).foldl (· + ·) 0

/-- The number of catalogs that were read. -/
def catalogFileCount (s : Service) : Nat :=
  (s.engines.map fun e => e.catalogs.snapshot.size).foldl (· + ·) 0

/-- Change every engine. -/
def mapEngines (s : Service) (f : Engine → Engine) : Service :=
  { s with engines := s.engines.map f }

/-- Offer an event to every engine. -/
def handleEvent (s : Service) (r : RebuildRequest) : Bool × Service :=
  (s.engines.any fun e => (e.handleEvent r).1, s.mapEngines fun e => (e.handleEvent r).2)

/-! ### Answers -/

/-- The findings of all targets and of the settings, each one once. -/
def diagnostics (s : Service) : Findings :=
  (s.engines.foldl (fun f e => Findings.merge f e.diagnostics) s.settings).mapValues
    (dropRepeats id)

/-- The key at a place, from the first engine that knows one. -/
def keyAt? (s : Service) (file : String) (p : Position) : Option String :=
  s.engines.findSome? fun e => e.keyAt? file p

/-- Locations in order, each one once. -/
def distinctLocations (ls : List Location) : List Location :=
  dropRepeats id (Engine.sortLocations ls)

/-- Where a key is defined. -/
def catalogLocations (s : Service) (key : String) : List Location :=
  distinctLocations (s.engines.flatMap fun e => e.catalogLocations key)

/-- Where a key is asked for. -/
def codeLocations (s : Service) (key : String) : List Location :=
  distinctLocations (s.engines.flatMap fun e => e.codeLocations key)

/-- The keys of all catalogs. -/
def keys (s : Service) : TextSet := .ofTexts (s.engines.flatMap fun e => e.keys.keys)

/-! ### Renaming -/

/-- The call sites that ask for a key, each one once. -/
def codeSites (s : Service) (key : String) : List CallSite :=
  (s.engines.flatMap fun e => e.codeSites key).eraseDups

/-- The edits that rename a key in all targets. -/
def planRename (s : Service) (old new : String) : Except RenameError EditSet :=
  Concord.planRename old new (s.codeSites old) (s.catalogLocations old) s.keys

variable {ω : Type} [Workspace ω]

/-- Rename a key in all targets and ask for the edited files. -/
def rename (w : ω) (s : Service) (old new : String) :
    Except RenameFailure EditSet × ω × Service :=
  match s.planRename old new with
  | .error error => (.error (.refused error), w, s)
  | .ok edits =>
    if edits.isEmpty then (.ok edits, w, s)
    else match Workspace.applyEdits w edits with
      | (.ok (), w) => (.ok edits, w, s.mapEngines fun e => e.refresh edits)
      | (.error error, w) => (.error (.failed error), w, s)

/-! ### Reading files -/

/-- What a scan of all targets has found: how many files were requested, which could not be read,
and which targets could not be scanned. -/
structure Scanned where
  service : Service
  queued : Nat
  unread : List WorkspaceError
  failed : List (Nat × ScanError)

/-- Ask for all files of all targets. Nothing is asked for of a target that cannot be scanned. -/
def initialScan (w : ω) (s : Service) : Scanned :=
  let scans := s.engines.map fun e => (e, e.initialScan w)
  let done := scans.filterMap fun r => r.2.toOption
  { service := { s with engines := scans.map fun r =>
      match r.2 with
      | .ok scan => scan.engine
      | .error _ => r.1 }
    queued := (done.map Scan.queued).foldl (· + ·) 0
    unread := done.flatMap Scan.unread
    failed := scans.zipIdx.filterMap fun r =>
      match r.1.2 with
      | .ok _ => none
      | .error e => some (r.2, e) }

/-- Meet the requests of one engine after the other. While one works, the others do what is due;
`before` holds the engines that had their turn, latest first. -/
def flushEach (w : ω) (now : Nat) (before : List Engine) : List Engine → List Engine
  | [] => before.reverse
  | e :: rest =>
    let flushed := e.flush w now
    if e.hasWork then
      flushEach w now (flushed :: before.map (Engine.tick w now)) (rest.map (Engine.tick w now))
    else flushEach w now (flushed :: before) rest
termination_by engines => engines.length
decreasing_by all_goals simp

/-- Meet all requests at a time. -/
def flush (w : ω) (now : Nat) (s : Service) : Service :=
  { s with engines := flushEach w now [] s.engines }

/-- Meet requests periodically. -/
def start (s : Service) : Service := s.mapEngines Engine.start

/-- Meet no more requests. -/
def dispose (s : Service) : Service := s.mapEngines Engine.dispose

/-- The service as something that runs by the clock. -/
def ticking (w : ω) : Clock.Ticking Service where
  tick now s := s.mapEngines (Engine.tick w now)
  wake? s := (s.engines.filterMap Engine.wake?).min?

end Service

end Concord

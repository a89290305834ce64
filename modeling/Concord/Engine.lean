import Concord.Cache
import Concord.Catalog.Parser
import Concord.Project.Target
import Concord.Rename
import Concord.Source.Extraction

/-!
# The engine of a target

An engine keeps what was read from the catalogs and from the code of one target, and answers from
it: what is wrong, where a key stands, what a rename would change. It hears of changed files by
events, and it can scan the whole target.

* `Engine.handleEvent`, `Engine.initialScan`, `Engine.flush` – how it gets to know files;
* `Engine.diagnostics`, `Engine.keyAt?`, … – what it answers;
* `Engine.planRename`, `Engine.rename` – renaming;
* `Publisher` – diagnostics handed over after changes.
-/

namespace Concord

open Schedule

/-- Changes of the catalogs and of the code that someone has not seen yet. -/
structure EngineSubscription where
  catalogs : Subscription
  sources : Subscription
deriving DecidableEq, Repr, Inhabited

/-- Hands diagnostics over after changes. What it has seen of the caches says which changes are
still to be passed on. -/
structure Publisher where
  runner : Runner Unit
  seen : EngineSubscription

/-- What is known about one target. -/
structure Engine where
  target : Target
  reader : Source.Reader
  catalogs : Cache Catalog
  sources : Cache (List CallSite)
  publisher : Option Publisher
  /-- The diagnostics handed over so far. -/
  published : List Findings

/-- The value of a key in a language. -/
structure LanguageValue where
  language : String
  value : String
  location : Location
deriving DecidableEq, Repr, Inhabited

/-- Why a target cannot be scanned. -/
inductive ScanError where
  | codeDir (dir : String) (error : WorkspaceError)
  | catalogDir (dir : String) (error : WorkspaceError)
deriving DecidableEq, Repr, Inhabited

/-- The wording of a failed scan. -/
def ScanError.message : ScanError → String
  | codeDir dir e => s!"Failed to scan code directory {dir}: {e.message}"
  | catalogDir dir e => s!"Failed to scan catalog directory {dir}: {e.message}"

/-- What a scan has found: the engine with the files requested, how many those are, and why others
could not be read. -/
structure Scan where
  engine : Engine
  queued : Nat
  unread : List WorkspaceError

namespace Engine

/-- An engine that knows nothing yet. -/
def new (target : Target) (reader : Source.Reader) (interval : Nat) : Engine where
  target := target
  reader := reader
  catalogs := .new "catalog-cache" interval
  sources := .new "source-cache" interval
  publisher := none
  published := []

/-! ### Reading files -/

/-- The language of a code file, by what follows the last dot of its path. -/
def sourceLanguage? (t : Target) (file : String) : Option CodeLanguage :=
  ((Path.splitLast? '.' file.toList).bind fun halves =>
    CodeLanguage.ofExtension? (String.ofList halves.2)).filter t.languages.contains

/-- The call sites of a code file. -/
def parseSource (t : Target) (reader : Source.Reader) (file text : String) : List CallSite :=
  match sourceLanguage? t file with
  | some language => Source.extract reader language file text.toList t.functions
  | none => []

variable {ω : Type} [Workspace ω]

/-- Where the catalogs come from. -/
def catalogOrigin (w : ω) : Origin Catalog := ⟨Workspace.readText w, Catalog.parse⟩

/-- Where the call sites come from. -/
def sourceOrigin (w : ω) (e : Engine) : Origin (List CallSite) :=
  ⟨Workspace.readText w, parseSource e.target e.reader⟩

/-- Ask for the file of an event to be read anew, if it belongs to the target. -/
def handleEvent (e : Engine) (r : RebuildRequest) : Bool × Engine :=
  if e.target.isCatalogFile r.file then (true, { e with catalogs := e.catalogs.request r })
  else if e.target.isCodeFile r.file then (true, { e with sources := e.sources.request r })
  else (false, e)

/-- The files of the target, in order. -/
def targetFiles (w : ω) (t : Target) : Except ScanError (List String) := do
  let code ← t.codeDirs.mapM fun dir =>
    (Workspace.findFiles w dir t.codeExtensions).mapError (ScanError.codeDir dir)
  let catalogs ← t.catalogDirs.mapM fun dir =>
    (Workspace.findFiles w dir [t.bareCatalogExtension]).mapError (ScanError.catalogDir dir)
  return (TextSet.ofTexts (code.flatten ++ catalogs.flatten)).keys

/-- Ask for a file of the target with its text. -/
def scanFile (w : ω) (s : Scan) (file : String) : Scan :=
  match Workspace.readText w file with
  | .error e => { s with unread := s.unread ++ [e] }
  | .ok text =>
    let (taken, engine) := s.engine.handleEvent ⟨file, .created, some text⟩
    { s with engine := engine, queued := if taken then s.queued + 1 else s.queued }

/-- Ask for all files of the target. -/
def initialScan (w : ω) (e : Engine) : Except ScanError Scan := do
  return (← targetFiles w e.target).foldl (scanFile w) ⟨e, 0, []⟩

/-! ### Diagnostics -/

/-- What parsing the catalogs has found. -/
def parseFindings (catalogs : CatalogSet) : Findings :=
  catalogs.entries.foldl
    (fun f c => if c.2.diagnostics.isEmpty then f else f.insert c.1 c.2.diagnostics) Dict.empty

/-- What is wrong with catalogs and code. -/
def findingsOf (catalogs : CatalogSet) (sites : CallSites) : Findings :=
  Findings.merge (parseFindings catalogs) (Consistency.disagreements catalogs sites)

/-- What is wrong with the target. -/
def diagnostics (e : Engine) : Findings := findingsOf e.catalogs.snapshot e.sources.snapshot

/-! ### Keys -/

/-- The key of the first call site of a code file, or entry of a catalog, that a place touches. -/
def keyAt? (e : Engine) (file : String) (p : Position) : Option String :=
  match e.sources.get? file with
  | some sites => (sites.find? fun s => s.location.range.touches p).map CallSite.key
  | none =>
    (e.catalogs.get? file).bind fun c =>
      (c.items.find? fun i => i.entry.location.range.touches p).map CatalogItem.key

/-- Locations in order. -/
def sortLocations (ls : List Location) : List Location :=
  ls.mergeSort fun a b => (compare a b).isLE

/-- Where a key is defined. -/
def catalogLocations (e : Engine) (key : String) : List Location :=
  sortLocations <| e.catalogs.snapshot.values.flatMap fun c =>
    c.languages.values.filterMap fun entries => (entries.get? key).map CatalogEntry.location

/-- The call sites that ask for a key. -/
def codeSites (e : Engine) (key : String) : List CallSite :=
  (e.sources.snapshot.values.flatMap fun sites => sites.filter fun s => s.key = key).mergeSort
    fun a b => (compare a.location b.location).isLE

/-- Where a key is asked for. -/
def codeLocations (e : Engine) (key : String) : List Location :=
  (e.codeSites key).map CallSite.location

/-- The values of a key, by language and location. -/
def values (e : Engine) (key : String) : List LanguageValue :=
  let found := (CatalogSet.items e.catalogs.snapshot).filter fun i => i.key = key
  (found.map fun i => LanguageValue.mk i.language i.entry.value i.entry.location).mergeSort
    (compareLex (compareOn LanguageValue.language) (compareOn LanguageValue.location) · · |>.isLE)

/-- The keys of all catalogs. -/
def keys (e : Engine) : TextSet := CatalogSet.keys e.catalogs.snapshot

/-! ### Editing -/

/-- The edits that rename a key. -/
def planRename (e : Engine) (old new : String) : Except RenameError EditSet :=
  Concord.planRename old new (e.codeSites old) (e.catalogLocations old) e.keys

/-- Ask for edited files to be read anew. -/
def refresh (e : Engine) (edits : EditSet) : Engine :=
  edits.files.foldl (fun e f => (e.handleEvent ⟨f.1, .changed, none⟩).2) e

/-- Make edits and ask for the edited files. -/
def apply (w : ω) (e : Engine) (edits : EditSet) : Except WorkspaceError Unit × ω × Engine :=
  if edits.isEmpty then (.ok (), w, e)
  else match Workspace.applyEdits w edits with
    | (.ok (), w) => (.ok (), w, e.refresh edits)
    | (.error error, w) => (.error error, w, e)

end Engine

/-- Why a rename fails: it cannot be planned, or not be made. -/
inductive RenameFailure where
  | refused (error : RenameError)
  | failed (error : WorkspaceError)
deriving DecidableEq, Repr, Inhabited

/-- The wording of a failed rename. -/
def RenameFailure.message : RenameFailure → String
  | refused e => e.message
  | failed e => e.message

namespace Engine

variable {ω : Type} [Workspace ω]

/-- Rename a key and ask for the edited files. -/
def rename (w : ω) (e : Engine) (old new : String) :
    Except RenameFailure EditSet × ω × Engine :=
  match e.planRename old new with
  | .error error => (.error (.refused error), w, e)
  | .ok edits =>
    match e.apply w edits with
    | (.ok (), w, e) => (.ok edits, w, e)
    | (.error error, w, e) => (.error (.failed error), w, e)

/-! ### Changes -/

/-- Be told of changes from now on. -/
def subscribe (e : Engine) : EngineSubscription :=
  ⟨⟨e.catalogs.generation⟩, ⟨e.sources.generation⟩⟩

end Engine

namespace EngineSubscription

/-- See one change of the catalogs or, if there is none, of the code. -/
def take? (s : EngineSubscription) (e : Engine) : Option EngineSubscription :=
  match s.catalogs.take? e.catalogs.generation with
  | some catalogs => some { s with catalogs := catalogs }
  | none => (s.sources.take? e.sources.generation).map fun sources => { s with sources := sources }

end EngineSubscription

namespace Publisher

/-- A publisher that has started and has seen all changes so far. -/
def new (interval : Nat) (seen : EngineSubscription) : Publisher where
  runner := (Runner.new <| (Scheduler.new "diagnostics" interval).addStrategy .lastOnly).start
  seen := seen

/-- Pass one unseen change on. -/
def wake (p : Publisher) (e : Engine) : Publisher :=
  match p.seen.take? e with
  | some seen => ⟨p.runner.onScheduler fun s => s.push (), seen⟩
  | none => p

/-- Pass all unseen changes on: there are two at most. -/
def forward (p : Publisher) (e : Engine) : Publisher := (p.wake e).wake e

/-- Hands over diagnostics, without taking any time. -/
def worker (current : Findings) : Worker Unit (List Findings) where
  duration := fun _ => 0
  perform := fun _ published => (published ++ [current], .none)

end Publisher

namespace Engine

/-- Hand diagnostics over after changes from now on. -/
def publish (e : Engine) (interval : Nat) : Engine :=
  { e with publisher := some (.new interval e.subscribe) }

/-- Hand nothing more over. -/
def stopPublishing (e : Engine) : Engine := { e with publisher := none }

/-- Let the publisher pass changes on. -/
def forward (e : Engine) : Engine :=
  { e with publisher := e.publisher.map fun p => p.forward e }

/-- What the publisher does at a time. -/
def tickPublisher (now : Nat) (e : Engine) : Engine :=
  match e.publisher with
  | none => e
  | some p =>
    let (runner, published) := p.runner.tick (Publisher.worker e.diagnostics) now e.published
    { e with publisher := some { p with runner := runner }, published := published }

variable {ω : Type} [Workspace ω]

/-- What the periodic cycle of the catalogs does at a time. -/
def tickCatalogs (w : ω) (now : Nat) (e : Engine) : Engine :=
  { e with catalogs := e.catalogs.tick (catalogOrigin w) now }

/-- What the periodic cycle of the code does at a time. -/
def tickSources (w : ω) (now : Nat) (e : Engine) : Engine :=
  { e with sources := e.sources.tick (e.sourceOrigin w) now }

/-- What the engine does by itself at a time. -/
def tick (w : ω) (now : Nat) (e : Engine) : Engine :=
  (((e.tickPublisher now).tickCatalogs w now).tickSources w now).forward

/-- When the engine has something to do by itself again. -/
def wake? (e : Engine) : Option Nat :=
  [e.catalogs.wake?, e.sources.wake?, e.publisher.bind fun p => p.runner.wake?].filterMap id
    |>.min?

/-- Meet all requests for catalogs; meanwhile the rest of the engine does what is due. -/
def flushCatalogs (w : ω) (now : Nat) (e : Engine) : Engine :=
  if e.catalogs.hasWork then
    let e := e.tickPublisher now
    let e := { e with catalogs := e.catalogs.flush (catalogOrigin w) now }
    (e.tickSources w now).forward
  else e

/-- Meet all requests for code; meanwhile the rest of the engine does what is due. -/
def flushSources (w : ω) (now : Nat) (e : Engine) : Engine :=
  if e.sources.hasWork then
    let e := (e.tickPublisher now).tickCatalogs w now
    let e := { e with sources := e.sources.flush (e.sourceOrigin w) now }
    e.forward
  else e

/-- Meet all requests at a time. -/
def flush (w : ω) (now : Nat) (e : Engine) : Engine := (e.flushCatalogs w now).flushSources w now

/-- Whether a flush has anything to do. -/
def hasWork (e : Engine) : Bool := e.catalogs.hasWork || e.sources.hasWork

/-- Meet requests periodically. -/
def start (e : Engine) : Engine :=
  { e with catalogs := e.catalogs.start, sources := e.sources.start }

/-- Meet no more requests. -/
def dispose (e : Engine) : Engine :=
  { e with catalogs := e.catalogs.dispose, sources := e.sources.dispose }

/-- Whether nothing is requested. -/
def isIdle (e : Engine) : Bool := e.catalogs.isIdle && e.sources.isIdle

/-- The engine as something that runs by the clock. -/
def ticking (w : ω) : Clock.Ticking Engine := ⟨tick w, wake?⟩

end Engine

end Concord

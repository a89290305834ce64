import Concord.Dict
import Concord.Schedule.Runner
import Concord.Workspace.Basic

/-!
# Caches

A cache maps files to what was read from them. It changes only through its scheduler: requests are
collected, of several for one file the latest counts, and the file is read anew as a whole. The
**generation** counts the changes, so that who remembers it knows whether there were any.

* `Contents.rebuild` – what one request does;
* `Cache.flush` – everything requested so far;
* `Subscription` – the changes that someone has not seen yet.
-/

namespace Concord

universe u

/-- What happened to a file. -/
inductive ChangeKind where
  | created
  | changed
  | deleted
deriving DecidableEq, Repr, Inhabited

/-- A file that has to be read anew, with its text if that is known. -/
structure RebuildRequest where
  file : String
  kind : ChangeKind
  text : Option String
deriving DecidableEq, Repr, Inhabited

/-- What was read, by file, and how often that changed. -/
structure Contents (β : Type u) where
  entries : Dict β
  generation : Nat
deriving DecidableEq

/-- Where requests get what they need: texts of files, and what a text says. -/
structure Origin (β : Type u) where
  read : String → Except WorkspaceError String
  parse : String → String → β

namespace Contents

variable {β : Type u}

/-- Nothing was read yet. -/
def empty : Contents β := ⟨.empty, 0⟩

/-- Forget a file. -/
def evict (c : Contents β) (file : String) : Contents β :=
  if c.entries.contains file then ⟨c.entries.erase file, c.generation + 1⟩ else c

/-- Remember what was read from a file. -/
def store [DecidableEq β] (c : Contents β) (file : String) (value : β) : Contents β :=
  if c.entries.get? file = some value then c
  else ⟨c.entries.insert file value, c.generation + 1⟩

/-- Meet a request. A file that cannot be read is forgotten. -/
def rebuild [DecidableEq β] (o : Origin β) (r : RebuildRequest) (c : Contents β) : Contents β :=
  match r.kind with
  | .deleted => c.evict r.file
  | .created | .changed =>
    match r.text with
    | some text => c.store r.file (o.parse r.file text)
    | none =>
      match o.read r.file with
      | .ok text => c.store r.file (o.parse r.file text)
      | .error _ => c.evict r.file

end Contents

/-- Contents with the scheduler that changes them. -/
structure Cache (β : Type u) where
  contents : Contents β
  runner : Schedule.Runner RebuildRequest

namespace Cache

open Schedule

variable {β : Type u}

/-- A cache that nothing was read into. -/
def new (name : String) (interval : Nat) : Cache β where
  contents := .empty
  runner := .new <|
    (Scheduler.new name interval).addStrategy (.latestPerKey RebuildRequest.file)

/-- Meets requests, without taking any time. -/
def worker [DecidableEq β] (o : Origin β) : Worker RebuildRequest (Contents β) where
  duration := fun _ => 0
  perform := fun r c => (c.rebuild o r, .none)

/-- Ask for a file to be read anew. -/
def request (c : Cache β) (r : RebuildRequest) : Cache β :=
  { c with runner := c.runner.onScheduler fun s => s.push r }

/-- Whether nothing is requested. -/
def isIdle (c : Cache β) : Bool := c.runner.scheduler.isIdle

/-- Whether there is something to do and it may still be done. -/
def hasWork (c : Cache β) : Bool := !c.isIdle && !c.runner.scheduler.disposed

/-- Meet all requests at a time. -/
def flush [DecidableEq β] (o : Origin β) (now : Nat) (c : Cache β) : Cache β :=
  if c.hasWork then
    let ran := c.runner.runCycle (worker o) now c.contents
    ⟨ran.state, ran.runner⟩
  else c

/-- What the periodic cycle does at a time. -/
def tick [DecidableEq β] (o : Origin β) (now : Nat) (c : Cache β) : Cache β :=
  let (runner, contents) := c.runner.tick (worker o) now c.contents
  ⟨contents, runner⟩

/-- Meet requests periodically. -/
def start (c : Cache β) : Cache β := { c with runner := c.runner.start }

/-- Meet no more requests. -/
def dispose (c : Cache β) : Cache β := { c with runner := c.runner.dispose }

/-- When the periodic cycle has something to do again. -/
def wake? (c : Cache β) : Option Nat := c.runner.wake?

/-- How often the contents changed. -/
def generation (c : Cache β) : Nat := c.contents.generation

/-- What was read from a file. -/
def get? (c : Cache β) (file : String) : Option β := c.contents.entries.get? file

/-- What was read from all files. -/
def snapshot (c : Cache β) : Dict β := c.contents.entries

/-- The cache as something that runs by the clock. -/
def ticking [DecidableEq β] (o : Origin β) : Clock.Ticking (Cache β) := ⟨tick o, wake?⟩

end Cache

/-- The latest generation that someone has seen. -/
structure Subscription where
  seen : Nat
deriving DecidableEq, Repr, Inhabited

namespace Subscription

/-- Whether there is a change that was not seen. -/
def hasChanged (s : Subscription) (generation : Nat) : Bool := s.seen != generation

/-- See the latest change, if there is one that was not seen. -/
def take? (s : Subscription) (generation : Nat) : Option Subscription :=
  if s.hasChanged generation then some ⟨generation⟩ else none

end Subscription

end Concord

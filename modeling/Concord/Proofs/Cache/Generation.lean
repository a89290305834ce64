import Concord.Proofs.Cache.Coalescing

/-!
# The generation counts the changes

Whoever remembers the generation of a cache takes it for granted that the entries are the same as
long as the generation is. A request can change the entries in four ways – a file is read for the
first time or anew, it is deleted, it can no longer be read – and fails to in as many, so this is
said of one request first: it is counted exactly when the entries differ afterwards
(`Contents.counted`), and this is so exactly when the file is now mapped to something else
(`Contents.rebuild_eq_self_iff`).

What a cache does comes down to requests met one after the other (`Cache.AtRest.contents_after`),
each from the origin as it is at the time: whether a file can be read may change between any two of
them. So the generation is the number of those that changed the entries
(`Cache.generation_counts_changes`).
-/

namespace Concord

universe u

/-- The text that a request is met with, or why there is none. -/
def Origin.textFor {β : Type u} (o : Origin β) (r : RebuildRequest) :
    Except WorkspaceError String :=
  match r.text with
  | some text => .ok text
  | none => o.read r.file

namespace Origin

variable {β : Type u} (o : Origin β) {r : RebuildRequest}

theorem outcome_of_deleted (h : r.kind = .deleted) : o.outcome r = none := by
  rw [outcome, h]

theorem outcome_of_ne_deleted (h : r.kind ≠ .deleted) :
    o.outcome r = (o.textFor r).toOption.map (o.parse r.file) := by
  obtain ⟨file, kind, text⟩ := r
  cases kind with
  | deleted => exact absurd rfl h
  | _ => cases text <;> rfl

end Origin

/-! ### Requests -/

namespace Contents

variable {β : Type u}

theorem evict_eq_self {c : Contents β} {file : String} (h : c.entries.get? file = none) :
    c.evict file = c := by
  rw [evict, if_neg]
  simp [Dict.contains, h]

variable [DecidableEq β] (o : Origin β) (r : RebuildRequest) (c : Contents β)

theorem store_eq_self {c : Contents β} {file : String} {value : β}
    (h : c.entries.get? file = some value) : c.store file value = c := by
  rw [store, if_pos h]

/-- **A request changes nothing exactly when its file is mapped to what it was mapped to.** -/
theorem rebuild_eq_self_iff : c.rebuild o r = c ↔ c.entries.get? r.file = o.outcome r := by
  constructor
  · intro h
    have hfile := get?_rebuild o r c r.file
    rw [h, if_pos rfl] at hfile
    exact hfile
  · intro h
    rw [Origin.outcome] at h
    rw [rebuild]
    rcases r with ⟨file, kind, text⟩
    cases kind with
    | deleted => exact evict_eq_self h
    | created | changed =>
      cases text with
      | some text => exact store_eq_self h
      | none =>
        dsimp only at h ⊢
        cases hread : o.read file with
        | ok text => exact store_eq_self (by simpa [hread, Except.toOption] using h)
        | error e => exact evict_eq_self (by simpa [hread, Except.toOption] using h)

/-- What a request does to the generation. -/
structure Counted : Prop where
  /-- It is counted exactly when the entries are others. -/
  generation : (c.rebuild o r).generation =
    c.generation + if (c.rebuild o r).entries = c.entries then 0 else 1
  /-- A file that is read anew and says the same. -/
  reparsed {text : String} : r.kind ≠ .deleted → o.textFor r = .ok text →
    c.entries.get? r.file = some (o.parse r.file text) → c.rebuild o r = c
  /-- A file that is deleted and was not there. -/
  absent : r.kind = .deleted → c.entries.get? r.file = none → c.rebuild o r = c
  /-- A file that cannot be read and was not read before. -/
  unread {e : WorkspaceError} : r.kind ≠ .deleted → o.textFor r = .error e →
    c.entries.get? r.file = none → c.rebuild o r = c
  /-- A file that cannot be read any more is forgotten, and that is a change. -/
  evicted {e : WorkspaceError} : r.kind ≠ .deleted → o.textFor r = .error e →
    c.entries.get? r.file ≠ none →
    (c.rebuild o r).entries = c.entries.erase r.file ∧
      (c.rebuild o r).generation = c.generation + 1

/-- **A request is counted exactly when it changes the entries.** -/
theorem counted : Counted o r c := by
  have houtcome : ∀ {e : WorkspaceError}, r.kind ≠ .deleted → o.textFor r = .error e →
      o.outcome r = none := by
    intro e hkind htext
    rw [o.outcome_of_ne_deleted hkind, htext]
    rfl
  refine ⟨?_, fun hkind htext hfile => ?_, fun hkind hfile => ?_, fun hkind htext hfile => ?_,
    fun hkind htext hfile => ?_⟩
  · rcases rebuild_cases o r c with hsame | hcount
    · rw [hsame, if_pos rfl, Nat.add_zero]
    · rw [hcount, if_neg]
      intro hentries
      -- the file would be mapped to the same, and so nothing would be counted
      have hfile := get?_rebuild o r c r.file
      rw [hentries, if_pos rfl] at hfile
      rw [(rebuild_eq_self_iff o r c).2 hfile] at hcount
      exact Nat.succ_ne_self _ hcount.symm
  · rw [rebuild_eq_self_iff, hfile, o.outcome_of_ne_deleted hkind, htext]
    rfl
  · rw [rebuild_eq_self_iff, hfile, o.outcome_of_deleted hkind]
  · rw [rebuild_eq_self_iff, hfile, houtcome hkind htext]
  · constructor
    · refine Dict.ext_get? fun q => ?_
      rw [get?_rebuild, Dict.get?_erase, houtcome hkind htext]
    · refine (rebuild_cases o r c).resolve_left fun hsame => hfile ?_
      rw [(rebuild_eq_self_iff o r c).1 hsame, houtcome hkind htext]

/-! ### Requests one after the other -/

/-- Meet requests one after the other, each from the origin as it is then. -/
def meetAll (c : Contents β) (ms : List (Origin β × RebuildRequest)) : Contents β :=
  ms.foldl (fun c m => c.rebuild m.1 m.2) c

/-- The entries before and after each of some requests. -/
def passages (c : Contents β) : List (Origin β × RebuildRequest) → List (Dict β × Dict β)
  | [] => []
  | m :: ms => (c.entries, (c.rebuild m.1 m.2).entries) :: passages (c.rebuild m.1 m.2) ms

/-- How many of some requests change the entries. -/
def changes (c : Contents β) (ms : List (Origin β × RebuildRequest)) : Nat :=
  (c.passages ms).countP fun p => p.1 ≠ p.2

@[simp] theorem meetAll_nil : c.meetAll [] = c := rfl

@[simp] theorem meetAll_cons (m : Origin β × RebuildRequest)
    (ms : List (Origin β × RebuildRequest)) :
    c.meetAll (m :: ms) = (c.rebuild m.1 m.2).meetAll ms := rfl

theorem meetAll_append (ms ms' : List (Origin β × RebuildRequest)) :
    c.meetAll (ms ++ ms') = (c.meetAll ms).meetAll ms' :=
  List.foldl_append

theorem meetAll_map (rs : List RebuildRequest) :
    c.meetAll (rs.map (o, ·)) = c.rebuildAll o rs :=
  List.foldl_map

theorem changes_cons (m : Origin β × RebuildRequest) (ms : List (Origin β × RebuildRequest)) :
    c.changes (m :: ms) = (if (c.rebuild m.1 m.2).entries = c.entries then 0 else 1) +
      (c.rebuild m.1 m.2).changes ms := by
  rw [changes, passages, List.countP_cons, Nat.add_comm, changes]
  by_cases h : (c.rebuild m.1 m.2).entries = c.entries
  · simp [h]
  · simp [h, Ne.symm h]

/-- **The generation grows by the number of changes.** -/
theorem generation_meetAll (ms : List (Origin β × RebuildRequest)) :
    (c.meetAll ms).generation = c.generation + c.changes ms := by
  induction ms generalizing c with
  | nil => rfl
  | cons m ms ih =>
    rw [meetAll_cons, ih, (counted m.1 m.2 c).generation, changes_cons, Nat.add_assoc]

/-- **As long as the generation is the same, so are the entries.** -/
theorem entries_meetAll_of_generation {ms : List (Origin β × RebuildRequest)}
    (h : (c.meetAll ms).generation = c.generation) : (c.meetAll ms).entries = c.entries := by
  induction ms generalizing c with
  | nil => rfl
  | cons m ms ih =>
    rw [generation_meetAll, changes_cons] at h
    have hsame : (c.rebuild m.1 m.2).entries = c.entries := by
      by_contra hne
      rw [if_neg hne] at h
      omega
    rw [meetAll_cons, ih, hsame]
    rw [generation_meetAll, (counted m.1 m.2 c).generation, if_pos hsame]
    rw [if_pos hsame] at h
    omega

end Contents

/-! ### Caches -/

namespace Cache

open Schedule

variable {β : Type u}

/-- What can be done with a cache. Whatever is read meanwhile is read from an origin as it is at the
time. -/
inductive Act (β : Type u) where
  | request (r : RebuildRequest)
  | cycle (o : Origin β) (now : Nat)
  | flush (o : Origin β) (now : Nat)
  | tick (o : Origin β) (now : Nat)
  | start
  | dispose

variable [DecidableEq β] (c : Cache β)

/-- Do something. -/
def act : Act β → Cache β
  | .request r => c.request r
  | .cycle o now => c.cycle o now
  | .flush o now => c.flush o now
  | .tick o now => c.tick o now
  | .start => c.start
  | .dispose => c.dispose

/-- The requests that the periodic cycle hands over at a time to be met, in order. -/
def metByTick (o : Origin β) (now : Nat) : List RebuildRequest :=
  (c.runner.tick (worker o).traced now (c.contents, [])).2.2

/-- The requests that are met meanwhile, in order, with the origin that they are met from. -/
def metBy : Act β → List (Origin β × RebuildRequest)
  | .cycle o now => (c.met o now).map (o, ·)
  | .flush o now => if c.hasWork then (c.met o now).map (o, ·) else []
  | .tick o now => (c.metByTick o now).map (o, ·)
  | .request _ | .start | .dispose => []

/-- Do several things, one after the other. -/
def after (acts : List (Act β)) : Cache β := acts.foldl act c

/-- The requests that are met while several things are done. -/
def log (c : Cache β) : List (Act β) → List (Origin β × RebuildRequest)
  | [] => []
  | a :: acts => c.metBy a ++ log (c.act a) acts

variable {c}

theorem AtRest.metByTick_eq (h : c.AtRest) (o : Origin β) (now : Nat) :
    c.metByTick o now = c.runner.takenAt now := by
  rw [metByTick, Runner.state_tick_of_instant (instant_worker o).traced h.runner,
    Worker.feed_traced, List.nil_append]

theorem AtRest.contents_tick_eq (h : c.AtRest) (o : Origin β) (now : Nat) :
    (c.tick o now).contents = c.contents.rebuildAll o (c.metByTick o now) := by
  rw [h.metByTick_eq]
  exact Runner.state_tick_of_instant (instant_worker o) h.runner now c.contents

theorem AtRest.act (h : c.AtRest) (a : Act β) : (c.act a).AtRest := by
  cases a with
  | request r => exact h.request r
  | cycle o now => exact h.cycle o now
  | flush o now => exact h.flush o now
  | tick o now => exact h.tick o now
  | start => exact h.start
  | dispose => exact h.dispose

theorem AtRest.after (h : c.AtRest) (acts : List (Act β)) : (c.after acts).AtRest := by
  induction acts generalizing c with
  | nil => exact h
  | cons a acts ih => exact ih (h.act a)

/-- What is done once changes what was read by the requests met meanwhile. -/
theorem AtRest.contents_act (h : c.AtRest) (a : Act β) :
    (c.act a).contents = c.contents.meetAll (c.metBy a) := by
  cases a with
  | cycle o now =>
    rw [metBy, Contents.meetAll_map]
    exact h.contents_cycle o now
  | flush o now =>
    rw [metBy, Cache.act, Cache.flush]
    split
    · rw [Contents.meetAll_map]
      exact h.contents_cycle o now
    · rfl
  | tick o now =>
    rw [metBy, Contents.meetAll_map]
    exact h.contents_tick_eq o now
  | _ => rfl

/-- **Whatever is done changes what was read by the requests met**, one after the other. -/
theorem AtRest.contents_after (h : c.AtRest) (acts : List (Act β)) :
    (c.after acts).contents = c.contents.meetAll (c.log acts) := by
  induction acts generalizing c with
  | nil => rfl
  | cons a acts ih =>
    rw [log, Contents.meetAll_append, ← h.contents_act]
    exact ih (h.act a)

/-- **The generation counts the changes.** A request is counted exactly when it changes the entries,
and in particular when a file is forgotten that can no longer be read; it is not when a file says
the same as before, when one is deleted that was not there, or when one cannot be read that was not
read before. So for requests met one after the other, with files becoming readable or unreadable
between any two of them, the generation grows by the number of those that changed the entries, and
as long as it is the same, so are the entries. And so it is for a cache, whatever is done with
it. -/
theorem generation_counts_changes {β : Type u} [DecidableEq β] :
    (∀ (o : Origin β) (r : RebuildRequest) (c : Contents β), Contents.Counted o r c) ∧
    (∀ (c : Contents β) (ms : List (Origin β × RebuildRequest)),
      (c.meetAll ms).generation = c.generation + c.changes ms ∧
      ((c.meetAll ms).generation = c.generation → (c.meetAll ms).entries = c.entries)) ∧
    ∀ (name : String) (interval : Nat) (acts : List (Act β)),
      let c := (new name interval).after acts
      c.contents = Contents.empty.meetAll ((new name interval).log acts) ∧
      c.generation = Contents.empty.changes ((new name interval).log acts) ∧
      ∀ later, (c.after later).generation = c.generation →
        (c.after later).snapshot = c.snapshot := by
  refine ⟨Contents.counted, fun c ms => ⟨c.generation_meetAll ms,
    c.entries_meetAll_of_generation⟩, fun name interval acts => ?_⟩
  intro c
  have hnew : (new name interval : Cache β).AtRest := atRest_new name interval
  have hcontents : c.contents = Contents.empty.meetAll ((new name interval).log acts) :=
    hnew.contents_after acts
  refine ⟨hcontents, ?_, fun later hgeneration => ?_⟩
  · rw [generation, hcontents, Contents.generation_meetAll]
    exact Nat.zero_add _
  · have hlater := (hnew.after acts).contents_after later
    rw [generation, generation, hlater] at hgeneration
    rw [snapshot, snapshot, hlater]
    exact c.contents.entries_meetAll_of_generation hgeneration

/-- An origin that no file can be read from. -/
def emptyOrigin : Origin String where
  read := fun file => .error (.absent file)
  parse := fun _ text => text

/-- A file that is read. Then it is read anew and says the same, and two others are asked for that
are not there. -/
theorem generation_counts_changes_sample :
    let c := (new "catalogs" 500).after
      [.request ⟨"a.po", .created, none⟩, .cycle sampleOrigin 0]
    let later : List (Act String) :=
      [.request ⟨"a.po", .changed, none⟩, .request ⟨"b.po", .deleted, none⟩,
        .request ⟨"c.po", .changed, none⟩, .flush sampleOrigin 1]
    let lost : List (Act String) := [.request ⟨"a.po", .changed, none⟩, .flush emptyOrigin 2]
    c.generation = 1 ∧ (c.after later).generation = c.generation ∧
      (c.after later).snapshot = c.snapshot ∧
      ((c.after later).after lost).generation = 2 := by
  intro c later lost
  have hgeneration : c.generation = 1 := by decide
  have hlater : (c.after later).generation = c.generation := by decide
  exact ⟨hgeneration, hlater, (generation_counts_changes.2.2 _ _ _).2.2 later hlater, by decide⟩

end Cache

end Concord

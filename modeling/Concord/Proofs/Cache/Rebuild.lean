import Concord.Cache
import Mathlib.Data.List.Induction

/-!
# What requests do to what was read

A request touches its own file only, and what the file is mapped to afterwards depends on the
request alone and not on what was there (`Contents.get?_rebuild`). So of a list of requests met one
after the other the last one for a file decides (`Contents.get?_rebuildAll`), a request whose file
comes again can be left out (`Contents.entries_rebuildAll_of_mem`), and all that is asked of the
origin is what it gives for the files of the requests (`Contents.get?_rebuildAll_congr`).
-/

namespace Concord

universe u

variable {β : Type u}

/-- What a file is mapped to once a request for it was met; nothing when it was deleted or could
not be read. -/
def Origin.outcome (o : Origin β) (r : RebuildRequest) : Option β :=
  match r.kind with
  | .deleted => none
  | .created | .changed =>
    match r.text with
    | some text => some (o.parse r.file text)
    | none => (o.read r.file).toOption.map (o.parse r.file)

namespace RebuildRequest

/-- The last of some requests for a file. -/
def lastFor (file : String) (rs : List RebuildRequest) : Option RebuildRequest :=
  rs.reverse.find? fun r => r.file = file

theorem lastFor_append_singleton (file : String) (rs : List RebuildRequest) (r : RebuildRequest) :
    lastFor file (rs ++ [r]) = if r.file = file then some r else lastFor file rs := by
  rw [lastFor, List.reverse_append, List.reverse_singleton, List.singleton_append,
    List.find?_cons]
  split <;> simp_all [lastFor]

theorem file_of_lastFor {file : String} {rs : List RebuildRequest} {r : RebuildRequest}
    (h : lastFor file rs = some r) : r ∈ rs ∧ r.file = file :=
  ⟨List.mem_reverse.1 (List.mem_of_find?_eq_some h), by simpa using List.find?_some h⟩

theorem lastFor_eq_none_iff {file : String} {rs : List RebuildRequest} :
    lastFor file rs = none ↔ ∀ r ∈ rs, r.file ≠ file := by
  simp [lastFor, List.find?_eq_none]

end RebuildRequest

namespace Contents

open RebuildRequest

theorem get?_evict (c : Contents β) (file q : String) :
    (c.evict file).entries.get? q = if q = file then none else c.entries.get? q := by
  rw [evict]
  split
  · exact Dict.get?_erase _ _ _
  · next h =>
    split
    · next hq =>
      subst hq
      simpa [Dict.contains] using h
    · rfl

variable [DecidableEq β] (o : Origin β)

theorem get?_store (c : Contents β) (file q : String) (value : β) :
    (c.store file value).entries.get? q = if q = file then some value else c.entries.get? q := by
  rw [store]
  split
  · next h =>
    split
    · next hq => rw [hq, h]
    · rfl
  · exact Dict.get?_insert _ _ _ _

/-- **A request decides what its file is mapped to** and leaves all other files alone. -/
theorem get?_rebuild (r : RebuildRequest) (c : Contents β) (q : String) :
    (c.rebuild o r).entries.get? q = if q = r.file then o.outcome r else c.entries.get? q := by
  rw [rebuild, Origin.outcome]
  rcases r with ⟨file, kind, text⟩
  cases kind with
  | deleted => exact get?_evict c file q
  | created | changed =>
    cases text with
    | some text => exact get?_store c file q _
    | none =>
      dsimp only
      cases o.read file with
      | ok text => exact get?_store c file q _
      | error e => exact get?_evict c file q

/-- **A request that changes anything is counted.** -/
theorem rebuild_cases (r : RebuildRequest) (c : Contents β) :
    c.rebuild o r = c ∨ (c.rebuild o r).generation = c.generation + 1 := by
  have hevict : ∀ file, c.evict file = c ∨ (c.evict file).generation = c.generation + 1 := by
    intro file
    rw [evict]
    split
    · exact Or.inr rfl
    · exact Or.inl rfl
  have hstore : ∀ file value,
      c.store file value = c ∨ (c.store file value).generation = c.generation + 1 := by
    intro file value
    rw [store]
    split
    · exact Or.inl rfl
    · exact Or.inr rfl
  rw [rebuild]
  split
  · exact hevict _
  all_goals
    split
    · exact hstore _ _
    · split
      · exact hstore _ _
      · exact hevict _

/-- Meet requests one after the other. -/
def rebuildAll (rs : List RebuildRequest) (c : Contents β) : Contents β :=
  rs.foldl (fun c r => c.rebuild o r) c

@[simp] theorem rebuildAll_nil (c : Contents β) : c.rebuildAll o [] = c := rfl

@[simp] theorem rebuildAll_cons (r : RebuildRequest) (rs : List RebuildRequest) (c : Contents β) :
    c.rebuildAll o (r :: rs) = (c.rebuild o r).rebuildAll o rs := rfl

theorem rebuildAll_append (rs rs' : List RebuildRequest) (c : Contents β) :
    c.rebuildAll o (rs ++ rs') = (c.rebuildAll o rs).rebuildAll o rs' :=
  List.foldl_append

/-- **The last request for a file decides.** -/
theorem get?_rebuildAll (rs : List RebuildRequest) (c : Contents β) (q : String) :
    (c.rebuildAll o rs).entries.get? q =
      ((lastFor q rs).map o.outcome).getD (c.entries.get? q) := by
  -- from the end, since it is the last request that decides
  induction rs using List.reverseRecOn with
  | nil => rfl
  | append_singleton rs r ih =>
    rw [rebuildAll_append, rebuildAll_cons, rebuildAll_nil, get?_rebuild, ih,
      lastFor_append_singleton]
    by_cases hq : q = r.file
    · rw [if_pos hq, if_pos hq.symm]
      rfl
    · rw [if_neg hq, if_neg fun h => hq h.symm]

/-- What the requests come to for a file depends on the origin only as far as it concerns that
file, and on the contents only if no request is for it. -/
theorem get?_rebuildAll_congr {o o' : Origin β} {rs : List RebuildRequest} {c c' : Contents β}
    {q : String} (ho : ∀ r ∈ rs, r.file = q → o.outcome r = o'.outcome r)
    (hc : (∀ r ∈ rs, r.file ≠ q) → c.entries.get? q = c'.entries.get? q) :
    (c.rebuildAll o rs).entries.get? q = (c'.rebuildAll o' rs).entries.get? q := by
  rw [get?_rebuildAll, get?_rebuildAll]
  cases h : lastFor q rs with
  | none => exact hc (lastFor_eq_none_iff.1 h)
  | some r =>
    obtain ⟨hr, hfile⟩ := file_of_lastFor h
    exact ho r hr hfile

/-- **A request whose file comes again can be left out.** -/
theorem entries_rebuildAll_of_mem {r : RebuildRequest} {rs : List RebuildRequest}
    (h : r.file ∈ rs.map RebuildRequest.file) (c : Contents β) :
    ((c.rebuild o r).rebuildAll o rs).entries = (c.rebuildAll o rs).entries := by
  refine Dict.ext_get? fun q => get?_rebuildAll_congr (fun _ _ _ => rfl) fun hq => ?_
  rw [get?_rebuild, if_neg]
  rintro rfl
  obtain ⟨r', hr', hfile⟩ := List.mem_map.1 h
  exact hq r' hr' hfile

/-- Requests lead from contents with the same entries to contents with the same entries. -/
theorem entries_rebuildAll_congr {c c' : Contents β} (h : c.entries = c'.entries)
    (rs : List RebuildRequest) : (c.rebuildAll o rs).entries = (c'.rebuildAll o rs).entries :=
  Dict.ext_get? fun _ => get?_rebuildAll_congr (fun _ _ _ => rfl) fun _ => by rw [h]

end Contents

end Concord

import Concord.Schedule.Strategy
import Mathlib.Data.List.Basic

/-!
# What strategies leave of a batch

A batch enters its strategies with no slot marked. Without strategies all of it is left, and
`Strategy.lastOnly` leaves the last item. Of such a batch `Strategy.latestPerKey` leaves the items
that no later item shares its key with, in their order: this file says so without slots and marks,
as a recursion on the batch (`Strategy.latest_cons`): an item stays exactly when its key does not
come again.

* `Strategy.survivors_nil`, `Strategy.survivors_lastOnly` – the two simple cases;
* `Strategy.nodup_keys_latest` – no key is left twice;
* `Strategy.mem_keys_latest` – no key is lost.
-/

namespace Concord.Schedule.Strategy

universe u v

section Simple

variable {α : Type u}

/-- Without strategies a whole batch is left. -/
theorem survivors_nil (batch : List α) : survivors [] batch = batch := by
  induction batch with
  | nil => rfl
  | cons x xs ih => exact congrArg (x :: ·) ih

/-- **Of a batch only the last item is left.** -/
theorem survivors_lastOnly (batch : List α) :
    survivors [lastOnly] batch = batch.getLast?.toList := by
  induction batch with
  | nil => rfl
  | cons x xs ih =>
    cases xs with
    | nil => rfl
    | cons y ys =>
      rw [List.getLast?_cons_cons, ← ih]
      rfl

end Simple

variable {α : Type u} {κ : Type v} [BEq κ] [LawfulBEq κ] (key : α → κ)

/-- The keys that marking collects are those of the slots that were not marked before. -/
theorem mem_markOlder_snd {k : κ} {slots : List (Slot α)} :
    k ∈ (markOlder key slots).2 ↔ ∃ s ∈ slots, s.skip = false ∧ key s.item = k := by
  induction slots generalizing k with
  | nil => simp [markOlder]
  | cons s rest ih =>
    simp only [markOlder]
    split
    · next hs =>
      rw [ih]
      simp [hs]
    · next hs =>
      -- marked now or not, the key of the slot is among those collected
      split
      · next hseen =>
        rw [List.contains_iff_mem, ih] at hseen
        rw [ih]
        constructor
        · rintro ⟨t, ht, h⟩
          exact ⟨t, List.mem_cons_of_mem _ ht, h⟩
        · rintro ⟨t, ht, hskip, rfl⟩
          rcases List.mem_cons.1 ht with rfl | ht
          · exact hseen
          · exact ⟨t, ht, hskip, rfl⟩
      · rw [List.mem_cons, ih]
        constructor
        · rintro (rfl | ⟨t, ht, h⟩)
          · exact ⟨s, List.mem_cons_self, by simpa using hs, rfl⟩
          · exact ⟨t, List.mem_cons_of_mem _ ht, h⟩
        · rintro ⟨t, ht, hskip, rfl⟩
          rcases List.mem_cons.1 ht with rfl | ht
          · exact Or.inl rfl
          · exact Or.inr ⟨t, ht, hskip, rfl⟩

/-- What is left of a batch when of the items with one key the latest is kept. -/
def latest (batch : List α) : List α := survivors [latestPerKey key] batch

omit [LawfulBEq κ] in
@[simp] theorem latest_nil : latest key ([] : List α) = [] := rfl

/-- **An item stays exactly when its key does not come again.** -/
theorem latest_cons (x : α) (rest : List α) :
    latest key (x :: rest) =
      if key x ∈ rest.map key then latest key rest else x :: latest key rest := by
  -- in a batch that enters with no slot marked, the keys collected are those of the items
  have hmem : (markOlder key (rest.map fun y => ⟨y, false⟩)).2.contains (key x) = true ↔
      key x ∈ rest.map key := by
    rw [List.contains_iff_mem, mem_markOlder_snd]
    simp
  simp only [latest, survivors, organize, latestPerKey, List.map_cons, List.foldl_cons,
    List.foldl_nil, markOlder, Bool.false_eq_true, if_false]
  by_cases h : key x ∈ rest.map key
  · rw [if_pos (hmem.2 h), if_pos h]
    simp
  · rw [if_neg fun hc => h (hmem.1 hc), if_neg h]
    simp

theorem latest_sublist (batch : List α) : (latest key batch).Sublist batch := by
  induction batch with
  | nil => exact List.Sublist.refl _
  | cons x rest ih =>
    rw [latest_cons]
    split
    · exact ih.cons x
    · exact ih.cons_cons x

/-- **No key is lost.** -/
theorem mem_keys_latest {k : κ} {batch : List α} :
    k ∈ (latest key batch).map key ↔ k ∈ batch.map key := by
  induction batch with
  | nil => simp
  | cons x rest ih =>
    rw [latest_cons, List.map_cons, List.mem_cons]
    split
    · next h =>
      rw [ih]
      exact ⟨Or.inr, fun hk => hk.elim (fun he => he ▸ h) id⟩
    · rw [List.map_cons, List.mem_cons, ih]

/-- **No key is left twice.** -/
theorem nodup_keys_latest (batch : List α) : ((latest key batch).map key).Nodup := by
  induction batch with
  | nil => simp
  | cons x rest ih =>
    rw [latest_cons]
    split
    · exact ih
    · next h =>
      rw [List.map_cons, List.nodup_cons]
      exact ⟨fun hk => h ((mem_keys_latest key).1 hk), ih⟩

end Concord.Schedule.Strategy

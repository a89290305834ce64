import Concord.Proofs.Schedule.Deeds

/-!
# Of each key the latest

A batch that `Strategy.latestPerKey` meets may have marked slots already, since other strategies may
have come before. A marked slot must not count as a later one with the same key: the only item left
of that key would be lost. So what stays unmarked is described by the unmarked slots alone: a slot
stays unmarked exactly when it was and no unmarked slot after it has its key (`Strategy.IsLatest`).

All else follows from this and from the items being left alone (`Strategy.Thinned.of_unmarked_iff`):
which slots are unmarked determines a batch (`Strategy.eq_of_unmarked_iff`), and every key of an
unmarked slot has a latest one (`Strategy.exists_isLatest`). Marking is done once it was done, and
as `Strategy.lastOnly` leaves at most the last slot unmarked, it makes no difference before or after
that.

For a scheduler this says what a cycle hands over: of every key that is pending one item, the latest
(`Strategy.OnePerKey`), as far as the cycle comes.
-/

namespace Concord.Schedule

universe u v w

namespace Strategy

/-! ### Unmarked slots -/

section Unmarked

variable {α : Type u} {slots slots' : List (Slot α)} {i : Nat} {x : α}

/-- The slot at a place holds an item and is not marked. -/
def Unmarked (slots : List (Slot α)) (i : Nat) (x : α) : Prop := slots[i]? = some ⟨x, false⟩

/-- A slot that is not marked, and none after it is unmarked. -/
def IsLast (slots : List (Slot α)) (i : Nat) (x : α) : Prop :=
  Unmarked slots i x ∧ ∀ j y, i < j → ¬Unmarked slots j y

theorem unmarked_zero {s : Slot α} {rest : List (Slot α)} :
    Unmarked (s :: rest) 0 x ↔ s.skip = false ∧ s.item = x := by
  obtain ⟨item, skip⟩ := s
  simp [Unmarked, and_comm]

theorem unmarked_succ {s : Slot α} {rest : List (Slot α)} :
    Unmarked (s :: rest) (i + 1) x ↔ Unmarked rest i x := by
  rw [Unmarked, List.getElem?_cons_succ, Unmarked]

theorem Unmarked.lt (h : Unmarked slots i x) : i < slots.length :=
  (List.getElem?_eq_some_iff.1 h).1

/-- The items and the places of the unmarked slots determine a batch. -/
theorem eq_of_unmarked_iff (hitems : slots.map Slot.item = slots'.map Slot.item)
    (h : ∀ i x, Unmarked slots i x ↔ Unmarked slots' i x) : slots = slots' := by
  refine List.ext_getElem? fun i => ?_
  have hitem : slots[i]?.map Slot.item = slots'[i]?.map Slot.item := by
    rw [← List.getElem?_map, hitems, List.getElem?_map]
  have hi := h i
  simp only [Unmarked] at hi
  rcases hs : slots[i]? with _ | ⟨x, _ | _⟩ <;> rcases hs' : slots'[i]? with _ | ⟨y, _ | _⟩ <;>
    simp_all

/-- **`lastOnly` leaves unmarked what is unmarked in the last place.** -/
theorem unmarked_lastOnly : Unmarked (lastOnly slots) i x ↔
    Unmarked slots i x ∧ i + 1 = slots.length := by
  fun_induction lastOnly slots generalizing i with
  | case1 => simp [Unmarked]
  | case2 s =>
    cases i with
    | zero => simp
    | succ i => simp [Unmarked]
  | case3 s t rest ih =>
    cases i with
    | zero => simp [unmarked_zero]
    | succ i => simp [unmarked_succ, ih]

theorem items_lastOnly (slots : List (Slot α)) :
    (lastOnly slots).map Slot.item = slots.map Slot.item := by
  fun_induction lastOnly slots with
  | case1 => rfl
  | case2 s => rfl
  | case3 s t rest ih => exact congrArg (s.item :: ·) ih

end Unmarked

/-! ### The latest slot of a key -/

section Latest

variable {α : Type u} {κ : Type v} (key : α → κ) {slots thinned : List (Slot α)} {i : Nat} {x : α}

/-- A slot that is not marked, and none with its key after it is unmarked. -/
def IsLatest (slots : List (Slot α)) (i : Nat) (x : α) : Prop :=
  Unmarked slots i x ∧ ∀ j y, i < j → Unmarked slots j y → key y ≠ key x

variable {key}

theorem isLatest_zero {s : Slot α} {rest : List (Slot α)} : IsLatest key (s :: rest) 0 x ↔
    (s.skip = false ∧ s.item = x) ∧ ∀ j y, Unmarked rest j y → key y ≠ key x := by
  rw [IsLatest, unmarked_zero]
  refine and_congr_right fun _ => ⟨fun h j y hy => ?_, fun h j y hj hy => ?_⟩
  · exact h (j + 1) y j.succ_pos (unmarked_succ.2 hy)
  · obtain ⟨j, rfl⟩ := Nat.exists_eq_add_one.2 hj
    exact h j y (unmarked_succ.1 hy)

theorem isLatest_succ {s : Slot α} {rest : List (Slot α)} :
    IsLatest key (s :: rest) (i + 1) x ↔ IsLatest key rest i x := by
  rw [IsLatest, unmarked_succ, IsLatest]
  refine and_congr_right fun _ => ⟨fun h j y hj hy => ?_, fun h j y hj hy => ?_⟩
  · exact h (j + 1) y (Nat.succ_lt_succ hj) (unmarked_succ.2 hy)
  · obtain ⟨j, rfl⟩ := Nat.exists_eq_add_one.2 (Nat.zero_lt_of_lt hj)
    exact h j y (Nat.lt_of_succ_lt_succ hj) (unmarked_succ.1 hy)

variable (key) in
/-- **Every key of an unmarked slot has a latest one.** -/
theorem exists_isLatest (h : Unmarked slots i x) :
    ∃ j y, i ≤ j ∧ IsLatest key slots j y ∧ key y = key x := by
  -- from the end, as a slot that is not the latest has one of its key after it
  induction hn : slots.length - i using Nat.strongRecOn generalizing i x with
  | _ n ih =>
    by_cases hlater : ∃ j y, i < j ∧ Unmarked slots j y ∧ key y = key x
    · obtain ⟨j, y, hij, hy, hkey⟩ := hlater
      have hlt := h.lt
      obtain ⟨k, z, hjk, hz, hkey'⟩ := ih (slots.length - j) (by omega) hy rfl
      exact ⟨k, z, by omega, hz, hkey'.trans hkey⟩
    · exact ⟨i, x, Nat.le_refl i, ⟨h, fun j y hij hy hkey => hlater ⟨j, y, hij, hy, hkey⟩⟩, rfl⟩

variable (key)

/-- A batch in which of the unmarked slots with one key only the latest has stayed unmarked. -/
structure Thinned (slots thinned : List (Slot α)) : Prop where
  items : thinned.map Slot.item = slots.map Slot.item
  unmarked_iff (i : Nat) (x : α) : Unmarked thinned i x ↔ IsLatest key slots i x
  /-- What was marked stays so. -/
  marked (i : Nat) (x : α) : slots[i]? = some ⟨x, true⟩ → thinned[i]? = some ⟨x, true⟩
  isLast_iff (i : Nat) (x : α) : IsLast thinned i x ↔ IsLast slots i x
  /-- No key is lost. -/
  key_iff (k : κ) :
    (∃ i x, Unmarked thinned i x ∧ key x = k) ↔ ∃ i x, Unmarked slots i x ∧ key x = k

variable {key}

/-- Which slots are left unmarked says it all. -/
theorem Thinned.of_unmarked_iff (hitems : thinned.map Slot.item = slots.map Slot.item)
    (h : ∀ i x, Unmarked thinned i x ↔ IsLatest key slots i x) : Thinned key slots thinned := by
  refine ⟨hitems, h, fun i x hmarked => ?_, fun i x => ⟨fun hlast => ?_, fun hlast => ?_⟩,
    fun k => ⟨?_, ?_⟩⟩
  · have hitem : thinned[i]?.map Slot.item = some x := by
      rw [← List.getElem?_map, hitems, List.getElem?_map, hmarked, Option.map_some]
    obtain ⟨⟨y, skip⟩, hslot, rfl⟩ := Option.map_eq_some_iff.1 hitem
    cases skip with
    | true => exact hslot
    | false =>
      have hunmarked := ((h i y).1 hslot).1
      rw [Unmarked, hmarked] at hunmarked
      simp at hunmarked
  · refine ⟨((h i x).1 hlast.1).1, fun j y hij hy => ?_⟩
    -- the latest slot with the key of such a later one would have stayed unmarked
    obtain ⟨k, z, hjk, hz, -⟩ := exists_isLatest key hy
    exact hlast.2 k z (Nat.lt_of_lt_of_le hij hjk) ((h k z).2 hz)
  · exact ⟨(h i x).2 ⟨hlast.1, fun j y hij hy => absurd hy (hlast.2 j y hij)⟩,
      fun j y hij hy => hlast.2 j y hij ((h j y).1 hy).1⟩
  · rintro ⟨i, x, hx, hkey⟩
    exact ⟨i, x, ((h i x).1 hx).1, hkey⟩
  · rintro ⟨i, x, hx, rfl⟩
    obtain ⟨j, y, -, hy, hkey⟩ := exists_isLatest key hx
    exact ⟨j, y, (h j y).2 hy, hkey⟩

variable [DecidableEq κ]

/-- The keys of the unmarked slots, as marking collects them. -/
theorem contains_markOlder_snd {k : κ} :
    (markOlder key slots).2.contains k ↔ ∃ j y, Unmarked slots j y ∧ key y = k := by
  rw [List.contains_iff_mem, mem_markOlder_snd]
  constructor
  · rintro ⟨s, hs, hskip, hkey⟩
    obtain ⟨j, hj⟩ := List.mem_iff_getElem?.1 hs
    exact ⟨j, s.item, by rw [Unmarked, hj, ← hskip], hkey⟩
  · rintro ⟨j, y, hy, hkey⟩
    exact ⟨⟨y, false⟩, List.mem_of_getElem? hy, rfl, hkey⟩

/-- A slot before others stays unmarked when it is unmarked and none of these has its key. -/
theorem exists_latestPerKey_cons (key : α → κ) (s : Slot α) (rest : List (Slot α)) :
    ∃ t, latestPerKey key (s :: rest) = t :: latestPerKey key rest ∧ t.item = s.item ∧
      (t.skip = false ↔
        s.skip = false ∧ ∀ j y, Unmarked rest j y → key y ≠ key s.item) := by
  have hseen : (markOlder key rest).2.contains (key s.item) = false ↔
      ∀ j y, Unmarked rest j y → key y ≠ key s.item := by
    rw [← Bool.not_eq_true, contains_markOlder_snd]
    simp
  rw [latestPerKey, markOlder]
  dsimp only
  split
  · next hskip => exact ⟨s, rfl, rfl, by simp [hskip]⟩
  · next hskip =>
    split
    · next hcontains =>
      refine ⟨{ s with skip := true }, rfl, rfl, iff_of_false Bool.noConfusion fun h => ?_⟩
      exact Bool.eq_false_iff.1 (hseen.2 h.2) hcontains
    · next hcontains =>
      exact ⟨s, rfl, rfl, iff_self_and.2 fun _ => hseen.1 (Bool.eq_false_iff.2 hcontains)⟩

theorem items_latestPerKey (key : α → κ) (slots : List (Slot α)) :
    (latestPerKey key slots).map Slot.item = slots.map Slot.item := by
  induction slots with
  | nil => rfl
  | cons s rest ih =>
    obtain ⟨t, ht, hitem, -⟩ := exists_latestPerKey_cons key s rest
    rw [ht, List.map_cons, ih, hitem, List.map_cons]

/-- **A slot stays unmarked exactly when it is the latest of its key.** -/
theorem unmarked_latestPerKey :
    Unmarked (latestPerKey key slots) i x ↔ IsLatest key slots i x := by
  induction slots generalizing i with
  | nil => simp [latestPerKey, markOlder, IsLatest, Unmarked]
  | cons s rest ih =>
    obtain ⟨t, ht, hitem, hskip⟩ := exists_latestPerKey_cons key s rest
    rw [ht]
    cases i with
    | zero =>
      rw [unmarked_zero, isLatest_zero, hskip, hitem, and_right_comm]
      refine and_congr_right ?_
      rintro ⟨-, rfl⟩
      rfl
    | succ i => rw [unmarked_succ, isLatest_succ, ih]

theorem thinned_latestPerKey (key : α → κ) (slots : List (Slot α)) :
    Thinned key slots (latestPerKey key slots) :=
  .of_unmarked_iff (items_latestPerKey key slots) fun _ _ => unmarked_latestPerKey

-- a slot that was marked before is not the latest of its key
example :
    latestPerKey Prod.fst [⟨("a", 1), false⟩, ⟨("b", 2), false⟩, ⟨("b", 3), false⟩,
      ⟨("a", 4), true⟩] =
    [⟨("a", 1), false⟩, ⟨("b", 2), true⟩, ⟨("b", 3), false⟩, ⟨("a", 4), true⟩] := by decide

/-- Where every unmarked slot is the latest of its key, nothing is marked. -/
theorem latestPerKey_eq_self (h : ∀ i x, Unmarked slots i x → IsLatest key slots i x) :
    latestPerKey key slots = slots :=
  eq_of_unmarked_iff (items_latestPerKey key slots) fun i x =>
    unmarked_latestPerKey.trans ⟨And.left, h i x⟩

/-- **A second time marks nothing.** -/
theorem latestPerKey_latestPerKey (key : α → κ) (slots : List (Slot α)) :
    latestPerKey key (latestPerKey key slots) = latestPerKey key slots := by
  refine latestPerKey_eq_self fun i x hx => ⟨hx, fun j y hij hy => ?_⟩
  exact (unmarked_latestPerKey.1 hx).2 j y hij (unmarked_latestPerKey.1 hy).1

/-- Where only the last slot is unmarked, there is no key twice. -/
theorem latestPerKey_lastOnly (key : α → κ) (slots : List (Slot α)) :
    latestPerKey key (lastOnly slots) = lastOnly slots := by
  refine latestPerKey_eq_self fun i x hx => ⟨hx, fun j y hij hy => ?_⟩
  have hi := (unmarked_lastOnly.1 hx).2
  have hj := (unmarked_lastOnly.1 hy).2
  omega

/-- The last slot is the latest of its key. -/
theorem lastOnly_latestPerKey (key : α → κ) (slots : List (Slot α)) :
    lastOnly (latestPerKey key slots) = lastOnly slots := by
  have hlength : (latestPerKey key slots).length = slots.length := by
    simpa using congrArg List.length (items_latestPerKey key slots)
  refine eq_of_unmarked_iff ?_ fun i x => ?_
  · rw [items_lastOnly, items_latestPerKey, items_lastOnly]
  · rw [unmarked_lastOnly, unmarked_latestPerKey, unmarked_lastOnly, hlength]
    refine and_congr_left fun hi => ⟨And.left, fun hx => ⟨hx, fun j y hij hy => ?_⟩⟩
    have hlt := hy.lt
    omega

end Latest

/-! ### What is left of a batch -/

section Kept

variable {α : Type u} {κ : Type v} [DecidableEq κ] (key : α → κ)

/-- An item of a batch, and none with its key after it. -/
def IsLatestItem (batch : List α) (i : Nat) (x : α) : Prop :=
  batch[i]? = some x ∧ ∀ j y, i < j → batch[j]? = some y → key y ≠ key x

/-- What is left of a batch when of every key one item is left, the latest, in the order in which
the items came. -/
structure OnePerKey (batch kept : List α) : Prop where
  once (k : κ) : kept.filter (key · = k) = ((batch.filter (key · = k)).getLast?).toList
  order : ∃ places : List Nat, places.Pairwise (· < ·) ∧
    (∀ i, i ∈ places ↔ ∃ x, IsLatestItem key batch i x) ∧
    kept.map some = places.map (batch[·]?)

theorem filter_key_eq_nil_iff {batch : List α} {k : κ} :
    batch.filter (key · = k) = [] ↔ k ∉ batch.map key := by
  simp [List.filter_eq_nil_iff]

theorem filter_latest (batch : List α) (k : κ) :
    (latest key batch).filter (key · = k) = ((batch.filter (key · = k)).getLast?).toList := by
  induction batch with
  | nil => rfl
  | cons x rest ih =>
    rw [latest_cons]
    by_cases hk : key x = k
    · rw [List.filter_cons_of_pos (by simpa using hk)]
      by_cases hmem : key x ∈ rest.map key
      · obtain ⟨y, ys, hys⟩ := List.exists_cons_of_ne_nil
          fun hnil => (filter_key_eq_nil_iff key).1 hnil (hk ▸ hmem)
        rw [if_pos hmem, ih, hys, List.getLast?_cons_cons]
      · rw [if_neg hmem, List.filter_cons_of_pos (by simpa using hk), ih,
          (filter_key_eq_nil_iff key).2 (hk ▸ hmem)]
        rfl
    · rw [List.filter_cons_of_neg (by simpa using hk)]
      split
      · exact ih
      · rw [List.filter_cons_of_neg (by simpa using hk), ih]

/-- The items left are those in the places of the unmarked slots, in order. -/
theorem exists_places (slots : List (Slot α)) :
    ∃ places : List Nat, places.Pairwise (· < ·) ∧
      (∀ i, i ∈ places ↔ ∃ x, Unmarked slots i x) ∧
      ((slots.filter fun s => !s.skip).map Slot.item).map some =
        places.map ((slots.map Slot.item)[·]?) := by
  induction slots with
  | nil => exact ⟨[], .nil, by simp [Unmarked], rfl⟩
  | cons s rest ih =>
    obtain ⟨places, hincreasing, hplaces, hitems⟩ := ih
    have hlater : (places.map (· + 1)).Pairwise (· < ·) :=
      List.pairwise_map.2 (hincreasing.imp Nat.succ_lt_succ)
    have hread : ((rest.filter fun s => !s.skip).map Slot.item).map some =
        (places.map (· + 1)).map (((s :: rest).map Slot.item)[·]?) := by
      rw [hitems, List.map_map]
      rfl
    cases hskip : s.skip with
    | true =>
      refine ⟨places.map (· + 1), hlater, fun i => ?_, ?_⟩
      · cases i with
        | zero => simp [unmarked_zero, hskip]
        | succ i => simp [unmarked_succ, hplaces]
      · rw [List.filter_cons_of_neg (by simp [hskip]), hread]
    | false =>
      refine ⟨0 :: places.map (· + 1), List.pairwise_cons.2 ⟨by simp, hlater⟩, fun i => ?_, ?_⟩
      · cases i with
        | zero => simp [unmarked_zero, hskip]
        | succ i => simp [unmarked_succ, hplaces]
      · rw [List.filter_cons_of_pos (by simp [hskip]), List.map_cons, List.map_cons, hread]
        rfl

/-- **Of every key one item is left**, the latest, in the order in which the items came. -/
theorem onePerKey_latest (batch : List α) : OnePerKey key batch (latest key batch) := by
  let slots : List (Slot α) := batch.map fun x => ⟨x, false⟩
  have hitems : (latestPerKey key slots).map Slot.item = batch := by
    rw [items_latestPerKey, List.map_map]
    exact List.map_id batch
  have hunmarked : ∀ i x, Unmarked slots i x ↔ batch[i]? = some x := by
    simp [Unmarked, slots]
  obtain ⟨places, hincreasing, hplaces, hkept⟩ := exists_places (latestPerKey key slots)
  refine ⟨filter_latest key batch, places, hincreasing, fun i => ?_, ?_⟩
  · simp only [hplaces, unmarked_latestPerKey, IsLatest, IsLatestItem, hunmarked]
  · rw [hitems] at hkept
    exact hkept

end Kept

end Strategy

/-! ### What a cycle hands over -/

section Cycles

variable {α : Type u} {κ : Type v} [DecidableEq κ] {key : α → κ}

/-- A move other than the beginning of a cycle leaves of the batch what it does not hand over, or
less. -/
theorem Step.handed_append_rest_prefix {d d' : Desk α} {m : Move α} (h : Step d m d')
    (hm : m ≠ .begin) : m.handed?.toList ++ d'.rest <+: d.rest := by
  cases h with
  | begin hbatch => exact absurd rfl hm
  | hand hlive hbatch => simp [Move.handed?, Desk.rest, hbatch]
  | close hbatch hdone => exact List.nil_prefix
  | _ => simp [Move.handed?, Desk.rest, Desk.onScheduler, Scheduler.dispose]

/-- As long as no other cycle begins, what is handed over is the beginning of the batch. -/
theorem Run.handed_prefix {d d' : Desk α} {ms : List (Move α)} (h : Run d ms d')
    (hms : .begin ∉ ms) : handed ms <+: d.rest := by
  induction h with
  | nil d => exact List.nil_prefix
  | cons hstep _ ih =>
    rw [List.mem_cons, not_or] at hms
    rw [handed_cons]
    exact ((List.prefix_append_right_inj _).2 (ih hms.2)).trans
      (hstep.handed_append_rest_prefix (Ne.symm hms.1))

/-- Of every key the latest item is taken, or nothing at all once the scheduler is disposed. -/
theorem Scheduler.taken_of_latestPerKey {s : Scheduler α} (hbatch : s.batch = none)
    (hs : s.strategies = [.latestPerKey key]) :
    s.taken <+: Strategy.latest key s.pending ∧
      (s.disposed = false → s.taken = Strategy.latest key s.pending) := by
  have hlive : s.disposed = false → s.taken = Strategy.latest key s.pending := by
    intro hlive
    rw [taken_eq hbatch hlive, hs]
    split
    · next hpending => rw [hpending, Strategy.latest_nil]
    · rfl
  refine ⟨?_, hlive⟩
  cases hdisposed : s.disposed with
  | false => exact hlive hdisposed ▸ List.prefix_rfl
  | true =>
    rw [taken, begin_of_disposed hdisposed, hbatch]
    exact List.nil_prefix

/-- **A cycle hands over one item of every key**, the latest, as far as it comes. -/
theorem Run.handed_of_latestPerKey {d d' : Desk α} {ms : List (Move α)}
    (h : Run d (.begin :: ms) d') (hms : .begin ∉ ms)
    (hd : d.scheduler.strategies = [.latestPerKey key]) :
    handed ms <+: Strategy.latest key d.scheduler.pending ∧
      (d'.scheduler.disposed = false →
        handed ms ++ d'.rest = Strategy.latest key d.scheduler.pending) := by
  have hcycle := h.handed_of_cycle hms
  cases h with
  | cons hstep hrun =>
    have hpre := hrun.handed_prefix hms
    have hlive := hstep.live
    cases hstep with
    | begin hbatch =>
      obtain ⟨htaken, heq⟩ := Scheduler.taken_of_latestPerKey hbatch hd
      exact ⟨hpre.trans htaken,
        fun hd' => (hcycle hd').trans (heq (hlive (hrun.live hd')))⟩

/-- A cycle that nothing cuts short finishes what it hands over. -/
theorem Scheduler.finished_cycle {σ : Type w} (w : Worker α σ) (now : Nat) {s : Scheduler α}
    (hs : s.batch = none) (st : σ) (books : Books α) :
    ∃ ms, Run ⟨s, none⟩ (.begin :: ms) (s.cycle w.booked none now (st, books)).desk ∧
      .begin ∉ ms ∧ (s.cycle w.booked none now (st, books)).desk.rest = [] ∧
      (s.cycle w.booked none now (st, books)).state.2.finished = books.finished ++ handed ms := by
  obtain ⟨ms, hms, hnot, hcoherent⟩ := runs_cycle w.booked none now hs (st, books)
  have hhands : (s.cycle w.booked none now (st, books)).desk.hands = none := by
    rw [Progress.desk, running_cycle, Option.map_none]
  have hhanded : handed ms = finished ms := by
    have hrun : handed ms = finished ms ++ _ := hms.run.hands_append_handed
    rw [hrun, hhands, Option.toList_none, List.append_nil]
  refine ⟨ms, hms.run, hnot, ?_, ?_⟩
  · rw [Desk.rest, hcoherent.2 hhands, Option.getD_none]
  · rw [hms.state, Worker.feed_booked, hhanded]
    rfl

end Cycles

namespace Strategy

/-- **Of the unmarked slots with one key the latest is kept.** Whatever slots of a batch were marked
before: the slots left unmarked are those that were unmarked and whose key no unmarked slot after
them has; nothing marked is unmarked, the last unmarked slot and the keys stay, and a second time
marks nothing. Before or after `lastOnly` it makes no difference, whether slots were marked or not.

So a cycle of a scheduler with this strategy alone hands over, of every key that is pending when it
begins, one item, the latest, in the order in which they came: the beginning of this list in any
history, and all of it unless the scheduler is disposed meanwhile. -/
theorem latestPerKey_keeps_latest {α : Type u} {κ : Type v} [DecidableEq κ] (key : α → κ) :
    (∀ slots : List (Slot α),
      Thinned key slots (latestPerKey key slots) ∧
      latestPerKey key (latestPerKey key slots) = latestPerKey key slots ∧
      latestPerKey key (lastOnly slots) = lastOnly slots ∧
      lastOnly (latestPerKey key slots) = lastOnly slots) ∧
    (∀ batch : List α,
      survivors [lastOnly, latestPerKey key] batch = survivors [lastOnly] batch ∧
      survivors [latestPerKey key, lastOnly] batch = survivors [lastOnly] batch) ∧
    ∀ s : Scheduler α, s.strategies = [latestPerKey key] →
      ∃ kept, OnePerKey key s.pending kept ∧
        (∀ hands ms d', Run ⟨s, hands⟩ (.begin :: ms) d' → .begin ∉ ms →
          handed ms <+: kept ∧ (d'.scheduler.disposed = false → handed ms ++ d'.rest = kept)) ∧
        (s.batch = none → ∀ {σ : Type w} (w : Worker α σ) (st : σ) (books : Books α) (now : Nat),
          let p := s.cycle w.booked none now (st, books)
          ∃ done, p.state.2.finished = books.finished ++ done ∧ done <+: kept ∧
            (p.scheduler.disposed = false → done = kept)) := by
  refine ⟨fun slots => ⟨thinned_latestPerKey key slots, latestPerKey_latestPerKey key slots,
    latestPerKey_lastOnly key slots, lastOnly_latestPerKey key slots⟩, fun batch => ⟨?_, ?_⟩,
    fun s hs => ?_⟩
  · simp only [survivors, organize, List.foldl_cons, List.foldl_nil, latestPerKey_lastOnly]
  · simp only [survivors, organize, List.foldl_cons, List.foldl_nil, lastOnly_latestPerKey]
  · refine ⟨latest key s.pending, onePerKey_latest key s.pending,
      fun hands ms d' hrun hms => hrun.handed_of_latestPerKey hms hs, ?_⟩
    intro hbatch σ w st books now p
    obtain ⟨ms, hrun, hnot, hrest, hfinished⟩ := Scheduler.finished_cycle w now hbatch st books
    obtain ⟨hpre, hall⟩ := hrun.handed_of_latestPerKey hnot hs
    refine ⟨handed ms, hfinished, hpre, fun hlive => ?_⟩
    rw [← hall hlive, hrest, List.append_nil]

/-- Two keys come again, and items that are processed are pushed once more: of each key the latest
item is processed, once. -/
theorem latestPerKey_keeps_latest_sample :
    let s : Scheduler (String × Nat) :=
      ((Scheduler.new "orders" 500).addStrategy (latestPerKey Prod.fst)).pushAll
        [("a", 1), ("b", 2), ("a", 3), ("c", 4), ("b", 5)]
    let w : Worker (String × Nat) Unit := ⟨fun _ => 7, fun x _ => ((), ⟨[x], false⟩)⟩
    let p := s.cycle w.booked none 0 ((), ⟨[], []⟩)
    s.strategies = [latestPerKey Prod.fst] ∧ s.batch = none ∧ p.scheduler.disposed = false ∧
      OnePerKey Prod.fst s.pending p.state.2.finished ∧
      p.state.2.finished = [("a", 3), ("c", 4), ("b", 5)] := by
  intro s w p
  have hs : s.strategies = [latestPerKey Prod.fst] := rfl
  have hbatch : s.batch = none := rfl
  have hlive : p.scheduler.disposed = false := by decide
  obtain ⟨kept, hkept, -, hcycle⟩ := (latestPerKey_keeps_latest Prod.fst).2.2 s hs
  obtain ⟨done, hfinished, -, hall⟩ := hcycle hbatch w () ⟨[], []⟩ 0
  have hdone : p.state.2.finished = kept := hfinished.trans (hall hlive)
  exact ⟨hs, hbatch, hlive, hdone ▸ hkept, by decide⟩

end Strategy

end Concord.Schedule

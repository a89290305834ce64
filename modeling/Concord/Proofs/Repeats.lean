import Concord.Proofs.Orders
import Concord.Repeats
import Mathlib.Data.List.Nodup

/-!
# Sorted lists without repetitions

Sorting by a key brings equal keys together, so that what repeats the key of its neighbour can be
dropped: each key is left once, in strictly increasing order (`increasingBy_dropRepeats`), and none
is lost (`mem_map_dropRepeats`). A list that increases strictly is determined by what is in it
(`eq_of_increasing`), so it does not matter in which order, or how often, things were collected.
-/

namespace Concord

open Std

universe u v

/-! ### What is left -/

section Members

variable {α : Type u} {κ : Type v} [DecidableEq κ] {key : α → κ} {l : List α}

theorem mem_map_dropRepeatsAfter {last k : κ} :
    k ∈ last :: (dropRepeatsAfter key last l).map key ↔ k ∈ last :: l.map key := by
  induction l generalizing last with
  | nil => rfl
  | cons a rest ih =>
    rw [dropRepeatsAfter]
    split
    · next ha =>
      rw [ih, List.map_cons, ha, List.mem_cons, List.mem_cons, List.mem_cons, or_self_left]
    · rw [List.map_cons, List.map_cons, List.mem_cons, ih]
      exact List.mem_cons.symm

/-- **Dropping repetitions loses no key.** -/
theorem mem_map_dropRepeats {k : κ} : k ∈ (dropRepeats key l).map key ↔ k ∈ l.map key := by
  cases l with
  | nil => rfl
  | cons a rest => exact mem_map_dropRepeatsAfter

theorem mem_dropRepeats [DecidableEq α] {a : α} : a ∈ dropRepeats id l ↔ a ∈ l := by
  have h : a ∈ (dropRepeats id l).map id ↔ a ∈ l.map id := mem_map_dropRepeats
  rwa [List.map_id, List.map_id] at h

end Members

/-! ### Order -/

section Keys

variable {α : Type u} {κ : Type v} [Ord κ] {key : α → κ} {l : List α}

/-- Whether the keys along a list never decrease. -/
def OrderedBy (key : α → κ) (l : List α) : Prop :=
  l.Pairwise fun a b => (compare (key a) (key b)).isLE

/-- Whether the keys along a list strictly increase. -/
def IncreasingBy (key : α → κ) (l : List α) : Prop :=
  l.Pairwise fun a b => compare (key a) (key b) = .lt

theorem orderedBy_mergeSort [TransOrd κ] (key : α → κ) (l : List α) :
    OrderedBy key (l.mergeSort fun a b => (compare (key a) (key b)).isLE) := by
  refine List.pairwise_mergeSort (fun _ _ _ => TransCmp.isLE_trans) (fun a b => ?_) l
  have hswap : compare (key b) (key a) = (compare (key a) (key b)).swap := OrientedCmp.eq_swap
  rw [hswap]
  cases compare (key a) (key b) <;> rfl

theorem IncreasingBy.nodup_map [TransOrd κ] (h : IncreasingBy key l) : (l.map key).Nodup := by
  refine List.pairwise_map.2 (h.imp ?_)
  intro a b hlt heq
  rw [heq, ReflOrd.compare_self] at hlt
  simp at hlt

theorem IncreasingBy.nodup [TransOrd κ] (h : IncreasingBy key l) : l.Nodup := h.nodup_map.of_map

theorem increasingBy_dropRepeatsAfter [TransOrd κ] [LawfulEqOrd κ] [DecidableEq κ] {last : κ}
    (hlast : ∀ a ∈ l, (compare last (key a)).isLE) (h : OrderedBy key l) :
    IncreasingBy key (dropRepeatsAfter key last l) ∧
      ∀ a ∈ dropRepeatsAfter key last l, compare last (key a) = .lt := by
  induction l generalizing last with
  | nil => exact ⟨List.Pairwise.nil, by simp [dropRepeatsAfter]⟩
  | cons a rest ih =>
    obtain ⟨hhead, htail⟩ := List.pairwise_cons.1 h
    rw [dropRepeatsAfter]
    split
    · exact ih (fun b hb => hlast b (List.mem_cons_of_mem _ hb)) htail
    · next hne =>
      have hlt : compare last (key a) = .lt := by
        rcases Ordering.isLE_iff_eq_lt_or_eq_eq.1 (hlast a List.mem_cons_self) with hlt | heq
        · exact hlt
        · exact absurd (LawfulEqCmp.eq_of_compare heq).symm hne
      obtain ⟨hincreasing, habove⟩ := ih hhead htail
      refine ⟨List.pairwise_cons.2 ⟨habove, hincreasing⟩, fun b hb => ?_⟩
      rcases List.mem_cons.1 hb with rfl | hb
      · exact hlt
      · exact TransCmp.lt_trans hlt (habove b hb)

/-- **In a sorted list only neighbours repeat a key**, so without them the keys strictly
increase. -/
theorem increasingBy_dropRepeats [TransOrd κ] [LawfulEqOrd κ] [DecidableEq κ]
    (h : OrderedBy key l) : IncreasingBy key (dropRepeats key l) := by
  cases l with
  | nil => exact List.Pairwise.nil
  | cons a rest =>
    obtain ⟨hhead, htail⟩ := List.pairwise_cons.1 h
    obtain ⟨hincreasing, habove⟩ := increasingBy_dropRepeatsAfter hhead htail
    exact List.pairwise_cons.2 ⟨habove, hincreasing⟩

theorem dropRepeatsAfter_eq_self [TransOrd κ] [DecidableEq κ] {last : κ}
    (hlast : ∀ a ∈ l, compare last (key a) = .lt) (h : IncreasingBy key l) :
    dropRepeatsAfter key last l = l := by
  induction l generalizing last with
  | nil => rfl
  | cons a rest ih =>
    obtain ⟨hhead, htail⟩ := List.pairwise_cons.1 h
    have hne : key a ≠ last := by
      intro heq
      have hlt := hlast a List.mem_cons_self
      rw [heq, ReflOrd.compare_self] at hlt
      exact absurd hlt nofun
    rw [dropRepeatsAfter, if_neg hne, ih hhead htail]

/-- Where the keys strictly increase, nothing is dropped. -/
theorem dropRepeats_eq_self [TransOrd κ] [DecidableEq κ] (h : IncreasingBy key l) :
    dropRepeats key l = l := by
  cases l with
  | nil => rfl
  | cons a rest =>
    obtain ⟨hhead, htail⟩ := List.pairwise_cons.1 h
    rw [dropRepeats, dropRepeatsAfter_eq_self hhead htail]

end Keys

/-- **A strictly increasing list is determined by what is in it.** -/
theorem eq_of_increasing {α : Type u} [Ord α] [TransOrd α] [LawfulEqOrd α] {l l' : List α}
    (h : IncreasingBy id l) (h' : IncreasingBy id l') (hmem : ∀ a, a ∈ l ↔ a ∈ l') : l = l' := by
  have hperm : l.Perm l' := (List.perm_ext_iff_of_nodup h.nodup h'.nodup).2 hmem
  refine hperm.eq_of_pairwise (fun a b _ _ hab hba => ?_) h h'
  have hswap : compare b a = .gt := OrientedCmp.gt_of_lt hab
  exact absurd (hswap.symm.trans hba) (by decide)

end Concord

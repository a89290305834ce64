import Concord.Consistency
import Mathlib.Data.List.Nodup

/-!
# Look-ups in dictionaries

The keys of a dictionary and what is found under them, for dictionaries that are built from a list:
what an element of the list adds to under its key depends on the elements of that key alone
(`Dict.get?_foldl_upsert`). Sets of texts and collected findings are such dictionaries.
-/

namespace Concord

universe u v w

namespace Dict

variable {α : Type u} {β : Type v} {γ : Type w} {d : Dict β} {k : String}

theorem mem_keys_iff : k ∈ d.keys ↔ ∃ v, d.get? k = some v := by
  simp only [keys, List.mem_map, get?_eq_some_iff]
  constructor
  · rintro ⟨⟨k', v⟩, hmem, rfl⟩
    exact ⟨v, hmem⟩
  · rintro ⟨v, hmem⟩
    exact ⟨(k, v), hmem, rfl⟩

theorem contains_iff : d.contains k ↔ k ∈ d.keys := by
  rw [mem_keys_iff, contains, Option.isSome_iff_exists]

theorem get?_eq_none_iff : d.get? k = none ↔ ∀ e ∈ d.entries, e.1 ≠ k := by
  rw [Option.eq_none_iff_forall_ne_some]
  constructor
  · rintro h ⟨k', v⟩ he rfl
    exact h v (get?_eq_some_iff.2 he)
  · exact fun h v hv => h (k, v) (get?_eq_some_iff.1 hv) rfl

theorem nodup_keys (d : Dict β) : d.keys.Nodup :=
  (List.pairwise_map.2 d.sorted).imp ne_of_lt

/-- A key has one entry, if any. -/
theorem filter_entries (d : Dict β) (k : String) :
    (d.entries.filter fun e => e.1 = k) = ((d.get? k).map (Prod.mk k)).toList := by
  cases hget : d.get? k with
  | none =>
    rw [get?_eq_none_iff] at hget
    refine List.filter_eq_nil_iff.2 fun e he hk => ?_
    exact hget e he (of_decide_eq_true hk)
  | some v =>
    have hnodup : (d.entries.filter fun e => e.1 = k).Nodup := (nodup_keys d).of_map.filter _
    refine List.perm_singleton.1 ((List.perm_ext_iff_of_nodup hnodup (List.nodup_singleton _)).2 ?_)
    rintro ⟨k', v'⟩
    rw [List.mem_filter, decide_eq_true_eq, List.mem_singleton, ← get?_eq_some_iff]
    constructor
    · rintro ⟨hv', rfl⟩
      rw [Option.some.inj (hget.symm.trans hv')]
    · rintro ⟨⟩
      exact ⟨hget, rfl⟩

/-- What is listed entry by entry is listed once if that is so for each entry, and if it shows which
entry it belongs to. -/
theorem nodup_flatMap_entries {f : String × β → List γ} (key : γ → String)
    (hnodup : ∀ e ∈ d.entries, (f e).Nodup) (hkey : ∀ e ∈ d.entries, ∀ x ∈ f e, key x = e.1) :
    (d.entries.flatMap f).Nodup := by
  refine List.nodup_flatMap.2 ⟨hnodup, d.sorted.imp_of_mem fun {a b} ha hb hab => ?_⟩
  intro x hxa hxb
  exact ne_of_lt hab ((hkey a ha x hxa).symm.trans (hkey b hb x hxb))

theorem mem_keys_insert {v : β} {q : String} :
    q ∈ (d.insert k v).keys ↔ q = k ∨ q ∈ d.keys := by
  rw [mem_keys_iff, mem_keys_iff]
  by_cases hq : q = k <;> simp [get?_insert, hq]

/-- **A dictionary grows by the keys that are new.** -/
theorem size_insert (d : Dict β) (k : String) (v : β) :
    (d.insert k v).size = d.size + if d.contains k then 0 else 1 := by
  have hsize : ∀ e : Dict β, e.size = e.keys.length := fun e => List.length_map _ |>.symm
  rw [hsize, hsize]
  split
  · next h =>
    rw [contains_iff] at h
    refine List.Perm.length_eq ((List.perm_ext_iff_of_nodup (nodup_keys _) (nodup_keys _)).2 ?_)
    intro q
    rw [mem_keys_insert]
    exact ⟨fun hq => hq.elim (fun hk => hk ▸ h) id, .inr⟩
  · next h =>
    rw [contains_iff] at h
    have hnodup : (k :: d.keys).Nodup := List.nodup_cons.2 ⟨h, nodup_keys d⟩
    refine List.Perm.length_eq ((List.perm_ext_iff_of_nodup (nodup_keys _) hnodup).2 ?_)
    intro q
    rw [mem_keys_insert, List.mem_cons]

/-- A dictionary with one entry shows its key and its value. -/
theorem insert_empty_inj {k' : String} {v v' : β}
    (h : (empty : Dict β).insert k v = empty.insert k' v') : k = k' ∧ v = v' := by
  have hentries : [(k, v)] = [(k', v')] := congrArg Dict.entries h
  simpa using hentries

theorem get?_mapValues (d : Dict β) (f : β → γ) (k : String) :
    (d.mapValues f).get? k = (d.get? k).map f := by
  apply Option.ext
  intro v
  rw [get?_eq_some_iff, Option.map_eq_some_iff]
  simp only [mapValues, List.mem_map, get?_eq_some_iff, Prod.mk.injEq]
  constructor
  · rintro ⟨⟨k', b⟩, hmem, rfl, rfl⟩
    exact ⟨b, hmem, rfl⟩
  · rintro ⟨b, hmem, rfl⟩
    exact ⟨(k, b), hmem, rfl, rfl⟩

theorem contains_mapValues (d : Dict β) (f : β → γ) (k : String) :
    (d.mapValues f).contains k = d.contains k := by
  rw [contains, contains, get?_mapValues, Option.isSome_map]

@[simp] theorem mapValues_empty (f : β → γ) : (empty : Dict β).mapValues f = empty := rfl

theorem mapValues_insert (d : Dict β) (f : β → γ) (k : String) (v : β) :
    (d.insert k v).mapValues f = (d.mapValues f).insert k (f v) := by
  refine ext_get? fun q => ?_
  rw [get?_mapValues, get?_insert, get?_insert, get?_mapValues]
  split <;> rfl

/-- **Of several entries with one key the last is in the dictionary.** -/
theorem get?_ofList (l : List (String × β)) (k : String) :
    (ofList l).get? k = l.reverse.lookup k := by
  -- for any dictionary to begin with, in which what the list does not hold is looked up
  have hfold : ∀ d : Dict β, (l.foldl (fun d e => d.insert e.1 e.2) d).get? k =
      (l.reverse.lookup k).or (d.get? k) := by
    induction l with
    | nil => exact fun d => rfl
    | cons e l ih =>
      intro d
      rw [List.foldl_cons, ih, get?_insert, List.reverse_cons, List.lookup_append, Option.or_assoc]
      congr 1
      obtain ⟨k', v⟩ := e
      by_cases hk : k = k'
      · simp [hk]
      · simp [List.lookup_cons, hk, beq_false_of_ne hk]
  rw [ofList, hfold, get?_empty, Option.or_none]

/-! ### Dictionaries of lists -/

/-- **What is under a key comes from the elements of that key**, whatever the others add. -/
theorem get?_foldl_upsert (place : α → String) (f : α → Option β → β) (xs : List α) (d : Dict β)
    (k : String) :
    (xs.foldl (fun d x => d.upsert (place x) (f x)) d).get? k =
      (xs.filter fun x => place x = k).foldl (fun old x => some (f x old)) (d.get? k) := by
  induction xs generalizing d with
  | nil => rfl
  | cons x xs ih =>
    rw [List.foldl_cons, ih, get?_upsert, List.filter_cons]
    by_cases hx : place x = k
    · simp [hx]
    · simp [hx, Ne.symm hx]

/-- What is collected under a key, from a value to begin with, is there if there is something to
collect. -/
theorem get?_foldl_collect (place : α → String) (f : β → α → β) (start : β) (xs : List α)
    (k : String) :
    (xs.foldl (fun d x => d.upsert (place x) fun old => f (old.getD start) x) empty).get? k =
      if (xs.filter fun x => place x = k) = [] then none
      else some ((xs.filter fun x => place x = k).foldl f start) := by
  have hsome : ∀ (ys : List α) (b : β),
      ys.foldl (fun old x => some (f (old.getD start) x)) (some b) = some (ys.foldl f b) := by
    intro ys
    induction ys with
    | nil => exact fun _ => rfl
    | cons y ys ih => exact fun b => ih (f b y)
  rw [get?_foldl_upsert place (fun x old => f (old.getD start) x), get?_empty]
  cases xs.filter fun x => place x = k with
  | nil => rfl
  | cons y ys => exact (hsome ys (f start y)).trans (if_neg (List.cons_ne_nil y ys)).symm

end Dict

/-! ### Sets of texts -/

namespace TextSet

theorem mem_keys_ofTexts {x : String} {texts : List String} :
    x ∈ (TextSet.ofTexts texts).keys ↔ x ∈ texts := by
  -- for any set to begin with, as it grows along the fold
  have hfold : ∀ (d : TextSet), x ∈ (texts.foldl (fun s t => s.insert t ()) d).keys ↔
      x ∈ texts ∨ x ∈ d.keys := by
    induction texts with
    | nil => simp
    | cons t texts ih =>
      intro d
      rw [List.foldl_cons, ih, List.mem_cons, Dict.mem_keys_iff, Dict.mem_keys_iff]
      by_cases hx : x = t <;> simp [Dict.get?_insert, hx]
  rw [TextSet.ofTexts, hfold]
  simp [Dict.empty, Dict.keys]

variable {α : Type u} {place text : α → String} {xs : List α} {k : String}

theorem get?_foldl_insert (place text : α → String) (xs : List α) (k : String) :
    (xs.foldl (fun (d : Dict TextSet) x =>
      d.upsert (place x) fun old => (old.getD .empty).insert (text x) ()) .empty).get? k =
      if (xs.filter fun x => place x = k) = [] then none
      else some (ofTexts ((xs.filter fun x => place x = k).map text)) := by
  rw [Dict.get?_foldl_collect place fun (s : TextSet) x => s.insert (text x) (), ofTexts,
    List.foldl_map]

/-- The set under a key has the texts that were put there, of which there is one at least. -/
theorem of_mem_foldl_insert {texts : TextSet}
    (h : (k, texts) ∈ (xs.foldl (fun (d : Dict TextSet) x =>
      d.upsert (place x) fun old => (old.getD .empty).insert (text x) ()) .empty).entries) :
    (∃ x ∈ xs, place x = k) ∧ ∀ t, t ∈ texts.keys ↔ ∃ x ∈ xs, place x = k ∧ text x = t := by
  rw [← Dict.get?_eq_some_iff, get?_foldl_insert] at h
  split at h
  · simp at h
  · next hne =>
    obtain ⟨x, hx⟩ := List.exists_mem_of_ne_nil _ hne
    obtain ⟨hx, hplace⟩ := List.mem_filter.1 hx
    obtain rfl := Option.some.inj h
    refine ⟨⟨x, hx, of_decide_eq_true hplace⟩, fun t => ?_⟩
    rw [mem_keys_ofTexts]
    simp only [List.mem_map, List.mem_filter, decide_eq_true_eq, and_assoc]

theorem exists_mem_foldl_insert (h : ∃ x ∈ xs, place x = k) :
    ∃ texts, (k, texts) ∈ (xs.foldl (fun (d : Dict TextSet) x =>
      d.upsert (place x) fun old => (old.getD .empty).insert (text x) ()) .empty).entries := by
  obtain ⟨x, hx, hplace⟩ := h
  have hne : (xs.filter fun x => place x = k) ≠ [] :=
    List.ne_nil_of_mem (List.mem_filter.2 ⟨hx, decide_eq_true hplace⟩)
  exact ⟨_, Dict.get?_eq_some_iff.1 ((get?_foldl_insert place text xs k).trans (if_neg hne))⟩

end TextSet

end Concord

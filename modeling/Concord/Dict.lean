/-!
# Dictionaries keyed by text

A `Dict β` maps strings to values. Its entries are kept strictly increasing by key – the order
in which every report lists files, languages and catalog keys – so a dictionary has exactly one
representation and two dictionaries with the same look-ups are equal (`Dict.ext_get?`).

* `Dict.upsert` – put a value computed from the one already there, if any;
* `Dict.erase` – drop a key;
* `Dict.get?` – look a key up (`Dict.get?_upsert`, `Dict.get?_erase`).
-/

namespace Concord

universe u v

/-- Keys increase strictly along the list. -/
def KeysIncrease {β : Type u} (l : List (String × β)) : Prop :=
  l.Pairwise fun a b => a.1 < b.1

/-- Put `f old` at key `k`, where `old` is the value already there, if any. -/
def upsertEntry {β : Type u} (k : String) (f : Option β → β) :
    List (String × β) → List (String × β)
  | [] => [(k, f none)]
  | (a, b) :: rest =>
    if k < a then (k, f none) :: (a, b) :: rest
    else if a < k then (a, b) :: upsertEntry k f rest
    else (a, f (some b)) :: rest

/-- The value of the first entry for `k`. -/
def lookupEntry {β : Type u} (k : String) : List (String × β) → Option β
  | [] => none
  | (a, b) :: rest => if a = k then some b else lookupEntry k rest

section Entries

variable {β : Type u}

theorem eq_of_not_lt {a b : String} (h₁ : ¬ a < b) (h₂ : ¬ b < a) : a = b :=
  String.le_antisymm (String.not_lt.1 h₂) (String.not_lt.1 h₁)

theorem ne_of_lt {a b : String} (h : a < b) : a ≠ b := by
  rintro rfl
  exact String.lt_irrefl _ h

theorem key_mem_upsertEntry {k : String} {f : Option β → β} {l : List (String × β)}
    {x : String × β} (h : x ∈ upsertEntry k f l) : x.1 = k ∨ ∃ y ∈ l, y.1 = x.1 := by
  induction l with
  | nil =>
    simp only [upsertEntry, List.mem_singleton] at h
    exact .inl (by rw [h])
  | cons e rest ih =>
    obtain ⟨a, b⟩ := e
    simp only [upsertEntry] at h
    split at h
    · rcases List.mem_cons.1 h with h | h
      · exact .inl (by rw [h])
      · exact .inr ⟨x, h, rfl⟩
    · split at h
      · rcases List.mem_cons.1 h with h | h
        · exact .inr ⟨(a, b), List.mem_cons_self, by rw [h]⟩
        · rcases ih h with h | ⟨y, hy, hxy⟩
          · exact .inl h
          · exact .inr ⟨y, List.mem_cons_of_mem _ hy, hxy⟩
      · rcases List.mem_cons.1 h with h | h
        · exact .inr ⟨(a, b), List.mem_cons_self, by rw [h]⟩
        · exact .inr ⟨x, List.mem_cons_of_mem _ h, rfl⟩

theorem keysIncrease_upsertEntry (k : String) (f : Option β → β) {l : List (String × β)}
    (h : KeysIncrease l) : KeysIncrease (upsertEntry k f l) := by
  induction l with
  | nil => exact List.pairwise_singleton _ _
  | cons e rest ih =>
    obtain ⟨a, b⟩ := e
    obtain ⟨hhead, htail⟩ := List.pairwise_cons.1 h
    simp only [upsertEntry]
    split
    · next hka =>
      refine List.pairwise_cons.2 ⟨fun x hx => ?_, h⟩
      rcases List.mem_cons.1 hx with rfl | hx
      · exact hka
      · exact String.lt_trans hka (hhead x hx)
    · split
      · next hak =>
        refine List.pairwise_cons.2 ⟨fun x hx => ?_, ih htail⟩
        rcases key_mem_upsertEntry hx with hxk | ⟨y, hy, hyx⟩
        · rw [hxk]; exact hak
        · rw [← hyx]; exact hhead y hy
      · exact List.pairwise_cons.2 ⟨hhead, htail⟩

theorem lookupEntry_eq_none {k : String} {l : List (String × β)} (h : ∀ x ∈ l, x.1 ≠ k) :
    lookupEntry k l = none := by
  induction l with
  | nil => rfl
  | cons e rest ih =>
    obtain ⟨a, b⟩ := e
    simp only [lookupEntry]
    rw [if_neg (h (a, b) List.mem_cons_self)]
    exact ih fun x hx => h x (List.mem_cons_of_mem _ hx)

theorem lookupEntry_eq_some_iff {k : String} {v : β} {l : List (String × β)}
    (h : KeysIncrease l) : lookupEntry k l = some v ↔ (k, v) ∈ l := by
  induction l with
  | nil => simp [lookupEntry]
  | cons e rest ih =>
    obtain ⟨a, b⟩ := e
    obtain ⟨hhead, htail⟩ := List.pairwise_cons.1 h
    simp only [lookupEntry]
    split
    · next hak =>
      subst hak
      constructor
      · rintro ⟨⟩
        exact List.mem_cons_self
      · intro hm
        rcases List.mem_cons.1 hm with hm | hm
        · simp_all
        · exact absurd (hhead _ hm) (String.lt_irrefl _)
    · next hak =>
      rw [ih htail]
      constructor
      · exact List.mem_cons_of_mem _
      · intro hm
        rcases List.mem_cons.1 hm with hm | hm
        · simp_all
        · exact hm

theorem lookupEntry_upsertEntry (k : String) (f : Option β → β) {l : List (String × β)}
    (h : KeysIncrease l) (q : String) :
    lookupEntry q (upsertEntry k f l) =
      if q = k then some (f (lookupEntry k l)) else lookupEntry q l := by
  induction l with
  | nil =>
    by_cases hq : q = k
    · simp [upsertEntry, lookupEntry, hq]
    · simp [upsertEntry, lookupEntry, hq, Ne.symm hq]
  | cons e rest ih =>
    obtain ⟨a, b⟩ := e
    obtain ⟨hhead, htail⟩ := List.pairwise_cons.1 h
    simp only [upsertEntry]
    split
    · next hka =>
      have hak : a ≠ k := (ne_of_lt hka).symm
      have hrest : lookupEntry k rest = none :=
        lookupEntry_eq_none fun x hx => (ne_of_lt (String.lt_trans hka (hhead x hx))).symm
      by_cases hq : q = k
      · simp [lookupEntry, hq, hak, hrest]
      · simp [lookupEntry, hq, Ne.symm hq]
    · next hka =>
      split
      · next hak =>
        have hak' : a ≠ k := ne_of_lt hak
        simp only [lookupEntry, ih htail]
        by_cases hq : q = k
        · simp [hq, hak']
        · by_cases haq : a = q <;> simp [haq, hq]
      · next hak =>
        have hakeq : a = k := eq_of_not_lt hak hka
        subst hakeq
        by_cases hq : q = a
        · simp [lookupEntry, hq]
        · simp [lookupEntry, hq, Ne.symm hq]

end Entries

/-- A dictionary: entries in strictly increasing order of their keys. -/
structure Dict (β : Type u) where
  entries : List (String × β)
  sorted : KeysIncrease entries
deriving DecidableEq

namespace Dict

variable {β : Type u} {γ : Type v}

/-- The empty dictionary. -/
def empty : Dict β := ⟨[], List.Pairwise.nil⟩

instance : EmptyCollection (Dict β) := ⟨empty⟩

instance : Inhabited (Dict β) := ⟨empty⟩

/-- Put `f old` at key `k`, where `old` is the value already there, if any. -/
def upsert (d : Dict β) (k : String) (f : Option β → β) : Dict β :=
  ⟨upsertEntry k f d.entries, keysIncrease_upsertEntry k f d.sorted⟩

/-- Put a value at a key, replacing what was there. -/
def insert (d : Dict β) (k : String) (v : β) : Dict β := d.upsert k fun _ => v

/-- Drop a key. -/
def erase (d : Dict β) (k : String) : Dict β :=
  ⟨d.entries.filter fun e => e.1 ≠ k, d.sorted.filter _⟩

/-- The value at a key. -/
def get? (d : Dict β) (k : String) : Option β := lookupEntry k d.entries

/-- Whether a key is present. -/
def contains (d : Dict β) (k : String) : Bool := (d.get? k).isSome

/-- The keys, in order. -/
def keys (d : Dict β) : List String := d.entries.map Prod.fst

/-- The values, in the order of their keys. -/
def values (d : Dict β) : List β := d.entries.map Prod.snd

/-- The number of keys. -/
def size (d : Dict β) : Nat := d.entries.length

/-- Whether there is no key. -/
def isEmpty (d : Dict β) : Bool := d.entries.isEmpty

/-- Apply a function to every value. -/
def mapValues (d : Dict β) (f : β → γ) : Dict γ :=
  ⟨d.entries.map fun e => (e.1, f e.2), by
    have h := d.sorted
    simp only [KeysIncrease, List.pairwise_map] at h ⊢
    exact h⟩

/-- The dictionary of a list of entries; a later entry replaces an earlier one. -/
def ofList (l : List (String × β)) : Dict β := l.foldl (fun d e => d.insert e.1 e.2) empty

@[simp] theorem get?_empty (k : String) : (empty : Dict β).get? k = none := rfl

theorem get?_upsert (d : Dict β) (k : String) (f : Option β → β) (q : String) :
    (d.upsert k f).get? q = if q = k then some (f (d.get? k)) else d.get? q :=
  lookupEntry_upsertEntry k f d.sorted q

theorem get?_insert (d : Dict β) (k : String) (v : β) (q : String) :
    (d.insert k v).get? q = if q = k then some v else d.get? q :=
  get?_upsert d k _ q

theorem get?_eq_some_iff {d : Dict β} {k : String} {v : β} :
    d.get? k = some v ↔ (k, v) ∈ d.entries :=
  lookupEntry_eq_some_iff d.sorted

theorem get?_erase (d : Dict β) (k q : String) :
    (d.erase k).get? q = if q = k then none else d.get? q := by
  apply Option.ext
  intro v
  rw [get?_eq_some_iff]
  simp only [erase, List.mem_filter, decide_eq_true_eq]
  by_cases hq : q = k
  · simp [hq]
  · simp [hq, get?_eq_some_iff]

/-- A dictionary is determined by its look-ups. -/
theorem ext_get? {d e : Dict β} (h : ∀ k, d.get? k = e.get? k) : d = e := by
  obtain ⟨l, hl⟩ := d
  obtain ⟨m, hm⟩ := e
  have hmem : ∀ x, x ∈ l ↔ x ∈ m := by
    rintro ⟨k, v⟩
    rw [← lookupEntry_eq_some_iff hl, ← lookupEntry_eq_some_iff hm,
      show lookupEntry k l = lookupEntry k m from h k]
  suffices l = m by subst this; rfl
  clear h
  induction l generalizing m with
  | nil =>
    cases m with
    | nil => rfl
    | cons y m => exact absurd ((hmem y).2 List.mem_cons_self) List.not_mem_nil
  | cons x l ih =>
    cases m with
    | nil => exact absurd ((hmem x).1 List.mem_cons_self) List.not_mem_nil
    | cons y m =>
      obtain ⟨hx, hl'⟩ := List.pairwise_cons.1 hl
      obtain ⟨hy, hm'⟩ := List.pairwise_cons.1 hm
      have hxy : x = y := by
        rcases List.mem_cons.1 ((hmem x).1 List.mem_cons_self) with h | h
        · exact h
        · rcases List.mem_cons.1 ((hmem y).2 List.mem_cons_self) with h' | h'
          · exact h'.symm
          · exact absurd (String.lt_trans (hx y h') (hy x h)) (String.lt_irrefl _)
      subst hxy
      rw [ih hl' m hm']
      intro z
      constructor
      · intro hz
        rcases List.mem_cons.1 ((hmem z).1 (List.mem_cons_of_mem _ hz)) with h | h
        · subst h
          exact absurd (hx z hz) (String.lt_irrefl _)
        · exact h
      · intro hz
        rcases List.mem_cons.1 ((hmem z).2 (List.mem_cons_of_mem _ hz)) with h | h
        · subst h
          exact absurd (hy z hz) (String.lt_irrefl _)
        · exact h

end Dict

end Concord

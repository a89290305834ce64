import Mathlib.Data.List.Forall2

/-!
# Attempts at each element of a list

Something is tried at the elements of a list in turn, up to the first that fails. All of it succeeds
when each attempt does (`mapM_eq_ok_iff`), and then the results stand beside the elements: what is
known of any two elements goes over to their results (`pairwise_of_forall₂`).
-/

namespace Concord

universe u v w

variable {ε : Type u} {α : Type v} {β : Type w} {f : α → Except ε β}

theorem mapM_cons_eq_ok_iff {a : α} {as : List α} {bs : List β} :
    (a :: as).mapM f = .ok bs ↔ ∃ b bs', f a = .ok b ∧ as.mapM f = .ok bs' ∧ bs = b :: bs' := by
  rw [List.mapM_cons]
  cases f a with
  | error e => simp [bind, Except.bind]
  | ok b =>
    cases as.mapM f with
    | error e => simp [bind, Except.bind]
    | ok bs' => simp [bind, Except.bind, pure, Except.pure, eq_comm]

/-- **All attempts succeed** when each one does. -/
theorem mapM_eq_ok_iff {as : List α} {bs : List β} :
    as.mapM f = .ok bs ↔ List.Forall₂ (fun a b => f a = .ok b) as bs := by
  induction as generalizing bs with
  | nil =>
    rw [List.mapM_nil, List.forall₂_nil_left_iff]
    exact ⟨fun h => (Except.ok.inj h).symm, fun h => h ▸ rfl⟩
  | cons a as ih =>
    rw [mapM_cons_eq_ok_iff, List.forall₂_cons_left_iff]
    constructor
    · rintro ⟨b, bs', hb, hbs', rfl⟩
      exact ⟨b, bs', hb, ih.1 hbs', rfl⟩
    · rintro ⟨b, bs', hb, hbs', rfl⟩
      exact ⟨b, bs', hb, ih.2 hbs', rfl⟩

theorem exists_mapM_eq_ok {as : List α} (h : ∀ a ∈ as, ∃ b, f a = .ok b) :
    ∃ bs, as.mapM f = .ok bs := by
  induction as with
  | nil => exact ⟨[], rfl⟩
  | cons a as ih =>
    obtain ⟨b, hb⟩ := h a List.mem_cons_self
    obtain ⟨bs, hbs⟩ := ih fun a' ha' => h a' (List.mem_cons_of_mem _ ha')
    exact ⟨b :: bs, mapM_cons_eq_ok_iff.2 ⟨b, bs, hb, hbs, rfl⟩⟩

/-- What makes all attempts fail is what makes one of them fail. -/
theorem exists_of_mapM_eq_error {as : List α} {e : ε} (h : as.mapM f = .error e) :
    ∃ a ∈ as, f a = .error e := by
  induction as with
  | nil => simp [pure, Except.pure] at h
  | cons a as ih =>
    rw [List.mapM_cons] at h
    cases ha : f a with
    | error e' =>
      rw [ha] at h
      obtain rfl : e' = e := Except.error.inj h
      exact ⟨a, List.mem_cons_self, ha⟩
    | ok b =>
      cases hrest : as.mapM f with
      | error e' =>
        simp only [ha, hrest, bind, Except.bind] at h
        obtain rfl : e' = e := Except.error.inj h
        obtain ⟨a', ha', hfails⟩ := ih hrest
        exact ⟨a', List.mem_cons_of_mem _ ha', hfails⟩
      | ok bs => simp [ha, hrest, bind, Except.bind, pure, Except.pure] at h

/-! ### Results that go with elements -/

theorem exists_of_mem_forall₂ {R : α → β → Prop} {as : List α} {bs : List β}
    (h : List.Forall₂ R as bs) {b : β} (hb : b ∈ bs) : ∃ a ∈ as, R a b := by
  induction h with
  | nil => simp at hb
  | @cons a b' as bs hab _ ih =>
    rcases List.mem_cons.1 hb with rfl | hb
    · exact ⟨a, List.mem_cons_self, hab⟩
    · obtain ⟨a', ha', hr⟩ := ih hb
      exact ⟨a', List.mem_cons_of_mem _ ha', hr⟩

/-- What holds between any two elements, in their order, goes over to what belongs to them. -/
theorem pairwise_of_forall₂ {R : α → β → Prop} {S : α → α → Prop} {T : β → β → Prop}
    (hT : ∀ {a a' b b'}, S a a' → R a b → R a' b' → T b b') {as : List α} {bs : List β}
    (h : List.Forall₂ R as bs) (hS : as.Pairwise S) : bs.Pairwise T := by
  induction h with
  | nil => exact List.Pairwise.nil
  | cons hab hrest ih =>
    obtain ⟨hhead, htail⟩ := List.pairwise_cons.1 hS
    refine List.pairwise_cons.2 ⟨fun b' hb' => ?_, ih htail⟩
    obtain ⟨a', ha', hr⟩ := exists_of_mem_forall₂ hrest hb'
    exact hT (hhead a' ha') hab hr

end Concord

import Concord.Diagnostic
import Concord.Proofs.Dictionaries
import Concord.Proofs.Repeats

/-!
# Merging findings

Findings are merged file by file, and the list of a file is sorted each time the second findings
report on the file. So what is collected about a file is a rearrangement of all that was found about
it (`Findings.about_foldl_merge`), and as soon as one merge reports on the file, it is in order
(`Findings.orderedBy_foldl_merge`). A file on which no merge reports keeps its list as it was.
-/

namespace Concord

namespace Findings

/-- What is found about a file. -/
def about (f : Findings) (file : String) : List Diagnostic := (f.get? file).getD []

theorem about_of_get? {f : Findings} {file : String} {ds : List Diagnostic}
    (h : f.get? file = some ds) : f.about file = ds := by
  rw [about, h, Option.getD_some]

/-! ### One merge -/

/-- **A merge looks at each file by itself.** -/
theorem get?_merge (f g : Findings) (file : String) :
    (f.merge g).get? file =
      match g.get? file with
      | some ds => some (Diagnostic.sort (f.about file ++ ds))
      | none => f.get? file := by
  have h := Dict.get?_foldl_upsert Prod.fst
    (fun (e : String × List Diagnostic) old => Diagnostic.sort (old.getD [] ++ e.2)) g.entries f
    file
  rw [Dict.filter_entries] at h
  refine h.trans ?_
  cases g.get? file <;> rfl

theorem contains_merge (f g : Findings) (file : String) :
    (f.merge g).contains file = (f.contains file || g.contains file) := by
  rw [Dict.contains, get?_merge, Dict.contains, Dict.contains]
  cases g.get? file with
  | none => exact (Bool.or_false _).symm
  | some ds => exact (Bool.or_true _).symm

theorem about_merge (f g : Findings) (file : String) :
    ((f.merge g).about file).Perm (f.about file ++ g.about file) := by
  cases hg : g.get? file with
  | none =>
    rw [about, get?_merge, hg, about, about, hg, Option.getD_none, List.append_nil]
  | some ds =>
    rw [about, get?_merge, hg, about_of_get? hg]
    exact List.mergeSort_perm _ _

theorem orderedBy_merge {f g : Findings} {file : String}
    (h : OrderedBy id (f.about file) ∨ g.contains file) :
    OrderedBy id ((f.merge g).about file) := by
  rw [about, get?_merge]
  cases hg : g.get? file with
  | none =>
    rcases h with h | h
    · exact h
    · rw [Dict.contains, hg] at h
      simp at h
  | some ds => exact orderedBy_mergeSort id _

/-! ### Many merges -/

theorem get?_foldl_merge_of_none {gs : List Findings} {file : String}
    (h : ∀ g ∈ gs, ¬ g.contains file) (f : Findings) :
    (gs.foldl merge f).get? file = f.get? file := by
  induction gs generalizing f with
  | nil => rfl
  | cons g gs ih =>
    have hg : g.get? file = none := by simpa [Dict.contains] using h g List.mem_cons_self
    rw [List.foldl_cons, ih fun g' hg' => h g' (List.mem_cons_of_mem _ hg'), get?_merge, hg]

theorem contains_foldl_merge {gs : List Findings} {file : String}
    (h : ∃ g ∈ gs, g.contains file) (f : Findings) : (gs.foldl merge f).contains file := by
  -- what a merge has put there stays
  have hstays : ∀ (gs : List Findings) (f : Findings), f.contains file →
      (gs.foldl merge f).contains file := by
    intro gs
    induction gs with
    | nil => exact fun _ hf => hf
    | cons g gs ih => exact fun f hf => ih _ (by rw [contains_merge, hf, Bool.true_or])
  obtain ⟨g, hg, hfile⟩ := h
  obtain ⟨before, after, rfl⟩ := List.append_of_mem hg
  rw [List.foldl_append, List.foldl_cons]
  exact hstays after _ (by rw [contains_merge, hfile, Bool.or_true])

/-- **Merges lose and invent nothing.** -/
theorem about_foldl_merge (gs : List Findings) (f : Findings) (file : String) :
    ((gs.foldl merge f).about file).Perm (f.about file ++ gs.flatMap fun g => g.about file) := by
  induction gs generalizing f with
  | nil => rw [List.foldl_nil, List.flatMap_nil, List.append_nil]
  | cons g gs ih =>
    rw [List.foldl_cons, List.flatMap_cons, ← List.append_assoc]
    exact (ih (f.merge g)).trans ((about_merge f g file).append_right _)

/-- **What one merge has sorted stays sorted.** -/
theorem orderedBy_foldl_merge {gs : List Findings} {f : Findings} {file : String}
    (h : OrderedBy id (f.about file) ∨ ∃ g ∈ gs, g.contains file) :
    OrderedBy id ((gs.foldl merge f).about file) := by
  induction gs generalizing f with
  | nil =>
    rcases h with h | ⟨g, hg, -⟩
    · exact h
    · exact absurd hg List.not_mem_nil
  | cons g gs ih =>
    refine ih ?_
    rcases h with h | ⟨g', hg', hfile⟩
    · exact .inl (orderedBy_merge (.inl h))
    · rcases List.mem_cons.1 hg' with rfl | hg'
      · exact .inl (orderedBy_merge (.inr hfile))
      · exact .inr ⟨g', hg', hfile⟩

end Findings

end Concord

import Concord.Proofs.Attempts
import Concord.Proofs.Dictionaries
import Concord.Rename
import Concord.Workspace.Memory

/-!
# Edits of files in memory

What edits do to a file depends on the edits of that file alone: an edit set holds, for each file,
the edits pushed for it (`EditSet.get?_foldl_push`), and edits that are made give each edited file
its edited text and leave all other files as they are (`MemoryWorkspace.Edited.of_applyEdits`). For
a rename this says what becomes of a file that holds no call sites (`get?_planRename`).
-/

namespace Concord

/-! ### Edit sets -/

namespace EditSet

theorem get?_push (s : EditSet) (file : String) (range : Range) (newText q : String) :
    (s.push file range newText).byFile.get? q =
      if q = file then some (TextEdit.insertInto ⟨range, newText⟩ ((s.byFile.get? file).getD []))
      else s.byFile.get? q :=
  Dict.get?_upsert _ _ _ _

/-- **The edits of a file are those pushed for it**, whatever is pushed for others. -/
theorem get?_foldl_push {α : Type} (place : α → String) (edit : α → Range × String) (xs : List α)
    (s : EditSet) (file : String) :
    (xs.foldl (fun s x => s.push (place x) (edit x).1 (edit x).2) s).byFile.get? file =
      (xs.filter fun x => place x = file).foldl
        (fun old x => some (TextEdit.insertInto ⟨(edit x).1, (edit x).2⟩ (old.getD [])))
        (s.byFile.get? file) := by
  -- to the dictionary of a set a push is an update under the file
  have hbyFile : xs.foldl (fun d x => d.upsert (place x) fun old =>
      TextEdit.insertInto ⟨(edit x).1, (edit x).2⟩ (old.getD [])) s.byFile =
      (xs.foldl (fun s x => s.push (place x) (edit x).1 (edit x).2) s).byFile :=
    List.foldl_hom EditSet.byFile fun _ _ => rfl
  rw [← hbyFile, Dict.get?_foldl_upsert place fun x old =>
    TextEdit.insertInto ⟨(edit x).1, (edit x).2⟩ (old.getD [])]

end EditSet

/-- What a rename that can be planned is. -/
theorem planRename_ok {old new : String} {sites : List CallSite} {locations : List Location}
    {existing : TextSet} {edits : EditSet} (hne : new ≠ old)
    (h : planRename old new sites locations existing = .ok edits) :
    new ≠ "" ∧ existing.contains new = false ∧
      edits = locations.foldl
        (fun edits l => edits.push l.file l.range (Rename.catalogText new))
        ((sites.filter fun s => s.key = old).foldl
          (fun edits s => edits.push s.location.file (Rename.siteEdit new s).1
            (Rename.siteEdit new s).2) .empty) := by
  simp only [planRename, if_neg hne] at h
  split at h
  · simp at h
  · next hempty =>
    split at h
    · simp at h
    · next hfree =>
      exact ⟨hempty, Bool.eq_false_iff.2 hfree, (Except.ok.inj h).symm⟩

/-- **What a rename does to a file without call sites**: it edits the locations given for it. -/
theorem get?_planRename {old new : String} {sites : List CallSite} {locations : List Location}
    {existing : TextSet} {edits : EditSet} (hne : new ≠ old)
    (h : planRename old new sites locations existing = .ok edits) {file : String}
    (hsites : ∀ s ∈ sites, s.location.file ≠ file) :
    edits.byFile.get? file = (locations.filter fun l => l.file = file).foldl
      (fun edits l => some (TextEdit.insertInto ⟨l.range, Rename.catalogText new⟩ (edits.getD [])))
      none := by
  obtain ⟨-, -, rfl⟩ := planRename_ok hne h
  have hnone :
      ((sites.filter fun s => s.key = old).filter fun s => s.location.file = file) = [] := by
    rw [List.filter_eq_nil_iff]
    exact fun s hs hfile => hsites s (List.mem_filter.1 hs).1 (of_decide_eq_true hfile)
  rw [EditSet.get?_foldl_push Location.file fun l => (l.range, Rename.catalogText new),
    EditSet.get?_foldl_push (fun s : CallSite => s.location.file) (Rename.siteEdit new), hnone]
  rfl

/-! ### Edits that are made -/

namespace MemoryWorkspace

/-- How the files of a workspace are related after edits were made. -/
structure Edited (w w' : MemoryWorkspace) (edits : EditSet) : Prop where
  edited (file : String) (es : List TextEdit) : edits.byFile.get? file = some es →
    ∃ text text', w.files.get? file = some text ∧ Workspace.editText file text es = .ok text' ∧
      w'.files.get? file = some text'
  unchanged (file : String) : edits.byFile.get? file = none →
    w'.files.get? file = w.files.get? file
  closedDirs : w'.closedDirs = w.closedDirs
  closedFiles : w'.closedFiles = w.closedFiles

theorem edited_eq_ok_iff {w : MemoryWorkspace} {e : String × List TextEdit}
    {t : String × String} : w.edited e = .ok t ↔
      ∃ text, w.files.get? e.1 = some text ∧ Workspace.editText e.1 text e.2 = .ok t.2 ∧
        e.1 = t.1 := by
  obtain ⟨file, new⟩ := t
  rw [edited.eq_def]
  cases w.files.get? e.1 with
  | none => simp
  | some text => cases h : Workspace.editText e.1 text e.2 <;> simp [h, Except.map, and_comm]

/-- Texts put one after the other, each under its own name. -/
theorem get?_foldl_put {w : MemoryWorkspace} {es : List (String × List TextEdit)}
    {texts : List (String × String)} (hes : KeysIncrease es) (h : es.mapM w.edited = .ok texts)
    (w₀ : MemoryWorkspace) :
    (∀ e ∈ es, ∃ text text', w.files.get? e.1 = some text ∧
        Workspace.editText e.1 text e.2 = .ok text' ∧
        (texts.foldl (fun w t => w.put t.1 t.2) w₀).files.get? e.1 = some text') ∧
      ∀ file, (∀ e ∈ es, e.1 ≠ file) →
        (texts.foldl (fun w t => w.put t.1 t.2) w₀).files.get? file = w₀.files.get? file := by
  induction es generalizing w₀ texts with
  | nil =>
    obtain rfl : [] = texts := Except.ok.inj h
    exact ⟨by simp, fun _ _ => rfl⟩
  | cons e es ih =>
    obtain ⟨hhead, htail⟩ := List.pairwise_cons.1 hes
    obtain ⟨⟨file, new⟩, texts, hedited, hrest, rfl⟩ := mapM_cons_eq_ok_iff.1 h
    obtain ⟨text, htext, hnew, rfl⟩ := edited_eq_ok_iff.1 hedited
    obtain ⟨hmem, hother⟩ := ih htail hrest (w₀.put e.1 new)
    have hput : ((w₀.put e.1 new).files.get? e.1) = some new := by
      rw [put, Dict.get?_insert, if_pos rfl]
    -- the names increase, so no later text is put under this one
    have hne : ∀ e' ∈ es, e'.1 ≠ e.1 := fun e' he' => (ne_of_lt (hhead e' he')).symm
    constructor
    · intro e' he'
      rcases List.mem_cons.1 he' with rfl | he'
      · exact ⟨text, new, htext, hnew, (hother _ hne).trans hput⟩
      · exact hmem e' he'
    · intro file hfile
      rw [List.foldl_cons, hother file fun e' he' => hfile e' (List.mem_cons_of_mem _ he'),
        put, Dict.get?_insert, if_neg]
      exact fun hq => hfile e List.mem_cons_self hq.symm

theorem closed_foldl_put (texts : List (String × String)) (w : MemoryWorkspace) :
    (texts.foldl (fun w t => w.put t.1 t.2) w).closedDirs = w.closedDirs ∧
      (texts.foldl (fun w t => w.put t.1 t.2) w).closedFiles = w.closedFiles := by
  induction texts generalizing w with
  | nil => exact ⟨rfl, rfl⟩
  | cons t texts ih => exact ih (w.put t.1 t.2)

/-- **Edits that are made** give each edited file its edited text and leave the others alone. -/
theorem Edited.of_applyEdits {w w' : MemoryWorkspace} {edits : EditSet}
    (h : w.applyEdits edits = (.ok (), w')) : Edited w w' edits := by
  rw [applyEdits] at h
  split at h
  · simp at h
  · next texts htexts =>
    obtain rfl : texts.foldl (fun w t => w.put t.1 t.2) w = w' := congrArg Prod.snd h
    obtain ⟨hmem, hother⟩ := get?_foldl_put edits.byFile.sorted htexts w
    obtain ⟨hdirs, hfiles⟩ := closed_foldl_put texts w
    refine ⟨fun file es hes => ?_, fun file hnone => ?_, hdirs, hfiles⟩
    · exact hmem (file, es) (Dict.get?_eq_some_iff.1 hes)
    · refine hother file fun e he hfile => ?_
      have hmem' : (file, e.2) ∈ edits.byFile.entries := by
        rw [← hfile]
        exact he
      rw [Dict.get?_eq_some_iff.2 hmem'] at hnone
      simp at hnone

end MemoryWorkspace

end Concord

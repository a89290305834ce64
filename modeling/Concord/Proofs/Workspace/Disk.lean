import Concord.Proofs.Attempts
import Concord.Proofs.Workspace.FileTree
import Concord.Workspace.Disk

/-!
# Replacing files on disk, all or none

A file is replaced through a temporary sibling, and all that can go wrong goes wrong before
anything is changed: if the sibling is vacant the file has its new text afterwards and the sibling
is vacant again (`replace_of_vacant`), and otherwise the tree is as before
(`replace_of_not_vacant`). Replacing a file once more, by the text it had, is an undoing
(`replace_replace`).

Files replaced one after the other are followed by the tree that the latest ones can be restored
from: at each point, restoring what was replaced so far leads back to the beginning
(`commit_cases`). This needs edited files that are different files, and that no temporary sibling is
a file (`Disk.Tidy`): such a file would be overwritten and moved away.
-/

namespace Concord

namespace Disk

open FileTree (pathOf)

/-- A place for the temporary sibling of a file: its directory is there, and it is not. -/
def Vacant (t : FileTree) (file : String) : Prop :=
  ∃ q, t.resolve (temporaryPath file) = .ok q ∧ t.node? q = none

/-- No file is where the temporary sibling of a file goes, though a directory may be. -/
def Clear (t : FileTree) (file : String) : Prop :=
  ∀ q, t.resolve (temporaryPath file) = .ok q →
    t.node? q = none ∨ t.node? q = some .directory

/-- Edits of different files, none of which has a file where its temporary sibling goes. -/
structure Tidy (d : Disk) (edits : EditSet) : Prop where
  distinct : edits.byFile.keys.Pairwise fun a b => ∀ p q,
    d.tree.resolve a = .ok p → d.tree.resolve b = .ok q → pathOf p ≠ pathOf q
  clear (file : String) : file ∈ edits.byFile.keys → Clear d.tree file

/-- A file that can be replaced if its temporary sibling is vacant. -/
structure Ready (t : FileTree) (file former : String) (p : Place) : Prop where
  leads : t.resolve file = .ok p
  holds : t.node? p = some (.text former)
  clear : Clear t file

section Replace

variable {t : FileTree} {file former : String} {p : Place}

theorem Ready.ne_nil (h : Ready t file former p) : p ≠ [] :=
  FileTree.ne_nil_of_node? h.holds (by simp)

/-! ### Replacing one file -/

/-- **A file with a vacant sibling is replaced**, and nothing else is changed. -/
theorem replace_of_vacant (h : Ready t file former p) (hvacant : Vacant t file) (text : String) :
    replace t file text = (.ok (), t.put p (.text text)) := by
  obtain ⟨q, hq, hnone⟩ := hvacant
  have hqne : q ≠ [] := FileTree.ne_nil_of_node? hnone (by simp)
  have hwrite : t.write (temporaryPath file) text = .ok (t.put q (.text text)) := by
    simp [FileTree.write, hq, hnone, bind, Except.bind, pure, Except.pure]
  have hsource : (t.put q (.text text)).find (temporaryPath file) = .ok (q, .text text) := by
    simp [FileTree.find, FileTree.resolve_put_vacant hnone hq,
      FileTree.node?_put_of_eq hqne rfl, bind, Except.bind, pure, Except.pure]
  have hnode : (t.put q (.text text)).node? p = some (.text former) := by
    rw [FileTree.node?_put_of_node?_ne hqne (by simp [h.holds, hnone]), h.holds]
  have hmove : (t.put q (.text text)).move (temporaryPath file) file =
      .ok (t.put p (.text text)) := by
    simp [FileTree.move, hsource, FileTree.resolve_put_vacant hnone h.leads, hnode,
      FileTree.take_put hnone, bind, Except.bind, pure, Except.pure]
  simp [replace, hwrite, hmove]

/-- **A file without a vacant sibling is not replaced**, and nothing is changed. -/
theorem replace_of_not_vacant (h : Ready t file former p) (hvacant : ¬ Vacant t file)
    (text : String) : ∃ fault,
      replace t file text = (.error (.unwritable (temporaryPath file) fault), t) := by
  cases hq : t.resolve (temporaryPath file) with
  | error fault =>
    refine ⟨fault, ?_⟩
    simp [replace, FileTree.write, hq, bind, Except.bind]
  | ok q =>
    have hdir : t.node? q = some .directory :=
      (h.clear q hq).resolve_left fun hnone => hvacant ⟨q, hq, hnone⟩
    refine ⟨.isDirectory, ?_⟩
    simp [replace, FileTree.write, hq, hdir, bind, Except.bind, throw, throwThe,
      MonadExceptOf.throw]

/-! ### What a replaced file leaves as it was -/

theorem vacant_put (hp : t.node? p = some (.text former)) (text other : String) :
    Vacant (t.put p (.text text)) other ↔ Vacant t other := by
  rw [Vacant, Vacant, FileTree.resolve_put_text hp]
  refine exists_congr fun q => and_congr_right fun _ => ?_
  rcases FileTree.node?_put_text hp text q with hsame | ⟨hformer, hnew⟩
  · rw [hsame]
  · simp [hformer, hnew]

theorem clear_put (hp : t.node? p = some (.text former)) (text other : String) :
    Clear (t.put p (.text text)) other ↔ Clear t other := by
  rw [Clear, Clear, FileTree.resolve_put_text hp]
  refine forall_congr' fun q => imp_congr_right fun _ => ?_
  rcases FileTree.node?_put_text hp text q with hsame | ⟨hformer, hnew⟩
  · rw [hsame]
  · simp [hformer, hnew]

/-- A replaced file can be replaced again. -/
theorem Ready.put_self (h : Ready t file former p) (text : String) :
    Ready (t.put p (.text text)) file text p where
  leads := (FileTree.resolve_put_text h.holds text file).trans h.leads
  holds := FileTree.node?_put_of_eq h.ne_nil rfl
  clear := (clear_put h.holds text file).2 h.clear

/-- The other files can be replaced as before. -/
theorem Ready.put {file' former' : String} {p' : Place} (h : Ready t file former p)
    (hp : pathOf p' ≠ pathOf p) (text : String) (h' : Ready t file' former' p') :
    Ready (t.put p (.text text)) file' former' p' where
  leads := (FileTree.resolve_put_text h.holds text file').trans h'.leads
  holds := (FileTree.node?_put_of_ne hp).trans h'.holds
  clear := (clear_put h.holds text file').2 h'.clear

/-- **Replacing a file by the text it had** undoes its replacement. -/
theorem replace_replace (h : Ready t file former p) (hvacant : Vacant t file) (text : String) :
    replace (t.put p (.text text)) file former = (.ok (), t) := by
  rw [replace_of_vacant (h.put_self text) ((vacant_put h.holds text file).2 hvacant),
    FileTree.put_put_self h.ne_nil h.holds]

end Replace

/-! ### Replacing several files -/

/-- The tree after files at known places were replaced. -/
def rewritten (t : FileTree) (rs : List (Replacement × Place)) : FileTree :=
  rs.foldl (fun t r => t.put r.2 (.text r.1.edited)) t

/-- Files that can be replaced one after the other. -/
structure AllReady (t : FileTree) (rs : List (Replacement × Place)) : Prop where
  ready (r : Replacement × Place) : r ∈ rs → Ready t r.1.file r.1.former r.2
  apart : rs.Pairwise fun r r' => pathOf r'.2 ≠ pathOf r.2

variable {t t' t₀ : FileTree} {r : Replacement × Place} {rs : List (Replacement × Place)}

theorem AllReady.head (h : AllReady t (r :: rs)) : Ready t r.1.file r.1.former r.2 :=
  h.ready r List.mem_cons_self

/-- When the first file is replaced, the rest is still to be replaced. -/
theorem AllReady.tail (h : AllReady t (r :: rs)) :
    AllReady (t.put r.2 (.text r.1.edited)) rs := by
  obtain ⟨hhead, htail⟩ := List.pairwise_cons.1 h.apart
  refine ⟨fun r' hr' => ?_, htail⟩
  exact h.head.put (hhead r' hr') _ (h.ready r' (List.mem_cons_of_mem _ hr'))

theorem commit_cons (t : FileTree) (replaced : List (String × String)) (r : Replacement)
    (rest : List Replacement) : commit t replaced (r :: rest) =
      match replace t r.file r.edited with
      | (.ok (), t) => commit t ((r.file, r.former) :: replaced) rest
      | (.error e, t) => (.error e, restore t replaced) := by
  rfl

theorem commit_cons_of_ok {r : Replacement} {rest : List Replacement}
    {replaced : List (String × String)} (h : replace t r.file r.edited = (.ok (), t')) :
    commit t replaced (r :: rest) = commit t' ((r.file, r.former) :: replaced) rest := by
  rw [commit_cons, h]

theorem commit_cons_of_error {error : WorkspaceError} {r : Replacement} {rest : List Replacement}
    {replaced : List (String × String)} (h : replace t r.file r.edited = (.error error, t')) :
    commit t replaced (r :: rest) = (.error error, restore t' replaced) := by
  rw [commit_cons, h]

/-- **All files are replaced or none**: if each has a vacant sibling then each is replaced.
Otherwise the tree is the one that the files replaced so far are restored to. -/
theorem commit_cases (h : AllReady t rs) {replaced : List (String × String)}
    (hrestore : restore t replaced = t₀) :
    ((∀ r ∈ rs, Vacant t r.1.file) ∧
      commit t replaced (rs.map Prod.fst) = (.ok (), rewritten t rs)) ∨
    ((∃ r ∈ rs, ¬ Vacant t r.1.file) ∧
      ∃ error, commit t replaced (rs.map Prod.fst) = (.error error, t₀)) := by
  induction rs generalizing t replaced with
  | nil => exact .inl ⟨by simp, rfl⟩
  | cons r rs ih =>
    rw [List.map_cons]
    by_cases hvacant : Vacant t r.1.file
    · rw [commit_cons_of_ok (replace_of_vacant h.head hvacant r.1.edited)]
      -- what is restored first is the file just replaced, and then all is as before it
      have hback : restore (t.put r.2 (.text r.1.edited))
          ((r.1.file, r.1.former) :: replaced) = t₀ := by
        rw [restore, List.foldl_cons, replace_replace h.head hvacant]
        exact hrestore
      rcases ih h.tail hback with ⟨hall, hcommit⟩ | ⟨⟨r', hr', hnot⟩, hcommit⟩
      · refine .inl ⟨fun r' hr' => ?_, hcommit⟩
        rcases List.mem_cons.1 hr' with rfl | hr'
        · exact hvacant
        · exact (vacant_put h.head.holds _ _).1 (hall r' hr')
      · refine .inr ⟨⟨r', List.mem_cons_of_mem _ hr', fun hr'' => hnot ?_⟩, hcommit⟩
        exact (vacant_put h.head.holds _ _).2 hr''
    · obtain ⟨fault, hreplace⟩ := replace_of_not_vacant h.head hvacant r.1.edited
      rw [commit_cons_of_error hreplace, hrestore]
      exact .inr ⟨⟨r, List.mem_cons_self, hvacant⟩, _, rfl⟩

/-! ### The tree with all files replaced -/

theorem resolve_rewritten (h : AllReady t rs) (path : String) :
    (rewritten t rs).resolve path = t.resolve path := by
  induction rs generalizing t with
  | nil => rfl
  | cons r rs ih => exact (ih h.tail).trans (FileTree.resolve_put_text h.head.holds _ path)

theorem vacant_rewritten (h : AllReady t rs) (file : String) :
    Vacant (rewritten t rs) file ↔ Vacant t file := by
  induction rs generalizing t with
  | nil => rfl
  | cons r rs ih => exact (ih h.tail).trans (vacant_put h.head.holds _ file)

theorem workingDir_rewritten (t : FileTree) (rs : List (Replacement × Place)) :
    (rewritten t rs).workingDir = t.workingDir := by
  induction rs generalizing t with
  | nil => rfl
  | cons r rs ih => exact ih _

theorem node?_rewritten_of_apart {q : Place} (hq : ∀ r ∈ rs, pathOf q ≠ pathOf r.2) :
    (rewritten t rs).node? q = t.node? q := by
  induction rs generalizing t with
  | nil => rfl
  | cons r rs ih =>
    have hrest := ih (t := t.put r.2 (.text r.1.edited)) fun r' hr' =>
      hq r' (List.mem_cons_of_mem _ hr')
    exact hrest.trans (FileTree.node?_put_of_ne (hq r List.mem_cons_self))

theorem node?_rewritten_of_mem (h : AllReady t rs) (hr : r ∈ rs) :
    (rewritten t rs).node? r.2 = some (.text r.1.edited) := by
  induction rs generalizing t with
  | nil => simp at hr
  | cons r' rs ih =>
    rcases List.mem_cons.1 hr with rfl | hr
    · have hapart : ∀ r' ∈ rs, pathOf r.2 ≠ pathOf r'.2 := fun r' hr' =>
        ((List.pairwise_cons.1 h.apart).1 r' hr').symm
      have hrest : (rewritten (t.put r.2 (.text r.1.edited)) rs).node? r.2 =
          (t.put r.2 (.text r.1.edited)).node? r.2 := node?_rewritten_of_apart hapart
      exact hrest.trans (FileTree.node?_put_of_eq h.head.ne_nil rfl)
    · exact ih h.tail hr

/-! ### Edits on disk -/

variable {d d' : Disk} {edits : EditSet}

theorem readText_eq_ok_iff {file text : String} : d.readText file = .ok text ↔
    ∃ p, d.tree.resolve file = .ok p ∧ d.tree.node? p = some (.text text) := by
  rw [← FileTree.read_eq_ok_iff, readText]
  cases d.tree.read file <;> simp [Except.mapError]

theorem plan_eq_ok_iff {e : String × List TextEdit} {r : Replacement} :
    d.plan e = .ok r ↔ e.1 = r.file ∧ d.readText e.1 = .ok r.former ∧
      Workspace.editText e.1 r.former e.2 = .ok r.edited := by
  obtain ⟨file, former, edited⟩ := r
  rw [plan]
  cases d.readText e.1 with
  | error error => simp [bind, Except.bind]
  | ok text =>
    cases hedit : Workspace.editText e.1 text e.2 with
    | error error =>
      simp only [hedit, bind, Except.bind, reduceCtorEq, Except.ok.injEq, false_iff, not_and]
      rintro - rfl
      simp [hedit]
    | ok new =>
      simp only [hedit, bind, Except.bind, pure, Except.pure, Except.ok.injEq,
        Replacement.mk.injEq]
      refine and_congr_right fun _ => and_congr_right ?_
      rintro rfl
      simp [hedit]

/-- What is planned for an edited file, at the place of the file. -/
structure Planned (d : Disk) (e : String × List TextEdit) (r : Replacement × Place) : Prop where
  file : e.1 = r.1.file
  leads : d.tree.resolve e.1 = .ok r.2
  holds : d.tree.node? r.2 = some (.text r.1.former)
  edited : Workspace.editText e.1 r.1.former e.2 = .ok r.1.edited

theorem Planned.readText {e : String × List TextEdit} (h : Planned d e r) :
    d.readText e.1 = .ok r.1.former :=
  readText_eq_ok_iff.2 ⟨r.2, h.leads, h.holds⟩

theorem exists_planned {es : List (String × List TextEdit)} {replacements : List Replacement}
    (h : List.Forall₂ (fun e r => d.plan e = .ok r) es replacements) :
    ∃ rs, List.Forall₂ (Planned d) es rs := by
  induction h with
  | nil => exact ⟨[], .nil⟩
  | @cons e replacement es replacements hplan _ ih =>
    obtain ⟨rs, hrest⟩ := ih
    obtain ⟨hfile, hread, hedited⟩ := plan_eq_ok_iff.1 hplan
    obtain ⟨p, hleads, hholds⟩ := readText_eq_ok_iff.1 hread
    exact ⟨(replacement, p) :: rs, .cons ⟨hfile, hleads, hholds, hedited⟩ hrest⟩

theorem allReady_of_planned (htidy : d.Tidy edits)
    (h : List.Forall₂ (Planned d) edits.files rs) : AllReady d.tree rs where
  ready r hr := by
    obtain ⟨e, he, hplanned⟩ := exists_of_mem_forall₂ h hr
    have hkey : e.1 ∈ edits.byFile.keys := List.mem_map_of_mem he
    rw [← hplanned.file]
    exact ⟨hplanned.leads, hplanned.holds, htidy.clear e.1 hkey⟩
  apart := by
    have hdistinct := List.pairwise_map.1 htidy.distinct
    refine pairwise_of_forall₂ (fun hS hr hr' => ?_) h hdistinct
    exact (hS _ _ hr.leads hr'.leads).symm

/-- Edits that can be made: each edited file is a text, its edits fit it, and there is a vacant
place for its temporary sibling. -/
def Editable (d : Disk) (edits : EditSet) : Prop :=
  ∀ e ∈ edits.files, (∃ text text', d.readText e.1 = .ok text ∧
    Workspace.editText e.1 text e.2 = .ok text') ∧ Vacant d.tree e.1

/-- How two disks are related when edits lead from one to the other. -/
structure Edited (d d' : Disk) (edits : EditSet) : Prop where
  edited (file : String) (es : List TextEdit) : edits.byFile.get? file = some es →
    ∃ text text', d.readText file = .ok text ∧ Workspace.editText file text es = .ok text' ∧
      d'.readText file = .ok text'
  unchanged (q : Place) : (∀ file ∈ edits.byFile.keys, ∀ p,
    d.tree.resolve file = .ok p → pathOf q ≠ pathOf p) → d'.tree.node? q = d.tree.node? q
  /-- No temporary sibling is left. -/
  vacant (file : String) : file ∈ edits.byFile.keys → Vacant d'.tree file
  /-- Every path leads where it led. -/
  resolve (path : String) : d'.tree.resolve path = d.tree.resolve path
  workingDir : d'.tree.workingDir = d.tree.workingDir
  ignores : d'.ignores = d.ignores

/-- What all that is planned leads to. -/
theorem Edited.of_planned (htidy : d.Tidy edits) (h : List.Forall₂ (Planned d) edits.files rs)
    (hvacant : ∀ r ∈ rs, Vacant d.tree r.1.file) :
    Edited d { d with tree := rewritten d.tree rs } edits where
  edited file es hes := by
    have hready := allReady_of_planned htidy h
    obtain ⟨r, hr, hplanned⟩ := exists_of_mem_forall₂ h.flip (Dict.get?_eq_some_iff.1 hes)
    refine ⟨r.1.former, r.1.edited, hplanned.readText, hplanned.edited, ?_⟩
    refine readText_eq_ok_iff.2 ⟨r.2, ?_, node?_rewritten_of_mem hready hr⟩
    exact (resolve_rewritten hready file).trans hplanned.leads
  unchanged q hq := by
    refine node?_rewritten_of_apart fun r hr => ?_
    obtain ⟨e, he, hplanned⟩ := exists_of_mem_forall₂ h hr
    exact hq e.1 (List.mem_map_of_mem he) r.2 hplanned.leads
  vacant file hfile := by
    obtain ⟨e, he, rfl⟩ := List.mem_map.1 hfile
    obtain ⟨r, hr, hplanned⟩ := exists_of_mem_forall₂ h.flip he
    rw [hplanned.file]
    exact (vacant_rewritten (allReady_of_planned htidy h) _).2 (hvacant r hr)
  resolve := resolve_rewritten (allReady_of_planned htidy h)
  workingDir := workingDir_rewritten _ _
  ignores := rfl

/-- Edits that can be planned are made where each temporary sibling is vacant. Otherwise the disk is
as before. -/
theorem applyEdits_planned (htidy : d.Tidy edits)
    (h : List.Forall₂ (Planned d) edits.files rs) :
    ((∀ r ∈ rs, Vacant d.tree r.1.file) ∧
      d.applyEdits edits = (.ok (), { d with tree := rewritten d.tree rs })) ∨
    ((∃ r ∈ rs, ¬ Vacant d.tree r.1.file) ∧
      ∃ error, d.applyEdits edits = (.error error, d)) := by
  have hplan : edits.files.mapM d.plan = .ok (rs.map Prod.fst) := by
    refine mapM_eq_ok_iff.2 (List.forall₂_map_right_iff.2 (h.imp fun e r hr => ?_))
    exact plan_eq_ok_iff.2 ⟨hr.file, hr.readText, hr.edited⟩
  have hedits : d.applyEdits edits = ((commit d.tree [] (rs.map Prod.fst)).1,
      { d with tree := (commit d.tree [] (rs.map Prod.fst)).2 }) := by
    simp [applyEdits, hplan]
  have hnone : restore d.tree [] = d.tree := rfl
  rw [hedits]
  rcases commit_cases (allReady_of_planned htidy h) hnone with
    ⟨hall, hcommit⟩ | ⟨hnot, error, hcommit⟩
  · rw [hcommit]
    exact .inl ⟨hall, rfl⟩
  · rw [hcommit]
    exact .inr ⟨hnot, error, rfl⟩

/-- **Edits are made when they can be, and otherwise nothing is changed**, wherever they fail. -/
theorem applyEdits_cases (htidy : d.Tidy edits) :
    (d.Editable edits ∧ ∃ d', d.applyEdits edits = (.ok (), d') ∧ Edited d d' edits) ∨
      (¬ d.Editable edits ∧ ∃ error, d.applyEdits edits = (.error error, d)) := by
  cases hplan : edits.files.mapM d.plan with
  | error error =>
    refine .inr ⟨fun heditable => ?_, error, by simp [applyEdits, hplan]⟩
    have hplans : ∀ e ∈ edits.files, ∃ r, d.plan e = .ok r := by
      intro e he
      obtain ⟨⟨text, text', hread, hedited⟩, -⟩ := heditable e he
      exact ⟨⟨e.1, text, text'⟩, plan_eq_ok_iff.2 ⟨rfl, hread, hedited⟩⟩
    obtain ⟨replacements, hreplacements⟩ := exists_mapM_eq_ok hplans
    rw [hplan] at hreplacements
    simp at hreplacements
  | ok replacements =>
    obtain ⟨rs, hrs⟩ := exists_planned (mapM_eq_ok_iff.1 hplan)
    rcases applyEdits_planned htidy hrs with ⟨hall, hmade⟩ | ⟨⟨r, hr, hnot⟩, hfailed⟩
    · refine .inl ⟨fun e he => ?_, _, hmade, .of_planned htidy hrs hall⟩
      obtain ⟨r, hr, hplanned⟩ := exists_of_mem_forall₂ hrs.flip he
      refine ⟨⟨_, _, hplanned.readText, hplanned.edited⟩, ?_⟩
      rw [hplanned.file]
      exact hall r hr
    · refine .inr ⟨fun heditable => hnot ?_, hfailed⟩
      obtain ⟨e, he, hplanned⟩ := exists_of_mem_forall₂ hrs hr
      rw [← hplanned.file]
      exact (heditable e he).2

end Disk

end Concord

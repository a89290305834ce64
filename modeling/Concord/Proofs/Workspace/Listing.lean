import Concord.Proofs.Dictionaries
import Concord.Proofs.Paths
import Concord.Proofs.Text.ByteOrder
import Concord.Proofs.Workspace.FileTree
import Concord.Workspace.Disk
import Mathlib.Data.List.Infix
import Mathlib.Data.List.MinMax
import Mathlib.Data.List.Nodup

/-!
# Which files are listed

A listing walks down a file tree and passes over what is ignored. What it is to list is said without
the walk: some names *lead to a file* from a place if there is a directory wherever another name
follows, and a file at the end (`FileTree.LeadsToFile`); a path is *ignored* if it is at or below an
ignored path or an ignored pattern stands for it (`Ignored`).

The walk finds a file exactly when no path on the way to it is left out, the first and the last
included (`FileTree.exists_of_mem_walk`, `FileTree.mem_walk`): patterns need not stand for what is
below a directory that they stand for, so all these paths have to be looked at. It goes as deep as
the tree (`FileTree.length_le_height`) and finds no file twice (`FileTree.nodup_walk`), as different
names lead to paths with different parts. So the listing is exact (`Disk.findFiles_exact`).
-/

namespace Concord

/-! ### Names joined one after the other -/

namespace Path

/-- The path that some names lead to from a path. -/
def joinAll (path : String) (names : List String) : String := names.foldl join path

theorem parts_joinAll (path : String) {names : List String}
    (h : ∀ name ∈ names, IsName name.toList) :
    parts (joinAll path names) = parts path ++ names.map .name := by
  induction names generalizing path with
  | nil => exact (List.append_nil _).symm
  | cons name names ih =>
    obtain ⟨hname, hnames⟩ := List.forall_mem_cons.1 h
    rw [joinAll, List.foldl_cons, ← joinAll, ih _ hnames, parts_join hname, List.append_assoc]
    rfl

/-- **Different names lead to different paths.** -/
theorem joinAll_injective {path : String} {names names' : List String}
    (h : ∀ name ∈ names, IsName name.toList) (h' : ∀ name ∈ names', IsName name.toList)
    (heq : joinAll path names = joinAll path names') : names = names' := by
  have hparts := congrArg parts heq
  rw [parts_joinAll path h, parts_joinAll path h'] at hparts
  exact List.map_injective_iff.2 (fun _ _ => Part.name.inj) (List.append_cancel_left hparts)

end Path

namespace FileTree

open Concord.Path (IsName joinAll)

variable {t : FileTree} {place : Place} {name path file : String} {names : List String}
  {leftOut : String → Bool} {levels : Nat}

/-! ### Names in a directory -/

theorem isName_iff {cs : List Char} : isName cs ↔ IsName cs := by
  rw [isName, Path.isFiller]
  constructor
  · intro h
    simp only [Bool.and_eq_true, Bool.not_eq_true', Bool.or_eq_false_iff, decide_eq_false_iff_not,
      decide_eq_true_eq, List.contains_eq_mem] at h
    exact ⟨h.2, h.1.1.1, h.1.1.2, h.1.2⟩
  · rintro ⟨hslash, hne, hcurrent, hparent⟩
    simp [hslash, hne, hcurrent, hparent]

theorem intercalate_concat (pieces : List (List Char)) (last : List Char) :
    ['/'].intercalate (pieces ++ [last]) = ['/'].intercalate (pieces ++ [[]]) ++ last := by
  induction pieces with
  | nil => simp
  | cons first rest ih =>
    rw [List.cons_append, List.cons_append, List.intercalate_cons_of_ne_nil (by simp),
      List.intercalate_cons_of_ne_nil (by simp), ih, List.append_assoc _ _ last]

theorem toList_pathOf (place : Place) :
    (pathOf place).toList = '/' :: ['/'].intercalate (place.map String.toList) := by
  rw [pathOf, String.toList_append, String.toList_intercalate]
  rfl

theorem toList_pathOf_concat (place : Place) (name : String) :
    (pathOf (place ++ [name])).toList = (pathOf (place ++ [""])).toList ++ name.toList := by
  rw [toList_pathOf, toList_pathOf, List.map_append, List.map_append, List.map_singleton,
    intercalate_concat]
  rfl

theorem nameBelow?_eq_some_iff :
    nameBelow? place path = some name ↔ IsName name.toList ∧ path = pathOf (place ++ [name]) := by
  rw [nameBelow?, Option.bind_eq_some_iff, ← String.toList_inj, toList_pathOf_concat place name]
  constructor
  · rintro ⟨cs, hcs, hname⟩
    obtain ⟨hcs', rfl⟩ := Option.ite_some_none_eq_some.1 hname
    rw [String.toList_ofList]
    exact ⟨isName_iff.1 hcs', (List.isPrefixOf?_eq_some_iff_append_eq.1 hcs).symm⟩
  · rintro ⟨hname, hpath⟩
    refine ⟨name.toList, List.isPrefixOf?_eq_some_iff_append_eq.2 hpath.symm, ?_⟩
    rw [if_pos (isName_iff.2 hname), String.ofList_toList]

/-- **The names in a directory** are those of what is there. -/
theorem mem_names_iff :
    name ∈ t.names place ↔ IsName name.toList ∧ ∃ node, t.node? (place ++ [name]) = some node := by
  rw [names, List.mem_filterMap, node?_of_ne_nil (by simp)]
  constructor
  · rintro ⟨path, hpath, hbelow⟩
    obtain ⟨hname, rfl⟩ := nameBelow?_eq_some_iff.1 hbelow
    exact ⟨hname, Dict.mem_keys_iff.1 hpath⟩
  · rintro ⟨hname, hnode⟩
    exact ⟨_, Dict.mem_keys_iff.2 hnode, nameBelow?_eq_some_iff.2 ⟨hname, rfl⟩⟩

theorem nodup_names (t : FileTree) (place : Place) : (t.names place).Nodup := by
  refine List.Nodup.filterMap (fun path path' name h h' => ?_) (Dict.nodup_keys _)
  rw [(nameBelow?_eq_some_iff.1 h).2, (nameBelow?_eq_some_iff.1 h').2]

/-! ### How deep a tree is -/

theorem length_le_count_intercalate (pieces : List (List Char)) :
    pieces.length ≤ ('/' :: ['/'].intercalate pieces).count '/' := by
  induction pieces with
  | nil => exact Nat.zero_le _
  | cons first rest ih =>
    by_cases hrest : rest = []
    · simp [hrest]
    · rw [List.intercalate_cons_of_ne_nil hrest, List.append_assoc, List.count_cons_self,
        List.count_append, List.singleton_append, List.length_cons]
      omega

/-- A slash comes before each name. -/
theorem length_le_count_pathOf (place : Place) :
    place.length ≤ (pathOf place).toList.count '/' := by
  rw [toList_pathOf, ← List.length_map (f := String.toList)]
  exact length_le_count_intercalate _

/-- **Nothing is deeper down than the tree is high.** -/
theorem length_le_height {node : Node} (h : t.node? place = some node) :
    place.length ≤ t.height := by
  by_cases hne : place = []
  · rw [hne]
    exact Nat.zero_le _
  · rw [node?_of_ne_nil hne] at h
    exact List.le_max_of_le' 0 (List.mem_map_of_mem (Dict.mem_keys_iff.2 ⟨_, h⟩))
      (length_le_count_pathOf place)

/-! ### What a walk finds -/

/-- Whether some names lead from a place to a file, through directories. -/
inductive LeadsToFile (t : FileTree) : Place → List String → Prop
  | file {place : Place} {node : Node} (h : t.node? place = some node)
      (hfile : node ≠ .directory) : LeadsToFile t place []
  | inside {place : Place} {name : String} {names : List String}
      (h : t.node? place = some .directory) (hname : IsName name.toList)
      (hrest : LeadsToFile t (place ++ [name]) names) : LeadsToFile t place (name :: names)

namespace LeadsToFile

theorem isName (h : t.LeadsToFile place names) : ∀ name ∈ names, IsName name.toList := by
  induction h with
  | file => exact nofun
  | inside _ hname _ ih => exact List.forall_mem_cons.2 ⟨hname, ih⟩

/-- At the end of the names is a file. -/
theorem exists_node? (h : t.LeadsToFile place names) :
    ∃ node, t.node? (place ++ names) = some node ∧ node ≠ .directory := by
  induction h with
  | file h hfile => exact ⟨_, by rwa [List.append_nil], hfile⟩
  | inside _ _ _ ih => rwa [List.append_assoc] at ih

theorem exists_head (h : t.LeadsToFile place names) : ∃ node, t.node? place = some node := by
  cases h with
  | file h => exact ⟨_, h⟩
  | inside h => exact ⟨_, h⟩

theorem length_le_height (h : t.LeadsToFile place names) : names.length ≤ t.height := by
  obtain ⟨node, hnode, -⟩ := h.exists_node?
  have hlength := FileTree.length_le_height hnode
  rw [List.length_append] at hlength
  omega

end LeadsToFile

/-- Whether no path on the way along some names is left out, from the first path to the last. -/
def Spared (leftOut : String → Bool) (path : String) (names : List String) : Prop :=
  ∀ above, above <+: names → leftOut (joinAll path above) = false

theorem spared_nil_iff : Spared leftOut path [] ↔ leftOut path = false := by
  simp [Spared, joinAll]

theorem spared_cons_iff : Spared leftOut path (name :: names) ↔
    leftOut path = false ∧ Spared leftOut (Path.join path name) names := by
  constructor
  · intro h
    refine ⟨h [] List.nil_prefix, fun above habove => ?_⟩
    exact h (name :: above) (List.cons_prefix_cons.2 ⟨rfl, habove⟩)
  · rintro ⟨hpath, hrest⟩ above habove
    rcases List.prefix_cons_iff.1 habove with rfl | ⟨above', rfl, habove'⟩
    · exact hpath
    · exact hrest above' habove'

/-- **One level of a walk**: what is found is the path itself, if that is a file, or found from a
name in it, if it is a directory. -/
theorem mem_walk_level_iff : file ∈ t.walk leftOut levels path place ↔ leftOut path = false ∧
    ((∃ node, t.node? place = some node ∧ node ≠ .directory ∧ file = path) ∨
      t.node? place = some .directory ∧ ∃ rest name, levels = rest + 1 ∧ name ∈ t.names place ∧
        file ∈ t.walk leftOut rest (Path.join path name) (place ++ [name])) := by
  rw [walk.eq_def]
  cases leftOut path with
  | true => simp
  | false =>
    cases hnode : t.node? place with
    | none => simp
    | some node =>
      cases node with
      | directory => cases levels <;> simp [List.mem_flatMap]
      | text => simp
      | binary => simp

/-- **What a walk finds is a file**, and no path on the way to it is left out. -/
theorem exists_of_mem_walk (h : file ∈ t.walk leftOut levels path place) :
    ∃ names, t.LeadsToFile place names ∧ Spared leftOut path names ∧ file = joinAll path names := by
  induction levels using Nat.strong_induction_on generalizing path place with
  | _ levels ih =>
    obtain ⟨hpath, ⟨node, hnode, hfile, rfl⟩ | ⟨hdir, rest, name, rfl, hname, hrest⟩⟩ :=
      mem_walk_level_iff.1 h
    · exact ⟨[], .file hnode hfile, spared_nil_iff.2 hpath, rfl⟩
    · obtain ⟨names, hleads, hspared, rfl⟩ := ih rest (Nat.lt_succ_self rest) hrest
      exact ⟨name :: names, .inside hdir (mem_names_iff.1 hname).1 hleads,
        spared_cons_iff.2 ⟨hpath, hspared⟩, rfl⟩

/-- **A walk that goes deep enough finds every file** on the way to which no path is left out. -/
theorem mem_walk (h : t.LeadsToFile place names) (hlevels : names.length ≤ levels)
    (hspared : Spared leftOut path names) :
    joinAll path names ∈ t.walk leftOut levels path place := by
  induction h generalizing levels path with
  | file hnode hfile =>
    exact mem_walk_level_iff.2 ⟨spared_nil_iff.1 hspared, .inl ⟨_, hnode, hfile, rfl⟩⟩
  | inside hdir hname hrest ih =>
    obtain ⟨hpath, hspared⟩ := spared_cons_iff.1 hspared
    obtain ⟨rest, rfl⟩ := Nat.exists_eq_add_one.2 (Nat.zero_lt_of_lt hlevels)
    have hfound := ih (Nat.le_of_succ_le_succ hlevels) hspared
    exact mem_walk_level_iff.2 ⟨hpath, .inr ⟨hdir, rest, _, rfl,
      mem_names_iff.2 ⟨hname, hrest.exists_head⟩, hfound⟩⟩

/-- **Walks from different names find different files**: the path of a file begins with the name
that it is found from. -/
theorem disjoint_walk {name' : String} (hname : name ∈ t.names place)
    (hname' : name' ∈ t.names place) (hne : name ≠ name') :
    (t.walk leftOut levels (Path.join path name) (place ++ [name])).Disjoint
      (t.walk leftOut levels (Path.join path name') (place ++ [name'])) := by
  intro file hfile hfile'
  obtain ⟨names, hleads, -, rfl⟩ := exists_of_mem_walk hfile
  obtain ⟨names', hleads', -, heq⟩ := exists_of_mem_walk hfile'
  have hisName : ∀ n ∈ name :: names, IsName n.toList :=
    List.forall_mem_cons.2 ⟨(mem_names_iff.1 hname).1, hleads.isName⟩
  have hisName' : ∀ n ∈ name' :: names', IsName n.toList :=
    List.forall_mem_cons.2 ⟨(mem_names_iff.1 hname').1, hleads'.isName⟩
  have hsame : name :: names = name' :: names' := Path.joinAll_injective hisName hisName' heq
  exact hne (List.cons.inj hsame).1

/-- **A walk finds no file twice.** -/
theorem nodup_walk (levels : Nat) (path : String) (place : Place) :
    (t.walk leftOut levels path place).Nodup := by
  fun_induction walk t leftOut levels path place with
  | case1 => exact List.nodup_nil
  | case2 => exact List.nodup_nil
  | case3 => exact List.nodup_nil
  | case4 path place _ _ levels ih =>
    refine List.nodup_flatMap.2 ⟨fun name _ => ih name, ?_⟩
    exact (nodup_names t place).imp_of_mem disjoint_walk
  | case5 => exact List.nodup_singleton _

/-- **The files at and below a directory that are not left out** are those to which names lead on a
way that is spared. -/
theorem mem_filesBelow_iff {dir : String} : file ∈ t.filesBelow leftOut dir ↔
    ∃ place names, t.resolve dir = .ok place ∧ t.LeadsToFile place names ∧
      Spared leftOut dir names ∧ file = joinAll dir names := by
  rw [filesBelow]
  cases t.resolve dir with
  | error fault => simp
  | ok place =>
    constructor
    · intro h
      obtain ⟨names, hleads, hspared, hfile⟩ := exists_of_mem_walk h
      exact ⟨place, names, rfl, hleads, hspared, hfile⟩
    · rintro ⟨_, names, ⟨⟩, hleads, hspared, rfl⟩
      exact mem_walk hleads hleads.length_le_height hspared

theorem nodup_filesBelow (dir : String) : (t.filesBelow leftOut dir).Nodup := by
  rw [filesBelow]
  split
  · exact List.nodup_nil
  · exact nodup_walk _ _ _

end FileTree

/-! ### What is ignored -/

/-- Whether a path is ignored by itself, where a text with a star or a question mark is a pattern
and any other one a path below the root. -/
inductive Ignored (root : String) (ignores : List String) (path : String) : Prop
  /-- It is at or below an ignored path, by whole parts. -/
  | byPath {i : String} (h : i ∈ ignores) (hplain : '*' ∉ i.toList ∧ '?' ∉ i.toList)
      (hunder : Path.parts (Path.join root i) <+: Path.parts path)
  /-- An ignored pattern without a fault stands for its whole text. -/
  | byPattern {i : String} {g : Glob} (h : i ∈ ignores) (hwild : '*' ∈ i.toList ∨ '?' ∈ i.toList)
      (hparse : Glob.parse i = .ok g) (haccepts : g.accepts path)

theorem Glob.isPattern_iff {s : String} : isPattern s ↔ '*' ∈ s.toList ∨ '?' ∈ s.toList := by
  simp only [isPattern, List.any_eq_true, Bool.or_eq_true, decide_eq_true_eq]
  constructor
  · rintro ⟨c, hc, rfl | rfl⟩
    · exact .inl hc
    · exact .inr hc
  · rintro (h | h)
    · exact ⟨_, h, .inl rfl⟩
    · exact ⟨_, h, .inr rfl⟩

theorem toOption_eq_some_iff {ε α : Type} {x : Except ε α} {a : α} :
    x.toOption = some a ↔ x = .ok a := by
  cases x <;> simp [Except.toOption]

namespace Ignores

variable {root path i : String} {ignores before after : List String}

/-- **What is left out by itself** is what is ignored. -/
theorem covers_ofList_iff : (ofList root ignores).covers path ↔ Ignored root ignores path := by
  rw [covers, Bool.or_eq_true, List.any_eq_true, List.any_eq_true]
  constructor
  · rintro (⟨dir, hdir, hunder⟩ | ⟨g, hg, haccepts⟩)
    · obtain ⟨i, hi, rfl⟩ := List.mem_map.1 hdir
      obtain ⟨hmem, hplain⟩ := List.mem_filter.1 hi
      rw [Bool.not_eq_true', ← Bool.not_eq_true, Glob.isPattern_iff, not_or] at hplain
      exact .byPath hmem hplain (List.isPrefixOf_iff_prefix.1 hunder)
    · obtain ⟨i, hi, hparse⟩ := List.mem_filterMap.1 hg
      obtain ⟨hmem, hwild⟩ := List.mem_filter.1 hi
      exact .byPattern hmem (Glob.isPattern_iff.1 hwild) (toOption_eq_some_iff.1 hparse) haccepts
  · rintro (⟨hmem, hplain, hunder⟩ | ⟨hmem, hwild, hparse, haccepts⟩)
    · rw [← not_or, ← Glob.isPattern_iff, Bool.not_eq_true, ← Bool.not_eq_true'] at hplain
      exact .inl ⟨_, List.mem_map_of_mem (List.mem_filter.2 ⟨hmem, hplain⟩),
        List.isPrefixOf_iff_prefix.2 hunder⟩
    · exact .inr ⟨_, List.mem_filterMap.2 ⟨_, List.mem_filter.2 ⟨hmem, Glob.isPattern_iff.2 hwild⟩,
        toOption_eq_some_iff.2 hparse⟩, haccepts⟩

/-- **A pattern with a fault leaves out nothing.** -/
theorem ofList_faulty (hwild : '*' ∈ i.toList ∨ '?' ∈ i.toList) {fault : GlobError}
    (hfault : Glob.parse i = .error fault) :
    ofList root (before ++ i :: after) = ofList root (before ++ after) := by
  have hpattern := Glob.isPattern_iff.2 hwild
  have hnone : (Glob.parse i).toOption = none := by
    rw [hfault]
    rfl
  simp [ofList, hpattern, hnone]

end Ignores

/-! ### Listings -/

/-- Texts without repetitions are sorted into the order of their bytes. -/
theorem pairwise_utf8_mergeSort {files : List String} (h : files.Nodup) :
    (files.mergeSort fun a b => a ≤ b).Pairwise fun a b => Text.utf8 a < Text.utf8 b := by
  have htrans : ∀ a b c : String, decide (a ≤ b) → decide (b ≤ c) → decide (a ≤ c) := by
    intro a b c hab hbc
    exact decide_eq_true (String.le_trans (of_decide_eq_true hab) (of_decide_eq_true hbc))
  have htotal : ∀ a b : String, decide (a ≤ b) || decide (b ≤ a) := by
    intro a b
    simpa using String.le_total a b
  have hsorted := List.pairwise_mergeSort htrans htotal files
  have hnodup : (files.mergeSort fun a b => a ≤ b).Nodup :=
    (List.mergeSort_perm _ _).nodup_iff.2 h
  refine (hsorted.and hnodup).imp fun ⟨hle, hne⟩ => Text.lt_iff_utf8_lt.1 ?_
  by_contra hlt
  exact hne (String.le_antisymm (of_decide_eq_true hle) (String.not_lt.1 hlt))

/-- **A listing is exact.** It always succeeds, and its files are in strict byte order, so that none
is listed twice. They are exactly the files that names lead to from the directory (without a name,
what is given is itself a file), where

* the file is written as the directory with the names joined to it,
* it has one of the extensions, whatever the case of its letters,
* and neither the directory nor the file nor any path between them is ignored.

A pattern with a fault makes no difference. -/
theorem Disk.findFiles_exact (t : FileTree) (root : String) (ignores : List String) (dir : String)
    (extensions : List String) :
    ∃ files, Disk.findFiles ⟨t, .ofList root ignores⟩ dir extensions = .ok files ∧
      files.Pairwise (fun a b => Text.utf8 a < Text.utf8 b) ∧
      (∀ file, file ∈ files ↔
        ∃ place names, t.resolve dir = .ok place ∧ t.LeadsToFile place names ∧
          file = Path.joinAll dir names ∧
          (∃ extension ∈ extensions, ∃ ext, Path.extension? file = some ext ∧
            extension.toList.map Char.toLower = ext.toList.map Char.toLower) ∧
          ∀ above, above <+: names → ¬Ignored root ignores (Path.joinAll dir above)) ∧
      ∀ before i after fault, ignores = before ++ i :: after →
        ('*' ∈ i.toList ∨ '?' ∈ i.toList) → Glob.parse i = .error fault →
        Disk.findFiles ⟨t, .ofList root (before ++ after)⟩ dir extensions = .ok files := by
  refine ⟨_, rfl, pairwise_utf8_mergeSort ((t.nodup_filesBelow dir).filter _), fun file => ?_, ?_⟩
  · rw [List.mem_mergeSort, List.mem_filter, FileTree.mem_filesBelow_iff,
      Workspace.hasExtension_iff]
    simp only [FileTree.Spared, ← Bool.not_eq_true, Ignores.covers_ofList_iff]
    constructor
    · rintro ⟨⟨place, names, hplace, hleads, hspared, hfile⟩, hext⟩
      exact ⟨place, names, hplace, hleads, hfile, hext, hspared⟩
    · rintro ⟨place, names, hplace, hleads, hfile, hext, hspared⟩
      exact ⟨⟨place, names, hplace, hleads, hspared, hfile⟩, hext⟩
  · rintro before i after fault rfl hwild hfault
    rw [Ignores.ofList_faulty hwild hfault]
    rfl

/-- Some files, two of them below what the sample ignores. -/
def FileTree.sampleTree : FileTree :=
  [(["p", "src", "a.py"], ""), (["p", "src", "gen", "d.py"], ""),
    (["p", "src", "lib", "b.PY"], ""), (["p", "src", "old", "e.py"], "")].foldl
    (fun t e => t.putWithDirs e.1 (.text e.2)) .empty

/-- What the sample ignores: a path, a pattern and a pattern with a fault. -/
def Ignores.sampleIgnores : List String := ["src/old", "**/g?n", "**/[x"]

/-- A file is listed although its extension is written in capitals and a pattern is faulty. -/
theorem Disk.findFiles_exact_sample :
    ∃ files, Disk.findFiles ⟨.sampleTree, .ofList "/p" Ignores.sampleIgnores⟩ "/p/src" ["py"] =
        .ok files ∧
      "/p/src/lib/b.PY" ∈ files ∧
      Disk.findFiles ⟨.sampleTree, .ofList "/p" ["src/old", "**/g?n"]⟩ "/p/src" ["py"] =
        .ok files := by
  obtain ⟨files, hfiles, -, hmem, hfaulty⟩ :=
    Disk.findFiles_exact .sampleTree "/p" Ignores.sampleIgnores "/p/src" ["py"]
  have hplace : FileTree.sampleTree.resolve "/p/src" = .ok ["p", "src"] := by decide +kernel
  have hnode : FileTree.sampleTree.node? ["p", "src", "lib", "b.PY"] = some (.text "") := by
    decide +kernel
  have hleads : FileTree.sampleTree.LeadsToFile ["p", "src"] ["lib", "b.PY"] :=
    .inside (by decide +kernel) (FileTree.isName_iff.1 (by decide +kernel))
      (.inside (by decide +kernel) (FileTree.isName_iff.1 (by decide +kernel))
        (.file hnode (by decide)))
  have hspared : ∀ above ∈ ["lib", "b.PY"].inits,
      ¬(Ignores.ofList "/p" Ignores.sampleIgnores).covers (Path.joinAll "/p/src" above) := by
    decide +kernel
  have hfault : Glob.parse "**/[x" = .error ⟨3, .badClass⟩ := by decide +kernel
  refine ⟨files, hfiles, (hmem _).2 ⟨["p", "src"], ["lib", "b.PY"], hplace, hleads, ?_, ?_, ?_⟩,
    hfaulty ["src/old", "**/g?n"] "**/[x" [] _ rfl (by decide +kernel) hfault⟩
  · decide +kernel
  · exact ⟨"py", List.mem_singleton_self _, "PY", by decide +kernel, by decide +kernel⟩
  · intro above habove
    rw [← Ignores.covers_ofList_iff]
    exact hspared above ((List.mem_inits _ _).2 habove)

-- what a pattern stands for is not entered, although it does not stand for the file in it
example : (FileTree.sampleTree.filesBelow (Ignores.ofList "/p" Ignores.sampleIgnores).covers
    "/p/src") = ["/p/src/a.py", "/p/src/lib/b.PY"] := by decide +kernel

end Concord

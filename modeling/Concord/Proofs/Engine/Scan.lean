import Concord.Proofs.Dictionaries
import Concord.Proofs.Engine.Flush
import Concord.Proofs.Extensions
import Concord.Workspace.Memory

/-!
# What a scan finds

A scan of a workspace in memory asks, with their texts, for the files that lie below one of the
directories of the target and have one of its extensions. Events are routed by a second rule, which
reads the extension off the path in its own way. On paths where both ways agree, every file that an
event would be taken for is found by a scan (`Target.isCatalogFile_found`,
`Target.isCodeFile_found`), so that a scan asks each cache for all files that belong to it
(`Engine.initialScan_ofFiles`, `Engine.mem_scanned`).
-/

namespace Concord

/-! ### Files in memory -/

namespace MemoryWorkspace

/-- A workspace that holds some files, all of which can be listed and read. -/
def ofFiles (files : Dict String) : MemoryWorkspace := ⟨files, [], []⟩

theorem readText_ofFiles (files : Dict String) (file : String) :
    (ofFiles files).readText file =
      match files.get? file with
      | some text => .ok text
      | none => .error (.absent file) := rfl

end MemoryWorkspace

/-! ### Files of a target -/

theorem sameIgnoringCase_iff {a b : String} :
    sameIgnoringCase a b = true ↔ a.toList.map Char.toLower = b.toList.map Char.toLower := by
  rw [sameIgnoringCase, decide_eq_true_eq, CodeLanguage.lowerCase, CodeLanguage.lowerCase,
    String.ofList_inj]

namespace Target

/-- Whether a listing of the directories of a target shows a file. -/
def Lists (t : Target) (file : String) : Prop :=
  (∃ dir ∈ t.codeDirs, Path.isUnder file dir ∧
    Workspace.hasExtension t.codeExtensions (Path.extension? file)) ∨
  ∃ dir ∈ t.catalogDirs, Path.isUnder file dir ∧
    Workspace.hasExtension [t.bareCatalogExtension] (Path.extension? file)

/-- Where both ways to read an extension agree, a scan of the catalog directories finds every
catalog. -/
theorem isCatalogFile_found {t : Target} {file : String}
    (hext : Path.extension? file = extensionOf? file) (h : t.isCatalogFile file) :
    ∃ dir ∈ t.catalogDirs, Path.isUnder file dir ∧
      Workspace.hasExtension [t.bareCatalogExtension] (Path.extension? file) := by
  rw [isCatalogFile, Bool.and_eq_true, List.any_eq_true] at h
  obtain ⟨hany, dir, hdir, hunder⟩ := h
  refine ⟨dir, hdir, hunder, ?_⟩
  obtain ⟨ext, hsome, hsame⟩ := (Option.any_eq_true _ _).1 hany
  exact Workspace.hasExtension_iff.2
    ⟨_, List.mem_singleton_self _, _, hext.trans hsome, sameIgnoringCase_iff.1 hsame⟩

/-- Where both ways to read an extension agree, a scan of the code directories finds all code. -/
theorem isCodeFile_found {t : Target} {file : String}
    (hext : Path.extension? file = extensionOf? file) (h : t.isCodeFile file) :
    ∃ dir ∈ t.codeDirs, Path.isUnder file dir ∧
      Workspace.hasExtension t.codeExtensions (Path.extension? file) := by
  rw [isCodeFile, Bool.and_eq_true, List.any_eq_true] at h
  obtain ⟨hlang, dir, hdir, hunder⟩ := h
  refine ⟨dir, hdir, hunder, ?_⟩
  obtain ⟨l, hl⟩ := Option.isSome_iff_exists.1 hlang
  obtain ⟨hbind, hmem⟩ := Option.filter_eq_some_iff.1 hl
  obtain ⟨ext, hsome, hof⟩ := Option.bind_eq_some_iff.1 hbind
  -- the extension has no dot to drop, so the language it is found for lists it
  have hlower := CodeLanguage.lowerCase_mem_extensions (not_mem_of_extensionOf? hsome) hof
  refine Workspace.hasExtension_iff.2 ⟨CodeLanguage.lowerCase ext,
    List.mem_flatMap.2 ⟨l, List.contains_iff_mem.1 hmem, hlower⟩, ext, hext.trans hsome, ?_⟩
  have hidem := CodeLanguage.lowerCase_of_mem_extensions hlower
  rw [← String.ofList_inj]
  exact hidem

/-- A listing shows a file of the target if it sees the extension that the target sees. -/
theorem lists_of_extension?_eq {t : Target} {file : String}
    (hext : Path.extension? file = extensionOf? file)
    (h : t.isCatalogFile file ∨ t.isCodeFile file) : t.Lists file := by
  rcases h with h | h
  · exact .inr (isCatalogFile_found hext h)
  · exact .inl (isCodeFile_found hext h)

end Target

/-! ### Scans -/

namespace Engine

open MemoryWorkspace

/-- The files that a scan of a workspace in memory looks at. -/
def scanned (t : Target) (files : Dict String) : List String :=
  (TextSet.ofTexts
    ((t.codeDirs.map fun dir => files.keys.filter fun file =>
        Path.isUnder file dir && Workspace.hasExtension t.codeExtensions
          (Path.extension? file)).flatten ++
      (t.catalogDirs.map fun dir => files.keys.filter fun file =>
        Path.isUnder file dir && Workspace.hasExtension [t.bareCatalogExtension]
          (Path.extension? file)).flatten)).keys

theorem targetFiles_ofFiles (t : Target) (files : Dict String) :
    targetFiles (ofFiles files) t = .ok (scanned t files) := by
  have hcode : (t.codeDirs.mapM fun dir =>
      (Workspace.findFiles (ofFiles files) dir t.codeExtensions).mapError
        (ScanError.codeDir dir)) =
      .ok (t.codeDirs.map fun dir => files.keys.filter fun file =>
        Path.isUnder file dir && Workspace.hasExtension t.codeExtensions
          (Path.extension? file)) := List.mapM_pure
  have hcatalogs : (t.catalogDirs.mapM fun dir =>
      (Workspace.findFiles (ofFiles files) dir [t.bareCatalogExtension]).mapError
        (ScanError.catalogDir dir)) =
      .ok (t.catalogDirs.map fun dir => files.keys.filter fun file =>
        Path.isUnder file dir && Workspace.hasExtension [t.bareCatalogExtension]
          (Path.extension? file)) := List.mapM_pure
  rw [targetFiles, hcode, hcatalogs]
  rfl

/-- The requests of a scan: all files found, each with its text. -/
def scanRequests (files : Dict String) (found : List String) : List RebuildRequest :=
  found.filterMap fun file => (files.get? file).map fun text => ⟨file, .created, some text⟩

theorem engine_foldl_scanFile (files : Dict String) (found : List String) (s : Scan) :
    (found.foldl (scanFile (ofFiles files)) s).engine =
      s.engine.hear (scanRequests files found) := by
  induction found generalizing s with
  | nil => rfl
  | cons file found ih =>
    have hread : Workspace.readText (ofFiles files) file =
        match files.get? file with
        | some text => .ok text
        | none => .error (.absent file) := readText_ofFiles files file
    rw [List.foldl_cons, ih, scanFile, hread]
    cases hfile : files.get? file <;> simp [scanRequests, hfile]

/-- **A scan of files in memory succeeds** and asks for all files found, with their texts. -/
theorem initialScan_ofFiles (e : Engine) (files : Dict String) :
    ∃ scan, e.initialScan (ofFiles files) = .ok scan ∧
      scan.engine = e.hear (scanRequests files (scanned e.target files)) := by
  refine ⟨_, ?_, engine_foldl_scanFile files (scanned e.target files) ⟨e, 0, []⟩⟩
  rw [initialScan, targetFiles_ofFiles]
  rfl

/-- **A scan finds the files that a listing shows.** -/
theorem mem_scanned_iff {t : Target} {files : Dict String} {file : String} :
    file ∈ scanned t files ↔ file ∈ files.keys ∧ t.Lists file := by
  rw [scanned, TextSet.mem_keys_ofTexts]
  simp only [List.mem_append, List.mem_flatten, List.mem_map, exists_exists_and_eq_and,
    List.mem_filter, Bool.and_eq_true, Target.Lists]
  constructor
  · rintro (⟨dir, hdir, hkey, hseen⟩ | ⟨dir, hdir, hkey, hseen⟩)
    · exact ⟨hkey, .inl ⟨dir, hdir, hseen⟩⟩
    · exact ⟨hkey, .inr ⟨dir, hdir, hseen⟩⟩
  · rintro ⟨hkey, ⟨dir, hdir, hseen⟩ | ⟨dir, hdir, hseen⟩⟩
    · exact .inl ⟨dir, hdir, hkey, hseen⟩
    · exact .inr ⟨dir, hdir, hkey, hseen⟩

/-- **A scan misses no file that an event would be taken for**, where both ways to read its
extension agree. -/
theorem mem_scanned {t : Target} {files : Dict String} {file : String}
    (hext : Path.extension? file = extensionOf? file) (hfile : file ∈ files.keys)
    (h : t.isCatalogFile file ∨ t.isCodeFile file) : file ∈ scanned t files :=
  mem_scanned_iff.2 ⟨hfile, Target.lists_of_extension?_eq hext h⟩

end Engine

end Concord

import Concord.Proofs.Engine.Scan

/-!
# Which files a scan queues

A scan asks for the files it finds that an event would be taken for, and for no others. Whether an
event is taken for a file depends on the target and the path alone (`Engine.takes_iff`), so the scan
queues every such file if and only if a listing of the directories shows it
(`Engine.initialScan_queues`). For a path that ends in a name this is so unless the name is an
extension and nothing else: a target takes `.py` for code, and a listing takes it for a name without
an extension.
-/

namespace Concord

namespace Target

/-- Whether a file is a catalog or code of a target. -/
def owns (t : Target) (file : String) : Bool := t.isCatalogFile file || t.isCodeFile file

/-- A listing shows no file without an extension. -/
theorem not_lists {t : Target} {file : String} (hext : Path.extension? file = none) :
    ¬t.Lists file := by
  rintro (⟨dir, -, -, hhas⟩ | ⟨dir, -, -, hhas⟩) <;> rw [hext] at hhas <;> exact absurd hhas nofun

theorem exists_extensionOf?_of_owns {t : Target} {file : String} (h : t.owns file) :
    ∃ ext, extensionOf? file = some ext := by
  rw [← Option.isSome_iff_exists]
  by_contra hnone
  rw [Option.not_isSome_iff_eq_none] at hnone
  rw [owns, isCatalogFile, isCodeFile, languageOf?, hnone] at h
  cases h

/-- **What a listing does not show** of the files of a target: names that are an extension and
nothing else. -/
theorem lists_iff_of_owns {t : Target} {file : String} (h : t.owns file)
    (hends : Path.EndsInName file) : t.Lists file ↔ ¬Path.OnlyExtension file := by
  obtain ⟨ext, hext⟩ := exists_extensionOf?_of_owns h
  obtain ⟨hseen, hunseen⟩ := Path.extension?_of_extensionOf? hends hext
  constructor
  · intro hlists honly
    exact not_lists (hunseen honly) hlists
  · intro honly
    rw [owns, Bool.or_eq_true] at h
    exact lists_of_extension?_eq ((hseen honly).trans hext.symm) h

end Target

namespace Engine

open MemoryWorkspace

/-! ### Events -/

theorem handleEvent_fst (e : Engine) (r : RebuildRequest) :
    (e.handleEvent r).1 = e.target.owns r.file := by
  rw [handleEvent, Target.owns]
  cases e.target.isCatalogFile r.file <;> cases e.target.isCodeFile r.file <;> rfl

/-- An event that is not taken changes nothing. -/
theorem handleEvent_of_not_owns {e : Engine} {r : RebuildRequest}
    (h : e.target.owns r.file = false) : (e.handleEvent r).2 = e := by
  rw [Target.owns, Bool.or_eq_false_iff] at h
  rw [handleEvent, h.1, h.2]
  rfl

/-- **Only the events that are taken matter.** -/
theorem hear_filter (e : Engine) (rs : List RebuildRequest) :
    e.hear (rs.filter fun r => e.target.owns r.file) = e.hear rs := by
  induction rs generalizing e with
  | nil => rfl
  | cons r rs ih =>
    cases hr : e.target.owns r.file with
    | false =>
      rw [List.filter_cons_of_neg (by simp [hr]), ih, hear_cons, handleEvent_of_not_owns hr]
    | true =>
      rw [List.filter_cons_of_pos (by simpa using hr), hear_cons, hear_cons, ← ih,
        target_handleEvent]

/-- Whether events are taken for a file, whatever they say of it. -/
def Takes (e : Engine) (file : String) : Prop :=
  ∀ kind text, (e.handleEvent ⟨file, kind, text⟩).1

theorem takes_iff {e : Engine} {file : String} : e.Takes file ↔ e.target.owns file := by
  simp only [Takes, handleEvent_fst]
  exact ⟨fun h => h .changed none, fun h _ _ => h⟩

/-! ### Scans -/

/-- The files that a scan queues: of those it finds, the ones that an event is taken for. -/
def queued (e : Engine) (files : Dict String) : List String :=
  (scanned e.target files).filter fun file =>
    (e.handleEvent ⟨file, .created, files.get? file⟩).1

theorem mem_queued_iff {e : Engine} {files : Dict String} {file : String} :
    file ∈ e.queued files ↔ file ∈ files.keys ∧ e.target.Lists file ∧ e.Takes file := by
  rw [queued, List.mem_filter, mem_scanned_iff, takes_iff, handleEvent_fst, and_assoc]

/-- **A scan counts the files that it queues.** -/
theorem queued_foldl_scanFile {files : Dict String} {found : List String}
    (hfound : ∀ file ∈ found, file ∈ files.keys) (s : Scan) :
    (found.foldl (scanFile (ofFiles files)) s).queued =
      s.queued + found.countP s.engine.target.owns := by
  induction found generalizing s with
  | nil => rfl
  | cons file found ih =>
    obtain ⟨text, htext⟩ := Dict.mem_keys_iff.1 (hfound file List.mem_cons_self)
    have hread : Workspace.readText (ofFiles files) file = .ok text := by
      change (ofFiles files).readText file = .ok text
      rw [readText_ofFiles, htext]
    rw [List.foldl_cons, ih fun f hf => hfound f (List.mem_cons_of_mem _ hf), List.countP_cons,
      scanFile, hread]
    dsimp only
    rw [target_handleEvent, handleEvent_fst]
    split <;> omega

/-- The requests for some of the files are some of the requests. -/
theorem scanRequests_filter (files : Dict String) (found : List String) (p : String → Bool) :
    scanRequests files (found.filter p) =
      (scanRequests files found).filter fun r => p r.file := by
  rw [scanRequests, scanRequests, List.filterMap_filter, List.filter_filterMap]
  refine congrArg (fun f => found.filterMap f) (funext fun file => ?_)
  cases hp : p file <;> cases hfile : files.get? file <;> simp [Option.filter, hp]

/-- **A scan queues the files of the target that a listing shows**, and the code among them is read
in the language that the target finds for it. So it misses a file that events are taken for exactly
if a listing does not show it, which for a path that ends in a name means that the name is an
extension and nothing else. -/
theorem initialScan_queues (e : Engine) (files : Dict String) :
    (∃ scan, e.initialScan (ofFiles files) = .ok scan ∧
      scan.queued = (e.queued files).length ∧
      scan.engine = e.hear (scanRequests files (e.queued files))) ∧
    (∀ file, file ∈ e.queued files → file ∈ files.keys ∧ e.Takes file) ∧
    (∀ file ∈ files.keys, e.Takes file → (file ∈ e.queued files ↔ e.target.Lists file)) ∧
    (∀ file, e.Takes file → Path.EndsInName file →
      (e.target.Lists file ↔ ¬Path.OnlyExtension file)) ∧
    ∀ file, e.target.isSourceFile file → ∃ language,
      sourceLanguage? e.target file = some language ∧
      e.target.languageOf? file = some language := by
  refine ⟨?_, ?_, ?_, ?_, ?_⟩
  · have hqueued : e.queued files = (scanned e.target files).filter e.target.owns := by
      rw [queued]
      simp only [handleEvent_fst]
    refine ⟨(scanned e.target files).foldl (scanFile (ofFiles files)) ⟨e, 0, []⟩, ?_, ?_, ?_⟩
    · rw [initialScan, targetFiles_ofFiles]
      rfl
    · rw [queued_foldl_scanFile fun file hfile => (mem_scanned_iff.1 hfile).1, hqueued,
        List.countP_eq_length_filter, Nat.zero_add]
    · rw [engine_foldl_scanFile, hqueued, scanRequests_filter, hear_filter]
  · intro file hfile
    obtain ⟨hkey, -, htakes⟩ := mem_queued_iff.1 hfile
    exact ⟨hkey, htakes⟩
  · intro file hkey htakes
    rw [mem_queued_iff]
    exact ⟨fun h => h.2.1, fun h => ⟨hkey, h, htakes⟩⟩
  · intro file htakes hends
    exact Target.lists_iff_of_owns (takes_iff.1 htakes) hends
  · intro file hfile
    rw [Target.isSourceFile, Bool.and_eq_true, Target.isCodeFile, Bool.and_eq_true] at hfile
    obtain ⟨language, hlanguage⟩ := Option.isSome_iff_exists.1 hfile.2.1
    exact ⟨language, (sourceLanguage?_eq_languageOf? hfile.2.1).trans hlanguage, hlanguage⟩

/-! ### A file that is missed -/

/-- An engine for code in Python. -/
def pythonEngine : Engine :=
  .new ⟨[.python], ["/p/src"], .po, ["/p/locales"], ".po", ["_"], none⟩ .none 0

/-- A file whose name is an extension and nothing else. -/
def dotFile : Dict String := Dict.empty.insert "/p/src/.py" "_(\"a\")\n"

/-- **Events are taken for this file, and a scan does not queue it.** -/
theorem scan_misses_dotFile :
    "/p/src/.py" ∈ dotFile.keys ∧ pythonEngine.Takes "/p/src/.py" ∧
      "/p/src/.py" ∉ pythonEngine.queued dotFile ∧
      ∃ scan, pythonEngine.initialScan (ofFiles dotFile) = .ok scan ∧ scan.queued = 0 := by
  exact ⟨by decide, takes_iff.2 (by decide), by decide, ⟨pythonEngine, 0, []⟩, rfl, rfl⟩

end Engine

end Concord

import Concord.Engine
import Mathlib.Data.List.Basic
import Mathlib.Data.List.TakeWhile

/-!
# Extensions of files

The extension of a file is read in three ways: a listing of a directory reads it off the last name
of the path (`Path.extension?`), a target off what follows the last slash or backslash
(`extensionOf?`), and the reading of code off the whole path (`Engine.sourceLanguage?`). All of them
look for the last dot, so they can be compared on the text of the path
(`Path.splitLast?_eq_some_iff`, `extensionOf?_eq_some_iff`).

The last two agree wherever a target finds a language (`Engine.sourceLanguage?_eq_languageOf?`). The
first one finds the extension that a target finds, unless there is nothing before it but its dot
(`Path.extension?_of_extensionOf?`).
-/

namespace Concord

/-! ### The last dot -/

namespace Path

variable {sep : Char}

/-- Without a separator there is nothing to divide. -/
theorem splitLast?_eq_none_iff {cs : List Char} : splitLast? sep cs = none ↔ sep ∉ cs := by
  induction cs with
  | nil => simp [splitLast?]
  | cons c cs ih =>
    rw [splitLast?, List.mem_cons, not_or]
    cases hrest : splitLast? sep cs with
    | some halves =>
      have hmem : ¬sep ∉ cs := fun hno => by simp [ih.2 hno] at hrest
      simp [hmem]
    | none =>
      have hno : sep ∉ cs := ih.1 hrest
      by_cases hc : c = sep
      · simp [hc]
      · simp [hc, Ne.symm hc, hno]

/-- **A text is divided at the separator that no other one follows.** -/
theorem splitLast?_eq_some_iff {cs before after : List Char} :
    splitLast? sep cs = some (before, after) ↔ cs = before ++ sep :: after ∧ sep ∉ after := by
  constructor
  · intro h
    induction cs generalizing before with
    | nil => simp [splitLast?] at h
    | cons c cs ih =>
      rw [splitLast?] at h
      cases hrest : splitLast? sep cs with
      | some halves =>
        rw [hrest] at h
        cases h
        obtain ⟨rfl, hno⟩ := ih hrest
        exact ⟨rfl, hno⟩
      | none =>
        rw [hrest] at h
        dsimp only at h
        split at h
        · next hc =>
          cases h
          exact ⟨by rw [hc, List.nil_append], splitLast?_eq_none_iff.1 hrest⟩
        · exact absurd h nofun
  · rintro ⟨rfl, hno⟩
    induction before with
    | nil =>
      rw [List.nil_append, splitLast?, splitLast?_eq_none_iff.2 hno]
      exact if_pos rfl
    | cons c before ih => rw [List.cons_append, splitLast?, ih]

end Path

/-- **What a target takes for the extension**: what follows the last dot, if no slash or backslash
follows it. -/
theorem extensionOf?_eq_some_iff {file ext : String} :
    extensionOf? file = some ext ↔
      ∃ before, file.toList = before ++ '.' :: ext.toList ∧
        ∀ c ∈ ext.toList, c ≠ '.' ∧ c ≠ '/' ∧ c ≠ '\\' := by
  let inName : Char → Bool := fun c => c ≠ '/' && c ≠ '\\'
  have hinName : ∀ c, inName c = true ↔ c ≠ '/' ∧ c ≠ '\\' := by
    intro c
    simp [inName]
  have hiff : extensionOf? file = some ext ↔
      ∃ stem, (file.toList.reverse.takeWhile inName).reverse = stem ++ '.' :: ext.toList ∧
        '.' ∉ ext.toList := by
    rw [extensionOf?, Option.map_eq_some_iff]
    constructor
    · rintro ⟨⟨stem, after⟩, hsplit, rfl⟩
      rw [String.toList_ofList]
      exact ⟨stem, Path.splitLast?_eq_some_iff.1 hsplit⟩
    · rintro ⟨stem, h⟩
      exact ⟨⟨stem, ext.toList⟩, Path.splitLast?_eq_some_iff.2 h, String.ofList_toList⟩
  rw [hiff]
  constructor
  · rintro ⟨stem, hname, hdot⟩
    have hsplit := List.takeWhile_append_dropWhile (p := inName) (l := file.toList.reverse)
    refine ⟨(file.toList.reverse.dropWhile inName).reverse ++ stem, ?_, ?_⟩
    · rw [List.append_assoc, ← hname, ← List.reverse_append, hsplit, List.reverse_reverse]
    · intro c hc
      have hmem : c ∈ (file.toList.reverse.takeWhile inName).reverse := by
        rw [hname]
        exact List.mem_append_right _ (List.mem_cons_of_mem _ hc)
      refine ⟨?_, (hinName c).1 (List.mem_takeWhile_imp (List.mem_reverse.1 hmem))⟩
      rintro rfl
      exact hdot hc
  · rintro ⟨before, hfile, hext⟩
    have hpos : ∀ c ∈ ext.toList.reverse, inName c = true := by
      intro c hc
      exact (hinName c).2 (hext c (List.mem_reverse.1 hc)).2
    refine ⟨(before.reverse.takeWhile inName).reverse, ?_, fun hdot => (hext '.' hdot).1 rfl⟩
    rw [hfile, List.reverse_append, List.reverse_cons, List.append_assoc,
      List.takeWhile_append_of_pos hpos, List.singleton_append,
      List.takeWhile_cons_of_pos (by decide), List.reverse_append, List.reverse_reverse,
      List.reverse_cons, List.append_assoc, List.singleton_append]

/-- An extension holds no dot. -/
theorem not_mem_of_extensionOf? {file ext : String} (h : extensionOf? file = some ext) :
    '.' ∉ ext.toList := by
  obtain ⟨-, -, hext⟩ := extensionOf?_eq_some_iff.1 h
  exact fun hdot => (hext '.' hdot).1 rfl

/-! ### The last name -/

namespace Path

variable {sep : Char}

theorem splitAt_ne_nil (sep : Char) (cs : List Char) : splitAt sep cs ≠ [] := by
  cases cs with
  | nil => exact List.cons_ne_nil _ _
  | cons c cs =>
    rw [splitAt]
    split
    · exact List.cons_ne_nil _ _
    · split <;> exact List.cons_ne_nil _ _

theorem splitAt_of_not_mem {cs : List Char} (h : sep ∉ cs) : splitAt sep cs = [cs] := by
  induction cs with
  | nil => rfl
  | cons c cs ih =>
    rw [List.mem_cons, not_or] at h
    rw [splitAt, if_neg (Ne.symm h.1), ih h.2]

/-- What follows the last separator is the last piece. -/
theorem splitAt_append {name : List Char} (h : sep ∉ name) (cs : List Char) :
    splitAt sep (cs ++ sep :: name) = splitAt sep cs ++ [name] := by
  induction cs with
  | nil => simp [splitAt, splitAt_of_not_mem h]
  | cons c cs ih =>
    rw [List.cons_append, splitAt, splitAt, ih]
    split
    · rfl
    · obtain ⟨piece, rest, hpieces⟩ := List.exists_cons_of_ne_nil (splitAt_ne_nil sep cs)
      rw [hpieces]
      rfl

/-- Whether a text is empty or ends with a slash, so that a name may follow it. -/
def IsDirPrefix (dir : List Char) : Prop := dir = [] ∨ ∃ d, dir = d ++ ['/']

/-- A text that names a file: it is not empty and none of the segments with a meaning of their
own. -/
structure IsName (name : List Char) : Prop where
  slash : '/' ∉ name
  ne_nil : name ≠ []
  ne_current : name ≠ ['.']
  ne_parent : name ≠ ['.', '.']

theorem partOf?_of_isName {name : List Char} (h : IsName name) :
    partOf? name = some (.name (String.ofList name)) := by
  rw [partOf?, if_neg, if_neg h.ne_parent]
  simp [isFiller, h.ne_nil, h.ne_current]

/-- **The last name of a path is what follows its last slash**, if that is a name. -/
theorem fileName?_eq {file : String} {dir name : List Char} (hfile : file.toList = dir ++ name)
    (hdir : IsDirPrefix dir) (hname : IsName name) :
    fileName? file = some (String.ofList name) := by
  have hpart := partOf?_of_isName hname
  have hlast : ∃ anchor segments, anchored file = (anchor, segments ++ [name]) := by
    rcases hdir with rfl | ⟨d, rfl⟩
    · rw [List.nil_append] at hfile
      have hroot : name.head? ≠ some '/' := fun h => hname.slash (List.mem_of_head? h)
      refine ⟨none, [], ?_⟩
      rw [anchored, hfile, splitAt_of_not_mem hname.slash]
      dsimp only
      rw [if_neg hroot, if_neg hname.ne_current]
      rfl
    · rw [List.append_assoc, List.singleton_append] at hfile
      obtain ⟨first, rest, hpieces⟩ := List.exists_cons_of_ne_nil (splitAt_ne_nil '/' d)
      rw [anchored, hfile, splitAt_append hname.slash, hpieces, List.cons_append]
      dsimp only
      split
      · exact ⟨some .root, rest, rfl⟩
      · split
        · exact ⟨some .current, rest, rfl⟩
        · exact ⟨none, first :: rest, rfl⟩
  obtain ⟨anchor, segments, hanchored⟩ := hlast
  have hparts : parts file =
      (anchor.toList ++ segments.filterMap partOf?) ++ [.name (String.ofList name)] := by
    rw [parts, hanchored]
    simp [hpart]
  rw [fileName?, hparts, List.getLast?_concat]

/-- Whether a path ends in a name, as that of a file does. -/
def EndsInName (file : String) : Prop :=
  ∃ dir name, file.toList = dir ++ name ∧ IsDirPrefix dir ∧ IsName name

/-- Whether the last name of a path is an extension and nothing else. -/
def OnlyExtension (file : String) : Prop :=
  ∃ dir ext, file.toList = dir ++ '.' :: ext ∧ IsDirPrefix dir ∧ '.' ∉ ext ∧ '/' ∉ ext

theorem IsDirPrefix.slash_mem {a b : List Char} (h : IsDirPrefix (a ++ b)) (hb : b ≠ []) :
    '/' ∈ b := by
  rcases h with h | ⟨d, h⟩
  · exact absurd (List.append_eq_nil_iff.1 h).2 hb
  · have hlast : b.getLast? = some '/' := by
      rw [← List.getLast?_append_of_ne_nil a hb, h, List.getLast?_concat]
    exact List.mem_of_getLast? hlast

/-- What a text without a slash ends with, the last name ends with too. -/
theorem exists_stem {dir name before ext : List Char} (h : dir ++ name = before ++ '.' :: ext)
    (hdir : IsDirPrefix dir) (hext : '/' ∉ ext) :
    ∃ stem, before = dir ++ stem ∧ name = stem ++ '.' :: ext := by
  rcases List.append_eq_append_iff.1 h with ⟨stem, hbefore, hname⟩ | ⟨more, rfl, htail⟩
  · exact ⟨stem, hbefore, hname⟩
  · have hmore : more = [] := by
      by_contra hne
      have hslash : '/' ∈ '.' :: ext := htail ▸ List.mem_append_left _ (hdir.slash_mem hne)
      simp [hext] at hslash
    subst hmore
    exact ⟨[], by simp, by simpa using htail.symm⟩

/-- **The extension of a path, off its text**: that which a target finds, unless the last name is
an extension and nothing else. -/
theorem extension?_of_extensionOf? {file ext : String} (hends : EndsInName file)
    (h : extensionOf? file = some ext) :
    (¬OnlyExtension file → extension? file = some ext) ∧
      (OnlyExtension file → extension? file = none) := by
  obtain ⟨dir, name, hfile, hdir, hname⟩ := hends
  obtain ⟨before, hbefore, hext⟩ := extensionOf?_eq_some_iff.1 h
  have hdot : '.' ∉ ext.toList := fun hdot => (hext '.' hdot).1 rfl
  have hslash : '/' ∉ ext.toList := fun hslash => (hext '/' hslash).2.1 rfl
  obtain ⟨stem, -, rfl⟩ := exists_stem (hfile.symm.trans hbefore) hdir hslash
  have hread : extension? file = if stem = [] then none else some ext := by
    rw [extension?, fileName?_eq hfile hdir hname, Option.bind_some, String.toList_ofList,
      splitLast?_eq_some_iff.2 ⟨rfl, hdot⟩]
    cases stem with
    | nil => rfl
    | cons c cs => exact congrArg some String.ofList_toList
  constructor
  · intro honly
    rw [hread, if_neg]
    rintro rfl
    exact honly ⟨dir, ext.toList, hfile, hdir, hdot, hslash⟩
  · rintro ⟨dir', ext', hfile', hdir', hdot', hslash'⟩
    obtain ⟨stem', rfl, hstem⟩ := exists_stem (hfile.symm.trans hfile') hdir hslash'
    have hstem' : stem' = [] := by
      by_contra hne
      exact hname.slash (hstem ▸ List.mem_append_left _ (hdir'.slash_mem hne))
    subst hstem'
    rw [hread, if_pos]
    cases stem with
    | nil => rfl
    | cons c cs =>
      obtain ⟨-, rfl⟩ := List.cons.inj hstem
      exact absurd (List.mem_append_right cs List.mem_cons_self) hdot'

end Path

/-! ### Letter case -/

/-- A file has one of some extensions if its own is the same but for the case of its letters. -/
theorem Workspace.hasExtension_iff {extensions : List String} {extension? : Option String} :
    hasExtension extensions extension? ↔
      ∃ extension ∈ extensions, ∃ ext, extension? = some ext ∧
        extension.toList.map Char.toLower = ext.toList.map Char.toLower := by
  rw [hasExtension, Option.any_eq_true]
  simp only [List.any_eq_true, decide_eq_true_eq]
  constructor
  · rintro ⟨ext, hext, extension, hmem, hsame⟩
    exact ⟨extension, hmem, ext, hext, hsame⟩
  · rintro ⟨extension, hmem, ext, hext, hsame⟩
    exact ⟨ext, hext, extension, hmem, hsame⟩

/-! ### Languages -/

namespace CodeLanguage

theorem dropDots_of_not_mem {s : String} (h : '.' ∉ s.toList) : dropDots s = s := by
  have hdrop : s.toList.dropWhile (· = '.') = s.toList := by
    cases hs : s.toList with
    | nil => rfl
    | cons c cs =>
      rw [List.dropWhile_cons_of_neg]
      rintro hc
      exact h (by simp_all)
  rw [dropDots, hdrop, String.ofList_toList]

/-- The extensions of the languages are in lower case. -/
theorem lowerCase_of_mem_extensions {l : CodeLanguage} {ext : String} (h : ext ∈ l.extensions) :
    lowerCase ext = ext := by
  cases l <;> simp only [extensions, List.mem_cons, List.not_mem_nil, or_false] at h <;>
    rcases h with rfl | rfl | rfl | rfl <;> rfl

theorem lowerCase_mem_extensions {ext : String} {l : CodeLanguage}
    (hdots : '.' ∉ ext.toList) (h : ofExtension? ext = some l) :
    lowerCase ext ∈ l.extensions := by
  have hfound := List.find?_some h
  rw [dropDots_of_not_mem hdots] at hfound
  exact List.contains_iff_mem.1 hfound

end CodeLanguage

/-- **Code is read in the language that the target finds for it.** -/
theorem Engine.sourceLanguage?_eq_languageOf? {t : Target} {file : String}
    (h : (t.languageOf? file).isSome) : sourceLanguage? t file = t.languageOf? file := by
  cases hext : extensionOf? file with
  | none =>
    rw [Target.languageOf?, hext] at h
    exact absurd h nofun
  | some ext =>
    obtain ⟨before, hfile, hno⟩ := extensionOf?_eq_some_iff.1 hext
    have hsplit : Path.splitLast? '.' file.toList = some (before, ext.toList) :=
      Path.splitLast?_eq_some_iff.2 ⟨hfile, fun hdot => (hno '.' hdot).1 rfl⟩
    rw [sourceLanguage?, Target.languageOf?, hsplit, hext, Option.bind_some, Option.bind_some,
      String.ofList_toList]

end Concord

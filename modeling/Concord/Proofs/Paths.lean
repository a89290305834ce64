import Concord.Proofs.Extensions

/-!
# Paths put together from their parts

The text that is put together from the parts of a path has the same parts again
(`Path.parts_normalize`). So normalizing a path changes how it is written and not what it is a path
to, and two paths are the same exactly when they are normalized to the same text
(`Path.normalize_eq_iff`). A name joined to a path is one more part (`Path.parts_join`).
-/

namespace Concord.Path

/-! ### Pieces put together -/

variable {sep : Char}

/-- What precedes the first separator is the first piece. -/
theorem splitAt_append_cons {piece : List Char} (h : sep ∉ piece) (cs : List Char) :
    splitAt sep (piece ++ sep :: cs) = piece :: splitAt sep cs := by
  induction piece with
  | nil => exact if_pos rfl
  | cons c piece ih =>
    rw [List.mem_cons, not_or] at h
    rw [List.cons_append, splitAt, if_neg (Ne.symm h.1), ih h.2]

theorem not_mem_of_mem_splitAt {cs piece : List Char} (h : piece ∈ splitAt sep cs) :
    sep ∉ piece := by
  induction cs generalizing piece with
  | nil =>
    rw [List.mem_singleton.1 h]
    exact List.not_mem_nil
  | cons c cs ih =>
    obtain ⟨first, rest, hpieces⟩ := List.exists_cons_of_ne_nil (splitAt_ne_nil sep cs)
    rw [hpieces] at ih
    rw [splitAt, hpieces] at h
    split at h
    · rcases List.mem_cons.1 h with rfl | h
      · exact List.not_mem_nil
      · exact ih h
    · next hc =>
      rcases List.mem_cons.1 h with rfl | h
      · rw [List.mem_cons, not_or]
        exact ⟨Ne.symm hc, ih List.mem_cons_self⟩
      · exact ih (List.mem_cons_of_mem _ h)

/-- A text begins with a separator when its first piece is empty and not its only one. -/
theorem head?_eq_some_iff_splitAt {cs : List Char} :
    cs.head? = some sep ↔ ∃ rest, rest ≠ [] ∧ splitAt sep cs = [] :: rest := by
  cases cs with
  | nil => simp [splitAt]
  | cons c cs =>
    obtain ⟨first, rest, hpieces⟩ := List.exists_cons_of_ne_nil (splitAt_ne_nil sep cs)
    rw [splitAt, hpieces, List.head?_cons, Option.some_inj]
    by_cases hc : c = sep
    · simp [hc]
    · simp [hc]

/-- **Dividing takes apart what was put together** from pieces without a separator. -/
theorem splitAt_intercalate {pieces : List (List Char)} (hne : pieces ≠ [])
    (h : ∀ piece ∈ pieces, sep ∉ piece) : splitAt sep ([sep].intercalate pieces) = pieces := by
  induction pieces with
  | nil => exact absurd rfl hne
  | cons first rest ih =>
    obtain ⟨hfirst, hrest⟩ := List.forall_mem_cons.1 h
    cases rest with
    | nil => rw [List.intercalate_singleton, splitAt_of_not_mem hfirst]
    | cons second rest =>
      rw [List.intercalate_cons_cons, List.append_assoc, List.singleton_append,
        splitAt_append_cons hfirst, ih (List.cons_ne_nil _ _) hrest]

/-! ### Parts and their texts -/

/-- The text of a part is the segment that it was read from. -/
theorem toList_render_of_partOf? {segment : List Char} {q : Part} (h : partOf? segment = some q) :
    q.render.toList = segment := by
  rw [partOf?] at h
  split at h
  · cases h
  · split at h
    · next hparent =>
      cases h
      exact hparent.symm
    · cases h
      exact String.toList_ofList

/-- A part that stands behind the beginning of a path: its text holds no slash and is read as the
part. -/
structure Part.IsInner (q : Part) : Prop where
  slash : '/' ∉ q.render.toList
  read : partOf? q.render.toList = some q

theorem Part.isInner_of_partOf? {segment : List Char} {q : Part} (h : partOf? segment = some q)
    (hslash : '/' ∉ segment) : q.IsInner := by
  have htext := toList_render_of_partOf? h
  exact ⟨htext ▸ hslash, htext.symm ▸ h⟩

theorem Part.IsInner.isFiller {q : Part} (h : q.IsInner) : isFiller q.render.toList = false := by
  have hread := h.read
  rw [partOf?] at hread
  split at hread
  · cases hread
  · next hfiller => simpa using hfiller

/-- Parts behind the beginning are read from their texts. -/
theorem filterMap_partOf? {qs : List Part} (h : ∀ q ∈ qs, q.IsInner) :
    (qs.map fun q => q.render.toList).filterMap partOf? = qs := by
  induction qs with
  | nil => rfl
  | cons q qs ih =>
    obtain ⟨hq, hqs⟩ := List.forall_mem_cons.1 h
    rw [List.map_cons, List.filterMap_cons_some hq.read, ih hqs]

/-! ### The parts of a path -/

/-- What the parts of a path are: perhaps the root or a `.`, then parts that their texts are read
as. -/
inductive IsPath : List Part → Prop
  | plain {qs : List Part} (h : ∀ q ∈ qs, q.IsInner) : IsPath qs
  | absolute {qs : List Part} (h : ∀ q ∈ qs, q.IsInner) : IsPath (.root :: qs)
  | relative {qs : List Part} (h : ∀ q ∈ qs, q.IsInner) : IsPath (.current :: qs)

theorem isPath_parts (p : String) : IsPath (parts p) := by
  obtain ⟨first, rest, hpieces⟩ := List.exists_cons_of_ne_nil (splitAt_ne_nil '/' p.toList)
  have hinner : ∀ segments : List (List Char), segments ⊆ first :: rest →
      ∀ q ∈ segments.filterMap partOf?, q.IsInner := by
    intro segments hsub q hq
    obtain ⟨segment, hmem, hread⟩ := List.mem_filterMap.1 hq
    exact Part.isInner_of_partOf? hread
      (not_mem_of_mem_splitAt (hpieces.symm ▸ hsub hmem))
  rw [parts, anchored, hpieces]
  dsimp only
  split
  · exact .absolute (hinner rest (List.subset_cons_self _ _))
  · split
    · exact .relative (hinner rest (List.subset_cons_self _ _))
    · exact .plain (hinner _ (List.Subset.refl _))

/-- The text of a path is made of the texts of its parts. -/
theorem splitAt_render {ps : List Part} (hroot : ps ≠ [.root]) (hne : ps ≠ [])
    (hslash : ∀ q ∈ ps, '/' ∉ q.render.toList) :
    splitAt '/' (render ps).toList = ps.map fun q => q.render.toList := by
  rw [render, if_neg hroot, String.toList_intercalate, List.map_map]
  refine splitAt_intercalate (by simpa using hne) fun piece hpiece => ?_
  obtain ⟨q, hq, rfl⟩ := List.mem_map.1 hpiece
  exact hslash q hq

/-- **Parts that are put together are read again.** -/
theorem parts_render {ps : List Part} (h : IsPath ps) : parts (render ps) = ps := by
  cases h with
  | plain h =>
    cases ps with
    | nil => decide
    | cons q qs =>
      obtain ⟨hq, -⟩ := List.forall_mem_cons.1 h
      have hroot : q :: qs ≠ [.root] := by
        rintro ⟨⟩
        exact absurd hq.isFiller (by decide)
      have hsplit := splitAt_render hroot (List.cons_ne_nil _ _) fun q hq => (h q hq).slash
      have hhead : (render (q :: qs)).toList.head? ≠ some '/' := by
        rw [Ne, head?_eq_some_iff_splitAt, hsplit]
        rintro ⟨rest, -, hfirst⟩
        have hempty : q.render.toList = [] := (List.cons.inj hfirst).1
        exact absurd hq.isFiller (by rw [hempty]; decide)
      have hcurrent : q.render.toList ≠ ['.'] := by
        intro hdot
        exact absurd hq.isFiller (by rw [hdot]; decide)
      rw [parts, anchored, hsplit, List.map_cons]
      dsimp only
      rw [if_neg hhead, if_neg hcurrent]
      exact filterMap_partOf? h
  | @absolute qs h =>
    cases qs with
    | nil => decide
    | cons q qs =>
      have hsplit : splitAt '/' (render (.root :: q :: qs)).toList =
          [] :: (q :: qs).map fun q => q.render.toList :=
        splitAt_render (by simp) (List.cons_ne_nil _ _)
          (List.forall_mem_cons.2 ⟨by decide, fun q hq => (h q hq).slash⟩)
      have hhead : (render (.root :: q :: qs)).toList.head? = some '/' :=
        head?_eq_some_iff_splitAt.2 ⟨_, List.cons_ne_nil _ _, hsplit⟩
      rw [parts, anchored, hsplit]
      dsimp only
      rw [if_pos hhead, filterMap_partOf? h]
      rfl
  | @relative qs h =>
    have hsplit : splitAt '/' (render (.current :: qs)).toList =
        ['.'] :: qs.map fun q => q.render.toList :=
      splitAt_render (by simp) (List.cons_ne_nil _ _)
        (List.forall_mem_cons.2 ⟨by decide, fun q hq => (h q hq).slash⟩)
    have hhead : (render (.current :: qs)).toList.head? ≠ some '/' := by
      rw [Ne, head?_eq_some_iff_splitAt, hsplit]
      rintro ⟨rest, -, hfirst⟩
      exact absurd (List.cons.inj hfirst).1 (by decide)
    rw [parts, anchored, hsplit]
    dsimp only
    rw [if_neg hhead, if_pos rfl, filterMap_partOf? h]
    rfl

/-- **Normalizing a path keeps its parts.** -/
theorem parts_normalize (p : String) : parts (normalize p) = parts p :=
  parts_render (isPath_parts p)

/-- Two paths are normalized to the same text exactly when they have the same parts. -/
theorem normalize_eq_iff {p q : String} : normalize p = normalize q ↔ parts p = parts q := by
  constructor
  · intro h
    rw [← parts_normalize p, h, parts_normalize]
  · intro h
    rw [normalize, h, normalize]

/-! ### Names joined to a path -/

/-- What follows the same segments is read behind the same parts. -/
theorem exists_parts_eq {p q : String} {segments more more' : List (List Char)}
    (hne : segments ≠ []) (hp : splitAt '/' p.toList = segments ++ more)
    (hq : splitAt '/' q.toList = segments ++ more') (hhead : q.toList.head? = p.toList.head?) :
    ∃ ps, parts p = ps ++ more.filterMap partOf? ∧ parts q = ps ++ more'.filterMap partOf? := by
  obtain ⟨first, rest, rfl⟩ := List.exists_cons_of_ne_nil hne
  simp only [parts, anchored, hp, hq, hhead, List.cons_append]
  split
  · exact ⟨.root :: rest.filterMap partOf?, by simp, by simp⟩
  · split
    · exact ⟨.current :: rest.filterMap partOf?, by simp, by simp⟩
    · refine ⟨(first :: rest).filterMap partOf?, ?_, ?_⟩ <;>
        rw [← List.filterMap_append] <;> rfl

/-- **A name that is joined to a path is its last part**, whether or not a slash has to be put
between them. -/
theorem parts_join {dir name : String} (h : IsName name.toList) :
    parts (join dir name) = parts dir ++ [.name name] := by
  have hpart : [name.toList].filterMap partOf? = [.name name] := by
    rw [List.filterMap_cons_some (partOf?_of_isName h), String.ofList_toList, List.filterMap_nil]
  have hroot : name.toList.head? ≠ some '/' := fun hhead => h.slash (List.mem_of_head? hhead)
  rw [join, if_neg hroot]
  by_cases hempty : dir = ""
  · subst hempty
    rw [if_pos (.inl rfl), String.empty_append, parts, anchored, splitAt_of_not_mem h.slash]
    dsimp only
    rw [if_neg hroot, if_neg h.ne_current]
    exact hpart
  have hne : dir.toList ≠ [] := fun hnil => hempty (String.toList_eq_nil_iff.1 hnil)
  by_cases hslash : dir.toList.getLast? = some '/'
  · obtain ⟨d, hd⟩ := List.getLast?_eq_some_iff.1 hslash
    have hjoin : (dir ++ name).toList = d ++ '/' :: name.toList := by
      rw [String.toList_append, hd, List.append_assoc, List.singleton_append]
    obtain ⟨ps, hdir, hname⟩ := exists_parts_eq (splitAt_ne_nil '/' d)
      (by rw [hd, splitAt_append List.not_mem_nil]) (by rw [hjoin, splitAt_append h.slash])
      (by rw [String.toList_append, List.head?_append_of_ne_nil _ hne])
    -- the empty segment behind the last slash is no part
    have hlast : [[]].filterMap partOf? = [] := rfl
    rw [if_pos (.inr hslash), hname, hdir, hpart, hlast, List.append_nil]
  · have hjoin : (dir ++ "/" ++ name).toList = dir.toList ++ '/' :: name.toList := by
      rw [String.toList_append, String.toList_append, List.append_assoc]
      rfl
    obtain ⟨ps, hdir, hname⟩ := exists_parts_eq (splitAt_ne_nil '/' dir.toList)
      (List.append_nil _).symm (by rw [hjoin, splitAt_append h.slash])
      (by rw [hjoin, List.head?_append_of_ne_nil _ hne])
    rw [if_neg (not_or.2 ⟨hempty, hslash⟩), hname, hdir, hpart, List.filterMap_nil, List.append_nil]

end Concord.Path

import Concord.Proofs.Edit.Plan
import Concord.Proofs.Edit.Splice
import Mathlib.Data.List.Dedup

/-!
# Renaming a key in code

Every call site of a key is edited within its own literal: at the inside, or, where the style of the
literal cannot hold the new key, at the whole of it (`Rewrites`, `siteEdit_within`). As the literals
of different call sites lie apart, so do the edits. Therefore they can all be made, and the result
is the text with exactly these stretches replaced, each by what its call site asks for
(`planRename_sites`). The literals of other keys come out as they were.
-/

namespace Concord.Rename

open Text

/-! ### Call sites in a text -/

/-- Whether the ends of a range lie in a text. -/
def Resolves (text : List Char) (r : Range) : Prop :=
  (offsetAt? text r.start).isSome ∧ (offsetAt? text r.stop).isSome

instance (text : List Char) (r : Range) : Decidable (Resolves text r) :=
  inferInstanceAs (Decidable (_ ∧ _))

theorem Resolves.exists_offsets {text : List Char} {r : Range} (h : Resolves text r) :
    ∃ m n, offsetAt? text r.start = some m ∧ offsetAt? text r.stop = some n := by
  obtain ⟨m, hm⟩ := Option.isSome_iff_exists.1 h.1
  obtain ⟨n, hn⟩ := Option.isSome_iff_exists.1 h.2
  exact ⟨m, n, hm, hn⟩

/-- How the call sites that were read from a text lie in it. -/
structure Placed (text : List Char) (sites : List CallSite) : Prop where
  location_resolves : ∀ s ∈ sites, Resolves text s.location.range
  literal_resolves : ∀ s ∈ sites, Resolves text s.literalRange
  /-- The ends of a range are in order, as in every range that is built by `Range.between`. -/
  location_ordered : ∀ s ∈ sites, s.location.range.start ≤ s.location.range.stop
  /-- The literal goes beyond the key on both sides. -/
  key_inside : ∀ s ∈ sites,
    s.literalRange.start < s.location.range.start ∧ s.location.range.stop < s.literalRange.stop
  literals_apart : ∀ s ∈ sites, ∀ t ∈ sites, s ≠ t →
    s.literalRange.stop ≤ t.literalRange.start ∨ t.literalRange.stop ≤ s.literalRange.start

/-- **How a call site is rewritten**: the inside of its literal gives way to the new key, escaped in
the style of the literal, or, where that style cannot hold the key, the whole literal gives way to
the double-quoted one. -/
def Rewrites (text : List Char) (new : String) (s : CallSite) (span : Span) : Prop :=
  match Literal.escape? new.toList s.style with
  | some inner => offsetAt? text s.location.range.start = some span.start ∧
      offsetAt? text s.location.range.stop = some span.stop ∧ span.newText = inner
  | none => offsetAt? text s.literalRange.start = some span.start ∧
      offsetAt? text s.literalRange.stop = some span.stop ∧
      span.newText = Literal.doubleQuoted new.toList

/-- That a text comes from another by rewriting the call sites of a key among those in it. In the
order of the text, each such call site has one stretch; these stretches do not overlap, and each of
them is replaced. The literal of every other call site is kept, between what becomes of the text
before it and after it. -/
def SitesRewritten (text : List Char) (sites : List CallSite) (old new : String)
    (edited : List Char) : Prop :=
  ∃ (renamed : List CallSite) (spans : List Span),
    renamed.Nodup ∧ (∀ s, s ∈ renamed ↔ s ∈ sites ∧ s.key = old) ∧
    List.Forall₂ (Rewrites text new) renamed spans ∧ spans.Pairwise Span.Before ∧
    edited = Span.splice text 0 spans ∧
    ∀ s ∈ sites, s.key ≠ old → ∃ m n left right,
      offsetAt? text s.literalRange.start = some m ∧
      offsetAt? text s.literalRange.stop = some n ∧ spans = left ++ right ∧
      edited = Span.splice (takeBytes m text) 0 left ++
        (slice m n text ++ Span.splice text n right)

/-- A key that its literal goes beyond on both sides is isolated. -/
theorem isolated_of_lt {s : CallSite} (hstart : s.literalRange.start < s.location.range.start)
    (hstop : s.location.range.stop < s.literalRange.stop) : s.isolated := by
  have hencloses : s.literalRange.encloses s.location.range := by
    rw [Range.encloses, Bool.and_eq_true, decide_eq_true_eq, decide_eq_true_eq]
    rw [Position.lt_iff] at hstart hstop
    rw [Position.le_iff, Position.le_iff]
    omega
  have hne : s.literalRange ≠ s.location.range := by
    intro heq
    rw [heq, Position.lt_iff] at hstart
    omega
  rw [CallSite.isolated, hencloses, Bool.true_and, bne_iff_ne]
  exact hne

section Sites

variable {text : List Char} {sites : List CallSite} (h : Placed text sites) {s t : CallSite}
  (hs : s ∈ sites) (new : String)

/-- The edit of a call site, as an edit of its file. -/
def editOf (s : CallSite) : TextEdit := ⟨(siteEdit new s).1, (siteEdit new s).2⟩

include h hs

theorem isolated_of_placed : s.isolated := by
  obtain ⟨hstart, hstop⟩ := h.key_inside s hs
  exact isolated_of_lt hstart hstop

theorem siteEdit_of_some {inner : List Char}
    (hinner : Literal.escape? new.toList s.style = some inner) :
    siteEdit new s = (s.location.range, String.ofList inner) := by
  rw [siteEdit, if_pos (isolated_of_placed h hs), hinner]

theorem siteEdit_of_none (hinner : Literal.escape? new.toList s.style = none) :
    siteEdit new s = (s.literalRange, String.ofList (Literal.doubleQuoted new.toList)) := by
  rw [siteEdit, if_pos (isolated_of_placed h hs), hinner]

/-- **A call site is edited within its own literal**, and not just at the end of it. -/
theorem siteEdit_within :
    s.literalRange.start ≤ (editOf new s).range.start ∧
      (editOf new s).range.start ≤ (editOf new s).range.stop ∧
      (editOf new s).range.stop ≤ s.literalRange.stop ∧
      (editOf new s).range.start < s.literalRange.stop := by
  obtain ⟨hstart, hstop⟩ := h.key_inside s hs
  have hordered := h.location_ordered s hs
  rw [Position.lt_iff] at hstart hstop
  rw [Position.le_iff] at hordered
  rw [editOf]
  cases hinner : Literal.escape? new.toList s.style with
  | some inner =>
    rw [siteEdit_of_some h hs new hinner, Position.le_iff, Position.le_iff, Position.le_iff,
      Position.lt_iff]
    dsimp only
    omega
  | none =>
    rw [siteEdit_of_none h hs new hinner, Position.le_iff, Position.le_iff, Position.le_iff,
      Position.lt_iff]
    dsimp only
    omega

/-- The span of the edit of a call site is how the call site is rewritten. -/
theorem ofEdit_editOf_iff {span : Span} :
    Span.ofEdit text (editOf new s) = .ok span ↔ Rewrites text new s span := by
  rw [Span.ofEdit_eq_ok_iff, editOf, Rewrites]
  cases hinner : Literal.escape? new.toList s.style with
  | some inner => simp only [siteEdit_of_some h hs new hinner, String.toList_ofList]
  | none => simp only [siteEdit_of_none h hs new hinner, String.toList_ofList]

theorem exists_ofEdit_editOf : ∃ span, Span.ofEdit text (editOf new s) = .ok span := by
  obtain ⟨m, n, hm, hn⟩ := (h.location_resolves s hs).exists_offsets
  obtain ⟨m', n', hm', hn'⟩ := (h.literal_resolves s hs).exists_offsets
  simp only [ofEdit_editOf_iff h hs new, Rewrites]
  split
  · next inner _ => exact ⟨⟨m, n, inner⟩, hm, hn, rfl⟩
  · exact ⟨⟨m', n', Literal.doubleQuoted new.toList⟩, hm', hn', rfl⟩

/-- Different call sites are edited at different ranges. -/
theorem eq_of_editOf_eq (ht : t ∈ sites) (heq : editOf new s = editOf new t) : s = t := by
  by_contra hne
  obtain ⟨hs₁, -, -, hs₂⟩ := siteEdit_within h hs new
  obtain ⟨ht₁, -, -, ht₂⟩ := siteEdit_within h ht new
  rw [← heq] at ht₁ ht₂
  rw [Position.le_iff] at hs₁ ht₁
  rw [Position.lt_iff] at hs₂ ht₂
  rcases h.literals_apart s hs t ht hne with hapart | hapart
  · rw [Position.le_iff] at hapart
    omega
  · rw [Position.le_iff] at hapart
    omega

omit new in
/-- The keys of different call sites lie strictly apart, as each literal goes beyond its key. -/
theorem keys_apart (ht : t ∈ sites) (hne : s ≠ t) :
    s.location.range.stop < t.location.range.start ∨
      t.location.range.stop < s.location.range.start := by
  obtain ⟨hs₁, hs₂⟩ := h.key_inside s hs
  obtain ⟨ht₁, ht₂⟩ := h.key_inside t ht
  rcases h.literals_apart s hs t ht hne with hapart | hapart
  · left
    rw [Position.le_iff] at hapart
    rw [Position.lt_iff] at hs₂ ht₁ ⊢
    clear hs₁ ht₂
    omega
  · right
    rw [Position.le_iff] at hapart
    rw [Position.lt_iff] at hs₁ ht₂ ⊢
    clear hs₂ ht₁
    omega

omit new in
/-- **A place belongs to one call site at most**, the ends of its key included. -/
theorem eq_of_touches (ht : t ∈ sites) {p : Position} (hsp : s.location.range.touches p)
    (htp : t.location.range.touches p) : s = t := by
  by_contra hne
  obtain ⟨hs₁, hs₂⟩ := Range.touches_iff.1 hsp
  obtain ⟨ht₁, ht₂⟩ := Range.touches_iff.1 htp
  rcases keys_apart h hs ht hne with hapart | hapart
  · rw [Position.le_iff] at hs₂ ht₁
    rw [Position.lt_iff] at hapart
    omega
  · rw [Position.le_iff] at hs₁ ht₂
    rw [Position.lt_iff] at hapart
    omega

/-- **The edits of different call sites lie apart**, as their literals do. -/
theorem editOf_apart (ht : t ∈ sites) (hne : s ≠ t) : (editOf new s).Apart (editOf new t) := by
  obtain ⟨hs₁, -, hs₂, -⟩ := siteEdit_within h hs new
  obtain ⟨ht₁, -, ht₂, -⟩ := siteEdit_within h ht new
  rw [Position.le_iff] at hs₁ hs₂ ht₁ ht₂
  rw [TextEdit.Apart, Position.le_iff, Position.le_iff]
  rcases h.literals_apart s hs t ht hne with hapart | hapart
  · rw [Position.le_iff] at hapart
    omega
  · rw [Position.le_iff] at hapart
    omega

/-- **A literal that is not rewritten is not touched** by what rewrites others. -/
theorem untouched_of_rewrites {renamed : List CallSite} {spans : List Span}
    (hrenamed : ∀ t ∈ renamed, t ∈ sites) (hspans : List.Forall₂ (Rewrites text new) renamed spans)
    (hnot : s ∉ renamed) {m n : Nat} (hm : offsetAt? text s.literalRange.start = some m)
    (hn : offsetAt? text s.literalRange.stop = some n) :
    ∀ span ∈ spans, span.stop ≤ m ∨ n ≤ span.start := by
  intro span hspan
  obtain ⟨t, ht, hrewrites⟩ := exists_of_mem_forall₂ hspans hspan
  have ht' := hrenamed t ht
  obtain ⟨hstart, hstop, -⟩ :=
    Span.ofEdit_eq_ok_iff.1 ((ofEdit_editOf_iff h ht' new).2 hrewrites)
  obtain ⟨hwithin, -, hwithin', -⟩ := siteEdit_within h ht' new
  have hts : t ≠ s := fun heq => hnot (heq ▸ ht)
  rw [Position.le_iff] at hwithin hwithin'
  rcases h.literals_apart t ht' s hs hts with hapart | hapart
  · refine .inl (offsetAt?_le hstop hm ?_)
    rw [Position.le_iff] at hapart ⊢
    omega
  · refine .inr (offsetAt?_le hn hstart ?_)
    rw [Position.le_iff] at hapart ⊢
    omega

theorem literal_ordered : s.literalRange.start ≤ s.literalRange.stop := by
  obtain ⟨hstart, hordered, hstop, -⟩ := siteEdit_within h hs ""
  rw [Position.le_iff] at *
  omega

end Sites

/-- The edits of call sites can all be made: taken in the order of the text, each call site has a
span that it rewrites, and the result is the splice of these spans. -/
theorem exists_rewrites {text : List Char} {sites renamed : List CallSite}
    {edits : List TextEdit} {new : String} (h : Placed text sites) (hnodup : renamed.Nodup)
    (hsites : ∀ s ∈ renamed, s ∈ sites) (hedits : edits.Perm (renamed.map (editOf new))) :
    ∃ inOrder spans, inOrder.Perm renamed ∧ List.Forall₂ (Rewrites text new) inOrder spans ∧
      spans.Pairwise Span.Before ∧ (∀ s ∈ spans, s.Fits text) ∧
      applyEdits text edits = .ok (Span.splice text 0 spans) := by
  have hsite : ∀ e ∈ edits, ∃ s ∈ renamed, editOf new s = e :=
    fun e he => List.mem_map.1 (hedits.mem_iff.1 he)
  have hresolves : ∀ e ∈ edits, ∃ span, Span.ofEdit text e = .ok span := by
    intro e he
    obtain ⟨s, hs, rfl⟩ := hsite e he
    exact exists_ofEdit_editOf h (hsites s hs) new
  have hordered : ∀ e ∈ edits, e.range.start ≤ e.range.stop := by
    intro e he
    obtain ⟨s, hs, rfl⟩ := hsite e he
    exact (siteEdit_within h (hsites s hs) new).2.1
  have hapart : edits.Pairwise TextEdit.Apart := by
    refine (hedits.pairwise_iff Or.symm).2 (List.pairwise_map.2 ?_)
    exact List.Nodup.pairwise_of_forall_ne hnodup fun s hs t ht hst =>
      editOf_apart h (hsites s hs) new (hsites t ht) hst
  obtain ⟨edits', spans, hperm, hspans, horder, hfits, hmade⟩ :=
    exists_applyEdits_eq_splice hresolves hordered hapart
  -- the call sites in the order of their edits
  have heach : List.Forall₂ (fun e s => e = editOf new s) (renamed.map (editOf new)) renamed :=
    List.forall₂_map_left_iff.2 (List.forall₂_same.2 fun _ _ => rfl)
  obtain ⟨inOrder, hinOrder, hperm'⟩ := List.perm_comp_forall₂ (hperm.trans hedits) heach
  have hmap : edits' = inOrder.map (editOf new) := by
    rw [← List.forall₂_eq_eq_eq, List.forall₂_map_right_iff]
    exact hinOrder
  rw [hmap, List.forall₂_map_left_iff] at hspans
  have hsites' : ∀ s ∈ inOrder, s ∈ sites := fun s hs => hsites s (hperm'.mem_iff.1 hs)
  have hboth := (List.forall₂_and_left _ _).2 ⟨hsites', hspans⟩
  exact ⟨inOrder, spans, hperm',
    hboth.imp fun s span hs => (ofEdit_editOf_iff h hs.1 new).1 hs.2, horder, hfits, hmade⟩

/-- **Call sites that are edited are rewritten.** Edits of a text that are those of the call sites
of a key can all be made, and rewrite these call sites. -/
theorem exists_sitesRewritten {text : List Char} {sites renamed : List CallSite}
    {edits : List TextEdit} {old new : String} (h : Placed text sites) (hnodup : renamed.Nodup)
    (hrenamed : ∀ s, s ∈ renamed ↔ s ∈ sites ∧ s.key = old)
    (hedits : edits.Perm (renamed.map (editOf new))) :
    ∃ edited, applyEdits text edits = .ok edited ∧ SitesRewritten text sites old new edited := by
  obtain ⟨inOrder, spans, hperm, hrewrites, horder, hfits, hmade⟩ :=
    exists_rewrites h hnodup (fun s hs => ((hrenamed s).1 hs).1) hedits
  have hinOrder : ∀ s, s ∈ inOrder ↔ s ∈ sites ∧ s.key = old :=
    fun s => hperm.mem_iff.trans (hrenamed s)
  have hsites : ∀ s ∈ inOrder, s ∈ sites := fun s hs => ((hinOrder s).1 hs).1
  refine ⟨_, hmade, inOrder, spans, hperm.nodup_iff.2 hnodup, hinOrder, hrewrites, horder, rfl,
    fun s hs hkey => ?_⟩
  obtain ⟨m, n, hm, hn⟩ := (h.literal_resolves s hs).exists_offsets
  have hnot : s ∉ inOrder := fun hmem => hkey ((hinOrder s).1 hmem).2
  obtain ⟨left, right, hsplit, hsplice⟩ := Span.exists_splice_around hfits horder
    (isBoundary_of_offsetAt? hm) (isBoundary_of_offsetAt? hn)
    (offsetAt?_le hm hn (literal_ordered h hs))
    (untouched_of_rewrites h hs new hsites hrewrites hnot hm hn)
  exact ⟨m, n, left, right, hm, hn, hsplit, hsplice⟩

/-! ### The edits of a file -/

section Plan

variable {old new file : String} {sites : List CallSite} {locations : List Location}
  {existing : TextSet}

/-- **The edits of a file that holds no catalog entry** are those of its call sites of the old key,
each of them once. -/
theorem exists_planRename (sites : List CallSite) (hnew : new ≠ "") (hne : new ≠ old)
    (hfree : existing.contains new = false) (hlocations : ∀ l ∈ locations, l.file ≠ file) :
    ∃ edits, planRename old new sites locations existing = .ok edits ∧
      (edits.editsFor file).Nodup ∧
      ∀ e, e ∈ edits.editsFor file ↔
        ∃ s ∈ sites, s.location.file = file ∧ s.key = old ∧ e = editOf new s := by
  obtain ⟨edits, hplan, hproper, hmem⟩ :=
    exists_planRename_proper sites locations hnew hne (Bool.eq_false_iff.1 hfree)
  refine ⟨edits, hplan, (hproper.increasing_editsFor file).nodup, fun e => ?_⟩
  rw [hmem, Demanded]
  constructor
  · rintro (⟨s, hs, hkey, hfile, he⟩ | ⟨l, hl, hfile, -⟩)
    · exact ⟨s, hs, hfile, hkey, he⟩
    · exact absurd hfile (hlocations l hl)
  · rintro ⟨s, hs, hfile, hkey, he⟩
    exact .inl ⟨s, hs, hkey, hfile, he⟩

/-- The edits of a file that holds no catalog entry, by call sites. -/
theorem exists_planRename_perm {text : List Char}
    (hplaced : Placed text (sites.filter fun s => s.location.file = file))
    (hnew : new ≠ "") (hne : new ≠ old) (hfree : existing.contains new = false)
    (hlocations : ∀ l ∈ locations, l.file ≠ file) :
    ∃ (edits : EditSet) (renamed : List CallSite),
      planRename old new sites locations existing = .ok edits ∧ renamed.Nodup ∧
      (∀ s, s ∈ renamed ↔ s ∈ (sites.filter fun s => s.location.file = file) ∧ s.key = old) ∧
      (edits.editsFor file).Perm (renamed.map (editOf new)) := by
  obtain ⟨edits, hplan, hnodup, hmem⟩ :=
    exists_planRename sites hnew hne hfree hlocations
  have hrenamed : ∀ s,
      s ∈ ((sites.filter fun s => s.location.file = file).filter fun s => s.key = old).dedup ↔
        s ∈ (sites.filter fun s => s.location.file = file) ∧ s.key = old := by
    intro s
    rw [List.mem_dedup, List.mem_filter, decide_eq_true_eq]
  refine ⟨edits, _, hplan, List.nodup_dedup _, hrenamed, ?_⟩
  rw [List.perm_ext_iff_of_nodup hnodup]
  · intro e
    rw [hmem, List.mem_map]
    constructor
    · rintro ⟨s, hs, hfile, hkey, rfl⟩
      exact ⟨s, (hrenamed s).2 ⟨List.mem_filter.2 ⟨hs, decide_eq_true hfile⟩, hkey⟩, rfl⟩
    · rintro ⟨s, hs, rfl⟩
      obtain ⟨hs, hkey⟩ := (hrenamed s).1 hs
      obtain ⟨hs, hfile⟩ := List.mem_filter.1 hs
      exact ⟨s, hs, of_decide_eq_true hfile, hkey, rfl⟩
  · refine (List.nodup_dedup _).map_on fun s hs t ht heq => ?_
    exact eq_of_editOf_eq hplaced ((hrenamed s).1 hs).1 new ((hrenamed t).1 ht).1 heq

/-- **A rename rewrites the call sites of the old key and nothing else.** In a file that holds no
catalog entry, with any call sites in it, a rename to a new and free key can be planned, its edits
of the file can all be made, and the new text is the old one with the call sites of the old key
rewritten. -/
theorem planRename_sites {text : List Char}
    (hplaced : Placed text (sites.filter fun s => s.location.file = file))
    (hnew : new ≠ "") (hne : new ≠ old) (hfree : existing.contains new = false)
    (hlocations : ∀ l ∈ locations, l.file ≠ file) :
    ∃ edits edited, planRename old new sites locations existing = .ok edits ∧
      applyEdits text (edits.editsFor file) = .ok edited ∧
      SitesRewritten text (sites.filter fun s => s.location.file = file) old new edited := by
  obtain ⟨edits, renamed, hplan, hnodup, hmem, hperm⟩ :=
    exists_planRename_perm hplaced hnew hne hfree hlocations
  obtain ⟨edited, hmade, hrewritten⟩ := exists_sitesRewritten hplaced hnodup hmem hperm
  exact ⟨edits, edited, hplan, hmade, hrewritten⟩

end Plan

/-- A line with a character outside the basic plane before three call sites, the second of which
stands in a raw literal. -/
def sampleText : List Char := "😀 _(\"a\") _(r\"a\") _(\"b\")".toList

/-- The call sites of that line, and one of another file. -/
def sampleSites : List CallSite :=
  [⟨"b", ⟨"app.py", ⟨⟨0, 21⟩, ⟨0, 22⟩⟩⟩, ⟨⟨0, 20⟩, ⟨0, 23⟩⟩, ⟨⟨0, 18⟩, ⟨0, 24⟩⟩, .doubleQuoted⟩,
    ⟨"a", ⟨"app.py", ⟨⟨0, 14⟩, ⟨0, 15⟩⟩⟩, ⟨⟨0, 12⟩, ⟨0, 16⟩⟩, ⟨⟨0, 10⟩, ⟨0, 17⟩⟩,
      ⟨"r", "\"", .raw⟩⟩,
    ⟨"a", ⟨"app.py", ⟨⟨0, 6⟩, ⟨0, 7⟩⟩⟩, ⟨⟨0, 5⟩, ⟨0, 8⟩⟩, ⟨⟨0, 3⟩, ⟨0, 9⟩⟩, .doubleQuoted⟩,
    ⟨"a", ⟨"lib.py", ⟨⟨0, 3⟩, ⟨0, 4⟩⟩⟩, ⟨⟨0, 2⟩, ⟨0, 5⟩⟩, ⟨⟨0, 0⟩, ⟨0, 6⟩⟩, .doubleQuoted⟩]

theorem placed_sampleSites :
    Placed sampleText (sampleSites.filter fun s => s.location.file = "app.py") where
  location_resolves := by decide
  literal_resolves := by decide
  location_ordered := by decide
  key_inside := by decide
  literals_apart := by decide

/-- The edits of that line when `a` gives way to a key that the raw literal cannot hold. -/
def sampleEdits : List TextEdit :=
  [⟨⟨⟨0, 6⟩, ⟨0, 7⟩⟩, "x\\\"y"⟩, ⟨⟨⟨0, 12⟩, ⟨0, 16⟩⟩, "\"x\\\"y\""⟩]

theorem applyEdits_sampleEdits : applyEdits sampleText sampleEdits =
    .ok "😀 _(\"x\\\"y\") _(\"x\\\"y\") _(\"b\")".toList := by
  have hspans : resolve sampleText sampleEdits =
      .ok [⟨8, 9, "x\\\"y".toList⟩, ⟨14, 18, "\"x\\\"y\"".toList⟩] := by decide +kernel
  have hsorted : [⟨8, 9, "x\\\"y".toList⟩, ⟨14, 18, "\"x\\\"y\"".toList⟩].mergeSort
      Span.precedes = [⟨8, 9, "x\\\"y".toList⟩, ⟨14, 18, "\"x\\\"y\"".toList⟩] :=
    List.mergeSort_of_pairwise (by decide)
  rw [applyEdits, hspans]
  simp only [bind, Except.bind]
  rw [hsorted]
  decide +kernel

/-- The statement above speaks of these call sites and of a key that the raw literal cannot
hold. -/
theorem planRename_sites_sample :
    Placed sampleText (sampleSites.filter fun s => s.location.file = "app.py") ∧
    (TextSet.ofTexts ["a", "b"]).contains "x\"y" = false ∧
    ∃ edits,
      planRename "a" "x\"y" sampleSites [⟨"de.po", .zero⟩] (.ofTexts ["a", "b"]) = .ok edits ∧
      applyEdits sampleText (edits.editsFor "app.py") =
        .ok "😀 _(\"x\\\"y\") _(\"x\\\"y\") _(\"b\")".toList ∧
      SitesRewritten sampleText (sampleSites.filter fun s => s.location.file = "app.py") "a" "x\"y"
        "😀 _(\"x\\\"y\") _(\"x\\\"y\") _(\"b\")".toList := by
  have hfree : (TextSet.ofTexts ["a", "b"]).contains "x\"y" = false := by decide +kernel
  have hlocations : ∀ l ∈ [(⟨"de.po", .zero⟩ : Location)], l.file ≠ "app.py" := by decide
  have hnew : "x\"y" ≠ "" := by decide
  have hne : "x\"y" ≠ "a" := by decide
  obtain ⟨edits, edited, hplan, hmade, hrewritten⟩ :=
    planRename_sites placed_sampleSites hnew hne hfree hlocations
  have hedits : (planRename "a" "x\"y" sampleSites [⟨"de.po", .zero⟩]
      (.ofTexts ["a", "b"])).toOption.map (fun edits => edits.editsFor "app.py") =
      some sampleEdits := by decide +kernel
  rw [hplan, Except.toOption, Option.map_some, Option.some.injEq] at hedits
  obtain rfl := Except.ok.inj ((hedits ▸ hmade).symm.trans applyEdits_sampleEdits)
  exact ⟨placed_sampleSites, hfree, edits, hplan, hmade, hrewritten⟩

end Concord.Rename

import Concord.Proofs.Edit.Splice
import Mathlib.Data.List.Pairwise

/-!
# Which edits are made, and what they make

Edits are refused when an end of a range has no offset or when a span starts before the span that
comes just before it stops. Looking at neighbours is enough: in the order of the spans each stops
before all later ones start, as none of them stops before it starts
(`Span.pairwise_of_overlap?_eq_none`). So edits are made exactly when all ends have an offset and no
two edits clash, and the result is the splice of their spans (`applyEdits_eq_ok_iff`). Each
replacement is made between characters of the text as the replacements to its right have left it
(`Span.fits_foldr_replaceIn`).

The order in which the edits are given matters only for insertions at one and the same place: all
other spans that do not overlap have one order (`Span.mergeSort_eq_of_perm`).
-/

namespace Concord

open Text

namespace Span

/-! ### Spans that overlap -/

/-- That two spans overlap: the one that comes first stops after the other starts. -/
def Overlaps (a b : Span) : Prop :=
  a.precedes b ∧ b.start < a.stop ∨ b.precedes a ∧ a.start < b.stop

/-- That two spans are the same empty one: both insert at one place. -/
def SameGap (a b : Span) : Prop := a.start = b.start ∧ a.stop = b.stop ∧ a.start = a.stop

theorem Overlaps.symm {a b : Span} (h : a.Overlaps b) : b.Overlaps a := Or.symm h

theorem SameGap.symm {a b : Span} (h : a.SameGap b) : b.SameGap a := by
  rw [SameGap] at *
  omega

/-- Spans overlap unless one of them stops before the other starts. -/
theorem not_overlaps_iff {a b : Span} (ha : a.start ≤ a.stop) (hb : b.start ≤ b.stop) :
    ¬ a.Overlaps b ↔ a.Apart b := by
  rw [Overlaps, Apart, precedes_iff, precedes_iff]
  omega

/-- **The check of neighbours rules out every overlap.** -/
theorem pairwise_of_overlap?_eq_none {spans : List Span} (hwidth : ∀ s ∈ spans, s.start ≤ s.stop)
    (h : overlap? spans = none) : spans.Pairwise Before := by
  induction spans with
  | nil => exact List.Pairwise.nil
  | cons a rest ih =>
    cases rest with
    | nil => exact List.pairwise_singleton _ _
    | cons b rest =>
      rw [overlap?] at h
      split at h
      · simp at h
      · next hab =>
        have htail := ih (fun s hs => hwidth s (List.mem_cons_of_mem _ hs)) h
        have hb : b.start ≤ b.stop := hwidth b (List.mem_cons_of_mem _ List.mem_cons_self)
        refine List.pairwise_cons.2 ⟨fun c hc => ?_, htail⟩
        rcases List.mem_cons.1 hc with rfl | hc
        · exact Nat.not_lt.1 hab
        · -- what comes after the neighbour comes after it by the width of the neighbour
          have hbc : b.stop ≤ c.start := (List.pairwise_cons.1 htail).1 c hc
          rw [Before]
          omega

/-- **Each replacement is made between characters** of the text that those to its right have
left. -/
theorem fits_foldr_replaceIn {text : List Char} {left right : List Span} {s : Span}
    (hfits : ∀ t ∈ left ++ s :: right, t.Fits text)
    (horder : (left ++ s :: right).Pairwise Before) : s.Fits (right.foldr replaceIn text) := by
  obtain ⟨hhead, htail⟩ := List.pairwise_cons.1 (List.pairwise_append.1 horder).2.1
  obtain ⟨hwidth, hstart, hstop⟩ := hfits s (List.mem_append_right _ List.mem_cons_self)
  have hright : ∀ t ∈ right, t.Fits text :=
    fun t ht => hfits t (List.mem_append_right _ (List.mem_cons_of_mem _ ht))
  rw [foldr_replaceIn hright htail hstop hhead]
  have hkept : ∀ {n : Nat}, IsBoundary text n → n ≤ s.stop →
      IsBoundary (takeBytes s.stop text ++ splice text s.stop right) n := by
    intro n hn hle
    obtain ⟨before, after, htake, hbytes⟩ := isBoundary_takeBytes hn hstop hle
    exact ⟨before, after ++ splice text s.stop right, by rw [htake, List.append_assoc], hbytes⟩
  exact ⟨hwidth, hkept hstart hwidth, hkept hstop (Nat.le_refl _)⟩

/-- **Spans that do not overlap have one order**, insertions at one place apart. -/
theorem mergeSort_eq_of_perm {spans spans' : List Span} (hperm : spans'.Perm spans)
    (hwidth : ∀ s ∈ spans, s.start ≤ s.stop) (hapart : spans.Pairwise Apart)
    (hgaps : spans.Pairwise fun a b => ¬ a.SameGap b) :
    spans'.mergeSort precedes = spans.mergeSort precedes := by
  have hsorted := List.mergeSort_perm spans precedes
  have hsorted' := List.mergeSort_perm spans' precedes
  refine List.Perm.eq_of_pairwise (fun a b ha hb hab hba => ?_)
    (List.pairwise_mergeSort precedes_trans precedes_total spans')
    (List.pairwise_mergeSort precedes_trans precedes_total spans)
    (hsorted'.trans (hperm.trans hsorted.symm))
  replace ha : a ∈ spans := hperm.mem_iff.1 (hsorted'.mem_iff.1 ha)
  replace hb : b ∈ spans := hsorted.mem_iff.1 hb
  rw [precedes_iff] at hab hba
  have hsymm : Std.Symm fun a b : Span => a.Apart b ∧ ¬ a.SameGap b :=
    ⟨fun _ _ h => ⟨h.1.symm, fun hgap => h.2 hgap.symm⟩⟩
  by_contra hne
  obtain ⟨hlie, hgap⟩ := (hapart.and hgaps).forall ha hb hne
  -- two spans of the same bytes lie apart only if there are no such bytes
  have ha' := hwidth a ha
  rw [Apart] at hlie
  rw [SameGap] at hgap
  omega

end Span

/-! ### Edits that clash -/

namespace TextEdit

/-- That two edits of a text clash: their spans overlap. -/
def Clash (text : List Char) (d e : TextEdit) : Prop :=
  ∃ s t, Span.ofEdit text d = .ok s ∧ Span.ofEdit text e = .ok t ∧ s.Overlaps t

/-- That two edits of a text insert at one place. -/
def SameGap (text : List Char) (d e : TextEdit) : Prop :=
  ∃ s t, Span.ofEdit text d = .ok s ∧ Span.ofEdit text e = .ok t ∧ s.SameGap t

variable {text : List Char} {d e : TextEdit}

theorem Clash.symm (h : Clash text d e) : Clash text e d := by
  obtain ⟨s, t, hs, ht, hoverlaps⟩ := h
  exact ⟨t, s, ht, hs, hoverlaps.symm⟩

theorem SameGap.symm (h : SameGap text d e) : SameGap text e d := by
  obtain ⟨s, t, hs, ht, hgap⟩ := h
  exact ⟨t, s, ht, hs, hgap.symm⟩

end TextEdit

section Applied

variable {text : List Char} {edits : List TextEdit} {spans : List Span}

/-- The edits have spans when both ends of all their ranges have an offset. -/
theorem exists_resolve_iff : (∃ spans, resolve text edits = .ok spans) ↔
    ∀ e ∈ edits, (offsetAt? text e.range.start).isSome ∧ (offsetAt? text e.range.stop).isSome := by
  constructor
  · rintro ⟨spans, hresolve⟩ e he
    obtain ⟨s, -, hs⟩ := exists_of_mem_forall₂ (mapM_eq_ok_iff.1 hresolve).flip he
    obtain ⟨hstart, hstop, -⟩ := Span.ofEdit_eq_ok_iff.1 hs
    rw [hstart, hstop]
    exact ⟨rfl, rfl⟩
  · refine fun h => exists_mapM_eq_ok fun e he => ?_
    obtain ⟨hstart, hstop⟩ := h e he
    obtain ⟨m, hm⟩ := Option.isSome_iff_exists.1 hstart
    obtain ⟨n, hn⟩ := Option.isSome_iff_exists.1 hstop
    exact ⟨⟨m, n, e.newText.toList⟩, Span.ofEdit_eq_ok_iff.2 ⟨hm, hn, rfl⟩⟩

/-- **Edits are refused if an end of one of them has no offset**, with the range of the first such
edit. -/
theorem exists_applyEdits_eq_outside {e : TextEdit} (he : e ∈ edits)
    (hnone : offsetAt? text e.range.start = none ∨ offsetAt? text e.range.stop = none) :
    ∃ d ∈ edits, applyEdits text edits = .error (.outside d.range) := by
  cases hresolve : resolve text edits with
  | ok spans =>
    obtain ⟨hstart, hstop⟩ := exists_resolve_iff.1 ⟨spans, hresolve⟩ e he
    rcases hnone with hnone | hnone
    · simp [hnone] at hstart
    · simp [hnone] at hstop
  | error err =>
    obtain ⟨d, hd, hfails⟩ := exists_of_mapM_eq_error hresolve
    refine ⟨d, hd, ?_⟩
    rw [Span.ofEdit] at hfails
    split at hfails
    · simp at hfails
    · obtain rfl := Except.error.inj hfails
      rw [applyEdits, hresolve]
      rfl

/-- What holds between the spans of any two edits holds between any two of their spans. -/
theorem pairwise_edits_iff {R : Span → Span → Prop} (hresolve : resolve text edits = .ok spans) :
    (edits.Pairwise fun d e =>
      ¬ ∃ s t, Span.ofEdit text d = .ok s ∧ Span.ofEdit text e = .ok t ∧ R s t) ↔
      spans.Pairwise fun s t => ¬ R s t := by
  have hspans := mapM_eq_ok_iff.1 hresolve
  constructor
  · refine pairwise_of_forall₂ (fun {d e s t} hde hs ht hst => ?_) hspans
    exact hde ⟨s, t, hs, ht, hst⟩
  · refine pairwise_of_forall₂ (fun {s t d e} hst hs ht => ?_) hspans.flip
    rintro ⟨s', t', hs', ht', hst'⟩
    obtain rfl := Except.ok.inj (hs.symm.trans hs')
    obtain rfl := Except.ok.inj (ht.symm.trans ht')
    exact hst hst'

variable (hordered : ∀ e ∈ edits, e.range.start ≤ e.range.stop)

include hordered

theorem fits_of_resolve (hresolve : resolve text edits = .ok spans) :
    ∀ s ∈ spans, s.Fits text := by
  intro s hs
  obtain ⟨e, he, hspan⟩ := exists_of_mem_forall₂ (mapM_eq_ok_iff.1 hresolve) hs
  exact Span.fits_of_ofEdit hspan (hordered e he)

/-- **Edits are made exactly when their spans lie apart**, and the result is the splice. -/
theorem applyEdits_eq_ok_iff {out : List Char} :
    applyEdits text edits = .ok out ↔ ∃ spans, resolve text edits = .ok spans ∧
      spans.Pairwise Span.Apart ∧ out = Span.splice text 0 (spans.mergeSort Span.precedes) := by
  constructor
  · intro h
    cases hresolve : resolve text edits with
    | error err => simp [applyEdits, hresolve, bind, Except.bind] at h
    | ok spans =>
      have hperm := List.mergeSort_perm spans Span.precedes
      have hfits := fits_of_resolve hordered hresolve
      have hnone : Span.overlap? (spans.mergeSort Span.precedes) = none := by
        cases hoverlap : Span.overlap? (spans.mergeSort Span.precedes) with
        | none => rfl
        | some offset => simp [applyEdits, hresolve, bind, Except.bind, hoverlap] at h
      have horder := Span.pairwise_of_overlap?_eq_none
        (fun s hs => (hfits s (hperm.mem_iff.1 hs)).start_le_stop) hnone
      have hapart : spans.Pairwise Span.Apart :=
        (hperm.pairwise_iff Or.symm).1 (horder.imp Or.inl)
      rw [applyEdits_eq_splice hresolve hfits hapart] at h
      exact ⟨spans, rfl, hapart, (Except.ok.inj h).symm⟩
  · rintro ⟨spans, hresolve, hapart, rfl⟩
    exact applyEdits_eq_splice hresolve (fits_of_resolve hordered hresolve) hapart

/-- The spans of edits lie apart exactly when no two edits clash. -/
theorem pairwise_apart_iff (hresolve : resolve text edits = .ok spans) :
    spans.Pairwise Span.Apart ↔ edits.Pairwise fun d e => ¬ d.Clash text e := by
  have hfits := fits_of_resolve hordered hresolve
  rw [show (edits.Pairwise fun d e => ¬ d.Clash text e) ↔ spans.Pairwise fun s t => ¬ s.Overlaps t
    from pairwise_edits_iff hresolve]
  refine List.Pairwise.iff_of_mem fun hs ht => ?_
  exact (Span.not_overlaps_iff (hfits _ hs).start_le_stop (hfits _ ht).start_le_stop).symm

/-- **Edits are made exactly when all their ends have an offset and no two of them clash.** -/
theorem exists_applyEdits_iff : (∃ out, applyEdits text edits = .ok out) ↔
    (∀ e ∈ edits,
      (offsetAt? text e.range.start).isSome ∧ (offsetAt? text e.range.stop).isSome) ∧
    edits.Pairwise fun d e => ¬ d.Clash text e := by
  rw [← exists_resolve_iff]
  constructor
  · rintro ⟨out, h⟩
    obtain ⟨spans, hresolve, hapart, -⟩ := (applyEdits_eq_ok_iff hordered).1 h
    exact ⟨⟨spans, hresolve⟩, (pairwise_apart_iff hordered hresolve).1 hapart⟩
  · rintro ⟨⟨spans, hresolve⟩, hclash⟩
    exact ⟨_, (applyEdits_eq_ok_iff hordered).2
      ⟨spans, hresolve, (pairwise_apart_iff hordered hresolve).2 hclash, rfl⟩⟩

/-- **Edits in another order make the same text**, unless two of them insert at one place. -/
theorem applyEdits_of_perm {edits' : List TextEdit} (hperm : edits'.Perm edits)
    (hgaps : edits.Pairwise fun d e => ¬ d.SameGap text e) {out : List Char}
    (h : applyEdits text edits = .ok out) : applyEdits text edits' = .ok out := by
  obtain ⟨spans, hresolve, hapart, rfl⟩ := (applyEdits_eq_ok_iff hordered).1 h
  -- the spans of the edits in the other order
  obtain ⟨spans', hspans', hperm'⟩ :=
    List.perm_comp_forall₂ hperm (mapM_eq_ok_iff.1 hresolve)
  have hapart' : spans'.Pairwise Span.Apart := (hperm'.pairwise_iff Or.symm).2 hapart
  have hsame := Span.mergeSort_eq_of_perm hperm'
    (fun s hs => (fits_of_resolve hordered hresolve s hs).start_le_stop) hapart
    ((pairwise_edits_iff hresolve).1 hgaps)
  exact (applyEdits_eq_ok_iff fun e he => hordered e (hperm.mem_iff.1 he)).2
    ⟨spans', mapM_eq_ok_iff.2 hspans', hapart', by rw [hsame]⟩

end Applied

/-! ### The splice of any edits -/

/-- How a list of edits is applied to a text. -/
structure AppliedAsSplice (text : List Char) (edits : List TextEdit) : Prop where
  /-- The edits are made exactly when all their ends have an offset and no two of them clash. -/
  made_iff : (∃ out, applyEdits text edits = .ok out) ↔
    (∀ e ∈ edits,
      (offsetAt? text e.range.start).isSome ∧ (offsetAt? text e.range.stop).isSome) ∧
    edits.Pairwise fun d e => ¬ d.Clash text e
  /-- What they make: in the order of their spans, each span gives way to its new text, and what
  stands between the spans is kept. Every replacement is made between characters of the text as it
  is by then. -/
  splice (out : List Char) : applyEdits text edits = .ok out → ∃ spans,
    List.Forall₂ (fun e s => Span.ofEdit text e = .ok s) edits spans ∧
    (∀ s ∈ spans, s.Fits text) ∧ (spans.mergeSort Span.precedes).Pairwise Span.Before ∧
    (∀ left s right, spans.mergeSort Span.precedes = left ++ s :: right →
      s.Fits (right.foldr Span.replaceIn text)) ∧
    out = Span.splice text 0 (spans.mergeSort Span.precedes)
  /-- Whether they are made does not depend on their order. -/
  made_of_perm (edits' : List TextEdit) : edits'.Perm edits →
    ((∃ out, applyEdits text edits' = .ok out) ↔ ∃ out, applyEdits text edits = .ok out)
  /-- Nor does what they make, unless two of them insert at one place. -/
  eq_of_perm (edits' : List TextEdit) : edits'.Perm edits →
    (edits.Pairwise fun d e => ¬ d.SameGap text e) → ∀ out,
      applyEdits text edits' = .ok out ↔ applyEdits text edits = .ok out

/-- **Applying edits is the splice of their spans**, for all edits whose ranges are built from two
places. -/
theorem applyEdits_splices {text : List Char} {edits : List TextEdit}
    (hranges : ∀ e ∈ edits, ∃ p q, e.range = Range.between p q) : AppliedAsSplice text edits := by
  have hordered : ∀ e ∈ edits, e.range.start ≤ e.range.stop := by
    intro e he
    obtain ⟨p, q, hrange⟩ := hranges e he
    rw [hrange]
    exact Range.start_le_stop_between p q
  refine ⟨exists_applyEdits_iff hordered, fun out h => ?_, fun edits' hperm => ?_,
    fun edits' hperm hgaps out => ?_⟩
  · obtain ⟨spans, hresolve, hapart, rfl⟩ := (applyEdits_eq_ok_iff hordered).1 h
    have hfits := fits_of_resolve hordered hresolve
    have horder := Span.pairwise_of_apart (fun s hs => (hfits s hs).start_le_stop) hapart
    refine ⟨spans, mapM_eq_ok_iff.1 hresolve, hfits, horder, fun left s right hsplit => ?_, rfl⟩
    refine Span.fits_foldr_replaceIn (fun t ht => ?_) (hsplit ▸ horder)
    exact hfits t ((List.mergeSort_perm spans _).mem_iff.1 (hsplit ▸ ht))
  · rw [exists_applyEdits_iff hordered,
      exists_applyEdits_iff fun e he => hordered e (hperm.mem_iff.1 he)]
    refine and_congr (forall_congr' fun e => by rw [hperm.mem_iff]) (hperm.pairwise_iff ?_)
    exact fun h hclash => h hclash.symm
  · constructor
    · refine applyEdits_of_perm (fun e he => hordered e (hperm.mem_iff.1 he)) hperm.symm ?_
      exact (hperm.pairwise_iff fun h hgap => h hgap.symm).2 hgaps
    · exact applyEdits_of_perm hordered hperm hgaps

/-- Edits of a text that are not in its order: one replaces the end of it, one inserts just behind
what the last one replaces. -/
def spliceSample : List TextEdit :=
  [⟨.between ⟨1, 2⟩ ⟨1, 1⟩, "D!"⟩, ⟨.between ⟨0, 3⟩ ⟨0, 3⟩, "yy"⟩,
    ⟨.between ⟨0, 1⟩ ⟨0, 3⟩, "x"⟩]

/-- The spans of these edits, in order. -/
def spliceSpans : List Span :=
  [⟨1, 5, "x".toList⟩, ⟨5, 5, "yy".toList⟩, ⟨8, 9, "D!".toList⟩]

/-- The statement above speaks of edits that are made. -/
theorem applyEdits_splices_sample :
    (∀ e ∈ spliceSample, ∃ p q, e.range = Range.between p q) ∧
    AppliedAsSplice "a😀b\ncd".toList spliceSample ∧
    applyEdits "a😀b\ncd".toList spliceSample = .ok "axyyb\ncD!".toList := by
  have hranges : ∀ e ∈ spliceSample, ∃ p q, e.range = Range.between p q := by
    intro e he
    simp only [spliceSample, List.mem_cons, List.not_mem_nil, or_false] at he
    rcases he with rfl | rfl | rfl
    · exact ⟨⟨1, 2⟩, ⟨1, 1⟩, rfl⟩
    · exact ⟨⟨0, 3⟩, ⟨0, 3⟩, rfl⟩
    · exact ⟨⟨0, 1⟩, ⟨0, 3⟩, rfl⟩
  have hresolve : resolve "a😀b\ncd".toList spliceSample = .ok spliceSpans.reverse := by
    decide +kernel
  have hsorted : spliceSpans.reverse.mergeSort Span.precedes = spliceSpans := by
    rw [Span.mergeSort_eq_of_perm (List.reverse_perm spliceSpans) (by decide)
      (by simp [spliceSpans, Span.Apart]) (by simp [spliceSpans, Span.SameGap])]
    exact List.mergeSort_of_pairwise (by decide)
  have hmade : applyEdits "a😀b\ncd".toList spliceSample = .ok "axyyb\ncD!".toList := by
    rw [applyEdits, hresolve]
    simp only [bind, Except.bind]
    rw [hsorted]
    decide +kernel
  exact ⟨hranges, applyEdits_splices hranges, hmade⟩

end Concord

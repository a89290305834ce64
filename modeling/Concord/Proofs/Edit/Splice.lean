import Concord.Proofs.Attempts
import Concord.Proofs.Text.Places
import Mathlib.Data.List.Perm.Basic

/-!
# Edits as a splice

Edits are applied from the last span to the first. When no two spans overlap the result is the text
read once from left to right: what stands between the spans is kept, and each span gives way to its
new text (`Span.splice`, `applyEdits_eq_splice`). Spans taken by where they start do not overlap as
soon as any two of them lie apart (`pairwise_of_apart`). A stretch of the text that no span touches
is still there, with the spans before it made on its left and those after it on its right
(`exists_splice_around`).
-/

namespace Concord

open Text

namespace Span

/-- The text from byte `pos` on, with spans that come one after the other replaced. -/
def splice (text : List Char) (pos : Nat) : List Span → List Char
  | [] => dropBytes pos text
  | s :: rest => slice pos s.start text ++ (s.newText ++ splice text s.stop rest)

/-- Whether the ends of a span are in order and lie at boundaries of a text. -/
structure Fits (text : List Char) (s : Span) : Prop where
  start_le_stop : s.start ≤ s.stop
  start_boundary : IsBoundary text s.start
  stop_boundary : IsBoundary text s.stop

/-- Whether a span stops before another starts. -/
def Before (a b : Span) : Prop := a.stop ≤ b.start

/-- Whether two spans do not overlap, whichever comes first. They may touch. -/
def Apart (a b : Span) : Prop := a.stop ≤ b.start ∨ b.stop ≤ a.start

theorem Apart.symm {a b : Span} (h : a.Apart b) : b.Apart a := Or.symm h

/-! ### The order of spans -/

theorem precedes_iff {a b : Span} :
    a.precedes b ↔ a.start < b.start ∨ a.start = b.start ∧ a.stop ≤ b.stop := by
  simp [precedes]

theorem precedes_trans (a b c : Span) (hab : a.precedes b) (hbc : b.precedes c) :
    a.precedes c := by
  rw [precedes_iff] at *
  omega

theorem precedes_total (a b : Span) : (a.precedes b || b.precedes a) = true := by
  rw [Bool.or_eq_true, precedes_iff, precedes_iff]
  omega

/-- Of two spans that lie apart, the one that comes first in the order stops before the other
starts. -/
theorem before_of_precedes {a b : Span} (hb : b.start ≤ b.stop) (hab : a.precedes b)
    (hapart : a.Apart b) : a.Before b := by
  rw [precedes_iff] at hab
  rw [Apart] at hapart
  rw [Before]
  omega

/-- **Spans that lie apart come one after the other once they are in order.** -/
theorem pairwise_of_apart {spans : List Span} (hfits : ∀ s ∈ spans, s.start ≤ s.stop)
    (hapart : spans.Pairwise Apart) : (spans.mergeSort precedes).Pairwise Before := by
  have hsorted := List.pairwise_mergeSort precedes_trans precedes_total spans
  have hperm := List.mergeSort_perm spans precedes
  have hapart' : (spans.mergeSort precedes).Pairwise Apart :=
    (hperm.pairwise_iff Apart.symm).2 hapart
  refine (hsorted.and hapart').imp_of_mem fun _ hb h => ?_
  exact before_of_precedes (hfits _ (hperm.mem_iff.1 hb)) h.1 h.2

theorem overlap?_eq_none {spans : List Span} (h : spans.Pairwise Before) :
    overlap? spans = none := by
  induction spans with
  | nil => rfl
  | cons a rest ih =>
    obtain ⟨hhead, htail⟩ := List.pairwise_cons.1 h
    cases rest with
    | nil => rfl
    | cons b rest =>
      have hab : a.stop ≤ b.start := hhead b List.mem_cons_self
      rw [overlap?, if_neg (Nat.not_lt.2 hab), ih htail]

/-! ### From right to left and from left to right -/

section Splice

variable {text : List Char}

/-- **Replacing from the last span to the first** keeps what lies before the spans and splices the
rest. -/
theorem foldr_replaceIn {spans : List Span} (hfits : ∀ s ∈ spans, s.Fits text)
    (horder : spans.Pairwise Before) {pos : Nat} (hpos : IsBoundary text pos)
    (hfirst : ∀ s ∈ spans, pos ≤ s.start) :
    spans.foldr replaceIn text = takeBytes pos text ++ splice text pos spans := by
  induction spans generalizing pos with
  | nil => exact (takeBytes_append_dropBytes pos text).symm
  | cons s rest ih =>
    obtain ⟨hhead, htail⟩ := List.pairwise_cons.1 horder
    obtain ⟨hle, hstart, hstop⟩ := hfits s List.mem_cons_self
    have hrest := ih (fun s' hs' => hfits s' (List.mem_cons_of_mem _ hs')) htail hstop hhead
    have hkept : takeBytes pos text ++ slice pos s.start text = takeBytes s.start text :=
      takeBytes_append_slice hpos hstart (hfirst s List.mem_cons_self)
    -- the later spans leave everything up to the end of this one as it was
    rw [List.foldr_cons, hrest, replaceIn, takeBytes_takeBytes_append hstart hstop hle,
      dropBytes_takeBytes_append hstop, splice, ← hkept]
    simp only [List.append_assoc]

/-- What lies before the first span is kept. -/
theorem splice_eq_slice_append {spans : List Span} (hfits : ∀ s ∈ spans, s.Fits text)
    {pos a : Nat} (hpos : IsBoundary text pos) (ha : IsBoundary text a) (hle : pos ≤ a)
    (hfirst : ∀ s ∈ spans, a ≤ s.start) :
    splice text pos spans = slice pos a text ++ splice text a spans := by
  cases spans with
  | nil => exact (slice_append_dropBytes hpos ha hle).symm
  | cons s rest =>
    have hstart := (hfits s List.mem_cons_self).start_boundary
    have hkept := slice_append_slice ha hstart (hfirst s List.mem_cons_self) hpos hle
    rw [splice, splice, ← hkept, List.append_assoc]

/-- Spans up to a boundary and spans from there on are made in two halves of the text. -/
theorem splice_append {left right : List Span} (hfits : ∀ s ∈ left ++ right, s.Fits text)
    (horder : left.Pairwise Before) {pos a : Nat} (hpos : IsBoundary text pos)
    (ha : IsBoundary text a) (hle : pos ≤ a) (hfrom : ∀ s ∈ left, pos ≤ s.start)
    (hleft : ∀ s ∈ left, s.stop ≤ a) (hright : ∀ s ∈ right, a ≤ s.start) :
    splice text pos (left ++ right) =
      splice (takeBytes a text) pos left ++ splice text a right := by
  induction left generalizing pos with
  | nil =>
    have hkept : splice (takeBytes a text) pos [] = slice pos a text :=
      dropBytes_takeBytes hpos ha hle
    rw [hkept]
    exact splice_eq_slice_append hfits hpos ha hle hright
  | cons s rest ih =>
    obtain ⟨hhead, htail⟩ := List.pairwise_cons.1 horder
    obtain ⟨hwidth, hstart, hstop⟩ := hfits s List.mem_cons_self
    have hsa : s.stop ≤ a := hleft s List.mem_cons_self
    have hrest := ih (fun s' hs' => hfits s' (List.mem_cons_of_mem _ hs')) htail hstop hsa hhead
      (fun s' hs' => hleft s' (List.mem_cons_of_mem _ hs'))
    have hkept : slice pos s.start (takeBytes a text) = slice pos s.start text :=
      slice_takeBytes hstart ha (Nat.le_trans hwidth hsa) hpos (hfrom s List.mem_cons_self)
    rw [List.cons_append, splice, splice, hrest, hkept]
    simp only [List.append_assoc]

/-- **A stretch that no span touches is kept**, between what the spans before it and the spans after
it make of the rest of the text. -/
theorem exists_splice_around {spans : List Span} (hfits : ∀ s ∈ spans, s.Fits text)
    (horder : spans.Pairwise Before) {a b : Nat} (ha : IsBoundary text a)
    (hb : IsBoundary text b) (hab : a ≤ b) (huntouched : ∀ s ∈ spans, s.stop ≤ a ∨ b ≤ s.start) :
    ∃ left right, spans = left ++ right ∧
      splice text 0 spans =
        splice (takeBytes a text) 0 left ++ (slice a b text ++ splice text b right) := by
  have hsplit : ∃ left right, spans = left ++ right ∧ (∀ s ∈ left, s.stop ≤ a) ∧
      ∀ s ∈ right, b ≤ s.start := by
    clear ha hb
    induction spans with
    | nil => exact ⟨[], [], rfl, by simp, by simp⟩
    | cons s rest ih =>
      obtain ⟨hhead, htail⟩ := List.pairwise_cons.1 horder
      rcases huntouched s List.mem_cons_self with hs | hs
      · obtain ⟨left, right, rfl, hleft, hright⟩ :=
          ih (fun s' hs' => hfits s' (List.mem_cons_of_mem _ hs')) htail
            fun s' hs' => huntouched s' (List.mem_cons_of_mem _ hs')
        refine ⟨s :: left, right, rfl, ?_, hright⟩
        simpa [hs] using hleft
      · -- all further spans come after this one
        have hwidth := (hfits s List.mem_cons_self).start_le_stop
        refine ⟨[], s :: rest, rfl, by simp, fun s' hs' => ?_⟩
        rcases List.mem_cons.1 hs' with rfl | hs'
        · exact hs
        · exact Nat.le_trans hs (Nat.le_trans hwidth (hhead s' hs'))
  obtain ⟨left, right, rfl, hleft, hright⟩ := hsplit
  have horder' := (List.pairwise_append.1 horder).1
  have hfits' : ∀ s ∈ right, s.Fits text := fun s hs => hfits s (List.mem_append_right _ hs)
  refine ⟨left, right, rfl, ?_⟩
  rw [splice_append hfits horder' (isBoundary_zero text) ha (Nat.zero_le a)
      (fun _ _ => Nat.zero_le _) hleft fun s hs => Nat.le_trans hab (hright s hs),
    splice_eq_slice_append hfits' ha hb hab hright]

end Splice

end Span

/-! ### Applying edits -/

theorem Span.ofEdit_eq_ok_iff {text : List Char} {e : TextEdit} {s : Span} :
    Span.ofEdit text e = .ok s ↔ offsetAt? text e.range.start = some s.start ∧
      offsetAt? text e.range.stop = some s.stop ∧ s.newText = e.newText.toList := by
  rw [Span.ofEdit]
  split
  · next m n hm hn =>
    rw [hm, hn]
    constructor
    · intro h
      obtain rfl := Except.ok.inj h
      exact ⟨rfl, rfl, rfl⟩
    · rintro ⟨hstart, hstop, htext⟩
      obtain ⟨start, stop, newText⟩ := s
      obtain rfl := Option.some.inj hstart
      obtain rfl := Option.some.inj hstop
      rw [show newText = e.newText.toList from htext]
  · next hnone =>
    refine ⟨fun h => by simp at h, ?_⟩
    rintro ⟨hstart, hstop, -⟩
    exact absurd hstop (hnone _ _ hstart)

/-- The span of an edit whose range is in order fits the text. -/
theorem Span.fits_of_ofEdit {text : List Char} {e : TextEdit} {s : Span}
    (h : Span.ofEdit text e = .ok s) (he : e.range.start ≤ e.range.stop) : s.Fits text := by
  obtain ⟨hstart, hstop, -⟩ := Span.ofEdit_eq_ok_iff.1 h
  exact ⟨offsetAt?_le hstart hstop he, isBoundary_of_offsetAt? hstart,
    isBoundary_of_offsetAt? hstop⟩

/-- **Edits whose spans lie apart are made, and the result is their splice.** -/
theorem applyEdits_eq_splice {text : List Char} {edits : List TextEdit} {spans : List Span}
    (hresolve : resolve text edits = .ok spans) (hfits : ∀ s ∈ spans, s.Fits text)
    (hapart : spans.Pairwise Span.Apart) :
    applyEdits text edits = .ok (Span.splice text 0 (spans.mergeSort Span.precedes)) := by
  have horder := Span.pairwise_of_apart (fun s hs => (hfits s hs).start_le_stop) hapart
  have hfits' : ∀ s ∈ spans.mergeSort Span.precedes, s.Fits text :=
    fun s hs => hfits s ((List.mergeSort_perm spans _).mem_iff.1 hs)
  have hmade := Span.foldr_replaceIn hfits' horder (isBoundary_zero text) fun _ _ => Nat.zero_le _
  have hzero : takeBytes 0 text = [] := takeBytes_bytes_append [] text
  rw [hzero, List.nil_append] at hmade
  rw [applyEdits, hresolve, ← hmade]
  simp only [bind, Except.bind, Span.overlap?_eq_none horder]

/-- Whether the ranges of two edits do not overlap, whichever comes first. They may touch. -/
def TextEdit.Apart (d e : TextEdit) : Prop :=
  d.range.stop ≤ e.range.start ∨ e.range.stop ≤ d.range.start

/-- **Edits whose ranges lie in a text and apart from each other are all made.** Taken in the order
of the text, each has its span, the spans come one after the other, and the result is their
splice. -/
theorem exists_applyEdits_eq_splice {text : List Char} {edits : List TextEdit}
    (hresolves : ∀ e ∈ edits, ∃ s, Span.ofEdit text e = .ok s)
    (hordered : ∀ e ∈ edits, e.range.start ≤ e.range.stop)
    (hapart : edits.Pairwise TextEdit.Apart) :
    ∃ edits' spans, edits'.Perm edits ∧
      List.Forall₂ (fun e s => Span.ofEdit text e = .ok s) edits' spans ∧
      spans.Pairwise Span.Before ∧ (∀ s ∈ spans, s.Fits text) ∧
      applyEdits text edits = .ok (Span.splice text 0 spans) := by
  obtain ⟨spans, hresolve⟩ := exists_mapM_eq_ok hresolves
  have hspans := mapM_eq_ok_iff.1 hresolve
  have hfits : ∀ s ∈ spans, s.Fits text := by
    intro s hs
    obtain ⟨e, he, hspan⟩ := exists_of_mem_forall₂ hspans hs
    exact Span.fits_of_ofEdit hspan (hordered e he)
  have hapart' : spans.Pairwise Span.Apart := by
    refine pairwise_of_forall₂ (fun {d e s t} hde hs ht => ?_) hspans hapart
    obtain ⟨hsStart, hsStop, -⟩ := Span.ofEdit_eq_ok_iff.1 hs
    obtain ⟨htStart, htStop, -⟩ := Span.ofEdit_eq_ok_iff.1 ht
    rcases hde with hde | hde
    · exact .inl (offsetAt?_le hsStop htStart hde)
    · exact .inr (offsetAt?_le htStop hsStart hde)
  have hsorted := List.mergeSort_perm spans Span.precedes
  obtain ⟨edits', hspans', hperm⟩ := List.perm_comp_forall₂ hsorted hspans.flip
  refine ⟨edits', spans.mergeSort Span.precedes, hperm, hspans'.flip, ?_, ?_,
    applyEdits_eq_splice hresolve hfits hapart'⟩
  · exact Span.pairwise_of_apart (fun s hs => (hfits s hs).start_le_stop) hapart'
  · exact fun s hs => hfits s (hsorted.mem_iff.1 hs)

end Concord

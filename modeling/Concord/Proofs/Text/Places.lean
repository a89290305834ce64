import Concord.Proofs.Text.Lines

/-!
# Places and byte offsets in order

Every character moves the place where a text ends further on (`lt_advance`), so the longer of two
beginnings of a text ends at the later place. A place that has an offset is where a beginning ends,
or the column just after a line feed, which stands for the place after it (`EndsAt`,
`exists_endsAt_of_offsetAt?`). Hence the offsets of places are in the order of the places
(`offsetAt?_le`), and every offset of a place is one where the text can be cut
(`isBoundary_of_offsetAt?`).

The second half is about cutting: between boundaries, `takeBytes`, `dropBytes` and `slice` are the
pieces of a decomposition of the text.
-/

namespace Concord

theorem Position.le_iff {p q : Position} :
    p ≤ q ↔ p.line < q.line ∨ p.line = q.line ∧ p.column ≤ q.column := by
  change (compareLex (compareOn Position.line) (compareOn Position.column) p q).isLE = true ↔ _
  rw [compareLex, Ordering.isLE_then_iff_or]
  simp only [compareOn, Nat.compare_eq_lt, Nat.compare_eq_eq, Nat.isLE_compare]

/-- **The ends of a range that is built from two places are in order.** -/
theorem Range.start_le_stop_between (p q : Position) :
    (between p q).start ≤ (between p q).stop := by
  rw [between]
  split
  · next h =>
    rw [Position.lt_iff] at h
    rw [Position.le_iff]
    dsimp only
    omega
  · next h =>
    rw [Position.lt_iff] at h
    rw [Position.le_iff]
    dsimp only
    omega

theorem Range.touches_iff {r : Range} {p : Position} :
    r.touches p ↔ r.start ≤ p ∧ p ≤ r.stop := by
  rw [touches, Bool.and_eq_true, decide_eq_true_eq, decide_eq_true_eq]

namespace Text

/-! ### Where a beginning of a text ends -/

/-- The place where a text ends that begins at a place. -/
def endFrom (p : Position) (cs : List Char) : Position := cs.foldl advance p

@[simp] theorem endFrom_nil (p : Position) : endFrom p [] = p := rfl

@[simp] theorem endFrom_cons (p : Position) (c : Char) (cs : List Char) :
    endFrom p (c :: cs) = endFrom (advance p c) cs := rfl

@[simp] theorem endFrom_append (p : Position) (cs ds : List Char) :
    endFrom p (cs ++ ds) = endFrom (endFrom p cs) ds :=
  List.foldl_append

/-- **Every character moves on.** -/
theorem lt_advance (p : Position) (c : Char) : p < advance p c := by
  have hpos := charUnits16_pos c
  rw [advance]
  split
  · rw [Position.lt_iff]
    exact .inl (Nat.lt_succ_self _)
  · rw [Position.lt_iff]
    exact .inr ⟨rfl, Nat.lt_add_of_pos_right hpos⟩

theorem le_endFrom (p : Position) (cs : List Char) : p ≤ endFrom p cs := by
  induction cs generalizing p with
  | nil =>
    rw [endFrom_nil, Position.le_iff]
    exact .inr ⟨rfl, Nat.le_refl _⟩
  | cons c cs ih =>
    have hstep := lt_advance p c
    have hrest := ih (advance p c)
    rw [Position.lt_iff] at hstep
    rw [Position.le_iff] at hrest
    rw [endFrom_cons, Position.le_iff]
    omega

theorem endFrom_of_not_mem {cs : List Char} (h : '\n' ∉ cs) (p : Position) :
    endFrom p cs = ⟨p.line, p.column + units16 cs⟩ := by
  induction cs generalizing p with
  | nil => rfl
  | cons c cs ih =>
    rw [List.mem_cons, not_or] at h
    rw [endFrom_cons, advance, if_neg (Ne.symm h.1), ih h.2, units16_cons, Nat.add_assoc]

/-! ### Places that have an offset -/

/-- The places that stand for the end of a beginning of a text. -/
inductive EndsAt : List Char → Position → Prop
  /-- The place where it ends. -/
  | end_ (cs : List Char) : EndsAt cs (endFrom .zero cs)
  /-- The column just after a line feed, which is the beginning of the next line. -/
  | afterFeed (cs : List Char) :
    EndsAt (cs ++ ['\n']) ⟨(endFrom .zero cs).line, (endFrom .zero cs).column + 1⟩

theorem EndsAt.le {cs : List Char} {p : Position} (h : EndsAt cs p) : p ≤ endFrom .zero cs := by
  cases h with
  | end_ =>
    rw [Position.le_iff]
    exact .inr ⟨rfl, Nat.le_refl _⟩
  | afterFeed cs =>
    rw [endFrom_append, endFrom_cons, endFrom_nil, advance, if_pos rfl, Position.le_iff]
    exact .inl (Nat.lt_succ_self _)

/-- A place that stands for the end of a beginning comes after where shorter beginnings end. -/
theorem EndsAt.lt {cs ds : List Char} {c : Char} {p : Position} (h : EndsAt (cs ++ c :: ds) p) :
    endFrom .zero cs < p := by
  generalize hwhole : cs ++ c :: ds = whole at h
  cases h with
  | end_ =>
    have hstep := lt_advance (endFrom .zero cs) c
    have hrest := le_endFrom (advance (endFrom .zero cs) c) ds
    rw [Position.lt_iff] at hstep
    rw [Position.le_iff] at hrest
    rw [← hwhole, endFrom_append, endFrom_cons, Position.lt_iff]
    omega
  | afterFeed es =>
    -- the line feed is the last character, so the shorter beginning lies before it
    obtain ⟨fs, rfl⟩ : ∃ fs, es = cs ++ fs := by
      have hinit := congrArg List.dropLast hwhole
      rw [List.dropLast_concat, List.dropLast_append_of_ne_nil (by simp)] at hinit
      exact ⟨_, hinit.symm⟩
    have hrest := le_endFrom (endFrom .zero cs) fs
    rw [Position.le_iff] at hrest
    rw [endFrom_append, Position.lt_iff]
    dsimp only
    omega

/-- Walking over `n` line feeds leads to the beginning of a line. -/
theorem exists_of_lineFrom {offset n : Nat} {text rest : List Char} {o : Nat} (p : Position)
    (h : lineFrom offset n text = some (o, rest)) :
    ∃ before, text = before ++ rest ∧ o = offset + bytes before ∧
      (endFrom p before).line = p.line + n ∧ (n = 0 → before = []) ∧
      (0 < n → (endFrom p before).column = 0) := by
  induction text generalizing offset n p with
  | nil =>
    cases n with
    | zero =>
      obtain ⟨rfl, rfl⟩ : offset = o ∧ [] = rest := by simpa [lineFrom] using h
      exact ⟨[], rfl, rfl, rfl, fun _ => rfl, fun hn => absurd hn (Nat.lt_irrefl 0)⟩
    | succ n => simp [lineFrom] at h
  | cons c cs ih =>
    cases n with
    | zero =>
      obtain ⟨rfl, rfl⟩ : offset = o ∧ c :: cs = rest := by simpa [lineFrom] using h
      exact ⟨[], rfl, rfl, rfl, fun _ => rfl, fun hn => absurd hn (Nat.lt_irrefl 0)⟩
    | succ n =>
      rw [lineFrom] at h
      obtain ⟨before, rfl, rfl, hline, hnil, hcolumn⟩ := ih (advance p c) h
      refine ⟨c :: before, rfl, by rw [bytes_cons, Nat.add_assoc], ?_, by simp, fun _ => ?_⟩
      · rw [endFrom_cons, hline, advance]
        split
        · dsimp only
          omega
        · rfl
      · rw [endFrom_cons]
        by_cases hc : c = '\n'
        · rw [if_pos hc] at hnil hcolumn
          rcases Nat.eq_zero_or_pos n with rfl | hn
          · rw [hnil rfl, advance, if_pos hc]
            rfl
          · exact hcolumn hn
        · rw [if_neg hc] at hcolumn
          exact hcolumn (Nat.succ_pos n)

/-- Walking over some units of a line leads behind characters of the line, or just behind its line
feed. -/
theorem exists_of_columnFrom {offset column : Nat} {line : List Char} {o : Nat}
    (h : columnFrom offset column line = some o) :
    ∃ before after, line = before ++ after ∧ o = offset + bytes before ∧
      ('\n' ∉ before ∧ units16 before = column ∨
        ∃ cs, before = cs ++ ['\n'] ∧ '\n' ∉ cs ∧ units16 cs + 1 = column) := by
  induction line generalizing offset column with
  | nil =>
    cases column with
    | zero =>
      obtain rfl : offset = o := by simpa [columnFrom] using h
      exact ⟨[], [], rfl, rfl, .inl ⟨List.not_mem_nil, rfl⟩⟩
    | succ column => simp [columnFrom] at h
  | cons c cs ih =>
    cases column with
    | zero =>
      obtain rfl : offset = o := by simpa [columnFrom] using h
      exact ⟨[], c :: cs, rfl, rfl, .inl ⟨List.not_mem_nil, rfl⟩⟩
    | succ column =>
      rw [columnFrom] at h
      by_cases hc : c = '\n'
      · rw [if_pos hc, Option.ite_none_right_eq_some] at h
        obtain ⟨rfl, ho⟩ := h
        refine ⟨[c], cs, rfl, (Option.some.inj ho).symm, .inr ⟨[], ?_, List.not_mem_nil, rfl⟩⟩
        rw [hc, List.nil_append]
      · rw [if_neg hc, Option.ite_none_right_eq_some] at h
        obtain ⟨hfits, h⟩ := h
        obtain ⟨before, after, rfl, rfl, hcolumn⟩ := ih h
        refine ⟨c :: before, after, rfl, by rw [bytes_cons, Nat.add_assoc], ?_⟩
        rcases hcolumn with ⟨hfeed, hunits⟩ | ⟨ds, rfl, hfeed, hunits⟩
        · refine .inl ⟨by simp [Ne.symm hc, hfeed], ?_⟩
          rw [units16_cons, hunits]
          omega
        · refine .inr ⟨c :: ds, rfl, by simp [Ne.symm hc, hfeed], ?_⟩
          rw [units16_cons]
          omega

/-- **A place that has an offset** stands for the end of the beginning of that many bytes. -/
theorem exists_endsAt_of_offsetAt? {text : List Char} {p : Position} {n : Nat}
    (h : offsetAt? text p = some n) :
    ∃ before after, text = before ++ after ∧ bytes before = n ∧ EndsAt before p := by
  rw [offsetAt?] at h
  split at h
  · simp at h
  · next o line hline =>
    obtain ⟨above, rfl, rfl, hlast, hnil, hcolumn⟩ := exists_of_lineFrom .zero hline
    obtain ⟨before, after, rfl, rfl, hbefore⟩ := exists_of_columnFrom h
    have hcolumn' : (endFrom .zero above).column = 0 := by
      rcases Nat.eq_zero_or_pos p.line with hzero | hpos
      · rw [hnil hzero]
        rfl
      · exact hcolumn hpos
    have hstart : endFrom .zero above = ⟨p.line, 0⟩ :=
      congrArg₂ Position.mk (hlast.trans (Nat.zero_add _)) hcolumn'
    refine ⟨above ++ before, after, by rw [List.append_assoc], by simp, ?_⟩
    rcases hbefore with ⟨hfeed, hunits⟩ | ⟨cs, rfl, hfeed, hunits⟩
    · have hend : endFrom .zero (above ++ before) = p := by
        rw [endFrom_append, hstart, endFrom_of_not_mem hfeed, hunits, Nat.zero_add]
      exact hend ▸ .end_ _
    · have hend : endFrom .zero (above ++ cs) = ⟨p.line, units16 cs⟩ := by
        rw [endFrom_append, hstart, endFrom_of_not_mem hfeed, Nat.zero_add]
      have hp : p =
          ⟨(endFrom .zero (above ++ cs)).line, (endFrom .zero (above ++ cs)).column + 1⟩ := by
        rw [hend, hunits]
      rw [hp, ← List.append_assoc]
      exact .afterFeed _

/-- **The offsets of places are in the order of the places.** -/
theorem offsetAt?_le {text : List Char} {p q : Position} {m n : Nat}
    (hp : offsetAt? text p = some m) (hq : offsetAt? text q = some n) (hpq : p ≤ q) : m ≤ n := by
  obtain ⟨before, after, rfl, rfl, hendsp⟩ := exists_endsAt_of_offsetAt? hp
  obtain ⟨before', after', htext, rfl, hendsq⟩ := exists_endsAt_of_offsetAt? hq
  rcases List.append_eq_append_iff.1 htext with ⟨ds, rfl, -⟩ | ⟨ds, rfl, -⟩
  · rw [bytes_append]
    exact Nat.le_add_right _ _
  · cases ds with
    | nil => exact Nat.le_of_eq (congrArg bytes (List.append_nil _))
    | cons c ds =>
      -- the longer beginning would end at the earlier place
      have hle := hendsq.le
      have hlt := hendsp.lt
      rw [Position.le_iff] at hle hpq
      rw [Position.lt_iff] at hlt
      omega

/-! ### Cutting at boundaries -/

/-- Whether a byte offset lies between two characters of a text, or at one of its ends. -/
def IsBoundary (text : List Char) (n : Nat) : Prop :=
  ∃ before after, text = before ++ after ∧ bytes before = n

theorem isBoundary_of_offsetAt? {text : List Char} {p : Position} {n : Nat}
    (h : offsetAt? text p = some n) : IsBoundary text n := by
  obtain ⟨before, after, htext, hbytes, -⟩ := exists_endsAt_of_offsetAt? h
  exact ⟨before, after, htext, hbytes⟩

theorem isBoundary_zero (text : List Char) : IsBoundary text 0 := ⟨[], text, rfl, rfl⟩

theorem bytes_pos {cs : List Char} (h : cs ≠ []) : 0 < bytes cs := by
  obtain ⟨c, ds, rfl⟩ := List.exists_cons_of_ne_nil h
  rw [bytes_cons]
  exact Nat.lt_of_lt_of_le c.utf8Size_pos (Nat.le_add_right _ _)

/-- Of two beginnings of a text, the one with more bytes goes on with the other. -/
theorem exists_append_of_bytes_le {cs ds cs' ds' : List Char} (h : cs ++ ds = cs' ++ ds')
    (hle : bytes cs ≤ bytes cs') : ∃ piece, cs' = cs ++ piece ∧ ds = piece ++ ds' := by
  rcases List.append_eq_append_iff.1 h with ⟨piece, rfl, rfl⟩ | ⟨piece, rfl, rfl⟩
  · exact ⟨piece, rfl, rfl⟩
  · have hnil : piece = [] := by
      by_contra hne
      have hpos := bytes_pos hne
      rw [bytes_append] at hle
      omega
    subst hnil
    exact ⟨[], by simp, rfl⟩

/-- **Two boundaries cut a text into three pieces.** -/
theorem exists_pieces {text : List Char} {m n : Nat} (hm : IsBoundary text m)
    (hn : IsBoundary text n) (hmn : m ≤ n) :
    ∃ before piece after, text = before ++ (piece ++ after) ∧ bytes before = m ∧
      bytes (before ++ piece) = n := by
  obtain ⟨before, after, rfl, rfl⟩ := hm
  obtain ⟨before', after', htext, rfl⟩ := hn
  obtain ⟨piece, rfl, rfl⟩ := exists_append_of_bytes_le htext hmn
  exact ⟨before, piece, after', rfl, rfl, rfl⟩

theorem dropBytes_takeBytes_append {text : List Char} {n : Nat} (h : IsBoundary text n)
    (rest : List Char) : dropBytes n (takeBytes n text ++ rest) = rest := by
  obtain ⟨before, after, rfl, rfl⟩ := h
  rw [takeBytes_bytes_append, dropBytes_bytes_append]

section Pieces

variable {text : List Char} {m n : Nat} (hm : IsBoundary text m) (hn : IsBoundary text n)
  (hmn : m ≤ n)

include hm hn hmn

theorem takeBytes_takeBytes_append (rest : List Char) :
    takeBytes m (takeBytes n text ++ rest) = takeBytes m text := by
  obtain ⟨before, piece, after, rfl, rfl, rfl⟩ := exists_pieces hm hn hmn
  rw [← List.append_assoc before, takeBytes_bytes_append, List.append_assoc, List.append_assoc,
    takeBytes_bytes_append, takeBytes_bytes_append]

theorem takeBytes_append_slice : takeBytes m text ++ slice m n text = takeBytes n text := by
  obtain ⟨before, piece, after, rfl, rfl, rfl⟩ := exists_pieces hm hn hmn
  rw [takeBytes_bytes_append, bytes_append, slice_bytes_append, ← bytes_append,
    ← List.append_assoc, takeBytes_bytes_append]

theorem slice_append_dropBytes : slice m n text ++ dropBytes n text = dropBytes m text := by
  obtain ⟨before, piece, after, rfl, rfl, rfl⟩ := exists_pieces hm hn hmn
  rw [dropBytes_bytes_append, bytes_append, slice_bytes_append, ← bytes_append,
    ← List.append_assoc, dropBytes_bytes_append]

theorem dropBytes_takeBytes : dropBytes m (takeBytes n text) = slice m n text := by
  obtain ⟨before, piece, after, rfl, rfl, rfl⟩ := exists_pieces hm hn hmn
  rw [bytes_append, slice_bytes_append, ← bytes_append, ← List.append_assoc,
    takeBytes_bytes_append, dropBytes_bytes_append]

theorem slice_append_slice {l : Nat} (hl : IsBoundary text l) (hlm : l ≤ m) :
    slice l m text ++ slice m n text = slice l n text := by
  have hwhole := takeBytes_append_slice hl hn (Nat.le_trans hlm hmn)
  rw [← takeBytes_append_slice hm hn hmn, ← takeBytes_append_slice hl hm hlm,
    List.append_assoc] at hwhole
  exact (List.append_cancel_left hwhole).symm

theorem isBoundary_takeBytes : IsBoundary (takeBytes n text) m := by
  obtain ⟨before, piece, after, rfl, rfl, rfl⟩ := exists_pieces hm hn hmn
  rw [← List.append_assoc, takeBytes_bytes_append]
  exact ⟨before, piece, rfl, rfl⟩

theorem slice_takeBytes {l : Nat} (hl : IsBoundary text l) (hlm : l ≤ m) :
    slice l m (takeBytes n text) = slice l m text := by
  have hln := Nat.le_trans hlm hmn
  have hcut := takeBytes_append_slice (isBoundary_takeBytes hl hn hln)
    (isBoundary_takeBytes hm hn hmn) hlm
  have hshort : ∀ {k : Nat}, IsBoundary text k → k ≤ n →
      takeBytes k (takeBytes n text) = takeBytes k text := by
    intro k hk hkn
    have htake := takeBytes_takeBytes_append hk hn hkn []
    rwa [List.append_nil] at htake
  rw [hshort hl hln, hshort hm hmn, ← takeBytes_append_slice hl hm hlm] at hcut
  exact List.append_cancel_left hcut

end Pieces

end Text

end Concord

import Concord.Proofs.Catalog.Drafts

/-!
# What a catalog reports

Everything a catalog reports comes from one event of its text. A finding is reported as it is; a
closed entry has a fault when its value is missing or blank (`OpenEntry.fault?`); and an entry that
is stored is reported when its key is there already (`Reader.repeat?`). Only the last depends on
what was read before, so that, repeats apart, what is reported are the faults of the events in order
(`filter_diagnostics_parse`). They are also what makes a reading a failure
(`success_parse_eq_false_iff`).
-/

namespace Concord.Catalog

/-! ### Faults and repeats -/

/-- What is wrong with a closed entry: its value is missing or blank. -/
def OpenEntry.fault? (e : OpenEntry) : Option Diagnostic :=
  match e.key, e.value with
  | [], _ => none
  | c :: cs, none =>
    some ⟨e.keyRange, s!"missing msgstr for msgid '{String.ofList (c :: cs)}'", .error,
      .missingValue⟩
  | c :: cs, some (text, range) =>
    if Text.trim text = [] then
      some ⟨range, s!"empty msgstr for msgid '{String.ofList (c :: cs)}'", .warning, .emptyValue⟩
    else none

/-- What an event says is wrong. -/
def Event.fault? : Event → Option Diagnostic
  | closed e => e.fault?
  | finding d => some d

/-- What some events say is wrong. -/
def faults (es : List Event) : List Diagnostic := es.filterMap Event.fault?

@[simp] theorem faults_nil : faults [] = [] := rfl

@[simp] theorem faults_append (es es' : List Event) :
    faults (es ++ es') = faults es ++ faults es' :=
  List.filterMap_append

/-- The warning about an entry that is stored under a key which is there already. -/
def Reader.repeat? (r : Reader) (e : OpenEntry) : Option Diagnostic :=
  match e.draft.stored? with
  | some (key, _) =>
    if r.entries.contains key then
      some ⟨e.keyRange, s!"duplicate msgid '{key}'", .warning, .duplicateKey⟩
    else none
  | none => none

/-- Whether a finding is more than a repeat. -/
def isFault (d : Diagnostic) : Bool := d.rule ≠ .duplicateKey

/-- **The fault of an entry** is a missing value, reported at its key, or a blank value, reported
where it stands. -/
theorem fault?_cases {e : OpenEntry} {d : Diagnostic} (h : e.fault? = some d) :
    d.rule = .missingValue ∧ d.range = e.keyRange ∨
      d.rule = .emptyValue ∧ ∃ v, e.value = some v ∧ d.range = v.2 := by
  rcases e with ⟨_ | ⟨k, ks⟩, range, _ | ⟨text, textRange⟩⟩
  · simp [OpenEntry.fault?] at h
  · simp [OpenEntry.fault?] at h
  · obtain rfl := Option.some.inj h
    exact .inl ⟨rfl, rfl⟩
  · simp only [OpenEntry.fault?, Option.ite_none_right_eq_some, Option.some.injEq] at h
    obtain ⟨-, rfl⟩ := h
    exact .inr ⟨rfl, _, rfl, rfl⟩

/-- A repeat is reported at the key of the entry that is stored later. -/
theorem of_repeat? {r : Reader} {e : OpenEntry} {d : Diagnostic} (h : r.repeat? e = some d) :
    d.rule = .duplicateKey ∧ d.range = e.keyRange := by
  rw [Reader.repeat?] at h
  split at h
  · rw [Option.ite_none_right_eq_some, Option.some.injEq] at h
    obtain ⟨-, rfl⟩ := h
    exact ⟨rfl, rfl⟩
  · simp at h

/-- An event is sound when nothing is wrong. -/
theorem Event.isSound_eq (ev : Event) : ev.isSound = ev.fault?.isNone := by
  cases ev with
  | finding d => rfl
  | closed e =>
    rcases e with ⟨_ | ⟨k, ks⟩, range, _ | ⟨text, textRange⟩⟩
    · rfl
    · rfl
    · rfl
    · by_cases htrim : Text.trim text = [] <;>
        simp [isSound, draft?, OpenEntry.draft, Draft.isSound, Draft.stored?, fault?,
          OpenEntry.fault?, htrim]

/-! ### What closed entries report -/

namespace Reader

variable (r : Reader) (file : String)

/-- **A closed entry reports its fault**, if it has one, or else that it is a repeat, if it is. -/
theorem diagnostics_finish (e : OpenEntry) :
    (r.finish file e).diagnostics = r.diagnostics ++ (e.fault?.toList ++ (r.repeat? e).toList) := by
  rcases e with ⟨_ | ⟨k, ks⟩, range, _ | ⟨text, textRange⟩⟩
  · simp only [finish]
    split <;> simp [OpenEntry.fault?, repeat?, OpenEntry.draft, Draft.stored?]
  · simp only [finish]
    split <;> simp [OpenEntry.fault?, repeat?, OpenEntry.draft, Draft.stored?]
  · simp [finish, fail, report, OpenEntry.fault?, repeat?, OpenEntry.draft, Draft.stored?]
  · by_cases htrim : Text.trim text = []
    · simp [finish, fail, report, OpenEntry.fault?, repeat?, OpenEntry.draft, Draft.stored?, htrim]
    · simp only [finish, OpenEntry.fault?, repeat?, OpenEntry.draft, Draft.stored?, Option.map_some,
        if_neg htrim, store]
      generalize String.ofList (k :: ks) = key
      cases hc : r.entries.contains key <;> simp [report]

/-- What is reported is what an event says is wrong, or that the key of an entry is a repeat. -/
theorem mem_diagnostics_absorbAll {r : Reader} {file : String} {es : List Event} {d : Diagnostic}
    (h : d ∈ (r.absorbAll file es).diagnostics) :
    d ∈ r.diagnostics ∨ d ∈ faults es ∨ ∃ e, .closed e ∈ es ∧ d.range = e.keyRange := by
  induction es generalizing r with
  | nil => exact .inl h
  | cons ev es ih =>
    rcases ih h with h | h | ⟨e, he, hrange⟩
    · cases ev with
      | finding d' =>
        rcases List.mem_append.1 h with h | h
        · exact .inl h
        · exact .inr (.inl (List.mem_singleton.1 h ▸ List.mem_cons_self))
      | closed e =>
        rw [absorb, diagnostics_finish, List.mem_append, List.mem_append, Option.mem_toList,
          Option.mem_toList] at h
        rcases h with h | h | h
        · exact .inl h
        · exact .inr (.inl (List.mem_filterMap.2 ⟨.closed e, List.mem_cons_self, h⟩))
        · exact .inr (.inr ⟨e, List.mem_cons_self, (of_repeat? h).2⟩)
    · rw [← List.singleton_append, faults_append]
      exact .inr (.inl (List.mem_append_right _ h))
    · exact .inr (.inr ⟨e, List.mem_cons_of_mem _ he, hrange⟩)

/-- Repeats apart, events report what is wrong. -/
theorem filter_diagnostics_absorbAll (es : List Event) :
    (r.absorbAll file es).diagnostics.filter isFault =
      r.diagnostics.filter isFault ++ (faults es).filter isFault := by
  induction es generalizing r with
  | nil => simp
  | cons ev es ih =>
    rw [absorbAll_cons, ih, ← List.singleton_append, faults_append, List.filter_append,
      ← List.append_assoc]
    congr 1
    cases ev with
    | finding d => simp [absorb, report, faults, Event.fault?]
    | closed e =>
      -- what is reported beyond the fault of the entry is a repeat and does not count
      have hrepeat : (r.repeat? e).toList.filter isFault = [] := by
        rw [List.filter_eq_nil_iff]
        intro d hd
        simp [isFault, (of_repeat? (Option.mem_toList.1 hd)).1]
      rw [absorb, diagnostics_finish, List.filter_append, List.filter_append, hrepeat,
        List.append_nil]
      cases h : e.fault? <;> simp [faults, Event.fault?, h]

end Reader

/-! ### What is found in lines -/

/-- Whether a rule is about a line, and not about an entry. -/
def isLineRule : Rule → Bool
  | .invalidToken | .unexpectedContinuation | .unrecognizedLine => true
  | _ => false

/-- Whether a finding is about a line: its rule is, and it stands at the beginning of the line, at
its quotes, or at the word that is followed by no quoted string. -/
def IsAbout (line : Nat) (raw : List Char) (d : Diagnostic) : Prop :=
  isLineRule d.rule ∧ (d.range = ⟨⟨line, 0⟩, ⟨line, 0⟩⟩ ∨ d.range = quoteRange line raw ∨
    ∃ token, Line.ofRaw raw = .malformed token ∧ d.range = tokenRange line raw token)

namespace Cursor

/-- **A line closes the open entry, or brings about nothing, or one finding about itself.** -/
theorem events_read_cases (c : Cursor) (line : Nat) (raw : List Char) :
    (c.read line raw).1 = c.closing ∨ (c.read line raw).1 = [] ∨
      ∃ d, (c.read line raw).1 = [.finding d] ∧ IsAbout line raw d := by
  rw [read]
  cases hraw : Line.ofRaw raw with
  | blank => exact .inl rfl
  | comment => exact .inr (.inl rfl)
  | malformed token => exact .inr (.inr ⟨_, rfl, rfl, .inr (.inr ⟨token, hraw, rfl⟩)⟩)
  | unrecognized content => exact .inr (.inr ⟨_, rfl, rfl, .inl rfl⟩)
  | keyword k text =>
    cases k with
    | id => exact .inl rfl
    | context => exact .inl rfl
    | plural => exact .inr (.inl rfl)
    | value main =>
      obtain ⟨focus, _ | e⟩ := c
      · exact .inr (.inr ⟨_, rfl, rfl, .inr (.inl rfl)⟩)
      · cases main <;> exact .inr (.inl rfl)
  | continuation quoted text =>
    obtain ⟨focus, _ | e⟩ := c <;> cases focus <;>
      first
      | exact .inr (.inl rfl)
      | exact .inr (.inr ⟨_, rfl, rfl, .inr (.inl rfl)⟩)

theorem finding_not_mem_closing (c : Cursor) (d : Diagnostic) : .finding d ∉ c.closing := by
  obtain ⟨focus, _ | e⟩ := c <;> simp [closing]

/-- **What is found is about one of the lines.** -/
theorem exists_line_of_finding {c : Cursor} {line : Nat} {lines : List (List Char)} {d : Diagnostic}
    (h : .finding d ∈ c.eventsFrom line lines) :
    ∃ before raw after, lines = before ++ raw :: after ∧ IsAbout (line + before.length) raw d := by
  induction lines generalizing c line with
  | nil => exact absurd h (finding_not_mem_closing c d)
  | cons raw lines ih =>
    rw [eventsFrom_cons, List.mem_append] at h
    rcases h with h | h
    · rcases c.events_read_cases line raw with hread | hread | ⟨d', hread, habout⟩ <;>
        rw [hread] at h
      · exact absurd h (finding_not_mem_closing c d)
      · exact absurd h List.not_mem_nil
      · obtain rfl := Event.finding.inj (List.mem_singleton.1 h)
        exact ⟨[], raw, lines, rfl, habout⟩
    · obtain ⟨before, raw', after, rfl, habout⟩ := ih h
      refine ⟨raw :: before, raw', after, rfl, ?_⟩
      rw [List.length_cons, ← Nat.add_assoc, Nat.add_right_comm]
      exact habout

end Cursor

/-! ### What a catalog reports -/

/-- What is found while a text is read is about a line and not about an entry. -/
theorem isLineRule_of_finding {text : String} {d : Diagnostic} (h : .finding d ∈ events text) :
    isLineRule d.rule := by
  obtain ⟨-, -, -, -, hrule, -⟩ := Cursor.exists_line_of_finding h
  exact hrule

theorem isFault_of_mem_faults {text : String} {d : Diagnostic} (h : d ∈ faults (events text)) :
    isFault d := by
  obtain ⟨ev, hev, hfault⟩ := List.mem_filterMap.1 h
  cases ev with
  | closed e =>
    obtain ⟨hrule, -⟩ | ⟨hrule, -⟩ := fault?_cases hfault <;> simp [isFault, hrule]
  | finding d' =>
    obtain rfl := Option.some.inj hfault
    have hrule := isLineRule_of_finding hev
    rw [isFault, decide_eq_true_eq]
    intro hrepeat
    rw [hrepeat] at hrule
    exact absurd hrule Bool.false_ne_true

/-- **Repeats apart, a catalog reports what is wrong with the events of its text**, in order. -/
theorem filter_diagnostics_parse (file text : String) :
    (parse file text).diagnostics.filter isFault = faults (events text) := by
  rw [parse_eq_absorb, Reader.result, Reader.filter_diagnostics_absorbAll,
    List.filter_eq_self.2 fun d => isFault_of_mem_faults]
  rfl

theorem faults_eq_nil_iff {es : List Event} : faults es = [] ↔ es.all Event.isSound := by
  simp only [faults, List.filterMap_eq_nil_iff, List.all_eq_true, Event.isSound_eq,
    Option.isNone_iff_eq_none]

/-- **A reading is a failure when more than repeats is reported.** -/
theorem success_parse_eq_false_iff {file text : String} :
    (parse file text).success = false ↔ ∃ d ∈ (parse file text).diagnostics, isFault d := by
  rw [success_parse, ← Bool.not_eq_true, ← faults_eq_nil_iff, ← filter_diagnostics_parse file,
    List.filter_eq_nil_iff]
  simp only [not_forall, not_not, exists_prop]

end Concord.Catalog

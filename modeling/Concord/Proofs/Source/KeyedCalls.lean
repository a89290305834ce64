import Concord.Proofs.Source.Languages
import Mathlib.Data.List.TakeWhile

/-!
# Calls with a key

When a call counts, said of the call in the vocabulary of its language and not of how it is looked
at. A call counts (`Accepted`) if its callee ends in a plain name that is asked for, nothing in the
chain of what it is made on is an access in brackets, and its first argument is a literal of a kind
that may be a key, without a substitution, that is taken apart into a key.

What the search looks at is something else (`Admitted`, with `keyedCall?_eq_some_iff`): its tables
are those of all languages together, it takes the first part of a parenthesized value for what is in
the parentheses, although a comment may stand there, and it looks for substitutions only in
templates and in Python. In a tree of a language, what it admits counts if nothing is substituted in
the literal and no brackets are reached (`Admitted.accepted`), and what counts is admitted if the
callee does not access what may be missing (`Accepted.admitted`).
-/

namespace Concord.Source

/-- A call, the literal that is its first argument, and what that is taken apart into. -/
structure KeyedCall where
  call : Tree
  literal : Tree
  parsed : Literal.Parsed

namespace KeyedCall

/-- The call site that the call is. -/
def site (file : String) (source : List Char) (k : KeyedCall) : CallSite :=
  siteAt file source k.call k.literal k.parsed

end KeyedCall

/-! ### From part to part -/

namespace Tree

section Walks

variable {next : Tree → Option Tree} {P : Tree → Prop} {tree t u : Tree}

/-- Whether going on from a node to one of its parts, and from there, leads to another node. -/
def LeadsTo (next : Tree → Option Tree) : Tree → Tree → Prop :=
  Relation.ReflTransGen fun a b => next a = some b

/-- Whether going on from a node leads to one with a property, after a step at least. -/
def Reaches (next : Tree → Option Tree) (P : Tree → Prop) (t : Tree) : Prop :=
  ∃ u, Relation.TransGen (fun a b => next a = some b) t u ∧ P u

theorem leadsTo_iff : t.LeadsTo next u ↔ u = t ∨ ∃ r, next t = some r ∧ r.LeadsTo next u := by
  rw [LeadsTo, Relation.ReflTransGen.cases_head_iff, eq_comm]

theorem reaches_iff : t.Reaches next P ↔ ∃ r, next t = some r ∧ (P r ∨ r.Reaches next P) := by
  constructor
  · rintro ⟨u, hreach, hu⟩
    obtain ⟨r, hr, hreach⟩ := Relation.TransGen.head'_iff.1 hreach
    refine ⟨r, hr, ?_⟩
    rcases Relation.reflTransGen_iff_eq_or_transGen.1 hreach with rfl | hreach
    · exact .inl hu
    · exact .inr ⟨u, hreach, hu⟩
  · rintro ⟨r, hr, hP | ⟨u, hreach, hu⟩⟩
    · exact ⟨r, .single hr, hP⟩
    · exact ⟨u, .head hr hreach, hu⟩

/-- Where there is no way on, nothing else is led to. -/
theorem LeadsTo.eq_of_next_eq_none (h : t.LeadsTo next u) (hnext : next t = none) : u = t := by
  rcases leadsTo_iff.1 h with rfl | ⟨r, hr, -⟩
  · rfl
  · rw [hnext] at hr
    cases hr

/-- The nodes that going on from a node leads to, itself first. -/
def walk (next : Tree → Option Tree) (hnext : ∀ a b, next a = some b → sizeOf b < sizeOf a)
    (t : Tree) : List Tree :=
  match h : next t with
  | none => [t]
  | some u =>
    have := hnext t u h
    t :: walk next hnext u
termination_by sizeOf t

theorem mem_walk_iff (hnext : ∀ a b, next a = some b → sizeOf b < sizeOf a) (t : Tree) :
    u ∈ t.walk next hnext ↔ t.LeadsTo next u := by
  rw [walk, leadsTo_iff]
  split
  · next hnone => simp [hnone]
  · next r hr =>
    have := hnext t r hr
    rw [List.mem_cons, mem_walk_iff hnext r]
    simp [hr]
termination_by sizeOf t

theorem reaches_iff_exists_mem_tail (hnext : ∀ a b, next a = some b → sizeOf b < sizeOf a) :
    t.Reaches next P ↔ ∃ u ∈ (t.walk next hnext).tail, P u := by
  rw [Reaches, walk]
  split
  · next hnone =>
    refine iff_of_false ?_ (by simp)
    rintro ⟨u, hreach, -⟩
    obtain ⟨r, hr, -⟩ := Relation.TransGen.head'_iff.1 hreach
    rw [hnone] at hr
    cases hr
  · next r hr =>
    refine exists_congr fun u => and_congr_left fun _ => ?_
    rw [List.tail_cons, mem_walk_iff, Relation.TransGen.head'_iff]
    simp [hr, LeadsTo]

/-- What a node leads to is a node of the same tree. -/
theorem LeadsTo.mem_subtrees (hnext : ∀ a b, next a = some b → b ∈ a.children)
    (ht : t ∈ tree.subtrees) (h : t.LeadsTo next u) : u ∈ tree.subtrees := by
  induction h with
  | refl => exact ht
  | tail _ hstep ih => exact mem_subtrees_trans ih (mem_subtrees_of_mem_children (hnext _ _ hstep))

end Walks

end Tree

/-! ### Callees -/

theorem segment?_eq_none {t : Tree} (h : t.kind ∈ plainNames ++ subscriptKinds) :
    t.segment? = none := by
  have htable : ∀ k ∈ plainNames ++ subscriptKinds,
      memberFields.lookup k = none ∧ k ≠ genericName := by decide +kernel
  obtain ⟨hlookup, hgeneric⟩ := htable t.kind h
  rw [Tree.segment?, hlookup]
  exact if_neg hgeneric

/-- **The name of a callee** is that of the plain name that the callee leads to. -/
theorem name?_classify_eq_some_iff {source name : List Char} (t : Tree) :
    (classify source t).name? = some name ↔
      ∃ s, t.LeadsTo Tree.segment? s ∧ s.kind ∈ plainNames ∧ s.text source = name := by
  rw [classify]
  by_cases hname : t.kind ∈ plainNames
  · have hnone := segment?_eq_none (List.mem_append_left subscriptKinds hname)
    rw [if_pos (List.contains_iff_mem.2 hname), Callee.name?, Option.some_inj]
    constructor
    · rintro rfl
      exact ⟨t, .refl, hname, rfl⟩
    · rintro ⟨s, hs, -, rfl⟩
      rw [hs.eq_of_next_eq_none hnone]
  · rw [if_neg (by simpa using hname)]
    by_cases hsubscript : t.kind ∈ subscriptKinds
    · have hnone := segment?_eq_none (List.mem_append_right plainNames hsubscript)
      rw [if_pos (List.contains_iff_mem.2 hsubscript)]
      refine iff_of_false (Option.some_ne_none name).symm ?_
      rintro ⟨s, hs, hplain, -⟩
      exact hname (hs.eq_of_next_eq_none hnone ▸ hplain)
    · rw [if_neg (by simpa using hsubscript)]
      split
      · next hnone =>
        refine iff_of_false (Option.some_ne_none name).symm ?_
        rintro ⟨s, hs, hplain, -⟩
        exact hname (hs.eq_of_next_eq_none hnone ▸ hplain)
      · next u hu =>
        have := Tree.sizeOf_lt_of_mem_children (Tree.mem_children_of_segment? hu)
        rw [name?_classify_eq_some_iff u]
        refine exists_congr fun s => and_congr_left fun hs => ?_
        -- the callee itself is not the name, so the way to it begins with this part
        have hne : s ≠ t := by
          rintro rfl
          exact hname hs.1
        rw [Tree.leadsTo_iff (t := t), or_iff_right hne]
        simp [hu]
termination_by sizeOf t

section Names

variable {language : CodeLanguage} {tree t u : Tree}

/-- Where the tables lead to a name, the language does. -/
theorem Tree.WrittenIn.leadsTo_member (h : tree.WrittenIn language) (ht : t ∈ tree.subtrees)
    (hcallee : (vocabulary language).call.receiver = none) (hu : t.LeadsTo segment? u) :
    t.LeadsTo (member? (vocabulary language)) u := by
  induction hu with
  | refl => exact .refl
  | tail hreach hstep ih =>
    have hmem := LeadsTo.mem_subtrees (fun _ _ => mem_children_of_segment?) ht hreach
    exact ih.tail (h.member?_eq_of_segment? hmem hcallee hstep)

/-- Where the language leads to a name without an access to what may be missing, the tables do. -/
theorem Tree.leadsTo_segment
    (hplain : ∀ s, t.LeadsTo (member? (vocabulary language)) s →
      ¬s.IsConditional (vocabulary language))
    (hu : t.LeadsTo (member? (vocabulary language)) u) : t.LeadsTo segment? u := by
  induction hu with
  | refl => exact .refl
  | tail hreach hstep ih => exact ih.tail (segment?_eq_of_member? (hplain _ hreach) hstep)

/-- Where the tables lead to a name, there is no access to what may be missing on the way. -/
theorem Tree.WrittenIn.not_isConditional {name t : Tree} (h : tree.WrittenIn language)
    (ht : t ∈ tree.subtrees) (hname : t.LeadsTo segment? name) (hkind : name.kind ∈ plainNames)
    (hu : t.LeadsTo (member? (vocabulary language)) u) :
    ¬u.IsConditional (vocabulary language) := by
  rcases leadsTo_iff.1 hname with rfl | ⟨r, hr, hname⟩
  · have hkind' := (h.mem_names_iff ht).1 hkind
    rw [hu.eq_of_next_eq_none (member?_eq_none hkind')]
    exact ((distinct language).names _ hkind').2.2
  · rcases leadsTo_iff.1 hu with rfl | ⟨r', hr', hu⟩
    · intro hconditional
      rw [segment?_eq_none_of_isConditional hconditional] at hr
      cases hr
    · have hcallee : (vocabulary language).call.receiver = none := by
        rw [member?, Option.ite_none_left_eq_some] at hr'
        simpa using hr'.1
      have hchild := mem_children_of_segment? hr
      have := sizeOf_lt_of_mem_children hchild
      obtain rfl := Option.some_inj.1 ((h.member?_eq_of_segment? ht hcallee hr).symm.trans hr')
      exact h.not_isConditional (mem_subtrees_trans ht (mem_subtrees_of_mem_children hchild)) hname
        hkind hu
termination_by sizeOf t

end Names

/-- **What the search takes for a call of a language**: where a call has what it is made on for a
part, what is called must be a name. -/
theorem callee?_eq_some_iff {language : CodeLanguage} {t callee : Tree} :
    (callPattern language).callee? t = some callee ↔
      t.kind = (vocabulary language).call.kind ∧
      t.child? (vocabulary language).call.callee = some callee ∧
      ((vocabulary language).call.receiver.isSome → callee.kind ∈ (vocabulary language).names) := by
  rw [CallPattern.callee?, Option.ite_none_right_eq_some, Option.filter_eq_some_iff]
  cases language <;>
    simp [callPattern, vocabulary, Vocabulary.script, Vocabulary.python, Vocabulary.cSharp,
      Vocabulary.java, Vocabulary.names]

/-! ### Receivers -/

theorem throughSubscript_iff (t : Tree) :
    throughSubscript t = true ↔ t.Reaches Tree.receiver? fun u => u.kind ∈ subscriptKinds := by
  rw [throughSubscript, Tree.reaches_iff]
  split
  · next hr => simp [hr]
  · next r hr =>
    have := Tree.sizeOf_lt_of_mem_children (Tree.mem_children_of_receiver? hr)
    simp [hr, throughSubscript_iff r]
termination_by sizeOf t

/-- **Brackets that are seen are reached**: a comment has no receiver, so it only ends a chain. -/
theorem Tree.WrittenIn.reaches {language : CodeLanguage} {tree t : Tree}
    (h : tree.WrittenIn language) (ht : t ∈ tree.subtrees)
    (hseen : t.Reaches Tree.receiver? fun u => u.kind ∈ subscriptKinds) :
    t.Reaches (Tree.base? (vocabulary language)) (Tree.IsSubscript (vocabulary language)) := by
  obtain ⟨r, hr, hseen⟩ := reaches_iff.1 hseen
  have := sizeOf_lt_of_mem_children (mem_children_of_receiver? hr)
  have hr' := mem_subtrees_trans ht (mem_subtrees_of_mem_children (mem_children_of_receiver? hr))
  have hcomment : r.kind ∉ (vocabulary language).skipped := by
    intro hskipped
    obtain ⟨hsubscript, hwrapper, hlookup⟩ := (distinct language).skipped r.kind hskipped
    rcases hseen with hkind | hseen
    · exact hsubscript hkind
    · obtain ⟨u, hu, -⟩ := reaches_iff.1 hseen
      rw [receiver?, hlookup] at hu
      exact hwrapper (List.contains_iff_mem.1 (Option.ite_none_right_eq_some.1 hu).1)
  refine reaches_iff.2 ⟨r, h.base?_eq_of_receiver? ht hr hcomment, ?_⟩
  exact hseen.imp (h.isSubscript hr') (h.reaches hr')
termination_by sizeOf t

/-! ### Literals -/

/-- The first argument of a call: the first part of its arguments, or the value in it. -/
def Tree.FirstArgument (v : Vocabulary) (call key : Tree) : Prop :=
  ∃ arguments first, call.child? v.call.field = some arguments ∧
    arguments.kind = v.call.arguments ∧ arguments.children.head? = some first ∧
    match v.call.argument with
    | none => first = key
    | some kind => first.kind = kind ∧ first.children.head? = some key

theorem key?_eq_some_iff {language : CodeLanguage} {call key : Tree} :
    (callPattern language).key? call = some key ↔
      call.FirstArgument (vocabulary language) key := by
  simp only [CallPattern.key?, CallPattern.arguments?, Option.bind_eq_some_iff,
    Option.filter_eq_some_iff, decide_eq_true_eq, Tree.FirstArgument]
  have hvalue : ∀ first, (callPattern language).value? first = some key ↔
      match (vocabulary language).call.argument with
      | none => first = key
      | some kind => first.kind = kind ∧ first.children.head? = some key := by
    intro first
    cases language <;>
      simp [CallPattern.value?, callPattern, vocabulary, Vocabulary.script, Vocabulary.python,
        Vocabulary.cSharp, Vocabulary.java]
  have hfield : (vocabulary language).call.field = "arguments" := by cases language <;> rfl
  have hkind : (callPattern language).arguments = (vocabulary language).call.arguments := by
    cases language <;> rfl
  rw [hfield, ← hkind]
  constructor
  · rintro ⟨first, ⟨arguments, ⟨harguments, hkind⟩, hfirst⟩, hkey⟩
    exact ⟨arguments, first, harguments, hkind, hfirst, (hvalue first).1 hkey⟩
  · rintro ⟨arguments, first, harguments, hkind, hfirst, hkey⟩
    exact ⟨first, ⟨arguments, ⟨harguments, hkind⟩, hfirst⟩, (hvalue first).2 hkey⟩

/-- The kinds of literals that may be keys in a language, and how their delimiters are found. -/
def keyDelimiters? : CodeLanguage → LiteralKind → Option Literal.DelimiterRules
  | .javaScript, .string | .javaScript, .template | .typeScript, .string | .typeScript, .template =>
    some .single
  | .python, .string => some .triple
  | .cSharp, .string | .cSharp, .verbatim => some .single
  | .cSharp, .rawRun => some .runs
  | .java, .string => some .triple
  | _, _ => none

/-- Whether no part of a literal is a substitution. -/
def Tree.IsStatic (v : Vocabulary) (t : Tree) : Prop := ∀ c ∈ t.children, c.kind ≠ v.substitution

instance (v : Vocabulary) (t : Tree) : Decidable (t.IsStatic v) :=
  inferInstanceAs (Decidable (∀ c ∈ t.children, c.kind ≠ v.substitution))

/-- Whether an `f` stands before the first quote of a text. -/
def LedByF (text : List Char) : Prop :=
  ∃ lead quote rest, text = lead ++ quote :: rest ∧ (quote = '"' ∨ quote = '\'') ∧
    (∀ c ∈ lead, c ≠ '"' ∧ c ≠ '\'') ∧ ('f' ∈ lead ∨ 'F' ∈ lead)

theorem announcesSubstitution_iff {text : List Char} :
    announcesSubstitution text = true ↔ LedByF text := by
  let inLead : Char → Bool := fun c => c ≠ '"' && c ≠ '\''
  have hquotes : ∀ c, inLead c = false ↔ c = '"' ∨ c = '\'' := by
    intro c
    simp [inLead, Decidable.or_iff_not_imp_left]
  have hiff : announcesSubstitution text = true ↔
      (∃ c ∈ text, inLead c = false) ∧ ∃ c ∈ text.takeWhile inLead, c = 'f' ∨ c = 'F' := by
    simp only [announcesSubstitution, Bool.and_eq_true, List.any_eq_true, Bool.or_eq_true,
      decide_eq_true_eq, Bool.not_eq_true']
    rfl
  rw [hiff]
  constructor
  · rintro ⟨⟨q, hq, hquote⟩, c, hc, hf⟩
    have hne : text.dropWhile inLead ≠ [] := by
      intro hnil
      rw [List.dropWhile_eq_nil_iff.1 hnil q hq] at hquote
      exact absurd hquote nofun
    obtain ⟨quote, rest, hrest⟩ := List.exists_cons_of_ne_nil hne
    have hstops : inLead quote = false := by
      simpa only [hrest, List.head_cons] using List.head_dropWhile_not inLead hne
    refine ⟨text.takeWhile inLead, quote, rest, ?_, (hquotes quote).1 hstops, ?_, ?_⟩
    · rw [← hrest, List.takeWhile_append_dropWhile]
    · intro d hd
      simpa [inLead] using List.mem_takeWhile_imp hd
    · rcases hf with rfl | rfl
      · exact .inl hc
      · exact .inr hc
  · rintro ⟨lead, quote, rest, rfl, hquote, hlead, hf⟩
    have hstops : inLead quote = false := (hquotes quote).2 hquote
    have hrun : (lead ++ quote :: rest).takeWhile inLead = lead := by
      rw [List.takeWhile_append_of_pos (by simpa [inLead] using hlead),
        List.takeWhile_cons_of_neg (by simp [hstops]), List.append_nil]
    rw [hrun]
    refine ⟨⟨quote, by simp, hstops⟩, ?_⟩
    rcases hf with hf | hf
    · exact ⟨'f', hf, .inl rfl⟩
    · exact ⟨'F', hf, .inr rfl⟩

theorem hasChild_eq_false_iff {v : Vocabulary} {t : Tree} :
    t.hasChild v.substitution = false ↔ t.IsStatic v := by
  simp [Tree.hasChild, Tree.IsStatic]

theorem exists_literalKind_iff {P : LiteralKind → Prop} :
    (∃ k, P k) ↔ P .string ∨ P .template ∨ P .verbatim ∨ P .rawRun := by
  refine ⟨?_, by rintro (h | h | h | h) <;> exact ⟨_, h⟩⟩
  rintro ⟨_ | _ | _ | _, h⟩ <;> simp [h]

/-- **Which literals may be keys.** Substitutions are looked for only in templates and in
Python. -/
theorem literalRules?_eq_some_iff {language : CodeLanguage} {source : List Char} {t : Tree}
    {rules : Literal.DelimiterRules} :
    literalRules? language source t = some rules ↔
      (∃ kind, (vocabulary language).literal kind = some t.kind ∧
        keyDelimiters? language kind = some rules) ∧
      (language = .python → ¬LedByF (t.text source)) ∧
      ((vocabulary language).literal .template = some t.kind ∨ language = .python →
        t.IsStatic (vocabulary language)) := by
  rw [← announcesSubstitution_iff, ← hasChild_eq_false_iff, exists_literalKind_iff]
  cases language <;>
    simp only [vocabulary, Vocabulary.script, Vocabulary.python, Vocabulary.cSharp,
      Vocabulary.java, keyDelimiters?] <;>
    unfold literalRules? <;> split <;> grind

/-! ### Which calls count -/

section Counts

variable (language : CodeLanguage) (source : List Char)

/-- What accepting a call and admitting it have in common. -/
structure Candidate (k : KeyedCall) : Prop where
  isCall : k.call.kind = (vocabulary language).call.kind
  argument : k.call.FirstArgument (vocabulary language) k.literal
  /-- The literal may be a key, and is taken apart as the language has it. -/
  taken : ∃ kind rules, (vocabulary language).literal kind = some k.literal.kind ∧
    keyDelimiters? language kind = some rules ∧
    Literal.parse? (k.literal.text source) rules = some k.parsed
  noLead : language = .python → ¬LedByF (k.literal.text source)
  key : k.parsed.key ≠ []

variable (functions : List String)

/-- Whether a call counts. -/
structure Accepted (k : KeyedCall) : Prop extends Candidate language source k where
  /-- The callee ends in a plain name that is asked for. -/
  named : ∃ callee name, k.call.child? (vocabulary language).call.callee = some callee ∧
    callee.LeadsTo (Tree.member? (vocabulary language)) name ∧
    name.kind ∈ (vocabulary language).names ∧ String.ofList (name.text source) ∈ functions
  /-- Nothing that the call is made on is an access in brackets. -/
  direct : ¬k.call.Reaches (Tree.base? (vocabulary language))
    (Tree.IsSubscript (vocabulary language))
  isStatic : k.literal.IsStatic (vocabulary language)

/-- Whether the search takes a call for one that counts. -/
structure Admitted (k : KeyedCall) : Prop extends Candidate language source k where
  /-- The callee ends in what the tables have for a name; where a call has what it is made on for a
  part, it is one. -/
  named : ∃ callee name, k.call.child? (vocabulary language).call.callee = some callee ∧
    ((vocabulary language).call.receiver.isSome → callee.kind ∈ (vocabulary language).names) ∧
    callee.LeadsTo Tree.segment? name ∧ name.kind ∈ plainNames ∧
    String.ofList (name.text source) ∈ functions
  /-- Nothing that the tables have on the way is an access in brackets. -/
  direct : ¬k.call.Reaches Tree.receiver? fun u => u.kind ∈ subscriptKinds
  isStatic : (vocabulary language).literal .template = some k.literal.kind ∨ language = .python →
    k.literal.IsStatic (vocabulary language)

variable (k : KeyedCall)

/-- Whether the name of what is called is in an access to what may be missing. -/
def CalledConditionally : Prop :=
  ∃ callee t, k.call.child? (vocabulary language).call.callee = some callee ∧
    callee.LeadsTo (Tree.member? (vocabulary language)) t ∧ t.IsConditional (vocabulary language)

/-- The call that counts at a node. -/
def accepted? (t : Tree) : Option KeyedCall := do
  let v := vocabulary language
  guard (t.kind = v.call.kind)
  let callee ← t.child? v.call.callee
  let literal ← (callPattern language).key? t
  guard (∃ name ∈ callee.walk (Tree.member? v) fun _ _ => Tree.sizeOf_lt_of_member?,
    name.kind ∈ v.names ∧ String.ofList (name.text source) ∈ functions)
  guard (¬∃ u ∈ (t.walk (Tree.base? v) fun _ _ h =>
    Tree.sizeOf_lt_of_mem_children (Tree.mem_children_of_base? h)).tail, u.IsSubscript v)
  guard (literal.IsStatic v)
  let rules ← literalRules? language source literal
  let parsed ← Literal.parse? (literal.text source) rules
  guard (!parsed.key.isEmpty)
  return ⟨t, literal, parsed⟩

variable {language source functions} {k l : KeyedCall} {tree : Tree}

/-- **What counts can be computed.** -/
theorem accepted?_eq_some_iff {t : Tree} :
    accepted? language source functions t = some k ↔
      k.call = t ∧ Accepted language source functions k := by
  simp only [accepted?, Option.bind_eq_bind, Option.bind_eq_some_iff, Option.guard_eq_some',
    Option.pure_def, exists_and_left, exists_const, Option.some_inj, Tree.mem_walk_iff,
    ← Tree.reaches_iff_exists_mem_tail]
  constructor
  · rintro ⟨hcall, callee, hcallee, literal, hargument, ⟨name, hname, hkind, hasked⟩, hdirect,
      hstatic, rules, hrules, parsed, hparsed, hkey, rfl⟩
    obtain ⟨⟨kind, hkind', hdelimiters⟩, hlead, -⟩ := literalRules?_eq_some_iff.1 hrules
    refine ⟨rfl, ⟨hcall, key?_eq_some_iff.1 hargument, ⟨kind, rules, hkind', hdelimiters, hparsed⟩,
      hlead, ?_⟩, ⟨callee, name, hcallee, hname, hkind, hasked⟩, hdirect, hstatic⟩
    simpa using hkey
  · rintro ⟨rfl, h⟩
    obtain ⟨callee, name, hcallee, hname, hkind, hasked⟩ := h.named
    obtain ⟨kind, rules, hkind', hdelimiters, hparsed⟩ := h.taken
    exact ⟨h.isCall, callee, hcallee, k.literal, key?_eq_some_iff.2 h.argument,
      ⟨name, hname, hkind, hasked⟩, h.direct, h.isStatic, rules,
      literalRules?_eq_some_iff.2 ⟨⟨kind, hkind', hdelimiters⟩, h.noLead, fun _ => h.isStatic⟩,
      k.parsed, hparsed, by simpa using h.key, rfl⟩

/-- A literal is of one kind. -/
theorem literalKind_unique {kind kind' : LiteralKind} {name : String}
    (h : (vocabulary language).literal kind = some name)
    (h' : (vocabulary language).literal kind' = some name) : kind = kind' := by
  have hsome : ((vocabulary language).literal kind).isSome := by rw [h]; rfl
  rw [← h] at h'
  clear h
  revert h' hsome
  cases language <;> cases kind <;> cases kind' <;> decide +kernel

theorem Tree.FirstArgument.unique {call key key' : Tree}
    (h : call.FirstArgument (vocabulary language) key)
    (h' : call.FirstArgument (vocabulary language) key') : key = key' :=
  Option.some_inj.1 ((key?_eq_some_iff.2 h).symm.trans (key?_eq_some_iff.2 h'))

/-- **A call makes one candidate at most.** -/
theorem Candidate.eq_of_call_eq (hk : Candidate language source k)
    (hl : Candidate language source l) (h : k.call = l.call) : k = l := by
  obtain ⟨kind, rules, hkind, hrules, hparsed⟩ := hk.taken
  obtain ⟨kind', rules', hkind', hrules', hparsed'⟩ := hl.taken
  have hliteral : k.literal = l.literal := hk.argument.unique (h ▸ hl.argument)
  rw [← hliteral] at hkind' hparsed'
  obtain rfl := literalKind_unique hkind hkind'
  obtain rfl : rules = rules' := Option.some_inj.1 (hrules.symm.trans hrules')
  have hparsed : k.parsed = l.parsed := Option.some_inj.1 (hparsed.symm.trans hparsed')
  cases k
  cases l
  simp_all

/-- **What is admitted counts** if no code is in its literal and it is not made on brackets. -/
theorem Admitted.accepted (h : Admitted language source functions k)
    (htree : tree.WrittenIn language) (hcall : k.call ∈ tree.subtrees)
    (hstatic : k.literal.IsStatic (vocabulary language))
    (hdirect : ¬k.call.Reaches (Tree.base? (vocabulary language))
      (Tree.IsSubscript (vocabulary language))) : Accepted language source functions k := by
  obtain ⟨callee, name, hcallee, hplain, hname, hkind, hasked⟩ := h.named
  have hcallee' : callee ∈ tree.subtrees := Tree.mem_subtrees_trans hcall
    (Tree.mem_subtrees_of_mem_children (Tree.mem_children_of_child? hcallee))
  have hname' : callee.LeadsTo (Tree.member? (vocabulary language)) name := by
    cases hreceiver : (vocabulary language).call.receiver with
    | none => exact htree.leadsTo_member hcallee' hreceiver hname
    | some field =>
      have hcalleeKind := (tabled language).name_listed _ (hplain (by rw [hreceiver]; rfl))
      rw [hname.eq_of_next_eq_none
        (segment?_eq_none (List.mem_append_left subscriptKinds hcalleeKind))]
      exact .refl
  have hmem := hname.mem_subtrees (fun _ _ => Tree.mem_children_of_segment?) hcallee'
  exact ⟨h.toCandidate, ⟨callee, name, hcallee, hname', (htree.mem_names_iff hmem).1 hkind, hasked⟩,
    hdirect, hstatic⟩

/-- **What counts is admitted** if its callee accesses nothing that may be missing. -/
theorem Accepted.admitted (h : Accepted language source functions k)
    (htree : tree.WrittenIn language) (hcall : k.call ∈ tree.subtrees)
    (hplain : ¬CalledConditionally language k) : Admitted language source functions k := by
  obtain ⟨callee, name, hcallee, hname, hkind, hasked⟩ := h.named
  refine ⟨h.toCandidate, ⟨callee, name, hcallee, ?_, ?_, (tabled language).name_listed _ hkind,
    hasked⟩, fun hseen => h.direct (htree.reaches hcall hseen), fun _ => h.isStatic⟩
  · intro hreceiver
    have hnone : callee.member? (vocabulary language) = none := by
      rw [Tree.member?, if_pos hreceiver]
    exact hname.eq_of_next_eq_none hnone ▸ hkind
  · exact Tree.leadsTo_segment
      (fun t ht hconditional => hplain ⟨callee, t, hcallee, ht, hconditional⟩) hname

/-- What is admitted is called by a name in plain sight. -/
theorem Admitted.not_calledConditionally (h : Admitted language source functions k)
    (htree : tree.WrittenIn language) (hcall : k.call ∈ tree.subtrees) :
    ¬CalledConditionally language k := by
  rintro ⟨callee, t, hcallee, ht, hconditional⟩
  obtain ⟨callee', name, hcallee', -, hname, hkind, -⟩ := h.named
  obtain rfl := Option.some_inj.1 (hcallee.symm.trans hcallee')
  have hmem := Tree.mem_subtrees_trans hcall
    (Tree.mem_subtrees_of_mem_children (Tree.mem_children_of_child? hcallee))
  exact htree.not_isConditional hmem hname hkind ht hconditional

/-- The call that the search takes a node for. -/
def keyedCall? (language : CodeLanguage) (source : List Char) (functions : List String) (t : Tree) :
    Option KeyedCall := do
  let callee ← (callPattern language).callee? t
  let literal ← (callPattern language).key? t
  let name ← (classify source callee).name?
  guard (!throughSubscript t)
  guard (functions.contains (String.ofList name))
  let rules ← literalRules? language source literal
  let parsed ← Literal.parse? (literal.text source) rules
  guard (!parsed.key.isEmpty)
  return ⟨t, literal, parsed⟩

theorem siteOf?_eq_map (file : String) (t : Tree) :
    siteOf? language file source functions t =
      (keyedCall? language source functions t).map (KeyedCall.site file source) := by
  simp only [siteOf?, keyedCall?, Option.bind_eq_bind, Option.map_bind, Function.comp_def]
  rfl

/-- **A node is taken for the call that is admitted there**, if there is one. -/
theorem keyedCall?_eq_some_iff {t : Tree} :
    keyedCall? language source functions t = some k ↔
      k.call = t ∧ Admitted language source functions k := by
  simp only [keyedCall?, Option.bind_eq_bind, Option.bind_eq_some_iff, Option.guard_eq_some',
    Option.pure_def, exists_and_left, exists_const, Option.some_inj]
  constructor
  · rintro ⟨callee, hcallee, literal, hargument, name, hname, hdirect, hasked, rules, hrules,
      parsed, hparsed, hkey, rfl⟩
    obtain ⟨hcall, hcallee, hplain⟩ := callee?_eq_some_iff.1 hcallee
    obtain ⟨segment, hsegment, hsegmentKind, rfl⟩ := (name?_classify_eq_some_iff callee).1 hname
    obtain ⟨⟨kind, hkind, hdelimiters⟩, hlead, hstatic⟩ := literalRules?_eq_some_iff.1 hrules
    refine ⟨rfl, ⟨hcall, key?_eq_some_iff.1 hargument, ⟨kind, rules, hkind, hdelimiters, hparsed⟩,
      hlead, ?_⟩, ⟨callee, segment, hcallee, hplain, hsegment, hsegmentKind, ?_⟩, ?_, hstatic⟩
    · simpa using hkey
    · simpa using hasked
    · rw [← throughSubscript_iff]
      simpa using hdirect
  · rintro ⟨rfl, h⟩
    obtain ⟨callee, segment, hcallee, hplain, hsegment, hsegmentKind, hasked⟩ := h.named
    obtain ⟨kind, rules, hkind, hdelimiters, hparsed⟩ := h.taken
    have hdirect := h.direct
    rw [← throughSubscript_iff] at hdirect
    refine ⟨callee, callee?_eq_some_iff.2 ⟨h.isCall, hcallee, hplain⟩, k.literal,
      key?_eq_some_iff.2 h.argument, segment.text source,
      (name?_classify_eq_some_iff callee).2 ⟨segment, hsegment, hsegmentKind, rfl⟩,
      by simpa using hdirect, by simpa using hasked, rules,
      literalRules?_eq_some_iff.2 ⟨⟨kind, hkind, hdelimiters⟩, h.noLead, h.isStatic⟩, k.parsed,
      hparsed, by simpa using h.key, rfl⟩

end Counts

end Concord.Source

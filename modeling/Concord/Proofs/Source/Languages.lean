import Concord.Proofs.Source.Sites
import Mathlib.Logic.Relation

/-!
# One set of tables for five languages

The search for calls has one set of tables for the nodes of all languages. Here is what a single
language has: what a call or an access is made on (`Tree.base?`), which part of a callee its name is
in (`Tree.member?`), what an access in brackets is (`Tree.IsSubscript`). All of it is said in the
vocabulary of the language, and in no other.

In a tree that is written in a language (`Tree.WrittenIn`), the rows of the tables for other
languages are without effect, and those for the language say what the language has – but for what
the tables leave out.

| | the language | the search | theorem |
|---|---|---|---|
| names | `Vocabulary.names` | `plainNames` | `WrittenIn.mem_names_iff` |
| brackets | `Tree.IsSubscript` | `subscriptKinds` | `WrittenIn.isSubscript` |
| the name in a callee | `Tree.member?` | `Tree.segment?` | `WrittenIn.member?_eq_of_segment?` |
| receivers | `Tree.base?` | `Tree.receiver?` | `WrittenIn.base?_eq_of_receiver?` |

What they leave out are accesses to what may be missing (`Tree.IsConditional`), which no table has,
and comments, which may come first in parentheses.
-/

namespace Concord.Source

/-! ### What a language has -/

namespace Vocabulary

variable (v : Vocabulary)

/-- The kinds of names. -/
def names : List String := [v.name, v.member, v.hidden]

/-- The kinds of nodes that are what is in them. -/
def wrappers : List String := v.parenthesized :: v.nonNull.toList

/-- The kinds of comments, and of what else may stand anywhere. -/
def skipped : List String :=
  [CommentKind.line, .block, .markup, .continuation].map v.comment ++ v.asides

/-- The kinds of accesses and calls, with the field of what they are made on. -/
def links : List (String × String) :=
  (v.access.kind, v.access.receiver) ::
    (v.call.kind, v.call.receiver.getD v.call.callee) ::
      (v.conditional.map fun c => (c.kind, c.receiver)).toList

/-- The kinds that say by themselves what a node is. -/
def values : List String := v.names ++ v.generic.toList ++ v.subscript :: v.wrappers

/-- The kinds that say what a node is by what is in its fields, with these fields. -/
def fields : List (String × String) := (v.access.kind, v.access.member) :: v.links

end Vocabulary

namespace Tree

/-- What a call or a member access is made on. A parenthesized value and a value asserted not to be
null are what is in them, comments apart. -/
def base? (v : Vocabulary) (t : Tree) : Option Tree :=
  match v.links.lookup t.kind with
  | some field => t.child? field
  | none =>
    if v.wrappers.contains t.kind then t.children.find? fun c => !v.skipped.contains c.kind
    else none

/-- Whether a node is an access to what may be missing. -/
def IsConditional (v : Vocabulary) (t : Tree) : Prop :=
  t.kind ∈ v.conditional.map ConditionalNames.kind

/-- Whether a node is an access in brackets. -/
def IsSubscript (v : Vocabulary) (t : Tree) : Prop :=
  t.kind = v.subscript ∨ t.IsConditional v ∧
    ∃ b ∈ t.children, b.kind ∈ v.conditional.map ConditionalNames.elementBinding

/-- The part of a callee that its name is in: the member of an access, or the name before type
arguments. Where a call has what it is made on for a part, a callee has no parts. -/
def member? (v : Vocabulary) (t : Tree) : Option Tree :=
  if v.call.receiver.isSome then none
  else if t.kind = v.access.kind then t.child? v.access.member
  else if t.kind ∈ v.generic then t.children.head?
  else v.conditional.bind fun c =>
    if t.kind = c.kind then
      (t.children.find? fun b => b.kind = c.memberBinding).bind fun b => b.child? c.member
    else none

instance (v : Vocabulary) (t : Tree) : Decidable (t.IsConditional v) :=
  inferInstanceAs (Decidable (_ = _))

instance (v : Vocabulary) (t : Tree) : Decidable (t.IsSubscript v) :=
  inferInstanceAs (Decidable (_ ∨ _ ∧ ∃ b ∈ t.children, _ = _))

theorem mem_children_of_base? {v : Vocabulary} {t u : Tree} (h : t.base? v = some u) :
    u ∈ t.children := by
  rw [base?] at h
  split at h
  · exact mem_children_of_child? h
  · exact List.mem_of_find?_eq_some (Option.ite_none_right_eq_some.1 h).2

theorem sizeOf_lt_of_member? {v : Vocabulary} {t u : Tree} (h : t.member? v = some u) :
    sizeOf u < sizeOf t := by
  rw [member?] at h
  split_ifs at h
  · exact sizeOf_lt_of_mem_children (mem_children_of_child? h)
  · exact sizeOf_lt_of_mem_children (List.mem_of_head? h)
  · obtain ⟨c, -, h⟩ := Option.bind_eq_some_iff.1 h
    obtain ⟨b, hb, h⟩ := Option.bind_eq_some_iff.1 (Option.ite_none_right_eq_some.1 h).2
    exact (sizeOf_lt_of_mem_children (mem_children_of_child? h)).trans
      (sizeOf_lt_of_mem_children (List.mem_of_find?_eq_some hb))

/-- Whether a tree is written in a language: its nodes are none of what other languages have, and
none of the parts of its nodes is in a field that only other languages have there. -/
structure WrittenIn (language : CodeLanguage) (tree : Tree) : Prop where
  kinds : ∀ t ∈ tree.subtrees, ∀ other,
    t.kind ∈ (vocabulary other).values → t.kind ∈ (vocabulary language).values
  fields : ∀ t ∈ tree.subtrees, ∀ c ∈ t.children, ∀ field ∈ c.field, ∀ other,
    (t.kind, field) ∈ (vocabulary other).fields → (t.kind, field) ∈ (vocabulary language).fields

end Tree

/-! ### The tables -/

section Tables

theorem mem_of_lookup_eq_some {α β : Type} [BEq α] [LawfulBEq α] {l : List (α × β)} {a : α} {b : β}
    (h : l.lookup a = some b) : (a, b) ∈ l := by
  obtain ⟨before, after, rfl, -⟩ := List.lookup_eq_some_iff.1 h
  simp

theorem exists_values_of_mem {kind : String}
    (h : kind ∈ plainNames ++ subscriptKinds ++ genericName :: wrapperKinds) :
    ∃ other, kind ∈ (vocabulary other).values := by
  have htable : ∀ kind ∈ plainNames ++ subscriptKinds ++ genericName :: wrapperKinds,
      ∃ other ∈ CodeLanguage.all, kind ∈ (vocabulary other).values := by decide +kernel
  obtain ⟨other, -, hkind⟩ := htable kind h
  exact ⟨other, hkind⟩

theorem exists_fields_of_mem {row : String × String} (h : row ∈ memberFields ++ receiverFields) :
    ∃ other, row ∈ (vocabulary other).fields := by
  have htable : ∀ row ∈ memberFields ++ receiverFields,
      ∃ other ∈ CodeLanguage.all, row ∈ (vocabulary other).fields := by decide +kernel
  obtain ⟨other, -, hrow⟩ := htable row h
  exact ⟨other, hrow⟩

/-- What the tables have to do with a language: what is in them and in the language is what the
language has, and what the language has is in them. -/
structure Tabled (v : Vocabulary) : Prop where
  names : ∀ k ∈ plainNames, k ∈ v.values → k ∈ v.names
  subscript : ∀ k ∈ subscriptKinds, k ∈ v.values → k = v.subscript
  generic : genericName ∈ v.values → genericName ∈ v.generic
  wrappers : ∀ k ∈ wrapperKinds, k ∈ v.values → k ∈ v.wrappers
  access : ∀ row ∈ memberFields, row ∈ v.fields → row = (v.access.kind, v.access.member)
  links : ∀ row ∈ receiverFields, row ∈ v.fields → v.links.lookup row.1 = some row.2
  name_listed : ∀ k ∈ v.names, k ∈ plainNames
  generic_listed : ∀ k ∈ v.generic, k = genericName
  /-- Where a call has what it is made on for a part, no callee is a member access. -/
  access_listed : v.call.receiver = none →
    memberFields.lookup v.access.kind = some v.access.member

theorem tabled (language : CodeLanguage) : Tabled (vocabulary language) := by
  cases language <;> constructor <;> decide +kernel

/-- No kind means two things. -/
structure Distinct (v : Vocabulary) : Prop where
  names : ∀ k ∈ v.names, k ≠ v.access.kind ∧ k ∉ v.generic ∧
    k ∉ v.conditional.map ConditionalNames.kind
  conditional : ∀ k ∈ v.conditional.map ConditionalNames.kind,
    memberFields.lookup k = none ∧ k ≠ genericName
  access : v.access.kind ∉ v.generic
  wrappers : ∀ k ∈ wrapperKinds, v.links.lookup k = none
  skipped : ∀ k ∈ v.skipped, k ∉ subscriptKinds ∧ k ∉ wrapperKinds ∧ receiverFields.lookup k = none

theorem distinct (language : CodeLanguage) : Distinct (vocabulary language) := by
  cases language <;> constructor <;> decide +kernel

end Tables

/-! ### Trees of a language -/

namespace Tree

section WrittenIn

variable {language : CodeLanguage} {tree t u : Tree}

theorem WrittenIn.mem_values (h : tree.WrittenIn language) (ht : t ∈ tree.subtrees)
    (hkind : t.kind ∈ plainNames ++ subscriptKinds ++ genericName :: wrapperKinds) :
    t.kind ∈ (vocabulary language).values := by
  obtain ⟨other, hother⟩ := exists_values_of_mem hkind
  exact h.kinds t ht other hother

theorem WrittenIn.mem_fields (h : tree.WrittenIn language) (ht : t ∈ tree.subtrees)
    {field : String} (hrow : (t.kind, field) ∈ memberFields ++ receiverFields)
    (hu : t.child? field = some u) : (t.kind, field) ∈ (vocabulary language).fields := by
  obtain ⟨other, hother⟩ := exists_fields_of_mem hrow
  exact h.fields t ht u (mem_children_of_child? hu) field (field_of_child? hu) other hother

/-- **Names are names**, in the tables and in the language. -/
theorem WrittenIn.mem_names_iff (h : tree.WrittenIn language) (ht : t ∈ tree.subtrees) :
    t.kind ∈ plainNames ↔ t.kind ∈ (vocabulary language).names := by
  refine ⟨fun hkind => ?_, (tabled language).name_listed t.kind⟩
  exact (tabled language).names t.kind hkind (h.mem_values ht (by simp [hkind]))

/-- What the tables take for an access in brackets is one. -/
theorem WrittenIn.isSubscript (h : tree.WrittenIn language) (ht : t ∈ tree.subtrees)
    (hkind : t.kind ∈ subscriptKinds) : t.IsSubscript (vocabulary language) :=
  .inl ((tabled language).subscript t.kind hkind (h.mem_values ht (by simp [hkind])))

/-- **The name of a callee is in the part where the language has it.** -/
theorem WrittenIn.member?_eq_of_segment? (h : tree.WrittenIn language) (ht : t ∈ tree.subtrees)
    (hcallee : (vocabulary language).call.receiver = none) (hu : t.segment? = some u) :
    t.member? (vocabulary language) = some u := by
  rw [member?, hcallee, Option.isSome_none, if_neg Bool.false_ne_true]
  rw [segment?] at hu
  split at hu
  · next field hfield =>
    have hrow := mem_of_lookup_eq_some hfield
    have haccess := (tabled language).access _ hrow (h.mem_fields ht (by simp [hrow]) hu)
    rw [Prod.mk.injEq] at haccess
    rw [if_pos haccess.1, ← haccess.2, hu]
  · obtain ⟨hkind, hu⟩ := Option.ite_none_right_eq_some.1 hu
    have hgeneric := (tabled language).generic (hkind ▸ h.mem_values ht (by simp [hkind]))
    have hne : t.kind ≠ (vocabulary language).access.kind := by
      intro heq
      exact (distinct language).access (heq ▸ hkind ▸ hgeneric)
    rw [if_neg hne, if_pos (hkind ▸ hgeneric), hu]

theorem member?_eq_none (hname : t.kind ∈ (vocabulary language).names) :
    t.member? (vocabulary language) = none := by
  obtain ⟨haccess, hgeneric, hconditional⟩ := (distinct language).names _ hname
  rw [member?, if_neg haccess, if_neg hgeneric]
  refine ite_eq_left_iff.2 fun _ => Option.bind_eq_none_iff.2 fun c hc => if_neg fun hkind => ?_
  exact hconditional (by rw [hc, hkind]; rfl)

/-- The tables do not have accesses to what may be missing. -/
theorem segment?_eq_none_of_isConditional (h : t.IsConditional (vocabulary language)) :
    t.segment? = none := by
  obtain ⟨hlookup, hgeneric⟩ := (distinct language).conditional _ h
  rw [segment?, hlookup]
  exact if_neg hgeneric

/-- The tables have all of these parts, but for accesses to what may be missing. -/
theorem segment?_eq_of_member? (hplain : ¬t.IsConditional (vocabulary language))
    (hu : t.member? (vocabulary language) = some u) : t.segment? = some u := by
  rw [member?] at hu
  split_ifs at hu with hcallee hkind hkind'
  · rw [segment?, hkind, (tabled language).access_listed (by simpa using hcallee)]
    exact hu
  · have hnone : memberFields.lookup genericName = none := by decide +kernel
    rw [segment?, (tabled language).generic_listed _ hkind', hnone]
    exact (if_pos rfl).trans hu
  · obtain ⟨c, hc, hu⟩ := Option.bind_eq_some_iff.1 hu
    have hkind'' := (Option.ite_none_right_eq_some.1 hu).1
    refine absurd ?_ hplain
    rw [IsConditional, hkind'', hc]
    rfl

/-- **The search goes on where the language does**, but for a comment in parentheses. -/
theorem WrittenIn.base?_eq_of_receiver? (h : tree.WrittenIn language) (ht : t ∈ tree.subtrees)
    (hu : t.receiver? = some u) (hcomment : u.kind ∉ (vocabulary language).skipped) :
    t.base? (vocabulary language) = some u := by
  rw [receiver?] at hu
  split at hu
  · next field hfield =>
    have hrow := mem_of_lookup_eq_some hfield
    have hlink := (tabled language).links _ hrow (h.mem_fields ht (by simp [hrow]) hu)
    rw [base?, hlink]
    exact hu
  · obtain ⟨hkind, hu⟩ := Option.ite_none_right_eq_some.1 hu
    rw [List.contains_iff_mem] at hkind
    have hwrapper := (tabled language).wrappers _ hkind (h.mem_values ht (by simp [hkind]))
    obtain ⟨rest, hchildren⟩ := List.head?_eq_some_iff.1 hu
    rw [base?, (distinct language).wrappers _ hkind]
    dsimp only
    rw [if_pos (List.contains_iff_mem.2 hwrapper), hchildren,
      List.find?_cons_of_pos (by simpa using hcomment)]

end WrittenIn

end Tree

/-! ### Trees that are read -/

section Read

variable {v : Vocabulary} {language : CodeLanguage}

theorem toTrees_eq_map (v : Vocabulary) (parent : Kind) (os : List Outline) :
    Outline.toTrees v parent os = os.map fun o => o.toTree v (v.field parent o.role) := by
  induction os with
  | nil => rw [Outline.toTrees, List.map_nil]
  | cons o os ih => rw [Outline.toTrees, List.map_cons, ih]

/-- Every node of a tree that an outline gives has the name of a kind, and its parts have the fields
for their roles. -/
theorem exists_kind_of_mem_toTree : ∀ (o : Outline) (field : Option String) {t : Tree},
    t ∈ (o.toTree v field).subtrees →
      ∃ kind, t.kind = v.kind kind ∧ ∀ c ∈ t.children, ∃ role, c.field = v.field kind role
  | .node role kind bytes children, field, t, ht => by
    rw [Outline.toTree, toTrees_eq_map] at ht
    rcases Tree.mem_subtrees_iff.1 ht with rfl | ⟨child, hchild, ht⟩
    · refine ⟨kind, rfl, fun c hc => ?_⟩
      obtain ⟨⟨role', kind', bytes', children'⟩, -, rfl⟩ := List.mem_map.1 hc
      exact ⟨role', by rw [Outline.toTree, Tree.field, Outline.role]⟩
    · obtain ⟨part, hpart, rfl⟩ := List.mem_map.1 hchild
      have hlt := List.sizeOf_lt_of_mem hpart
      exact exists_kind_of_mem_toTree part _ ht
termination_by o => sizeOf o

/-- All kinds of nodes. -/
def Kind.all : List Kind :=
  [.name, .member, .hidden, .generic, .access, .conditional, .memberBinding, .elementBinding,
   .subscript, .call, .arguments, .argument, .parenthesized, .nonNull, .substitution, .other] ++
    [LiteralKind.string, .template, .verbatim, .rawRun].map .literal ++
    [CommentKind.line, .block, .markup, .continuation].map .comment

theorem Kind.mem_all (kind : Kind) : kind ∈ Kind.all := by
  cases kind with
  | literal k => cases k <;> decide
  | comment k => cases k <;> decide
  | _ => decide

theorem mem_allLanguages (language : CodeLanguage) : language ∈ CodeLanguage.all := by
  cases language <;> decide

/-- The kinds of a language have names that are none of another language, or that mean the same. -/
theorem kind_mem_values (other : CodeLanguage) (kind : Kind)
    (h : (vocabulary language).kind kind ∈ (vocabulary other).values) :
    (vocabulary language).kind kind ∈ (vocabulary language).values := by
  have htable : ∀ language ∈ CodeLanguage.all, ∀ other ∈ CodeLanguage.all, ∀ kind ∈ Kind.all,
      (vocabulary language).kind kind ∈ (vocabulary other).values →
        (vocabulary language).kind kind ∈ (vocabulary language).values := by decide +kernel
  exact htable language (mem_allLanguages language) other (mem_allLanguages other) kind
    kind.mem_all h

/-- The same of their fields. -/
theorem field_mem_fields (other : CodeLanguage) (kind : Kind) (role : Role) {field : String}
    (hfield : (vocabulary language).field kind role = some field)
    (h : ((vocabulary language).kind kind, field) ∈ (vocabulary other).fields) :
    ((vocabulary language).kind kind, field) ∈ (vocabulary language).fields := by
  have htable : ∀ language ∈ CodeLanguage.all, ∀ other ∈ CodeLanguage.all, ∀ kind ∈ Kind.all,
      ∀ role ∈ [Role.part, .receiver, .member, .callee, .arguments],
      ∀ field ∈ (vocabulary language).field kind role,
      ((vocabulary language).kind kind, field) ∈ (vocabulary other).fields →
        ((vocabulary language).kind kind, field) ∈ (vocabulary language).fields := by
    decide +kernel
  have hrole : role ∈ [Role.part, .receiver, .member, .callee, .arguments] := by
    cases role <;> decide
  exact htable language (mem_allLanguages language) other (mem_allLanguages other) kind
    kind.mem_all role hrole field hfield h

/-- **What is read from a text in a language is written in that language.** -/
theorem writtenIn_readTree (language : CodeLanguage) (text : List Char) :
    (readTree language text).WrittenIn language := by
  constructor
  · intro t ht other hvalue
    obtain ⟨kind, hkind, -⟩ := exists_kind_of_mem_toTree _ _ ht
    rw [hkind] at hvalue ⊢
    exact kind_mem_values other kind hvalue
  · intro t ht c hc field hfield other hrow
    obtain ⟨kind, hkind, hparts⟩ := exists_kind_of_mem_toTree _ _ ht
    obtain ⟨role, hrole⟩ := hparts c hc
    rw [hkind] at hrow ⊢
    exact field_mem_fields other kind role (hrole ▸ hfield) hrow

end Read

end Concord.Source

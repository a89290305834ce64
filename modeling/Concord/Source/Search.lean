import Concord.Literal.Parser
import Concord.Source.Language
import Concord.Source.Tree

/-!
# What the search for calls looks at

Which nodes of a tree are calls differs from language to language, and so does where a call has its
callee and its first argument: that is the pattern of a language, `callPattern`. What follows is one
set of tables for all languages, by the kinds of nodes. Different grammars name different nodes
differently, so the rows for one language are of no concern to the others.

* `CallPattern` – the callee and the first argument of a call;
* `classify` – what a callee says about the name of what is called;
* `throughSubscript` – whether a call is made on something that is accessed in brackets;
* `literalRules?` – which literals may be keys, and how they are taken apart.
-/

namespace Concord.Source

/-! ### Calls -/

/-- Where the calls of a language have what they call and their arguments. -/
structure CallPattern where
  /-- The kind of a call. -/
  call : String
  /-- The field of what is called. -/
  callee : String
  /-- The kind that what is called must be of, if not any. -/
  calleeKind : Option String
  /-- The kind of what must be in the field of the arguments. -/
  arguments : String
  /-- The kind that is around an argument, if one is. -/
  argument : Option String

/-- The calls of a language. -/
def callPattern : CodeLanguage → CallPattern
  | .javaScript | .typeScript =>
    { call := "call_expression"
      callee := "function"
      calleeKind := none
      arguments := "arguments"
      argument := none }
  | .python =>
    { call := "call"
      callee := "function"
      calleeKind := none
      arguments := "argument_list"
      argument := none }
  | .cSharp =>
    { call := "invocation_expression"
      callee := "function"
      calleeKind := none
      arguments := "argument_list"
      argument := some "argument" }
  | .java =>
    { call := "method_invocation"
      callee := "name"
      calleeKind := some "identifier"
      arguments := "argument_list"
      argument := none }

namespace CallPattern

/-- What is called at a node, if it is a call. -/
def callee? (p : CallPattern) (t : Tree) : Option Tree :=
  if t.kind = p.call then
    (t.child? p.callee).filter fun c => p.calleeKind.all fun kind => c.kind = kind
  else none

/-- The arguments of a call. -/
def arguments? (p : CallPattern) (t : Tree) : Option Tree :=
  (t.child? "arguments").filter fun c => c.kind = p.arguments

/-- The value of an argument. -/
def value? (p : CallPattern) (t : Tree) : Option Tree :=
  match p.argument with
  | none => some t
  | some kind => if t.kind = kind then t.children.head? else none

/-- The first part of the arguments of a call, or the value in it. -/
def key? (p : CallPattern) (t : Tree) : Option Tree :=
  ((p.arguments? t).bind fun a => a.children.head?).bind p.value?

end CallPattern

/-! ### Callees -/

/-- What a callee says about the name of what is called. -/
inductive Callee where
  | name (text : List Char)
  /-- The name is computed. -/
  | computed
  /-- Something that is not looked into. -/
  | unsupported
deriving DecidableEq, Repr

/-- The name that a callee says is called. -/
def Callee.name? : Callee → Option (List Char)
  | name text => some text
  | computed | unsupported => none

/-- The kinds of names. -/
def plainNames : List String :=
  ["identifier", "property_identifier", "private_property_identifier"]

/-- The kinds of accesses in brackets. -/
def subscriptKinds : List String :=
  ["subscript_expression", "subscript", "element_access_expression", "array_access"]

/-- The kinds of member accesses, with the field of the member. -/
def memberFields : List (String × String) :=
  [("member_expression", "property"),
   ("attribute", "attribute"),
   ("member_access_expression", "name")]

/-- The kind of a name with type arguments. -/
def genericName : String := "generic_name"

namespace Tree

/-- The part of a callee that its name is in. -/
def segment? (t : Tree) : Option Tree :=
  match memberFields.lookup t.kind with
  | some field => t.child? field
  | none => if t.kind = genericName then t.children.head? else none

theorem mem_children_of_segment? {t u : Tree} (h : t.segment? = some u) : u ∈ t.children := by
  unfold segment? at h
  split at h
  · exact mem_children_of_child? h
  · exact List.mem_of_head? (Option.ite_none_right_eq_some.1 h).2

end Tree

/-- What a callee says about the name of what is called. -/
def classify (source : List Char) (t : Tree) : Callee :=
  if plainNames.contains t.kind then .name (t.text source)
  else if subscriptKinds.contains t.kind then .computed
  else match h : t.segment? with
    | none => .unsupported
    | some s =>
      have := Tree.sizeOf_lt_of_mem_children (Tree.mem_children_of_segment? h)
      classify source s
termination_by sizeOf t

/-! ### Receivers -/

/-- The kinds of member accesses and calls, with the field of what they are made on. -/
def receiverFields : List (String × String) :=
  [("member_expression", "object"),
   ("attribute", "object"),
   ("field_access", "object"),
   ("method_invocation", "object"),
   ("member_access_expression", "expression"),
   ("call_expression", "function"),
   ("call", "function"),
   ("invocation_expression", "function")]

/-- The kinds of nodes that are what their first part is. -/
def wrapperKinds : List String := ["parenthesized_expression", "non_null_expression"]

namespace Tree

/-- What a call or a member access is made on. A parenthesized value and a value asserted not to be
null pass the question on to their first part. -/
def receiver? (t : Tree) : Option Tree :=
  match receiverFields.lookup t.kind with
  | some field => t.child? field
  | none => if wrapperKinds.contains t.kind then t.children.head? else none

theorem mem_children_of_receiver? {t u : Tree} (h : t.receiver? = some u) : u ∈ t.children := by
  unfold receiver? at h
  split at h
  · exact mem_children_of_child? h
  · exact List.mem_of_head? (Option.ite_none_right_eq_some.1 h).2

end Tree

/-- Whether something on the way from a node to its receiver, and to the receiver's receiver, is
accessed in brackets. -/
def throughSubscript (t : Tree) : Bool :=
  match h : t.receiver? with
  | none => false
  | some r =>
    have := Tree.sizeOf_lt_of_mem_children (Tree.mem_children_of_receiver? h)
    subscriptKinds.contains r.kind || throughSubscript r
termination_by sizeOf t

/-! ### Literals -/

/-- Whether the prefix of a literal announces substitutions. -/
def announcesSubstitution (text : List Char) : Bool :=
  let inLead := fun c => c ≠ '"' && c ≠ '\''
  text.any (fun c => !inLead c) && (text.takeWhile inLead).any fun c => c = 'f' || c = 'F'

/-- How the delimiters of a literal are found, if it is one that may be a key. -/
def literalRules? (language : CodeLanguage) (source : List Char) (t : Tree) :
    Option Literal.DelimiterRules :=
  match language, t.kind with
  | .javaScript, "string" | .typeScript, "string" => some .single
  | .javaScript, "template_string" | .typeScript, "template_string" =>
    if t.hasChild "template_substitution" then none else some .single
  | .python, "string" =>
    if announcesSubstitution (t.text source) || t.hasChild "interpolation" then none
    else some .triple
  | .cSharp, "string_literal" | .cSharp, "verbatim_string_literal" => some .single
  | .cSharp, "raw_string_literal" => some .runs
  | .java, "string_literal" => some .triple
  | _, _ => none

end Concord.Source

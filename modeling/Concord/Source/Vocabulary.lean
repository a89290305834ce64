import Concord.Source.Language
import Concord.Source.Token

/-!
# What grammars call things

Names, member accesses, calls and literals are much the same in all languages, but each grammar
gives the nodes for them names of its own, and a call is not even of the same shape everywhere: the
value that a member is called on is a part of the callee in most languages, and of the call itself
in Java.

A `Vocabulary` is what the grammar of a language calls what calls are made of; `vocabulary` has the
one of each language.
-/

namespace Concord.Source

/-- The names for a member access. -/
structure AccessNames where
  kind : String
  /-- The field of what the member is accessed on. -/
  receiver : String
  /-- The field of the member's name. -/
  member : String

/-- The names for an access that is made only on what is not null. -/
structure ConditionalNames where
  kind : String
  /-- The field of what the access is made on. -/
  receiver : String
  /-- What stands for a member in it. -/
  memberBinding : String
  /-- The field of the member's name, there. -/
  member : String
  /-- What stands for brackets in it. -/
  elementBinding : String

/-- The names for a call. -/
structure CallNames where
  kind : String
  /-- The field of what is called. -/
  callee : String
  /-- The field of what the call is made on, if that is no part of what is called. -/
  receiver : Option String
  /-- The field of the arguments. -/
  field : String
  /-- The arguments. -/
  arguments : String
  /-- What is around each argument, if anything is. -/
  argument : Option String

/-- What the grammar of a language calls what calls are made of. -/
structure Vocabulary where
  /-- A name by itself. -/
  name : String
  /-- The name of a member. -/
  member : String
  /-- The name of a member that only its class can see. -/
  hidden : String
  /-- A name with type arguments; the name is its first part. -/
  generic : Option String
  access : AccessNames
  conditional : Option ConditionalNames
  /-- An access in brackets. -/
  subscript : String
  call : CallNames
  parenthesized : String
  /-- A value asserted not to be null. -/
  nonNull : Option String
  literal : LiteralKind → Option String
  /-- Code in a literal. -/
  substitution : String
  comment : CommentKind → String
  /-- What else may stand anywhere. -/
  asides : List String

namespace Vocabulary

/-- JavaScript and TypeScript. -/
def script : Vocabulary where
  name := "identifier"
  member := "property_identifier"
  hidden := "private_property_identifier"
  generic := none
  access :=
    { kind := "member_expression"
      receiver := "object"
      member := "property" }
  conditional := none
  subscript := "subscript_expression"
  call :=
    { kind := "call_expression"
      callee := "function"
      receiver := none
      field := "arguments"
      arguments := "arguments"
      argument := none }
  parenthesized := "parenthesized_expression"
  nonNull := some "non_null_expression"
  literal
    | .string => some "string"
    | .template => some "template_string"
    | _ => none
  substitution := "template_substitution"
  comment
    | .markup => "html_comment"
    | _ => "comment"
  asides := []

/-- Python. -/
def python : Vocabulary where
  name := "identifier"
  member := "identifier"
  hidden := "identifier"
  generic := none
  access :=
    { kind := "attribute"
      receiver := "object"
      member := "attribute" }
  conditional := none
  subscript := "subscript"
  call :=
    { kind := "call"
      callee := "function"
      receiver := none
      field := "arguments"
      arguments := "argument_list"
      argument := none }
  parenthesized := "parenthesized_expression"
  nonNull := none
  literal
    | .string => some "string"
    | _ => none
  substitution := "interpolation"
  comment
    | .continuation => "line_continuation"
    | _ => "comment"
  asides := []

/-- C#. -/
def cSharp : Vocabulary where
  name := "identifier"
  member := "identifier"
  hidden := "identifier"
  generic := some "generic_name"
  access :=
    { kind := "member_access_expression"
      receiver := "expression"
      member := "name" }
  conditional := some
    { kind := "conditional_access_expression"
      receiver := "condition"
      memberBinding := "member_binding_expression"
      member := "name"
      elementBinding := "element_binding_expression" }
  subscript := "element_access_expression"
  call :=
    { kind := "invocation_expression"
      callee := "function"
      receiver := none
      field := "arguments"
      arguments := "argument_list"
      argument := some "argument" }
  parenthesized := "parenthesized_expression"
  nonNull := none
  literal
    | .string => some "string_literal"
    | .verbatim => some "verbatim_string_literal"
    | .rawRun => some "raw_string_literal"
    | .template => none
  substitution := "interpolation"
  comment := fun _ => "comment"
  asides :=
    ["preproc_region", "preproc_endregion", "preproc_line", "preproc_pragma", "preproc_nullable",
     "preproc_error", "preproc_define", "preproc_undef"]

/-- Java. -/
def java : Vocabulary where
  name := "identifier"
  member := "identifier"
  hidden := "identifier"
  generic := none
  access :=
    { kind := "field_access"
      receiver := "object"
      member := "field" }
  conditional := none
  subscript := "array_access"
  call :=
    { kind := "method_invocation"
      callee := "name"
      receiver := some "object"
      field := "arguments"
      arguments := "argument_list"
      argument := none }
  parenthesized := "parenthesized_expression"
  nonNull := none
  literal
    | .string => some "string_literal"
    | _ => none
  substitution := "string_interpolation"
  comment
    | .block => "block_comment"
    | _ => "line_comment"
  asides := []

end Vocabulary

/-- What the grammar of a language calls what calls are made of. -/
def vocabulary : CodeLanguage → Vocabulary
  | .javaScript | .typeScript => .script
  | .python => .python
  | .cSharp => .cSharp
  | .java => .java

end Concord.Source

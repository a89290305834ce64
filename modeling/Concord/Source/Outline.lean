import Concord.Source.Tree
import Concord.Source.Vocabulary

/-!
# Outlines

An outline is a syntax tree before a grammar has named its nodes: it tells names, accesses, calls
and literals apart, whatever the language calls them. Everything else is `other`.

* `Outline` – a node with its children;
* `Outline.toTree` – the same tree in the vocabulary of a language.
-/

namespace Concord.Source

/-- What a node is. -/
inductive Kind where
  | name
  /-- The name of a member. -/
  | member
  /-- The name of a member that only its class can see. -/
  | hidden
  /-- A name with type arguments. -/
  | generic
  /-- A member access: a receiver and the name of the member. -/
  | access
  /-- An access to what may be missing: a receiver and a binding. -/
  | conditional
  /-- The member in such an access. -/
  | memberBinding
  /-- The brackets in such an access. -/
  | elementBinding
  /-- An access in brackets: the first child is what is accessed. -/
  | subscript
  /-- A call: a callee and arguments. -/
  | call
  | arguments
  /-- One of the arguments. -/
  | argument
  | parenthesized
  /-- A value asserted not to be null. -/
  | nonNull
  | literal (kind : LiteralKind)
  | substitution
  | comment (kind : CommentKind)
  | other
deriving DecidableEq, Repr, Inhabited

/-- The role of a node in its parent. -/
inductive Role where
  | part
  | receiver
  | member
  | callee
  | arguments
deriving DecidableEq, Repr, Inhabited

/-- A node of an outline. -/
inductive Outline where
  | node (role : Role) (kind : Kind) (bytes : Bytes) (children : List Outline)
deriving Repr, Inhabited

/-! ### Names -/

namespace Vocabulary

/-- The name of a node that nothing looks for. -/
def unnamed : String := "_"

/-- The name of a kind of nodes. -/
def kind (v : Vocabulary) : Kind → String
  | .name => v.name
  | .member => v.member
  | .hidden => v.hidden
  | .generic => v.generic.getD unnamed
  | .access => v.access.kind
  | .conditional => (v.conditional.map ConditionalNames.kind).getD unnamed
  | .memberBinding => (v.conditional.map ConditionalNames.memberBinding).getD unnamed
  | .elementBinding => (v.conditional.map ConditionalNames.elementBinding).getD unnamed
  | .subscript => v.subscript
  | .call => v.call.kind
  | .arguments => v.call.arguments
  | .argument => v.call.argument.getD unnamed
  | .parenthesized => v.parenthesized
  | .nonNull => v.nonNull.getD unnamed
  | .literal k => (v.literal k).getD unnamed
  | .substitution => v.substitution
  | .comment k => v.comment k
  | .other => unnamed

/-- The field for a role in a node of a kind. -/
def field (v : Vocabulary) : Kind → Role → Option String
  | .access, .receiver => some v.access.receiver
  | .access, .member => some v.access.member
  | .conditional, .receiver => v.conditional.map ConditionalNames.receiver
  | .memberBinding, .member => v.conditional.map ConditionalNames.member
  | .call, .receiver => v.call.receiver
  | .call, .callee => some v.call.callee
  | .call, .arguments => some v.call.field
  | _, _ => none

end Vocabulary

namespace Outline

/-- The role of a node in its parent. -/
def role : Outline → Role
  | node r _ _ _ => r

/-- What a node is. -/
def kind : Outline → Kind
  | node _ k _ _ => k

/-- The bytes that a node takes up. -/
def bytes : Outline → Bytes
  | node _ _ b _ => b

/-- The parts of a node. -/
def children : Outline → List Outline
  | node _ _ _ cs => cs

/-- The node in another role. -/
def withRole (r : Role) : Outline → Outline
  | node _ k b cs => node r k b cs

/-- Whether a node is a comment. -/
def isComment (o : Outline) : Bool :=
  match o.kind with
  | .comment _ => true
  | _ => false

/-- Whether a node is a name. -/
def isName (o : Outline) : Bool :=
  match o.kind with
  | .name | .member | .hidden => true
  | _ => false

mutual

/-- A name with the type arguments after it, which end at a byte; for a member access, the name of
its member. -/
def withTypeArguments (stop : Nat) : Outline → Outline
  | node r k b cs =>
    match k with
    | .name | .member | .hidden => node r .generic ⟨b.start, stop⟩ [node .part k b cs]
    | .access | .conditional | .memberBinding =>
      node r k ⟨b.start, stop⟩ (lastWithTypeArguments stop cs)
    | _ => node r k b cs

/-- The same for the last of some nodes. -/
def lastWithTypeArguments (stop : Nat) : List Outline → List Outline
  | [] => []
  | [o] => [withTypeArguments stop o]
  | o :: os => o :: lastWithTypeArguments stop os

end

mutual

/-- The tree in the vocabulary of a language. -/
def toTree (v : Vocabulary) (field : Option String) : Outline → Tree
  | node _ k b cs => .node field (v.kind k) b (toTrees v k cs)

/-- The trees of the parts of a node. -/
def toTrees (v : Vocabulary) (parent : Kind) : List Outline → List Tree
  | [] => []
  | o :: os => toTree v (v.field parent o.role) o :: toTrees v parent os

end

end Outline

end Concord.Source

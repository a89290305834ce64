import Concord.Source.Token

/-!
# Syntax trees

A syntax tree is what the grammar of a language makes of a text. Each of its nodes has a kind and
may fill a field of its parent; both go by the names that the grammar gives them, and every grammar
has names of its own. The children of a node are its parts in the order of the text. Words and
marks of the language that the grammar does not name are left out: nothing looks at them.

* `Tree` – a node with its children;
* `Tree.child?` – the part in a field;
* `Tree.subtrees` – a node and everything below it, in the order of the text.
-/

namespace Concord.Source

/-- The bytes from `start` to `stop`. -/
structure Bytes where
  start : Nat
  stop : Nat
deriving DecidableEq, Repr, Inhabited

/-- A node of a syntax tree. -/
inductive Tree where
  | node (field : Option String) (kind : String) (bytes : Bytes) (children : List Tree)
deriving Repr, Inhabited

namespace Tree

/-- The field of its parent that a node fills. -/
def field : Tree → Option String
  | node f _ _ _ => f

/-- What a node is. -/
def kind : Tree → String
  | node _ k _ _ => k

/-- The bytes that a node takes up. -/
def bytes : Tree → Bytes
  | node _ _ b _ => b

/-- The parts of a node. -/
def children : Tree → List Tree
  | node _ _ _ cs => cs

/-- The first part in a field. -/
def child? (t : Tree) (field : String) : Option Tree :=
  t.children.find? fun c => c.field = some field

/-- Whether a part of a node is of a kind. -/
def hasChild (t : Tree) (kind : String) : Bool := t.children.any fun c => c.kind = kind

/-- The text that a node takes up. A node that does not fit the source takes up none. -/
def text (source : List Char) (t : Tree) : List Char :=
  (Text.slice? t.bytes.start t.bytes.stop source).getD []

mutual

/-- A node and everything below it, each node before its children. -/
def subtrees : Tree → List Tree
  | node f k b cs => node f k b cs :: subtreesOf cs

/-- The nodes of a list and everything below them. -/
def subtreesOf : List Tree → List Tree
  | [] => []
  | t :: ts => subtrees t ++ subtreesOf ts

end

theorem sizeOf_lt_of_mem_children {t u : Tree} (h : u ∈ t.children) : sizeOf u < sizeOf t := by
  obtain ⟨field, kind, bytes, children⟩ := t
  have hlt : sizeOf u < sizeOf children := List.sizeOf_lt_of_mem h
  simp only [node.sizeOf_spec]
  omega

theorem mem_children_of_child? {t u : Tree} {field : String} (h : t.child? field = some u) :
    u ∈ t.children :=
  List.mem_of_find?_eq_some h

theorem field_of_child? {t u : Tree} {field : String} (h : t.child? field = some u) :
    u.field = some field := by
  simpa using List.find?_some h

end Tree

end Concord.Source

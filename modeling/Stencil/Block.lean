import Stencil.Segment

/-!
# Blocks

A block has variables, text, and nested blocks in between: gap 0 stands in front of the first
nested block, gap `k + 1` behind nested block `k`. Its state says how far the current pass has
written it.
-/

namespace Stencil

/-- How far a pass has come with a block: not reached, waited for, being written at one of its
nested blocks, written, or left out. -/
inductive State where
  | out
  | ready
  | active (child : Nat)
  | used
  | closed
  deriving Repr, BEq, DecidableEq

namespace State

/-- Whether a block is partly written. -/
def isActive : State → Bool
  | active _ => true
  | _ => false

/-- The name of a state in reports. -/
def text : State → String
  | out => "OUT"
  | ready => "READY"
  | active k => s!"ACTIVE({k})"
  | used => "USED"
  | closed => "CLOSED"

end State

/-- A part of a template that is written as often as its parent's pass asks. The root block
has no name. -/
structure Block where
  name : Option String
  vars : Variables
  gaps : List (List Segment)
  children : List Block
  span : Span
  state : State
  deriving Repr, BEq

namespace Block

/-- Whether this is the block of the whole template. -/
def isRoot (b : Block) : Bool := b.name.isNone

/-- The names of the nested blocks in document order. -/
def childNames (b : Block) : List String := b.children.filterMap (·.name)

/-- The place of the nested block of a name. -/
def childIndex? (b : Block) (name : String) : Option Nat :=
  b.children.findIdx? (·.name == some name)

/-- Whether a nested block has this name. -/
def hasChild (b : Block) (name : String) : Bool := (b.childIndex? name).isSome

/-- The block with nested block `k` changed. -/
def modifyChild (b : Block) (k : Nat) (f : Block → Block) : Block :=
  { b with children := b.children.modify k f }

/-- The block that names lead to, each naming a block nested in the one before. -/
def descend? (b : Block) : List String → Option Block
  | [] => some b
  | name :: path =>
    match b.childIndex? name with
    | none => none
    | some k => b.children[k]?.bind (·.descend? path)

/-- The segments of gap `k`. -/
def gap (b : Block) (k : Nat) : List Segment := (b.gaps[k]?).getD []

/-- How many segments the block's own text has. -/
def ownCount (b : Block) : Nat := b.gaps.flatten.length

mutual

/-- The block and everything nested in it, each block in front of its nested ones. -/
def preorder : Block → List Block
  | ⟨name, vs, gaps, cs, span, state⟩ => ⟨name, vs, gaps, cs, span, state⟩ :: preorderAll cs

def preorderAll : List Block → List Block
  | [] => []
  | c :: cs => c.preorder ++ preorderAll cs

end

/-- The state of the block and of everything nested in it. -/
def states (b : Block) : List State := b.preorder.map (·.state)

/-- The current values of the block and of everything nested in it. -/
def values (b : Block) : List (List (String × String)) :=
  b.preorder.map fun c => c.vars.entries.map fun v => (v.name, v.value)

end Block

end Stencil

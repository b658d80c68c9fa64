import Stencil.Note
import Stencil.Tag.Scan
import Stencil.Template.Layout

/-!
# Reading templates

A template is read tag by tag. The block being read and those around it are frames; an opening
tag of a block adds a frame, a closing tag turns the innermost one into a block of the next,
and a variable is declared in the innermost. Text in front of a tag goes to the innermost
frame and is cut at the placeholders declared there so far. What stops the reading is the
first defect in the order of the source.
-/

namespace Stencil

open Text

/-- What an opening tag declares. -/
inductive Declaration where
  | block (name : String)
  | var (name : String) (place : Option String)
  deriving Repr, BEq, DecidableEq

/-- What the attributes of an opening tag declare. -/
def Attributes.declaration (a : Attributes) : Except Fault Declaration :=
  match a.get? "blk", a.get? "var" with
  | some name, other =>
    if name = "" then .error .emptyBlockName
    else if other.isSome then .error .bothBlockAndVariable
    else .ok (.block name)
  | none, some name =>
    if name = "" then .error .emptyVariableName
    else .ok (.var name (a.get? "place"))
  | none, none => .error .missingAttribute

namespace Variables

/-- Declares a variable for the text that follows; `span` is its tag. -/
def declare? (vs : Variables) (name : String) (place : Option String) (span : Span) : Except Defect Variables :=
  if vs.declares name then .error ⟨.duplicateVariable name, span⟩
  else
    match place with
    | none => .error ⟨.missingPlaceholder, span⟩
    | some place =>
      if place = "" then .error ⟨.missingPlaceholder, span⟩
      else .ok (vs.declare name place span)

/-- The variables that none of some segments carries, by name in byte order. -/
def missing (vs : Variables) (ss : List Segment) : List Variable :=
  let carried (i : Nat) : Bool := ss.any (·.var == some i)
  ((vs.entries.zipIdx.filter fun (_, i) => !carried i).map (·.1)).mergeSort
    fun a b => decide (a.name ≤ b.name)

end Variables

/-- A block whose end has not been read: its finished gaps, the gap in progress, and the rest
of a block. -/
structure Frame where
  name : Option String
  opening : Span
  vars : Variables
  gaps : List (List Segment)
  gap : List Segment
  children : List Block

namespace Frame

/-- A block that has just been opened. -/
def opened (name : Option String) (opening : Span) : Frame :=
  ⟨name, opening, .empty, [], [], []⟩

/-- Adds text of the block itself. -/
def read (f : Frame) (text : List Char) : Frame :=
  { f with gap := (f.vars.decompose text f.gap).1 }

/-- Adds a nested block, which ends the gap in progress. -/
def nest (f : Frame) (child : Block) : Frame :=
  { f with gaps := f.gaps ++ [f.gap], gap := [], children := f.children ++ [child] }

/-- Whether a nested block of this name has been read. -/
def hasChild (f : Frame) (name : String) : Bool :=
  f.children.any (·.name == some name)

/-- Declares a variable of the block. -/
def declare (f : Frame) (name : String) (place : Option String) (span : Span) :
    Except Defect Frame :=
  (f.vars.declare? name place span).map fun vs => { f with vars := vs }

/-- All gaps, the one in progress last. -/
def allGaps (f : Frame) : List (List Segment) := f.gaps ++ [f.gap]

/-- The variables that no segment of the block carries. -/
def unmatched (f : Frame) : List Variable := f.vars.missing f.allGaps.flatten

/-- The block that ends at byte `stop`. Each of its variables has to occur in its text. -/
def close (f : Frame) (stop : Nat) : Except Defect Block :=
  match f.unmatched with
  | [] => .ok ⟨f.name, f.vars, f.allGaps, f.children, ⟨f.opening.start, stop⟩, .out⟩
  | v :: vs => .error ⟨.placeholdersNotFound ((v :: vs).map (·.name)), v.span⟩

end Frame

/-- The note that a block has been read. -/
def Block.note (b : Block) : Note :=
  .readBlock b.name b.children.length b.ownCount b.vars.size

/-- A template that has been read up to some tag: the innermost open block, those around it
from the inside out, and the notes made so far. -/
structure Builder where
  frame : Frame
  enclosing : List Frame
  notes : List Note

namespace Builder

/-- Reads the text in front of a tag, then the tag. -/
def step (b : Builder) (p : Tag.Piece) : Except Defect Builder :=
  let frame := b.frame.read p.text
  let span := p.tag.span
  match p.tag.kind with
  | .closing =>
    match b.enclosing with
    | [] => .error ⟨.unmatchedClose, span⟩
    | parent :: others =>
      (frame.close span.stop).map fun block =>
        ⟨parent.nest block, others, b.notes ++ [block.note]⟩
  | .opening attributes =>
    match attributes.declaration with
    | .error fault => .error ⟨fault, span⟩
    | .ok (.block name) =>
      if frame.hasChild name then .error ⟨.duplicateBlock name, span⟩
      else .ok ⟨.opened (some name) span, frame :: b.enclosing, b.notes⟩
    | .ok (.var name place) =>
      (frame.declare name place span).map fun frame => { b with frame := frame }

/-- Reads tags until one is defective: how far it came, and the defect. -/
def run (b : Builder) : List Tag.Piece → Builder × Option Defect
  | [] => (b, none)
  | p :: ps =>
    match b.step p with
    | .ok b => b.run ps
    | .error d => (b, some d)

/-- Reads the text behind the last tag and closes the root at byte `size`. -/
def finish (b : Builder) (size : Nat) (tail : Except Defect (List Char)) : Except Defect Block := do
  let text ← tail
  match b.enclosing with
  | [] => (b.frame.read text).close size
  | _ :: _ => .error ⟨.unclosedBlock (b.frame.name.getD ""), b.frame.opening⟩

end Builder

namespace Template

/-- What reading a template gives, and the notes made on the way. -/
structure Reading where
  notes : List Note
  result : Except ParseError Block

/-- Reads a template from the source of a file. -/
def read (source : String) (file : Nat) : Reading :=
  let cs := source.toList
  let size := byteCount cs
  let scan := Tag.scan 0 cs
  let start : Builder := ⟨.opened none ⟨0, size⟩, [], []⟩
  match start.run scan.pieces with
  | (b, some d) => ⟨b.notes, .error (d.inFile file)⟩
  | (b, none) =>
    match b.finish size scan.tail with
    | .error d => ⟨b.notes, .error (d.inFile file)⟩
    | .ok root =>
      ⟨b.notes ++ [root.note, .readTemplate root.children.length file root.store.size], .ok root⟩

/-- The root block of a template. -/
def parse (source : String) (file : Nat) : Except ParseError Block :=
  (read source file).result

end Template

end Stencil

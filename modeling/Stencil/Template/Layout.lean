import Stencil.Block

/-!
# Segments in one store

The segments of a whole template stand in one row. Each block has a contiguous range of it,
its gaps one behind the other, and nested blocks stand in front of the block that holds them.
-/

namespace Stencil

/-- A row of segments that only grows. -/
structure Store where
  segments : List Segment
  deriving Repr, BEq, DecidableEq

namespace Store

/-- No segments. -/
def empty : Store := ⟨[]⟩

/-- How many segments there are. -/
def size (s : Store) : Nat := s.segments.length

/-- Whether there are none. -/
def isEmpty (s : Store) : Bool := s.segments.isEmpty

/-- Adds segments at the end: the range they take, and the longer store. -/
def append (s : Store) (more : List Segment) : Span × Store :=
  (⟨s.size, s.size + more.length⟩, ⟨s.segments ++ more⟩)

/-- The segments of a range. -/
def get (s : Store) (range : Span) : List Segment :=
  (s.segments.drop range.start).take range.size

/-- What was appended stands in the range that was given for it. -/
theorem get_append (s : Store) (more : List Segment) :
    (s.append more).2.get (s.append more).1 = more := by
  simp [append, get, size, Span.size]

/-- Appending leaves every range of the store as it was. -/
theorem get_append_of_le {s : Store} {range : Span} (more : List Segment)
    (h : range.stop ≤ s.size) (lower : range.start ≤ range.stop) :
    (s.append more).2.get range = s.get range := by
  simp only [size] at h
  simp only [append, get, Span.size]
  rw [List.drop_append_of_le_length (by omega), List.take_append_of_le_length]
  rw [List.length_drop]; omega

end Store

/-- Where the segments of a block stand in the store: all of them, and those of each gap. -/
structure Placement where
  range : Span
  gaps : List Span
  children : List Placement
  deriving Repr, BEq

/-- The ranges of gaps that stand one behind the other from `start` on. -/
def Placement.gapSpans (start : Nat) : List (List Segment) → List Span
  | [] => []
  | gap :: gaps => ⟨start, start + gap.length⟩ :: gapSpans (start + gap.length) gaps

namespace Block

mutual

/-- Appends the segments of a block to a store: first those of its nested blocks, then its
own. -/
def layOut (s : Store) : Block → Placement × Store
  | ⟨_, _, gaps, cs, _, _⟩ =>
    let (children, s) := layOutAll s cs
    let (range, s) := s.append gaps.flatten
    (⟨range, Placement.gapSpans range.start gaps, children⟩, s)

def layOutAll (s : Store) : List Block → List Placement × Store
  | [] => ([], s)
  | c :: cs =>
    let (first, s) := c.layOut s
    let (others, s) := layOutAll s cs
    (first :: others, s)

end

/-- All segments of a block and of the blocks nested in it. -/
def store (b : Block) : Store := (b.layOut .empty).2

/-- Where the segments stand in that store. -/
def placement (b : Block) : Placement := (b.layOut .empty).1

end Block

end Stencil

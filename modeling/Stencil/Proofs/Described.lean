import Stencil.Proofs.Cutting
import Stencil.Proofs.Outline

/-!
# The template an outline describes

`Outline.root` is the template that the tags of a source describe: in each block the variables and
nested blocks of its own tags in their order, and its own text cut with the variables declared so
far. `Outline.Lawful` is what a block asks of its own tags for that.
-/

namespace Stencil

open Text
open Tag (Piece)

namespace Outline

/-! ## The template of an outline -/

/-- The variables declared directly in a block. -/
def table : Outline → List Variable
  | nil => []
  | var p next => ⟨p.tag.var, p.tag.place, p.tag.place, p.tag.span⟩ :: next.table
  | block _ _ _ next => next.table

/-- Puts segments in front of the first gap. -/
def ontoFirst (front : List Segment) : List (List Segment) → List (List Segment)
  | [] => [front]
  | gap :: gaps => (front ++ gap) :: gaps

/-- The gaps of a block's own text. Each stretch is cut with the variables declared in front of it,
to begin with those of `vs`; `tail` is the text behind the last tag. -/
def gaps : Variables → Outline → (tail : List Char) → List (List Segment)
  | vs, nil, tail => [vs.segments tail]
  | vs, var p next, tail =>
    ontoFirst (vs.segments p.text) (gaps (vs.declareBy p.tag) next tail)
  | vs, block opening _ _ next, tail => vs.segments opening.text :: gaps vs next tail

/-- The block around an outline, whose nested blocks are `children`. -/
def around (name : Option String) (span : Span) (o : Outline) (tail : List Char) (children : List Block) :
    Block :=
  ⟨name, ⟨o.table⟩, gaps .empty o tail, children, span, .out⟩

/-- The nested blocks, each from its opening tag to the end of its closing tag. -/
def blocks : Outline → List Block
  | nil => []
  | var _ next => next.blocks
  | block opening body closing next =>
    around (some opening.tag.blk) ⟨opening.tag.span.start, closing.tag.span.stop⟩ body closing.text body.blocks ::
      next.blocks

/-- The nested block between two tags. -/
def nested (opening : Piece) (body : Outline) (closing : Piece) : Block :=
  around (some opening.tag.blk) ⟨opening.tag.span.start, closing.tag.span.stop⟩ body closing.text body.blocks

theorem blocks_block (opening : Piece) (body : Outline) (closing : Piece) (next : Outline) :
    (block opening body closing next).blocks = nested opening body closing :: next.blocks := rfl

/-- The template of an outline in a source of `size` bytes. -/
def root (o : Outline) (tail : List Char) (size : Nat) : Block :=
  around none ⟨0, size⟩ o tail o.blocks

/-- The notes made while an outline is read: one for each block at its end. -/
def notes : Outline → List Note
  | nil => []
  | var _ next => next.notes
  | block opening body closing next =>
    body.notes ++ (nested opening body closing).note :: next.notes

/-! ## Lawful outlines -/

/-- Every variable is taken at least once when the block's own text behind its declaration is cut. -/
def Carried : Variables → Outline → List Char → Prop
  | _, nil, _ => True
  | vs, var p next, tail =>
    (∃ s ∈ (gaps (vs.declareBy p.tag) next tail).flatten, s.var = some vs.size) ∧
      Carried (vs.declareBy p.tag) next tail
  | vs, block _ _ _ next, tail => Carried vs next tail

/-- What a block asks of the tags directly enclosed by it. -/
structure Lawful (o : Outline) (tail : List Char) : Prop where
  blocks : (o.blocks.map (·.name)).Nodup
  vars : (o.table.map (·.name)).Nodup
  places : ∀ v ∈ o.table, v.placeholder ≠ ""
  carried : Carried .empty o tail

/-- The nested blocks of an outline are lawful at every depth. -/
def LawfulBelow : Outline → Prop
  | nil => True
  | var _ next => next.LawfulBelow
  | block _ body closing next => body.Lawful closing.text ∧ body.LawfulBelow ∧ next.LawfulBelow

/-! ## What is carried -/

theorem gaps_ne_nil (vs : Variables) (o : Outline) (tail : List Char) : gaps vs o tail ≠ [] := by
  cases o with
  | nil | block => simp [gaps]
  | var p next =>
    rw [gaps]
    cases gaps (vs.declareBy p.tag) next tail <;> simp [ontoFirst]

theorem ontoFirst_append (xs ys : List Segment) (gs : List (List Segment)) :
    ontoFirst (xs ++ ys) gs = ontoFirst xs (ontoFirst ys gs) := by
  cases gs <;> simp [ontoFirst]

theorem ontoFirst_nil {gs : List (List Segment)} (h : gs ≠ []) : ontoFirst [] gs = gs := by
  cases gs with
  | nil => exact absurd rfl h
  | cons => rfl

theorem flatten_ontoFirst (front : List Segment) (gs : List (List Segment)) :
    (ontoFirst front gs).flatten = front ++ gs.flatten := by
  cases gs <;> simp [ontoFirst]

/-- Every variable declared in an outline is carried exactly when the gaps carry every index behind
those of the variables declared before. -/
theorem carried_iff {vs : Variables} {o : Outline} {tail : List Char} :
    Carried vs o tail ↔
      ∀ i, vs.size ≤ i → i < vs.size + o.table.length → ∃ s ∈ (gaps vs o tail).flatten, s.var = some i := by
  induction o generalizing vs with
  | nil =>
    constructor
    · intro _ i le lt
      simp only [table, List.length_nil] at lt
      omega
    · exact fun _ => trivial
  | var p next ih =>
    have size : (vs.declareBy p.tag).size = vs.size + 1 := Variables.size_declare ..
    rw [Carried, ih, gaps, flatten_ontoFirst, table, List.length_cons, size]
    constructor
    · rintro ⟨⟨s, hs, here⟩, later⟩ i le lt
      rcases Nat.eq_or_lt_of_le le with rfl | gt
      · exact ⟨s, List.mem_append.2 (.inr hs), here⟩
      · obtain ⟨s, hs, e⟩ := later i (by omega) (by omega)
        exact ⟨s, List.mem_append.2 (.inr hs), e⟩
    · intro all
      -- What is cut before the declaration cannot carry the variable.
      have behind (i : Nat) (le : vs.size ≤ i) (lt : i < vs.size + (next.table.length + 1)) :
          ∃ s ∈ (gaps (vs.declareBy p.tag) next tail).flatten, s.var = some i := by
        obtain ⟨s, hs, e⟩ := all i le lt
        rcases List.mem_append.1 hs with early | late
        · have := Variables.var_lt_of_mem_segments early e
          omega
        · exact ⟨s, late, e⟩
      exact ⟨behind _ (Nat.le_refl _) (by omega), fun i le lt => behind i (by omega) (by omega)⟩
  | block opening body closing next _ ih =>
    rw [Carried, ih, gaps, List.flatten_cons, table]
    constructor
    · intro all i le lt
      obtain ⟨s, hs, e⟩ := all i le lt
      exact ⟨s, List.mem_append.2 (.inr hs), e⟩
    · intro all i le lt
      obtain ⟨s, hs, e⟩ := all i le lt
      rcases List.mem_append.1 hs with early | late
      · have := Variables.var_lt_of_mem_segments early e
        omega
      · exact ⟨s, late, e⟩

end Outline

end Stencil

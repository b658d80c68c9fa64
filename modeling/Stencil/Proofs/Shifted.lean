import Stencil.Proofs.Described
import Stencil.Proofs.Openers

/-!
# Text at another place of a source

A text that stands `n` bytes further on has the same tags, and the same defect, `n` bytes further on
(`scan_shift`). Moving the tags of an outline moves the blocks it describes (`blocks_shift`); how text is cut
and what is lawful does not depend on the place.
-/

namespace Stencil

open Text

/-! ## The scan -/

/-- The defect `n` bytes further on. -/
def Defect.shift (n : Nat) (d : Defect) : Defect := ⟨d.fault, d.span.shift n⟩

namespace Tag

/-- The tag `n` bytes further on. -/
def shift (n : Nat) (t : Tag) : Tag := ⟨t.kind, t.span.shift n⟩

/-- The same text in front of the tag, `n` bytes further on. -/
def Piece.shift (n : Nat) (p : Piece) : Piece := ⟨p.text, p.tag.shift n⟩

/-- The same texts around the tag, `n` bytes further on. -/
def Found.shift (n : Nat) (f : Found) : Found := ⟨f.front, f.tag.shift n, f.rest⟩

theorem complete_shift (o : Opener) (start n : Nat) (rest : List Char) :
    complete o (start + n) rest =
      ((complete o start rest).map fun (t, behind) => (t.shift n, behind)).mapError (·.shift n) := by
  have moved (size : Nat) : (⟨start + n, start + n + size⟩ : Span) = (⟨start, start + size⟩ : Span).shift n := by
    rw [Span.shift, Nat.add_right_comm]
  cases cut : cutAt? closer rest with
  | none =>
    rw [complete_of_missing cut, complete_of_missing cut, moved]
    rfl
  | some parts =>
    obtain ⟨inside, behind⟩ := parts
    rw [complete_of_cut cut, complete_of_cut cut, moved]
    cases o.kind inside <;> rfl

theorem find_shift (pos n : Nat) (cs : List Char) :
    find (pos + n) cs = ((find pos cs).map (Option.map (·.shift n))).mapError (·.shift n) := by
  rw [find_eq, find_eq]
  cases firstOpener? cs with
  | none => rfl
  | some found =>
    obtain ⟨front, o, rest⟩ := found
    dsimp only
    rw [Nat.add_right_comm, complete_shift]
    cases complete o (pos + byteCount front) rest <;> rfl

theorem scan_shift (pos n : Nat) (cs : List Char) :
    scan (pos + n) cs = ⟨(scan pos cs).pieces.map (·.shift n), (scan pos cs).tail.mapError (·.shift n)⟩ := by
  induction h : cs.length using Nat.strongRecOn generalizing pos cs with
  | ind size ih =>
    have moved := find_shift pos n cs
    cases found : find pos cs with
    | error d =>
      rw [found] at moved
      rw [scan_of_error found, scan_of_error moved]
      rfl
    | ok r =>
      rw [found] at moved
      cases r with
      | none =>
        rw [scan_of_none found, scan_of_none moved]
        rfl
      | some f =>
        have further := ih f.rest.length (h ▸ find_shorter found) f.tag.span.stop f.rest rfl
        rw [scan_of_some found, scan_of_some moved]
        show (⟨_ :: (scan (f.tag.span.stop + n) f.rest).pieces, (scan (f.tag.span.stop + n) f.rest).tail⟩ : Scan) = _
        rw [further]
        rfl

end Tag

open Tag (Piece)

/-! ## The tags of an outline -/

namespace Outline

/-- The outline with all its tags `n` bytes further on. -/
def shift (n : Nat) : Outline → Outline
  | nil => nil
  | var p next => var (p.shift n) (next.shift n)
  | block opening body closing next =>
    block (opening.shift n) (body.shift n) (closing.shift n) (next.shift n)

variable {n : Nat} {o : Outline} {tail : List Char}

theorem pieces_shift : (o.shift n).pieces = o.pieces.map (·.shift n) := by
  induction o with
  | nil => rfl
  | var p next ih => rw [shift, pieces, pieces, ih, List.map_cons]
  | block opening body closing next ih_body ih_next =>
    rw [shift, pieces, pieces, ih_body, ih_next, List.map_append, List.map_cons, List.map_cons]

theorem shaped_shift : (o.shift n).Shaped ↔ o.Shaped := by
  induction o with
  | nil => rfl
  | var p next ih => rw [shift, Shaped, Shaped, ih]; rfl
  | block opening body closing next ih_body ih_next => rw [shift, Shaped, Shaped, ih_body, ih_next]; rfl

/-- The outline of tags that were moved is that of the tags themselves, moved. -/
theorem Outlines.unshift {ps : List Piece} (h : o.Outlines (ps.map (·.shift n))) :
    ∃ o' : Outline, o'.Outlines ps ∧ o'.shift n = o := by
  have same (d : Nat) (ps : List Piece) :
      Tag.openAfter d ((ps.map (·.shift n)).map (·.tag)) = Tag.openAfter d (ps.map (·.tag)) := by
    induction ps generalizing d with
    | nil => rfl
    | cons p ps ih =>
      have closes : (p.shift n).tag.closes = p.tag.closes := rfl
      have opens : (p.shift n).tag.opens = p.tag.opens := rfl
      simp only [List.map_cons, Tag.openAfter, closes, opens, ih]
  have balanced := balanced_iff.2 ⟨o, h⟩
  unfold Tag.Balanced at balanced
  rw [same] at balanced
  obtain ⟨o', outlines⟩ := balanced_iff.1 balanced
  refine ⟨o', outlines, Outlines.unique ⟨shaped_shift.2 outlines.shaped, ?_⟩ h⟩
  rw [pieces_shift, outlines.pieces]

end Outline

/-! ## Variables -/

/-- The variable with its tag `n` bytes further on. -/
def Variable.shift (n : Nat) (v : Variable) : Variable := { v with span := v.span.shift n }

namespace Variables

/-- The table with all tags `n` bytes further on. -/
def shift (n : Nat) (vs : Variables) : Variables := ⟨vs.entries.map (·.shift n)⟩

/-- What is found in a text depends on nothing but the placeholders. -/
theorem hit?_congr {vs ws : List Variable} (same : vs.map (·.placeholder) = ws.map (·.placeholder))
    (cs : List Char) (i : Nat) : hit? cs i vs = hit? cs i ws := by
  induction vs generalizing ws i with
  | nil =>
    cases ws with
    | nil => rfl
    | cons => cases same
  | cons v vs ih =>
    cases ws with
    | nil => cases same
    | cons w ws =>
      obtain ⟨place, others⟩ := List.cons.inj same
      have place' : v.placeholder = w.placeholder := place
      have take : v.take? cs = w.take? cs := by unfold Variable.take?; rw [place']
      rw [hit?, hit?, take, ih others]

theorem segmentsAfter_of_hit {vs : Variables} {seen cs rest : List Char} {i : Nat}
    (hit : hit? cs 0 vs.entries = some (i, rest)) :
    vs.segmentsAfter seen cs = ⟨String.ofList seen.reverse, some i⟩ :: vs.segmentsAfter [] rest := by
  rw [segmentsAfter]
  split
  · next e => rw [hit] at e; cases e; rfl
  · next e => rw [hit] at e; cases e

theorem segmentsAfter_of_miss {vs : Variables} {seen cs : List Char} (miss : hit? cs 0 vs.entries = none) :
    vs.segmentsAfter seen cs =
      match cs with
      | [] => [⟨String.ofList seen.reverse, none⟩]
      | c :: rest => vs.segmentsAfter (c :: seen) rest := by
  rw [segmentsAfter]
  split
  · next e => rw [miss] at e; cases e
  · cases cs <;> rfl

theorem segmentsAfter_congr {vs ws : Variables}
    (same : vs.entries.map (·.placeholder) = ws.entries.map (·.placeholder)) (seen cs : List Char) :
    vs.segmentsAfter seen cs = ws.segmentsAfter seen cs := by
  induction h : cs.length using Nat.strongRecOn generalizing seen cs with
  | ind size ih =>
    have hits := hit?_congr same cs 0
    cases hit : hit? cs 0 vs.entries with
    | some found =>
      obtain ⟨i, rest⟩ := found
      rw [segmentsAfter_of_hit hit, segmentsAfter_of_hit (hits.symm.trans hit),
        ih rest.length (h ▸ hit?_shorter hit) [] rest rfl]
    | none =>
      rw [segmentsAfter_of_miss hit, segmentsAfter_of_miss (hits.symm.trans hit)]
      cases cs with
      | nil => rfl
      | cons c rest => exact ih rest.length (by simp [← h]) (c :: seen) rest rfl

theorem segments_shift (vs : Variables) (n : Nat) (text : List Char) :
    (vs.shift n).segments text = vs.segments text := by
  apply segmentsAfter_congr
  rw [shift, List.map_map]
  rfl

theorem declareBy_shift (vs : Variables) (n : Nat) (t : Tag) :
    (vs.shift n).declareBy (t.shift n) = (vs.declareBy t).shift n := by
  unfold declareBy declare shift
  rw [List.map_append]
  rfl

end Variables

/-! ## Blocks -/

namespace Block

mutual

/-- The block with all tags in it `n` bytes further on. -/
def shift (n : Nat) : Block → Block
  | ⟨name, vs, gaps, cs, span, state⟩ => ⟨name, vs.shift n, gaps, shiftAll n cs, span.shift n, state⟩

def shiftAll (n : Nat) : List Block → List Block
  | [] => []
  | c :: cs => c.shift n :: shiftAll n cs

end

theorem shiftAll_eq_map (n : Nat) (cs : List Block) : shiftAll n cs = cs.map (·.shift n) := by
  induction cs with
  | nil => rfl
  | cons c cs ih => rw [shiftAll, ih, List.map_cons]

theorem shift_eq (n : Nat) (b : Block) :
    b.shift n = ⟨b.name, b.vars.shift n, b.gaps, b.children.map (·.shift n), b.span.shift n, b.state⟩ := by
  cases b
  rw [shift, shiftAll_eq_map]

@[simp] theorem name_shift (n : Nat) (b : Block) : (b.shift n).name = b.name := by rw [shift_eq]

@[simp] theorem gaps_shift (n : Nat) (b : Block) : (b.shift n).gaps = b.gaps := by rw [shift_eq]

@[simp] theorem children_shift (n : Nat) (b : Block) : (b.shift n).children = b.children.map (·.shift n) := by
  rw [shift_eq]

end Block

namespace Outline

variable {n : Nat} {o : Outline} {tail : List Char}

theorem table_shift : (o.shift n).table = o.table.map (·.shift n) := by
  induction o with
  | nil => rfl
  | var p next ih =>
    rw [shift, table, table, ih, List.map_cons]
    rfl
  | block _ _ _ next _ ih => exact ih

theorem gaps_shift {vs : Variables} : gaps (vs.shift n) (o.shift n) tail = gaps vs o tail := by
  induction o generalizing vs with
  | nil => rw [shift, gaps, gaps, Variables.segments_shift]
  | var p next ih =>
    have declared : (vs.shift n).declareBy (p.shift n).tag = (vs.declareBy p.tag).shift n := vs.declareBy_shift n p.tag
    rw [shift, gaps, gaps, declared, ih, Variables.segments_shift]
    rfl
  | block opening body closing next _ ih =>
    rw [shift, gaps, gaps, ih, Variables.segments_shift]
    rfl

theorem gaps_empty_shift : gaps .empty (o.shift n) tail = gaps .empty o tail := by
  have moved : gaps (Variables.empty.shift n) (o.shift n) tail = gaps .empty o tail := gaps_shift
  exact moved

theorem around_shift {name : Option String} {span : Span} {children : List Block} :
    around name (span.shift n) (o.shift n) tail (children.map (·.shift n)) =
      (around name span o tail children).shift n := by
  unfold around
  rw [Block.shift_eq, gaps_empty_shift, table_shift]
  rfl

theorem blocks_shift : (o.shift n).blocks = o.blocks.map (·.shift n) := by
  induction o with
  | nil => rfl
  | var p next ih => exact ih
  | block opening body closing next ih_body ih_next =>
    rw [shift, blocks, blocks, List.map_cons, ih_next, ih_body, ← around_shift]
    rfl

theorem lawful_shift : (o.shift n).Lawful tail ↔ o.Lawful tail := by
  have names : (o.shift n).blocks.map (·.name) = o.blocks.map (·.name) := by
    rw [blocks_shift, List.map_map]
    apply List.map_congr_left
    intro b _
    exact b.name_shift n
  have vars : (o.shift n).table.map (·.name) = o.table.map (·.name) := by
    rw [table_shift, List.map_map]
    rfl
  have places : (∀ v ∈ (o.shift n).table, v.placeholder ≠ "") ↔ ∀ v ∈ o.table, v.placeholder ≠ "" := by
    rw [table_shift, List.forall_mem_map]
    rfl
  have carried : Carried .empty (o.shift n) tail ↔ Carried .empty o tail := by
    rw [carried_iff, carried_iff, gaps_empty_shift, table_shift, List.length_map]
  constructor
  · rintro ⟨b, v, p, c⟩
    exact ⟨names ▸ b, vars ▸ v, places.1 p, carried.1 c⟩
  · rintro ⟨b, v, p, c⟩
    exact ⟨names ▸ b, vars ▸ v, places.2 p, carried.2 c⟩

theorem lawfulBelow_shift : (o.shift n).LawfulBelow ↔ o.LawfulBelow := by
  induction o with
  | nil => rfl
  | var p next ih => exact ih
  | block opening body closing next ih_body ih_next =>
    have text : (closing.shift n).text = closing.text := rfl
    rw [shift, LawfulBelow, LawfulBelow, text, lawful_shift, ih_body, ih_next]

end Outline

end Stencil

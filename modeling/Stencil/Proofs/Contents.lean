import Stencil.Proofs.Grammar

/-!
# The blocks of an outline

Every block nested in a template, at whatever depth, is the block between two tags of the outline
(`exists_contains`). What holds of an outline at every depth so holds of every block of the template
(`Template.exists_content`).
-/

namespace Stencil

open Tag (Piece)

namespace Outline

/-- Somewhere in an outline, at whatever depth, stands the block with `body` between two tags. -/
inductive Contains : Outline → (opening : Piece) → (body : Outline) → (closing : Piece) → Prop where
  | here {opening closing : Piece} {body next : Outline} :
      Contains (block opening body closing next) opening body closing
  | inside {opening closing first last : Piece} {body next o : Outline} (h : Contains o first body last) :
      Contains (block opening o closing next) first body last
  | behind {opening closing first last : Piece} {body next o : Outline} (h : Contains next first body last) :
      Contains (block opening o closing next) first body last
  | declared {p first last : Piece} {body next : Outline} (h : Contains next first body last) :
      Contains (var p next) first body last

/-- Every block nested in the block around an outline stands in the outline. -/
theorem exists_contains {o : Outline} {b c : Block} (child : c ∈ o.blocks) (part : b ∈ c.preorder) :
    ∃ opening body closing, o.Contains opening body closing ∧ b = nested opening body closing := by
  induction o generalizing c with
  | nil => cases child
  | var p next ih =>
    obtain ⟨opening, body, closing, h, e⟩ := ih child part
    exact ⟨opening, body, closing, .declared h, e⟩
  | block opening body closing next ih_body ih_next =>
    rw [blocks_block] at child
    rcases List.mem_cons.1 child with rfl | later
    · rcases Block.mem_preorder.1 part with rfl | ⟨d, hd, deeper⟩
      · exact ⟨opening, body, closing, .here, rfl⟩
      · obtain ⟨first, o, last, h, e⟩ := ih_body hd deeper
        exact ⟨first, o, last, .inside h, e⟩
    · obtain ⟨first, o, last, h, e⟩ := ih_next later part
      exact ⟨first, o, last, .behind h, e⟩

namespace Contains

variable {o body : Outline} {opening closing : Piece}

/-- The tags of a nested block stand in one row among those of the outline. -/
theorem pieces (h : o.Contains opening body closing) :
    ∃ front back, o.pieces = front ++ opening :: (body.pieces ++ closing :: back) := by
  induction h with
  | here => exact ⟨[], _, rfl⟩
  | @inside first last _ _ _ next _ _ ih =>
    obtain ⟨front, back, e⟩ := ih
    refine ⟨first :: front, back ++ last :: next.pieces, ?_⟩
    rw [Outline.pieces, e]
    simp only [List.cons_append, List.append_assoc]
  | @behind first last _ _ _ _ o _ ih =>
    obtain ⟨front, back, e⟩ := ih
    refine ⟨first :: o.pieces ++ last :: front, back, ?_⟩
    rw [Outline.pieces, e]
    simp only [List.cons_append, List.append_assoc]
  | @declared p _ _ _ _ _ ih =>
    obtain ⟨front, back, e⟩ := ih
    exact ⟨p :: front, back, by rw [Outline.pieces, e, List.cons_append]⟩

theorem lawful (h : o.Contains opening body closing) (below : o.LawfulBelow) : body.Lawful closing.text := by
  induction h with
  | here => exact below.1
  | inside _ ih => exact ih below.2.1
  | behind _ ih => exact ih below.2.2
  | declared _ ih => exact ih below

theorem lawfulBelow (h : o.Contains opening body closing) (below : o.LawfulBelow) : body.LawfulBelow := by
  induction h with
  | here => exact below.2.1
  | inside _ ih => exact ih below.2.1
  | behind _ ih => exact ih below.2.2
  | declared _ ih => exact ih below

/-- The two tags of a nested block are its brackets. -/
theorem brackets (h : o.Contains opening body closing) (shaped : o.Shaped) :
    opening.tag.opens = true ∧ closing.tag.closes = true := by
  induction h with
  | here => exact ⟨shaped.1, shaped.2.1⟩
  | inside _ ih => exact ih shaped.2.2.1
  | behind _ ih => exact ih shaped.2.2.2
  | declared _ ih => exact ih shaped.2.2

theorem shaped (h : o.Contains opening body closing) (shaped : o.Shaped) : body.Shaped := by
  induction h with
  | here => exact shaped.2.2.1
  | inside _ ih => exact ih shaped.2.2.1
  | behind _ ih => exact ih shaped.2.2.2
  | declared _ ih => exact ih shaped.2.2

end Contains

/-- The nested blocks have the names of opening tags of the outline. -/
theorem exists_opening {o : Outline} (shaped : o.Shaped) {c : Block} (child : c ∈ o.blocks) :
    ∃ p ∈ o.pieces, p.tag.opens = true ∧ c.name = some p.tag.blk := by
  induction o with
  | nil => cases child
  | var p next ih =>
    obtain ⟨q, hq, opens, name⟩ := ih shaped.2.2 child
    exact ⟨q, List.mem_cons_of_mem _ hq, opens, name⟩
  | block opening body closing next _ ih =>
    rw [blocks_block] at child
    rcases List.mem_cons.1 child with rfl | later
    · exact ⟨opening, List.mem_cons_self, shaped.1, rfl⟩
    · obtain ⟨q, hq, opens, name⟩ := ih shaped.2.2.2 later
      refine ⟨q, ?_, opens, name⟩
      rw [pieces]
      exact List.mem_append_right _ (List.mem_cons_of_mem _ hq)

end Outline

/-- Every block of a template is the block around a lawful outline whose tags declare something. -/
theorem Template.exists_content {source : String} {file : Nat} {root b : Block}
    (parsed : Template.parse source file = .ok root) (part : b ∈ root.preorder) :
    ∃ (name : Option String) (span : Span) (o : Outline) (tail : List Char),
      b = o.around name span tail o.blocks ∧ o.Lawful tail ∧ o.Shaped ∧ ∀ p ∈ o.pieces, p.tag.Declares := by
  obtain ⟨ps, tail, o, scan, declares, outlines⟩ := exists_outline parsed
  obtain ⟨⟨lawful, below⟩, rfl⟩ := (parse_outline_iff scan declares outlines).1 parsed
  obtain ⟨shaped, rfl⟩ := outlines
  rcases Block.mem_preorder.1 part with rfl | ⟨c, hc, deeper⟩
  · exact ⟨_, _, o, tail, rfl, lawful, shaped, declares⟩
  · obtain ⟨opening, body, closing, contained, rfl⟩ := Outline.exists_contains hc deeper
    obtain ⟨front, back, pieces⟩ := contained.pieces
    refine ⟨_, _, body, closing.text, rfl, contained.lawful below, contained.shaped shaped, fun p hp => ?_⟩
    refine declares p ?_
    rw [pieces]
    exact List.mem_append_right _ (List.mem_cons_of_mem _ (List.mem_append_left _ hp))

end Stencil

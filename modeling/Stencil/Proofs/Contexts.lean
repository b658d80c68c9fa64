import Stencil.Proofs.Blamed

/-!
# The place a reader has come to

Behind some tags of a source the reader stands in a block, behind an outline of what the block has enclosed so far;
around it are the blocks that were opened earlier, each with an outline up to the opening tag of the next
(`Context`). The reader comes without a defect to the places at which all of this is sound, and to no others
(`Context.run`, `Context.exists_of_run`).
-/

namespace Stencil

open Text
open Tag (Piece)

namespace Outline

/-! ## Outlines one behind the other -/

/-- What a block encloses, and behind it what else it encloses. -/
def append : Outline → Outline → Outline
  | nil, more => more
  | var p next, more => var p (next.append more)
  | block opening body closing next, more => block opening body closing (next.append more)

theorem pieces_append (o more : Outline) : (o.append more).pieces = o.pieces ++ more.pieces := by
  induction o with
  | nil => rfl
  | var p next ih => rw [append, pieces, pieces, ih, List.cons_append]
  | block opening body closing next _ ih =>
    rw [append, pieces, pieces, ih]
    simp only [List.cons_append, List.append_assoc]

theorem Shaped.append {o more : Outline} (h : o.Shaped) (h' : more.Shaped) : (o.append more).Shaped := by
  induction o with
  | nil => exact h'
  | var p next ih => exact ⟨h.1, h.2.1, ih h.2.2⟩
  | block opening body closing next _ ih => exact ⟨h.1, h.2.1, h.2.2.1, ih h.2.2.2⟩

/-- What a block has enclosed so far is in order: every tag declares something, names differ, places are not empty,
and the nested blocks that have ended are lawful at every depth. The block's own placeholders may still come. -/
structure Sound (o : Outline) : Prop where
  shaped : o.Shaped
  declares : ∀ p ∈ o.pieces, p.tag.Declares
  blocks : (o.blocks.map (·.name)).Nodup
  vars : (o.table.map (·.name)).Nodup
  places : ∀ v ∈ o.table, v.placeholder ≠ ""
  below : o.LawfulBelow

theorem Sound.nil : Sound .nil := ⟨trivial, nofun, List.nodup_nil, List.nodup_nil, nofun, trivial⟩

end Outline

namespace Frame

theorem absorb_append (f : Frame) (o more : Outline) : f.absorb (o.append more) = (f.absorb o).absorb more := by
  induction o generalizing f with
  | nil => rfl
  | var p next ih => exact ih _
  | block opening body closing next _ ih => exact ih _

theorem admits_append {f : Frame} {o more : Outline} :
    f.Admits (o.append more) ↔ f.Admits o ∧ (f.absorb o).Admits more := by
  induction o generalizing f with
  | nil => exact (and_iff_right trivial).symm
  | var p next ih => simp only [Outline.append, Admits, absorb, ih, and_assoc]
  | block opening body closing next _ ih => simp only [Outline.append, Admits, absorb, ih, and_assoc]

/-- What a new frame takes is sound. -/
theorem sound_iff (name : Option String) (span : Span) {o : Outline} :
    o.Sound ↔ o.Shaped ∧ (∀ p ∈ o.pieces, p.tag.Declares) ∧ (opened name span).Admits o := by
  have admits : (opened name span).Admits o ↔ (o.blocks.map (·.name)).Nodup ∧ (o.table.map (·.name)).Nodup ∧
      (∀ v ∈ o.table, v.placeholder ≠ "") ∧ o.LawfulBelow :=
    admits_iff (f := opened name span) List.nodup_nil List.nodup_nil
  rw [admits]
  constructor
  · rintro ⟨shaped, declares, blocks, vars, places, below⟩
    exact ⟨shaped, declares, blocks, vars, places, below⟩
  · rintro ⟨shaped, declares, blocks, vars, places, below⟩
    exact ⟨shaped, declares, blocks, vars, places, below⟩

end Frame

/-- The tags of an outline that the innermost block takes are read one after the other. -/
theorem Builder.run_own {b : Builder} {o : Outline} (shaped : o.Shaped) (declares : ∀ p ∈ o.pieces, p.tag.Declares)
    (admits : b.frame.Admits o) :
    b.run o.pieces = (⟨b.frame.absorb o, b.enclosing, b.notes ++ o.notes⟩, none) := by
  have ran : b.run (o.pieces ++ []) = (⟨b.frame.absorb o, b.enclosing, b.notes ++ o.notes⟩, none) :=
    (run_pieces_iff shaped declares).2 ⟨admits, rfl⟩
  rwa [List.append_nil] at ran

/-! ## Open blocks -/

/-- The open blocks around the innermost one: of each what it has enclosed so far, and the opening tag of the next
block. -/
inductive Context where
  | root
  | nested (outer : Context) (before : Outline) (opening : Piece)

namespace Context

/-- The tags up to the beginning of the innermost block. -/
def pieces : Context → List Piece
  | root => []
  | nested outer before opening => outer.pieces ++ before.pieces ++ [opening]

/-- All open blocks around the innermost one are in order, and the name of each is new to the block around it. -/
def Sound : Context → Prop
  | root => True
  | nested outer before opening => outer.Sound ∧ before.Sound ∧ opening.tag.opens = true ∧ opening.tag.Declares ∧
      some opening.tag.blk ∉ before.blocks.map (·.name)

/-- The name of the innermost block. -/
def name : Context → Option String
  | root => none
  | nested _ _ opening => some opening.tag.blk

/-- Where the innermost block was opened, in a source of `size` bytes. -/
def span (size : Nat) : Context → Span
  | root => ⟨0, size⟩
  | nested _ _ opening => opening.tag.span

/-- The frame of the innermost block behind an outline. -/
def frame (size : Nat) (c : Context) (o : Outline) : Frame := (Frame.opened c.name (c.span size)).absorb o

/-- The frames around the innermost block. -/
def enclosing (size : Nat) : Context → List Frame
  | root => []
  | nested outer before opening => (outer.frame size before).read opening.text :: outer.enclosing size

variable {size : Nat} {c : Context} {o : Outline}

theorem vars_frame : (c.frame size o).vars = ⟨o.table⟩ := (Frame.absorb_spec _ o).2.2.1

theorem children_frame : (c.frame size o).children = o.blocks := (Frame.absorb_spec _ o).2.2.2

theorem allGaps_frame (tail : List Char) : ((c.frame size o).read tail).allGaps = Outline.gaps .empty o tail :=
  (Frame.allGaps_absorb _ o tail).trans (Outline.ontoFirst_nil (Outline.gaps_ne_nil _ _ _))

/-- A block's name is new to the frame around it if no block that ended there has it. -/
theorem hasChild_frame {name : String} :
    (c.frame size o).hasChild name = false ↔ some name ∉ o.blocks.map (·.name) := by
  rw [Frame.hasChild_eq_false_iff, children_frame]

/-- What the frame of the innermost block takes goes on in order. -/
theorem sound_append (size : Nat) {more : Outline} (sound : o.Sound) (shaped : more.Shaped)
    (declares : ∀ p ∈ more.pieces, p.tag.Declares) (admits : (c.frame size o).Admits more) :
    (o.append more).Sound := by
  obtain ⟨shaped', declares', admits'⟩ := (Frame.sound_iff c.name (c.span size)).1 sound
  refine (Frame.sound_iff c.name (c.span size)).2 ⟨shaped'.append shaped, fun p mem => ?_,
    Frame.admits_append.2 ⟨admits', admits⟩⟩
  rw [Outline.pieces_append] at mem
  exact (List.mem_append.1 mem).elim (declares' p) (declares p)

/-- A block that ends with all its variables matched is one more nested block of the block around it. -/
theorem sound_close {outer : Context} {before : Outline} {opening p : Piece}
    (around : (nested outer before opening).Sound) (sound : o.Sound) (closes : p.tag.closes = true)
    (declares : p.tag.Declares)
    (matched : (((nested outer before opening).frame size o).read p.text).unmatched = []) :
    (before.append (.block opening o p .nil)).Sound := by
  obtain ⟨-, before_sound, opens, declared, new⟩ := around
  obtain ⟨shaped, inside, admits⟩ := (Frame.sound_iff (some opening.tag.blk) opening.tag.span).1 sound
  have fresh : (outer.frame size before).hasChild opening.tag.blk = false := hasChild_frame.2 new
  refine sound_append size before_sound ⟨opens, closes, shaped, trivial⟩ (fun q mem => ?_)
    ⟨fresh, admits, matched, trivial⟩
  rcases List.mem_cons.1 mem with rfl | mem
  · exact declared
  · rcases List.mem_append.1 mem with inner | last
    · exact inside q inner
    · exact List.mem_singleton.1 last ▸ declares

theorem frame_close (size : Nat) (outer : Context) (before o : Outline) (opening p : Piece) :
    outer.frame size (before.append (.block opening o p .nil)) = ((outer.frame size before).read opening.text).nest
      ((((nested outer before opening).frame size o).read p.text).block p.tag.span.stop) := by
  have ended := Frame.block_absorb (some opening.tag.blk) opening.tag.span o p.text p.tag.span.stop
  rw [frame, Frame.absorb_append]
  exact congrArg ((outer.frame size before).read opening.text).nest ended.symm

/-- The reader comes to every sound place. -/
theorem run (size : Nat) (around : c.Sound) (sound : o.Sound) : ∃ notes,
    (Builder.start size).run (c.pieces ++ o.pieces) = (⟨c.frame size o, c.enclosing size, notes⟩, none) := by
  induction c generalizing o with
  | root =>
    obtain ⟨shaped, declares, admits⟩ := (Frame.sound_iff none ⟨0, size⟩).1 sound
    exact ⟨_, Builder.run_own (b := .start size) shaped declares admits⟩
  | nested outer before opening ih =>
    obtain ⟨outer_sound, before_sound, opens, declares, new⟩ := around
    obtain ⟨notes, ran⟩ := ih outer_sound before_sound
    obtain ⟨shaped, inside, admits⟩ := (Frame.sound_iff (some opening.tag.blk) opening.tag.span).1 sound
    have fresh : ((outer.frame size before).read opening.text).hasChild opening.tag.blk = false := hasChild_frame.2 new
    have enter : Reads ⟨outer.frame size before, outer.enclosing size, notes⟩ opening
        ⟨.opened (some opening.tag.blk) opening.tag.span, (outer.frame size before).read opening.text ::
          outer.enclosing size, notes⟩ :=
      (reads_enter_iff declares opens).2 ⟨fresh, rfl⟩
    let inner : Builder := ⟨.opened (some opening.tag.blk) opening.tag.span,
      (outer.frame size before).read opening.text :: outer.enclosing size, notes⟩
    have own := Builder.run_own (b := inner) shaped inside admits
    refine ⟨notes ++ o.notes, ?_⟩
    rw [pieces, List.append_assoc, Builder.run_append ran]
    exact Builder.run_cons_iff.2 ⟨_, enter, own⟩

/-- The reader comes to sound places only. -/
theorem exists_of_run {ps : List Piece} {b : Builder} (h : (Builder.start size).run ps = (b, none)) :
    ∃ c o, Sound c ∧ Outline.Sound o ∧ ps = c.pieces ++ o.pieces ∧ b.frame = c.frame size o ∧
      b.enclosing = c.enclosing size := by
  refine Builder.run_induct (fun done b => ∃ c o, Sound c ∧ Outline.Sound o ∧ done = c.pieces ++ o.pieces ∧
    b.frame = c.frame size o ∧ b.enclosing = c.enclosing size) ?_ h ⟨root, .nil, trivial, .nil, rfl, rfl, rfl⟩
  rintro done p ⟨f, gs, notes⟩ after ⟨c, o, around, sound, rfl, frame_eq, enclosing_eq⟩ reads
  cases frame_eq
  cases enclosing_eq
  have declares := reads.declares
  cases closes : p.tag.closes with
  | true =>
    obtain ⟨parent, others, open_, matched, rfl⟩ := (reads_close_iff closes).1 reads
    cases c with
    | root => cases open_
    | nested outer before opening =>
      cases open_
      refine ⟨outer, before.append (.block opening o p .nil), around.1,
        sound_close around sound closes declares matched, ?_, (frame_close ..).symm, rfl⟩
      simp only [pieces, Outline.pieces_append, Outline.pieces, List.append_assoc, List.cons_append, List.nil_append]
  | false =>
    cases opens : p.tag.opens with
    | true =>
      obtain ⟨new, rfl⟩ := (reads_enter_iff declares opens).1 reads
      refine ⟨nested c o p, .nil, ⟨around, sound, opens, declares, hasChild_frame.1 new⟩, .nil, ?_, rfl, rfl⟩
      rw [pieces, Outline.pieces, List.append_nil]
    | false =>
      obtain ⟨new, place, rfl⟩ := (reads_declare_iff declares opens closes).1 reads
      refine ⟨c, o.append (.var p .nil), around, ?_, ?_, ?_, rfl⟩
      · exact sound_append size sound ⟨opens, closes, trivial⟩
          (fun q mem => List.mem_singleton.1 mem ▸ declares) ⟨new, place, trivial⟩
      · rw [Outline.pieces_append, List.append_assoc]
        rfl
      · rw [frame, Frame.absorb_append]
        rfl

end Context

end Stencil

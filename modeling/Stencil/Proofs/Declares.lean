import Stencil.Proofs.Outline
import Stencil.Proofs.Reading

/-!
# What a tag declares

A tag is read exactly when it declares something and what it declares fits: `reads_close_iff`,
`reads_enter_iff` and `reads_declare_iff` say so for closing tags, blocks and variables in terms of
the tag's attributes.
-/

namespace Stencil

open Tag (Piece)

/-- An opening tag has exactly one of the attributes `blk` and `var`, and that one is not empty. -/
def Tag.Declares (t : Tag) : Prop :=
  t.closes = false → ∃ name, name ≠ "" ∧
    ((t.get? "blk" = some name ∧ t.get? "var" = none) ∨ (t.get? "blk" = none ∧ t.get? "var" = some name))

theorem Attributes.declaration_eq_block_iff {a : Attributes} {name : String} :
    a.declaration = .ok (.block name) ↔ a.get? "blk" = some name ∧ name ≠ "" ∧ a.get? "var" = none := by
  unfold declaration
  cases a.get? "blk" with
  | none => cases a.get? "var" <;> simp; split <;> simp
  | some n =>
    by_cases empty : n = ""
    · simp only [empty, if_true]
      constructor
      · nofun
      · rintro ⟨e, nonempty, -⟩
        cases e
        exact absurd rfl nonempty
    · cases a.get? "var" with
      | none =>
        simp only [empty, if_false, Option.isSome_none, Bool.false_eq_true, Except.ok.injEq,
          Declaration.block.injEq, Option.some.injEq, and_true]
        constructor
        · rintro rfl
          exact ⟨rfl, empty⟩
        · exact fun h => h.1
      | some v => simp [empty]

theorem Attributes.declaration_eq_var_iff {a : Attributes} {name : String} {place : Option String} :
    a.declaration = .ok (.var name place) ↔
      a.get? "blk" = none ∧ a.get? "var" = some name ∧ name ≠ "" ∧ a.get? "place" = place := by
  unfold declaration
  cases a.get? "blk" with
  | none =>
    cases a.get? "var" with
    | none => simp
    | some n =>
      by_cases empty : n = ""
      · simp only [empty, if_true]
        constructor
        · nofun
        · rintro ⟨-, e, nonempty, -⟩
          cases e
          exact absurd rfl nonempty
      · simp only [empty, if_false, Except.ok.injEq, Declaration.var.injEq, Option.some.injEq, true_and]
        constructor
        · rintro ⟨rfl, rfl⟩
          exact ⟨rfl, empty, rfl⟩
        · rintro ⟨rfl, -, rfl⟩
          exact ⟨rfl, rfl⟩
  | some n =>
    by_cases empty : n = ""
    · simp [empty]
    · cases a.get? "var" <;> simp [empty]

namespace Tag

theorem closes_iff {t : Tag} : t.closes = true ↔ t.kind = .closing := by
  unfold closes
  cases t.kind <;> simp

theorem get?_opening {t : Tag} {a : Attributes} (kind : t.kind = .opening a) (key : String) :
    t.get? key = a.get? key := by
  rw [get?, kind]

/-- A tag that opens a block and declares something declares that block. -/
theorem Declares.block {t : Tag} (h : t.Declares) (opens : t.opens = true) :
    ∃ a, t.kind = .opening a ∧ a.declaration = .ok (.block t.blk) := by
  have stays := closes_of_opens opens
  cases kind : t.kind with
  | closing => simp [closes_iff.2 kind] at stays
  | opening a =>
    refine ⟨a, rfl, Attributes.declaration_eq_block_iff.2 ?_⟩
    obtain ⟨name, nonempty, ⟨blk, var⟩ | ⟨blk, -⟩⟩ := h stays
    · have named : t.blk = name := by rw [Tag.blk, blk]; rfl
      rw [named, ← get?_opening kind, ← get?_opening kind]
      exact ⟨blk, nonempty, var⟩
    · simp [Tag.opens, blk] at opens

/-- A tag that is no bracket and declares something declares a variable. -/
theorem Declares.variable {t : Tag} (h : t.Declares) (opens : t.opens = false) (closes : t.closes = false) :
    ∃ a, t.kind = .opening a ∧ a.declaration = .ok (.var t.var (t.get? "place")) := by
  cases kind : t.kind with
  | closing => simp [closes_iff.2 kind] at closes
  | opening a =>
    refine ⟨a, rfl, Attributes.declaration_eq_var_iff.2 ?_⟩
    obtain ⟨name, nonempty, ⟨blk, -⟩ | ⟨blk, var⟩⟩ := h closes
    · simp [Tag.opens, blk] at opens
    · have named : t.var = name := by rw [Tag.var, var]; rfl
      rw [named, ← get?_opening kind, ← get?_opening kind, ← get?_opening kind]
      exact ⟨blk, var, nonempty, rfl⟩

/-- The place of a tag, if it has one that is not empty. -/
theorem place_ne_iff {t : Tag} : t.place ≠ "" ↔ ∃ text, t.get? "place" = some text ∧ text ≠ "" := by
  unfold place
  cases t.get? "place" <;> simp

end Tag

/-- The frame behind the tag of a variable. -/
def Frame.declareAt (f : Frame) (p : Piece) : Frame :=
  { f.read p.text with vars := f.vars.declareBy p.tag }

section Reads

variable {b after : Builder} {p : Piece}

/-- Every tag that is read declares something. -/
theorem Reads.declares (h : Reads b p after) : p.tag.Declares := by
  intro stays
  cases h with
  | close kind => simp [Tag.closes_iff.2 kind] at stays
  | @enter a name kind declared =>
    obtain ⟨blk, nonempty, var⟩ := Attributes.declaration_eq_block_iff.1 declared
    rw [← Tag.get?_opening kind] at blk var
    exact ⟨name, nonempty, .inl ⟨blk, var⟩⟩
  | @declare a name place frame kind declared =>
    obtain ⟨blk, var, nonempty, -⟩ := Attributes.declaration_eq_var_iff.1 declared
    rw [← Tag.get?_opening kind] at blk var
    exact ⟨name, nonempty, .inr ⟨blk, var⟩⟩

theorem reads_close_iff (closes : p.tag.closes = true) :
    Reads b p after ↔ ∃ parent others, b.enclosing = parent :: others ∧ (b.frame.read p.text).unmatched = [] ∧
      after = ⟨parent.nest ((b.frame.read p.text).block p.tag.span.stop), others,
        b.notes ++ [((b.frame.read p.text).block p.tag.span.stop).note]⟩ := by
  have closing := Tag.closes_iff.1 closes
  constructor
  · intro h
    cases h with
    | @close parent others _ _ open_ closed =>
      obtain ⟨matched, rfl⟩ := Frame.close_eq_ok_iff.1 closed
      exact ⟨parent, others, open_, matched, rfl⟩
    | enter kind | declare kind => rw [closing] at kind; cases kind
  · rintro ⟨parent, others, open_, matched, rfl⟩
    exact .close closing open_ (Frame.close_eq_ok_iff.2 ⟨matched, rfl⟩)

theorem reads_enter_iff (declares : p.tag.Declares) (opens : p.tag.opens = true) :
    Reads b p after ↔ b.frame.hasChild p.tag.blk = false ∧
      after = ⟨.opened (some p.tag.blk) p.tag.span, b.frame.read p.text :: b.enclosing, b.notes⟩ := by
  obtain ⟨a, opening, declared⟩ := declares.block opens
  constructor
  · intro h
    cases h with
    | close kind => rw [opening] at kind; cases kind
    | enter kind declared' new =>
      rw [opening] at kind
      cases kind
      rw [declared] at declared'
      cases declared'
      exact ⟨new, rfl⟩
    | declare kind declared' =>
      rw [opening] at kind
      cases kind
      rw [declared] at declared'
      cases declared'
  · rintro ⟨new, rfl⟩
    exact .enter opening declared new

theorem reads_declare_iff (declares : p.tag.Declares) (opens : p.tag.opens = false)
    (closes : p.tag.closes = false) :
    Reads b p after ↔ b.frame.vars.declares p.tag.var = false ∧ p.tag.place ≠ "" ∧
      after = { b with frame := b.frame.declareAt p } := by
  obtain ⟨a, opening, declared⟩ := declares.variable opens closes
  have added (frame : Frame) : (b.frame.read p.text).declare p.tag.var (p.tag.get? "place") p.tag.span = .ok frame ↔
      b.frame.vars.declares p.tag.var = false ∧ p.tag.place ≠ "" ∧ frame = b.frame.declareAt p := by
    rw [Frame.declare_eq_ok_iff, Tag.place_ne_iff]
    constructor
    · rintro ⟨new, text, place, nonempty, rfl⟩
      refine ⟨new, ⟨text, place, nonempty⟩, ?_⟩
      rw [Frame.declareAt, Variables.declareBy, Tag.place, place]
      rfl
    · rintro ⟨new, ⟨text, place, nonempty⟩, rfl⟩
      refine ⟨new, text, place, nonempty, ?_⟩
      rw [Frame.declareAt, Variables.declareBy, Tag.place, place]
      rfl
  constructor
  · intro h
    cases h with
    | close kind => rw [opening] at kind; cases kind
    | enter kind declared' =>
      rw [opening] at kind
      cases kind
      rw [declared] at declared'
      cases declared'
    | @declare _ _ _ frame kind declared' added' =>
      rw [opening] at kind
      cases kind
      rw [declared] at declared'
      cases declared'
      obtain ⟨new, nonempty, rfl⟩ := (added frame).1 added'
      exact ⟨new, nonempty, rfl⟩
  · rintro ⟨new, nonempty, rfl⟩
    exact .declare opening declared ((added _).2 ⟨new, nonempty, rfl⟩)

end Reads

end Stencil

import Stencil.Proofs.FlatScan
import Stencil.Template

/-!
# Outlines

Read as brackets, the opening tags of blocks and the closing tags of a source enclose each other.
An outline is this structure: what stands directly in a block, one after the other, and below each
nested block its own outline. The tags of a source have an outline exactly when they are balanced
(`balanced_iff`), and then one only (`Outlines.unique`).
-/

namespace Stencil

namespace Tag

/-- An attribute of an opening tag. -/
def get? (t : Tag) (key : String) : Option String :=
  match t.kind with
  | .opening attributes => attributes.get? key
  | .closing => none

/-- The name a tag gives a block. -/
def blk (t : Tag) : String := (t.get? "blk").getD ""

/-- The name a tag gives a variable. -/
def var (t : Tag) : String := (t.get? "var").getD ""

/-- The text that is to stand for a variable. -/
def place (t : Tag) : String := (t.get? "place").getD ""

/-- Whether a tag is an opening bracket. -/
def opens (t : Tag) : Bool := (t.get? "blk").isSome

/-- Whether a tag is a closing bracket. -/
def closes (t : Tag) : Bool :=
  match t.kind with
  | .opening _ => false
  | .closing => true

/-- No tag is both. -/
theorem closes_of_opens {t : Tag} (h : t.opens = true) : t.closes = false := by
  unfold opens get? at h
  unfold closes
  cases hk : t.kind with
  | opening attributes => rfl
  | closing => simp [hk] at h

/-- How many blocks are open behind some tags when `d` were in front of them; nothing if a tag
closes where no block is open. -/
def openAfter : Nat → List Tag → Option Nat
  | d, [] => some d
  | d, t :: ts =>
    if t.closes then
      if d = 0 then none else openAfter (d - 1) ts
    else if t.opens then openAfter (d + 1) ts
    else openAfter d ts

/-- The brackets among some tags are balanced. -/
def Balanced (ts : List Tag) : Prop := openAfter 0 ts = some 0

theorem openAfter_append (d : Nat) (ts us : List Tag) :
    openAfter d (ts ++ us) = (openAfter d ts).bind fun e => openAfter e us := by
  induction ts generalizing d with
  | nil => rfl
  | cons t ts ih =>
    rw [List.cons_append, openAfter, openAfter]
    split
    · split
      · rfl
      · exact ih (d - 1)
    · split
      · exact ih (d + 1)
      · exact ih d

end Tag

open Tag (Piece)

/-- The table with the variable of a tag. -/
def Variables.declareBy (vs : Variables) (t : Tag) : Variables := vs.declare t.var t.place t.span

/-- What the tags directly enclosed by a block describe: a row of variables and nested blocks, each
tag with the text in front of it. -/
inductive Outline where
  | nil
  | var (piece : Piece) (next : Outline)
  | block (opening : Piece) (body : Outline) (closing : Piece) (next : Outline)

namespace Outline

/-- The tags of an outline in the order of the source. -/
def pieces : Outline → List Piece
  | nil => []
  | var p next => p :: next.pieces
  | block opening body closing next => opening :: body.pieces ++ closing :: next.pieces

/-- The tags of an outline are what it takes them for. -/
def Shaped : Outline → Prop
  | nil => True
  | var p next => p.tag.opens = false ∧ p.tag.closes = false ∧ next.Shaped
  | block opening body closing next =>
    opening.tag.opens = true ∧ closing.tag.closes = true ∧ body.Shaped ∧ next.Shaped

/-- An outline is the bracket structure of some tags. -/
structure Outlines (o : Outline) (ps : List Piece) : Prop where
  shaped : o.Shaped
  pieces : o.pieces = ps

theorem Shaped.openAfter {o : Outline} (h : o.Shaped) (d : Nat) :
    Tag.openAfter d (o.pieces.map (·.tag)) = some d := by
  induction o generalizing d with
  | nil => rfl
  | var p next ih =>
    obtain ⟨opens, closes, rest⟩ := h
    simp only [Outline.pieces, List.map_cons, Tag.openAfter, opens, closes, Bool.false_eq_true, if_false]
    exact ih rest d
  | block opening body closing next ih_body ih_next =>
    obtain ⟨opens, closes, inner, rest⟩ := h
    have opening_stays : opening.tag.closes = false := Tag.closes_of_opens opens
    have back := ih_next rest d
    simp only [Outline.pieces, List.map_cons, List.map_append, List.cons_append, Tag.openAfter, opens,
      opening_stays, Bool.false_eq_true, if_false, if_true]
    rw [Tag.openAfter_append, ih_body inner (d + 1), Option.bind_some, Tag.openAfter, if_pos closes]
    exact back

/-! ## Balanced tags have an outline -/

/-- The pieces are outlines of what `d` open blocks still enclose, with the closing tag of each in
between, and of what stands behind the outermost. -/
def Pending : Nat → List Piece → Prop
  | 0, ps => ∃ o : Outline, o.Outlines ps
  | d + 1, ps => ∃ front closing back, ps = front ++ closing :: back ∧ (∃ o : Outline, o.Outlines front) ∧
      closing.tag.closes = true ∧ Pending d back

/-- What can be put in front of every outline can be put in front of pending pieces. -/
theorem Pending.prepend {d : Nat} {ps : List Piece} (front : List Piece) (f : Outline → Outline)
    (put : ∀ o ps, o.Outlines ps → (f o).Outlines (front ++ ps)) (h : Pending d ps) :
    Pending d (front ++ ps) := by
  cases d with
  | zero =>
    obtain ⟨o, outlines⟩ := h
    exact ⟨f o, put o ps outlines⟩
  | succ d =>
    obtain ⟨first, closing, back, rfl, ⟨o, outlines⟩, closes, rest⟩ := h
    exact ⟨front ++ first, closing, back, by rw [List.append_assoc], ⟨f o, put o first outlines⟩, closes, rest⟩

theorem Pending.close {d : Nat} {p : Piece} {ps : List Piece} (closes : p.tag.closes = true)
    (h : Pending d ps) : Pending (d + 1) (p :: ps) :=
  ⟨[], p, ps, rfl, ⟨nil, trivial, rfl⟩, closes, h⟩

theorem Pending.declare {d : Nat} {p : Piece} {ps : List Piece} (opens : p.tag.opens = false)
    (closes : p.tag.closes = false) (h : Pending d ps) : Pending d (p :: ps) := by
  refine h.prepend [p] (var p) fun o ps outlines => ⟨⟨opens, closes, outlines.shaped⟩, ?_⟩
  rw [Outline.pieces, outlines.pieces]
  rfl

/-- An opening tag makes one block of the first two pending outlines. -/
theorem Pending.enter {d : Nat} {p : Piece} {ps : List Piece} (opens : p.tag.opens = true)
    (h : Pending (d + 1) ps) : Pending d (p :: ps) := by
  obtain ⟨front, closing, back, rfl, ⟨body, inner⟩, closes, rest⟩ := h
  have whole := rest.prepend (p :: front ++ [closing]) (block p body closing) fun o ps outlines => by
    refine ⟨⟨opens, closes, inner.shaped, outlines.shaped⟩, ?_⟩
    rw [Outline.pieces, inner.pieces, outlines.pieces]
    simp only [List.cons_append, List.append_assoc, List.nil_append]
  simpa only [List.cons_append, List.append_assoc, List.nil_append] using whole

theorem pending_of_openAfter {d : Nat} {ps : List Piece}
    (h : Tag.openAfter d (ps.map (·.tag)) = some 0) : Pending d ps := by
  induction ps generalizing d with
  | nil =>
    cases h
    exact ⟨nil, trivial, rfl⟩
  | cons p ps ih =>
    rw [List.map_cons, Tag.openAfter] at h
    split at h
    · next closes =>
      split at h
      · cases h
      · next open_ =>
        have rest := (ih h).close closes
        rwa [Nat.sub_add_cancel (by omega)] at rest
    · next stays =>
      split at h
      · next opens => exact (ih h).enter opens
      · next neutral => exact (ih h).declare (by simpa using neutral) (by simpa using stays)

/-- Tags are balanced exactly when they have an outline. -/
theorem balanced_iff {ps : List Piece} : Tag.Balanced (ps.map (·.tag)) ↔ ∃ o : Outline, o.Outlines ps := by
  constructor
  · exact pending_of_openAfter
  · rintro ⟨o, shaped, rfl⟩
    exact shaped.openAfter 0

/-! ## One outline only -/

/-- Behind an outline comes the end of the source or the tag that closes the block around. -/
def Ends (ps : List Piece) : Prop := ∀ p ∈ ps.head?, p.tag.closes = true

theorem Ends.closing {p : Piece} (closes : p.tag.closes = true) (ps : List Piece) : Ends (p :: ps) := by
  intro q hq
  cases hq
  exact closes

theorem Shaped.unique_prefix {o₁ o₂ : Outline} {rest₁ rest₂ : List Piece} (h₁ : o₁.Shaped) (h₂ : o₂.Shaped)
    (end₁ : Ends rest₁) (end₂ : Ends rest₂) (same : o₁.pieces ++ rest₁ = o₂.pieces ++ rest₂) :
    o₁ = o₂ ∧ rest₁ = rest₂ := by
  have no_end {p : Piece} {front rest : List Piece} (ends : Ends rest) (e : rest = p :: front)
      (stays : p.tag.closes = false) : False := by
    have closes : p.tag.closes = true := ends p (by rw [e]; rfl)
    rw [stays] at closes
    cases closes
  induction o₁ generalizing o₂ rest₁ rest₂ with
  | nil =>
    cases o₂ with
    | nil => exact ⟨rfl, same⟩
    | var p next => exact (no_end end₁ same h₂.2.1).elim
    | block opening body closing next => exact (no_end end₁ same (Tag.closes_of_opens h₂.1)).elim
  | var p next ih =>
    cases o₂ with
    | nil => exact (no_end end₂ same.symm h₁.2.1).elim
    | var q next₂ =>
      obtain ⟨rfl, behind⟩ := List.cons.inj same
      obtain ⟨rfl, rest⟩ := ih h₁.2.2 h₂.2.2 end₁ end₂ behind
      exact ⟨rfl, rest⟩
    | block opening body closing next₂ =>
      obtain ⟨rfl, -⟩ := List.cons.inj same
      exact absurd h₂.1 (by simp [h₁.1])
  | block opening body closing next ih_body ih_next =>
    cases o₂ with
    | nil => exact (no_end end₂ same.symm (Tag.closes_of_opens h₁.1)).elim
    | var q next₂ =>
      obtain ⟨rfl, -⟩ := List.cons.inj same
      exact absurd h₁.1 (by simp [h₂.1])
    | block opening₂ body₂ closing₂ next₂ =>
      simp only [Outline.pieces, List.cons_append, List.append_assoc, List.cons.injEq] at same
      obtain ⟨rfl, inside⟩ := same
      obtain ⟨rfl, behind⟩ :=
        ih_body h₁.2.2.1 h₂.2.2.1 (.closing h₁.2.1 _) (.closing h₂.2.1 _) inside
      obtain ⟨rfl, after⟩ := List.cons.inj behind
      obtain ⟨rfl, rest⟩ := ih_next h₁.2.2.2 h₂.2.2.2 end₁ end₂ after
      exact ⟨rfl, rest⟩

/-- The bracket structure of some tags is determined. -/
theorem Outlines.unique {o₁ o₂ : Outline} {ps : List Piece} (h₁ : o₁.Outlines ps) (h₂ : o₂.Outlines ps) :
    o₁ = o₂ := by
  have same : o₁.pieces ++ [] = o₂.pieces ++ [] := by rw [h₁.pieces, h₂.pieces]
  have ends : Ends [] := fun p hp => by cases hp
  exact (h₁.shaped.unique_prefix h₂.shaped ends ends same).1

end Outline

end Stencil

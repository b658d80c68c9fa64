import Stencil.Tag.Attributes
import Stencil.Text.Utf8

/-!
# Finding tags

A tag is a comment that begins with the keyword `rep`, or with a slash and the keyword, where
a word ends behind the keyword. It runs to the first `-->` behind the keyword. Comments of any
other kind are text.
`Tag.find` is the first tag of a text with the text in front of and behind it, and
`Tag.scan` is the whole source cut at its tags.
-/

namespace Stencil

open Text

/-- What a tag does: it opens something its attributes name, or it closes a block. -/
inductive TagKind where
  | opening (attributes : Attributes)
  | closing
  deriving Repr, BEq, DecidableEq

/-- A tag and the bytes of its whole comment. -/
structure Tag where
  kind : TagKind
  span : Span
  deriving Repr, BEq, DecidableEq

namespace Tag

/-- The two ways a tag begins. -/
inductive Opener where
  | opening
  | closing
  deriving Repr, BEq, DecidableEq

/-- What is written to begin a tag. -/
def Opener.text : Opener → List Char
  | .opening => ['<', '!', '-', '-', 'r', 'e', 'p']
  | .closing => ['<', '!', '-', '-', '/', 'r', 'e', 'p']

/-- What is written to end a tag. -/
def closer : List Char := ['-', '-', '>']

/-- Whether a word ends in front of this text. -/
def wordEnds : List Char → Bool
  | [] => true
  | c :: _ => !Attributes.isWord c

/-- The text behind an opener of one kind. -/
def behind? (o : Opener) (cs : List Char) : Option (List Char) :=
  (after? o.text cs).filter wordEnds

/-- The opener a text begins with, and the text behind it. -/
def opener? (cs : List Char) : Option (Opener × List Char) :=
  match behind? .closing cs with
  | some rest => some (.closing, rest)
  | none => (behind? .opening cs).map fun rest => (.opening, rest)

theorem opener?_eq_some {cs rest : List Char} {o : Opener} (h : opener? cs = some (o, rest)) :
    cs = o.text ++ rest ∧ wordEnds rest = true := by
  have behind : ∀ {o' r}, behind? o' cs = some r → cs = o'.text ++ r ∧ wordEnds r = true := by
    intro o' r hr
    obtain ⟨ha, hw⟩ := Option.filter_eq_some_iff.1 hr
    exact ⟨after?_eq_some_iff.1 ha, hw⟩
  rw [opener?] at h
  split at h
  · next r hr =>
    simp only [Option.some.injEq, Prod.mk.injEq] at h
    obtain ⟨rfl, rfl⟩ := h
    exact behind hr
  · obtain ⟨r, hr, e⟩ := Option.map_eq_some_iff.1 h
    simp only [Prod.mk.injEq] at e
    obtain ⟨rfl, rfl⟩ := e
    exact behind hr

/-- Reads the rest of a tag whose opener began at byte `start`: the tag and the text
behind it. -/
def complete (o : Opener) (start : Nat) (rest : List Char) : Except Defect (Tag × List Char) :=
  match cutAt? closer rest with
  | none => .error ⟨.unterminatedTag, start, start + byteCount o.text + byteCount rest⟩
  | some (inside, rest) =>
    let span := ⟨start, start + byteCount o.text + byteCount inside + byteCount closer⟩
    match o with
    | .closing => .ok (⟨.closing, span⟩, rest)
    | .opening =>
      match Attributes.parse inside with
      | .error fault => .error ⟨fault, span⟩
      | .ok attributes => .ok (⟨.opening attributes, span⟩, rest)

/-- The first tag of a text, with the text in front of it and the text behind it. -/
structure Found where
  front : List Char
  tag : Tag
  rest : List Char
  deriving Repr, BEq, DecidableEq

/-- The same tag with one more character in front of it. -/
def Found.push (c : Char) (f : Found) : Found := { f with front := c :: f.front }

/-- The first tag of a text that stands at byte `pos` of its source. -/
def find (pos : Nat) : List Char → Except Defect (Option Found)
  | [] => .ok none
  | c :: cs =>
    match opener? (c :: cs) with
    | some (o, rest) => (complete o pos rest).map fun (tag, rest) => some ⟨[], tag, rest⟩
    | none => (find (pos + c.utf8Size) cs).map (Option.map (Found.push c))

theorem complete_eq_ok {o : Opener} {start : Nat} {rest after : List Char} {t : Tag}
    (h : complete o start rest = .ok (t, after)) :
    ∃ inside, cutAt? closer rest = some (inside, after) ∧
      t.span = ⟨start, start + byteCount o.text + byteCount inside + byteCount closer⟩ := by
  rw [complete] at h
  split at h
  · simp at h
  · next inside r hc =>
    refine ⟨inside, ?_⟩
    split at h
    · simp only [Except.ok.injEq, Prod.mk.injEq] at h
      obtain ⟨rfl, rfl⟩ := h
      exact ⟨hc, rfl⟩
    · split at h
      · simp at h
      · simp only [Except.ok.injEq, Prod.mk.injEq] at h
        obtain ⟨rfl, rfl⟩ := h
        exact ⟨hc, rfl⟩

/-- The text behind a tag is shorter than the text the tag was found in. -/
theorem find_shorter {pos : Nat} {cs : List Char} {f : Found} (h : find pos cs = .ok (some f)) :
    f.rest.length < cs.length := by
  induction cs generalizing pos f with
  | nil => simp [find] at h
  | cons c cs ih =>
    rw [find] at h
    split at h
    · next o rest ho =>
      cases hc : complete o pos rest with
      | error d => rw [hc] at h; simp [Except.map] at h
      | ok p =>
        obtain ⟨t, after⟩ := p
        rw [hc] at h
        simp only [Except.map, Except.ok.injEq, Option.some.injEq] at h
        subst h
        obtain ⟨inside, hcut, -⟩ := complete_eq_ok hc
        have e := cutAt?_eq_some hcut
        have e' := (opener?_eq_some ho).1
        have := congrArg List.length e
        have := congrArg List.length e'
        simp only [List.length_append, List.length_cons] at *
        have : 0 < o.text.length := by cases o <;> decide
        omega
    · cases hf : find (pos + c.utf8Size) cs with
      | error d => rw [hf] at h; simp [Except.map] at h
      | ok r =>
        cases r with
        | none => rw [hf] at h; simp [Except.map] at h
        | some g =>
          rw [hf] at h
          simp only [Except.map, Option.map_some, Except.ok.injEq, Option.some.injEq] at h
          subst h
          have := ih hf
          simp only [Found.push, List.length_cons]
          omega

/-- A tag and the text between it and the tag before it. -/
structure Piece where
  text : List Char
  tag : Tag
  deriving Repr, BEq, DecidableEq

/-- A source cut at its tags. Behind the last tag stands plain text, or a tag that cannot be
read. -/
structure Scan where
  pieces : List Piece
  tail : Except Defect (List Char)

/-- All tags of a text that stands at byte `pos` of its source. -/
def scan (pos : Nat) (cs : List Char) : Scan :=
  match h : find pos cs with
  | .error d => ⟨[], .error d⟩
  | .ok none => ⟨[], .ok cs⟩
  | .ok (some f) =>
    have := find_shorter h
    let s := scan f.tag.span.stop f.rest
    ⟨⟨f.front, f.tag⟩ :: s.pieces, s.tail⟩
  termination_by cs.length

/-- The first tag of a source at or behind byte `offset`. -/
def findFrom (source : String) (offset : Nat) : Except Defect (Option Tag) :=
  (find offset (dropBytes offset source.toList)).map (Option.map Found.tag)

end Tag

end Stencil

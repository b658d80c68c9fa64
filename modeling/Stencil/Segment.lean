import Stencil.Variable

/-!
# Segments

The text of a block is kept as segments: literal text, each but the last of a stretch
followed by a variable. `Variables.segments` cuts a stretch of text at the placeholders of a
table: the earliest occurrence first, of those at one place the longest, and of equal ones the
first declared. `Variables.decompose` adds them to segments that are there already and counts them.
-/

namespace Stencil

/-- Literal text, and the index of the variable whose value follows it. -/
structure Segment where
  text : String
  var : Option Nat
  deriving Repr, BEq, DecidableEq

namespace Variables

/-- The variable taken at the front of a text, by its index counted from `i`, and the text
behind its placeholder. The longest placeholder leaves the shortest rest. -/
def hit? (cs : List Char) : (i : Nat) → List Variable → Option (Nat × List Char)
  | _, [] => none
  | i, v :: vs =>
    match v.take? cs, hit? cs (i + 1) vs with
    | none, later => later
    | some rest, none => some (i, rest)
    | some rest, some (j, rest') =>
      if rest'.length < rest.length then some (j, rest') else some (i, rest)

theorem hit?_shorter {cs rest : List Char} {i j : Nat} {vs : List Variable}
    (h : hit? cs i vs = some (j, rest)) : rest.length < cs.length := by
  induction vs generalizing i j rest with
  | nil => simp [hit?] at h
  | cons v vs ih =>
    rw [hit?] at h
    split at h
    · exact ih h
    · next hv _ =>
      simp only [Option.some.injEq, Prod.mk.injEq] at h
      exact h.2 ▸ Variable.take?_shorter hv
    · next hv hl =>
      split at h
      · simp only [Option.some.injEq, Prod.mk.injEq] at h
        exact h.2 ▸ ih hl
      · simp only [Option.some.injEq, Prod.mk.injEq] at h
        exact h.2 ▸ Variable.take?_shorter hv

/-- The segments of `cs` with the literal text `seen`, last character first, in front. -/
def segmentsAfter (vs : Variables) (seen : List Char) (cs : List Char) : List Segment :=
  match h : hit? cs 0 vs.entries with
  | some (i, rest) =>
    have := hit?_shorter h
    ⟨String.ofList seen.reverse, some i⟩ :: vs.segmentsAfter [] rest
  | none =>
    match cs with
    | [] => [⟨String.ofList seen.reverse, none⟩]
    | c :: rest => vs.segmentsAfter (c :: seen) rest
  termination_by cs.length

/-- A stretch of text cut at the placeholders of a table. The last segment, and only it, has
no variable. -/
def segments (vs : Variables) (text : List Char) : List Segment :=
  vs.segmentsAfter [] text

/-- Cuts a stretch of text behind the segments `out`: all of them, and how many the text has given. -/
def decompose (vs : Variables) (text : List Char) (out : List Segment) : List Segment × Nat :=
  (out ++ vs.segments text, (vs.segments text).length)

end Variables

end Stencil

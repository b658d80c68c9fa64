import Stencil.Proofs.Blamed
import Stencil.Proofs.FieldOrder
import Stencil.Proofs.Untagged

/-!
# What stands behind a fault

A tag that cannot be read is found from the text up to its end (`Tag.find_error_local`), and the reader comes to it
in the same way whatever follows: the end of the source is known to the root alone, and used for nothing but its
bytes (`Builder.run_reopen`). So a source refused for a tag is refused with every text behind that tag
(`Template.RefusedAhead`), and the error of a tag stays as it is when that text changes
(`Template.parse_error_ahead`).
-/

namespace Stencil

open Text
open Tag (Piece)

namespace Text

/-- The bytes of a character are not the beginning of those of another. -/
theorem encode_inj {c d : Char} {xs ys : List UInt8}
    (same : String.utf8EncodeChar c ++ xs = String.utf8EncodeChar d ++ ys) : c = d := by
  rcases Nat.lt_trichotomy c.val.toNat d.val.toNat with less | equal | greater
  · exact absurd (same ▸ encode_lt_of_lt (d := d) less xs ys) (List.lt_irrefl _)
  · exact Char.ext (UInt32.toNat_inj.1 equal)
  · exact absurd (same ▸ encode_lt_of_lt (d := c) greater ys xs) (List.lt_irrefl _)

theorem charBytes_eq_flatMap (cs : List Char) : charBytes cs = cs.flatMap String.utf8EncodeChar := by
  rw [charBytes, bytes_eq_flatMap, String.toList_ofList]

/-- A text whose bytes begin those of another one begins the other. -/
theorem prefix_of_bytes {front cs : List Char} (h : charBytes front <+: charBytes cs) : front <+: cs := by
  rw [charBytes_eq_flatMap, charBytes_eq_flatMap] at h
  induction front generalizing cs with
  | nil => exact List.nil_prefix
  | cons c front ih =>
    obtain ⟨more, same⟩ := h
    cases cs with
    | nil =>
      rw [List.flatMap_cons, List.flatMap_nil, List.append_assoc] at same
      exact absurd (List.append_eq_nil_iff.1 same).1 String.utf8EncodeChar_ne_nil
    | cons d cs =>
      rw [List.flatMap_cons, List.flatMap_cons, List.append_assoc] at same
      obtain rfl := encode_inj same
      exact List.cons_prefix_cons.2 ⟨rfl, ih ⟨more, List.append_cancel_left same⟩⟩

end Text

/-- A tag that cannot be read is found from the text up to its end. -/
theorem Tag.find_error_local {pos : Nat} {cs : List Char} {d : Defect} (h : find pos cs = .error d)
    (terminated : d.fault ≠ .unterminatedTag) :
    ∃ near far, cs = near ++ far ∧ d.span.stop = pos + byteCount near ∧
      ∀ more, find pos (near ++ more) = .error d := by
  obtain ⟨fault, lo, hi⟩ := d
  obtain ⟨front, o, rest, first, start, ⟨endless, -⟩ | ⟨inside, behind, cut, misread, stop⟩⟩ := find_eq_error h
  · exact absurd endless terminated
  · obtain rfl := cutAt?_eq_some cut
    obtain ⟨text, -, -⟩ := firstOpener?_eq_some first
    have start : lo = pos + byteCount front := start
    have stop : hi = pos + byteCount (front ++ o.text ++ inside ++ closer) := stop
    refine ⟨front ++ o.text ++ (inside ++ closer), behind, ?_, ?_, fun more => ?_⟩
    · rw [text]
      simp only [List.append_assoc]
    · rw [stop]
      simp only [List.append_assoc]
    · have long : 2 ≤ (inside ++ closer).length := by
        rw [List.length_append]
        exact Nat.le_trans (by decide) (Nat.le_add_left _ _)
      have opens : firstOpener? (front ++ o.text ++ (inside ++ closer) ++ behind) =
          some (front, o, inside ++ closer ++ behind) := by
        rw [List.append_assoc (front ++ o.text), ← text]
        exact first
      rw [find_eq, firstOpener?_congr long opens more, start, stop]
      simp only [complete_of_cut (cutAt?_congr cut more), misread, byteCount_append, Nat.add_assoc]
      rfl

/-! ## The end of the source -/

namespace Frame

/-- The same block, opened elsewhere. -/
def reopen (span : Span) (f : Frame) : Frame := { f with opening := span }

theorem read_reopen (span : Span) (f : Frame) (text : List Char) :
    (f.reopen span).read text = (f.read text).reopen span := rfl

/-- Where a block was opened plays no part in what can be declared in it. -/
theorem declare_reopen (span : Span) (f : Frame) (name : String) (place : Option String) (tag : Span) :
    (f.reopen span).declare name place tag = (f.declare name place tag).map (·.reopen span) := by
  show (f.vars.declare? name place tag).map _ = ((f.vars.declare? name place tag).map _).map _
  cases f.vars.declare? name place tag <;> rfl

end Frame

/-- The open blocks from the inside out, the outermost opened elsewhere. -/
def Builder.reopenLast (span : Span) : Frame → List Frame → Frame × List Frame
  | f, [] => (f.reopen span, [])
  | f, g :: gs => (f, (reopenLast span g gs).1 :: (reopenLast span g gs).2)

namespace Builder

/-- The same builder with other bytes for the root. -/
def reopen (span : Span) (b : Builder) : Builder :=
  ⟨(reopenLast span b.frame b.enclosing).1, (reopenLast span b.frame b.enclosing).2, b.notes⟩

theorem reopen_start (size size' : Nat) : (start size).reopen ⟨0, size'⟩ = start size' := rfl

/-- What happens at a tag does not depend on where the root was opened. -/
theorem step_reopen (span : Span) (b : Builder) (p : Piece) :
    (b.reopen span).step p = (b.step p).map (·.reopen span) := by
  obtain ⟨f, gs, notes⟩ := b
  cases kind : p.tag.kind with
  | closing =>
    cases gs with
    | nil =>
      simp only [step, kind, reopen, reopenLast]
      rfl
    | cons g gs =>
      simp only [step, kind, reopen, reopenLast]
      cases (f.read p.text).close p.tag.span.stop with
      | error d => rfl
      | ok block => cases gs <;> rfl
  | opening a =>
    cases declared : a.declaration with
    | error fault =>
      simp only [step, kind, declared]
      rfl
    | ok declaration =>
      cases declaration with
      | block name =>
        simp only [step, kind, declared]
        have same : ((reopenLast span f gs).1.read p.text).hasChild name = (f.read p.text).hasChild name := by
          cases gs <;> rfl
        cases taken : (f.read p.text).hasChild name with
        | true =>
          simp only [reopen, same, taken]
          rfl
        | false =>
          simp only [reopen, same, taken]
          cases gs <;> rfl
      | var name place =>
        simp only [step, kind, declared, reopen]
        cases gs with
        | nil =>
          rw [reopenLast, Frame.read_reopen, Frame.declare_reopen]
          cases (f.read p.text).declare name place p.tag.span <;> rfl
        | cons g gs =>
          simp only [reopenLast]
          cases (f.read p.text).declare name place p.tag.span <;> rfl

theorem run_reopen (span : Span) (b : Builder) (ps : List Piece) :
    (b.reopen span).run ps = ((b.run ps).1.reopen span, (b.run ps).2) := by
  induction ps generalizing b with
  | nil => rfl
  | cons p ps ih =>
    rw [run, run, step_reopen]
    cases b.step p with
    | error d => rfl
    | ok after => exact ih after

/-- The reader comes to a tag in the same way for every size of the source. -/
theorem run_of_size {size : Nat} {done : List Piece} {b : Builder} (ran : (start size).run done = (b, none))
    (size' : Nat) : (start size').run done = (b.reopen ⟨0, size'⟩, none) := by
  rw [← reopen_start size, run_reopen, ran]

/-- A tag is refused for a fault of its own, or for a variable of the block it closes. -/
theorem span_of_step_error {b : Builder} {p : Piece} {d : Defect} (failed : b.step p = .error d) :
    d.span = p.tag.span ∨ ∃ names, d.fault = .placeholdersNotFound names := by
  cases refuses_of_step failed with
  | stray | nothing | enter => exact .inl rfl
  | close _ _ failed =>
    obtain ⟨v, others, -, rfl⟩ := Frame.close_eq_error failed
    exact .inr ⟨_, rfl⟩
  | declare _ _ failed => rcases Frame.declare_eq_error failed with ⟨-, rfl⟩ | ⟨-, rfl⟩ <;> exact .inl rfl

end Builder

namespace Template

/-- Up to the end of the defect the source is a text whose every continuation is refused for it. -/
def RefusedAhead (source : String) (d : Defect) : Prop :=
  ∃ near far, source.toList = near ++ far ∧ byteCount near = d.span.stop ∧
    ∀ other : String, near <+: other.toList → ∀ file, Template.parse other file = .error (d.inFile file)

theorem refusedAhead_of_step {source : String} {done rest : List Piece} {p : Piece} {b : Builder} {d : Defect}
    (pieces : (Tag.scan 0 source.toList).pieces = done ++ p :: rest)
    (ran : (Builder.start (byteCount source.toList)).run done = (b, none)) (failed : b.step p = .error d)
    (span : d.span = p.tag.span) : RefusedAhead source d := by
  rw [List.append_cons] at pieces
  obtain ⟨stop, left, walk, -⟩ := Tag.walk_of_scan pieces
  obtain ⟨near, text, size, walks⟩ := walk.exists_front
  rw [Nat.zero_add, walk.stop_snoc, ← span] at size
  refine ⟨near, left, text, size.symm, fun other ⟨more, same⟩ file => ?_⟩
  have pieces' : (Tag.scan 0 other.toList).pieces = done ++ p :: (Tag.scan stop more).pieces := by
    rw [← same, Tag.scan_of_walk (walks more), List.append_assoc]
    rfl
  refine parse_of_step file pieces' (Builder.run_of_size ran _) ?_
  rw [Builder.step_reopen, failed]
  rfl

theorem refusedAhead_of_tail {source : String} {b : Builder} {d : Defect}
    (ran : (Builder.start (byteCount source.toList)).run (Tag.scan 0 source.toList).pieces = (b, none))
    (tail : (Tag.scan 0 source.toList).tail = .error d) (terminated : d.fault ≠ .unterminatedTag) :
    RefusedAhead source d := by
  obtain ⟨stop, left, walk, stuck⟩ := Tag.walk_of_tail_error tail
  obtain ⟨front, text, size, walks⟩ := walk.exists_front
  obtain ⟨near, far, left_eq, stop_eq, stays⟩ := Tag.find_error_local stuck terminated
  rw [left_eq, ← List.append_assoc] at text
  rw [Nat.zero_add] at size
  rw [size, ← byteCount_append] at stop_eq
  refine ⟨front ++ near, far, text, stop_eq.symm, fun other ⟨more, same⟩ file => ?_⟩
  have scanned : Tag.scan 0 other.toList = ⟨(Tag.scan 0 source.toList).pieces, .error d⟩ := by
    rw [← same, List.append_assoc, Tag.scan_of_walk (walks (near ++ more)), Tag.scan_of_error (stays more),
      List.append_nil]
  refine parse_of_finish (b := b.reopen ⟨0, byteCount other.toList⟩) file ?_ ?_
  · rw [scanned]
    exact Builder.run_of_size ran _
  · rw [scanned]
    rfl

/-- **Errors depend on the text up to the faulty tag alone.** Unless a tag or a block is not ended or a placeholder
does not occur, every text that agrees with the source on the bytes up to the end of the tag the error points at is
refused for the same fault in the same place, whatever follows there. -/
theorem parse_error_ahead {source : String} {file : Nat} {e : ParseError} (h : Template.parse source file = .error e)
    (terminated : e.fault ≠ .unterminatedTag) (closed : ∀ name, e.fault ≠ .unclosedBlock name)
    (matched : ∀ names, e.fault ≠ .placeholdersNotFound names) {other : String}
    (same : (bytes source).take e.span.stop <+: bytes other) (file' : Nat) :
    Template.parse other file' = .error (e.toDefect.inFile file') := by
  have stays : RefusedAhead source e.toDefect := by
    obtain ⟨d, rfl, ⟨done, p, rest, b, pieces, ran, failed⟩ | ⟨b, ran, failed⟩⟩ := parse_eq_error h
    · have span : d.span = p.tag.span :=
        (Builder.span_of_step_error failed).resolve_right fun ⟨names, fault⟩ => matched names fault
      exact refusedAhead_of_step pieces ran failed span
    · rcases Builder.finish_eq_error failed with tail | ⟨text, -, ⟨-, rfl⟩ | ⟨-, failed⟩⟩
      · exact refusedAhead_of_tail ran tail terminated
      · exact absurd rfl (closed _)
      · obtain ⟨v, others, -, rfl⟩ := Frame.close_eq_error failed
        exact absurd rfl (matched _)
  obtain ⟨near, far, text, size, again⟩ := stays
  rw [← charBytes_toList source, ← charBytes_toList other, text, charBytes_append, ← size, ← length_charBytes,
    List.take_left] at same
  exact again other (prefix_of_bytes same) file'

/-- A repeated name: the end of the block that is open there, and a tag without end, are not waited for. -/
theorem parse_error_ahead_unfinished :
    Template.parse "é<!--rep blk=b--><!--rep var=v place=V--><!--rep var=v place=W-->V<!--/rep-->" 0 =
        .error ⟨⟨.duplicateVariable "v", ⟨42, 66⟩⟩, 0⟩ ∧
      (bytes "é<!--rep blk=b--><!--rep var=v place=V--><!--rep var=v place=W-->V<!--/rep-->").take 66 <+:
        bytes "é<!--rep blk=b--><!--rep var=v place=V--><!--rep var=v place=W--><!--rep" ∧
      Template.parse "é<!--rep blk=b--><!--rep var=v place=V--><!--rep var=v place=W--><!--rep" 3 =
        .error ⟨⟨.duplicateVariable "v", ⟨42, 66⟩⟩, 3⟩ := by
  have refused : Template.parse "é<!--rep blk=b--><!--rep var=v place=V--><!--rep var=v place=W-->V<!--/rep-->" 0 =
      .error ⟨⟨.duplicateVariable "v", ⟨42, 66⟩⟩, 0⟩ := by
    with_unfolding_all rfl
  have same : (bytes "é<!--rep blk=b--><!--rep var=v place=V--><!--rep var=v place=W-->V<!--/rep-->").take 66 <+:
      bytes "é<!--rep blk=b--><!--rep var=v place=V--><!--rep var=v place=W--><!--rep" := by
    decide +kernel
  exact ⟨refused, same, parse_error_ahead refused nofun nofun nofun same 3⟩

end Template

end Stencil

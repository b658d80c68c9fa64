import Stencil.Proofs.FlatScan
import Stencil.Proofs.Openers

/-!
# Walking from tag to tag

A walk passes some tags of a text one after the other, each found from the end of the one before; the scan
of the text goes on where the walk has stopped (`scan_of_walk`, `walk_of_scan`). Every tag that is passed is
written out in the text, from its opener to the first closer behind it (`Walk.written`). A walk depends on
nothing behind the last tag it passes (`Walk.exists_front`).
-/

namespace Stencil

open Text

namespace Tag

/-- From byte `pos` some tags of a text are passed, each with the text in front of it; what is left of the
text stands at byte `stop`. -/
inductive Walk : Nat → List Char → List Piece → Nat → List Char → Prop where
  | rest {pos : Nat} {cs : List Char} : Walk pos cs [] pos cs
  | pass {pos stop : Nat} {cs left : List Char} {f : Found} {ps : List Piece} (found : find pos cs = .ok (some f))
      (further : Walk f.tag.span.stop f.rest ps stop left) : Walk pos cs (⟨f.front, f.tag⟩ :: ps) stop left

/-- An opener stands behind some text, and a word ends behind it; its tag ends at the first closer. -/
structure Written (cs before : List Char) (o : Opener) (inside behind : List Char) : Prop where
  text : cs = before ++ o.text ++ inside ++ closer ++ behind
  ends : wordEnds (inside ++ closer ++ behind) = true
  first : ∀ front back, inside ++ closer ++ behind = front ++ closer ++ back → inside.length ≤ front.length

/-- The bytes of a tag behind some text. -/
def spanOf (before : List Char) (o : Opener) (inside : List Char) : Span :=
  ⟨byteCount before, byteCount (before ++ o.text ++ inside ++ closer)⟩

/-- The first opener of a text with the first closer behind it is a tag written out. -/
theorem written_of_first {cs front rest inside behind : List Char} {o : Opener}
    (first : firstOpener? cs = some (front, o, rest)) (cut : cutAt? closer rest = some (inside, behind))
    {before whole : List Char} (split_ : whole = before ++ cs) : Written whole (before ++ front) o inside behind := by
  obtain ⟨text, ends, -⟩ := firstOpener?_eq_some first
  obtain rfl := cutAt?_eq_some cut
  refine ⟨?_, ends, fun front back other => cutAt?_first cut other⟩
  rw [split_, text]
  simp only [List.append_assoc]

theorem written_of_find {pos : Nat} {cs : List Char} {f : Found} (h : find pos cs = .ok (some f))
    {before whole : List Char} (split_ : whole = before ++ cs) (at_ : pos = byteCount before) :
    ∃ o inside, Written whole (before ++ f.front) o inside f.rest ∧
      f.tag.span = spanOf (before ++ f.front) o inside := by
  obtain ⟨o, inside, first, cut, -, span⟩ := find_eq_ok_some h
  refine ⟨o, inside, written_of_first first cut split_, ?_⟩
  unfold spanOf
  rw [span, at_]
  simp only [byteCount_append, Nat.add_assoc]

/-- A tag that is written out has bytes, in the text, and they are its own. -/
theorem Written.bounds {cs before inside behind : List Char} {o : Opener} (h : Written cs before o inside behind) :
    (spanOf before o inside).start < (spanOf before o inside).stop ∧ (spanOf before o inside).stop ≤ byteCount cs ∧
      slice cs (spanOf before o inside).start (spanOf before o inside).stop = o.text ++ inside ++ closer := by
  have three : byteCount closer = 3 := by decide
  have text : cs = before ++ (o.text ++ inside ++ closer) ++ behind := by
    rw [h.text]
    simp only [List.append_assoc]
  have stop : (spanOf before o inside).stop = byteCount before + byteCount (o.text ++ inside ++ closer) := by
    simp only [spanOf, byteCount_append, Nat.add_assoc]
  refine ⟨?_, ?_, ?_⟩
  · show byteCount before < _
    rw [stop, byteCount_append _ closer]
    omega
  · rw [stop, text, byteCount_append _ behind, byteCount_append before]
    omega
  · rw [stop, text]
    exact slice_append before _ behind

namespace Walk

variable {pos stop : Nat} {cs left : List Char} {ps : List Piece}

/-- A walk past some tags and others is a walk past the former, then one past the others. -/
theorem split {qs : List Piece} (h : Walk pos cs (ps ++ qs) stop left) :
    ∃ mid between, Walk pos cs ps mid between ∧ Walk mid between qs stop left := by
  induction ps generalizing pos cs with
  | nil => exact ⟨pos, cs, .rest, h⟩
  | cons p ps ih =>
    cases h with
    | pass found further =>
      obtain ⟨mid, between, first, others⟩ := ih further
      exact ⟨mid, between, .pass found first, others⟩

/-- What is passed stands in front of what is left, and settles the walk alone. -/
theorem exists_front (h : Walk pos cs ps stop left) :
    ∃ front, cs = front ++ left ∧ stop = pos + byteCount front ∧ ∀ more, Walk pos (front ++ more) ps stop more := by
  induction h with
  | rest => exact ⟨[], rfl, rfl, fun more => .rest⟩
  | @pass pos stop cs left f ps found further ih =>
    obtain ⟨comment, text, span, anywhere, -⟩ := find_local found
    obtain ⟨front, rest, stop_eq, walks⟩ := ih
    refine ⟨f.front ++ comment ++ front, ?_, ?_, fun more => ?_⟩
    · rw [List.append_assoc, ← rest, ← text]
    · rw [stop_eq, span]
      simp only [byteCount_append, Nat.add_assoc]
    · have step := anywhere (front ++ more)
      rw [← List.append_assoc] at step
      have whole := Walk.pass step (walks more)
      exact whole

/-- A walk stops at the end of the last tag it passes. -/
theorem stop_snoc {p : Piece} (h : Walk pos cs (ps ++ [p]) stop left) : stop = p.tag.span.stop := by
  obtain ⟨mid, between, -, last⟩ := h.split
  cases last with
  | pass found further =>
    cases further with
    | rest => rfl

/-- What stands from the beginning of the first tag to the place where the walk stops is a text of its own, and
the walk passes the same tags in it. -/
theorem alone {p : Piece} (h : Walk pos cs (p :: ps) stop left) :
    ∃ front text, cs = front ++ text ++ left ∧ p.tag.span.start = pos + byteCount front ∧
      stop = p.tag.span.start + byteCount text ∧ Walk p.tag.span.start text (⟨[], p.tag⟩ :: ps) stop [] := by
  cases h with
  | @pass _ _ _ _ f _ found further =>
    obtain ⟨comment, text, span, -, anywhere⟩ := find_local found
    have start : f.tag.span.start = pos + byteCount f.front := by rw [span]
    rw [← start] at anywhere
    have own : Walk f.tag.span.start (comment ++ f.rest) (⟨[], f.tag⟩ :: ps) stop left :=
      .pass (anywhere f.rest) further
    obtain ⟨passed, rest, stop_eq, walks⟩ := own.exists_front
    have to_end := walks []
    rw [List.append_nil] at to_end
    refine ⟨f.front, passed, ?_, start, stop_eq, to_end⟩
    rw [text, List.append_assoc, rest, List.append_assoc]

/-- Every tag that is passed is written out. -/
theorem written (h : Walk pos cs ps stop left) {before whole : List Char} (split_ : whole = before ++ cs)
    (at_ : pos = byteCount before) {p : Piece} (mem : p ∈ ps) :
    ∃ front o inside behind, Written whole front o inside behind ∧ p.tag.span = spanOf front o inside := by
  induction h generalizing before with
  | rest => cases mem
  | @pass pos stop cs left f ps found further ih =>
    obtain ⟨comment, text, span, -⟩ := find_local found
    rcases List.mem_cons.1 mem with rfl | later
    · obtain ⟨o, inside, here, bytes⟩ := written_of_find found split_ at_
      exact ⟨before ++ f.front, o, inside, f.rest, here, bytes⟩
    · have behind : whole = before ++ f.front ++ comment ++ f.rest := by
        rw [split_, text]
        simp only [List.append_assoc]
      refine ih behind ?_ later
      rw [span, at_]
      simp only [byteCount_append]

end Walk

/-! ## Walks and scans -/

/-- The scan goes on where a walk has stopped. -/
theorem scan_of_walk {pos stop : Nat} {cs left : List Char} {ps : List Piece} (h : Walk pos cs ps stop left) :
    scan pos cs = ⟨ps ++ (scan stop left).pieces, (scan stop left).tail⟩ := by
  induction h with
  | rest => rfl
  | pass found _ ih =>
    rw [scan_of_some found, ih]
    rfl

/-- The tags of a scan are passed one after the other. -/
theorem walk_of_scan {pos : Nat} {cs : List Char} {ps later : List Piece} (h : (scan pos cs).pieces = ps ++ later) :
    ∃ stop left, Walk pos cs ps stop left ∧ (scan stop left).pieces = later ∧
      (scan stop left).tail = (scan pos cs).tail := by
  induction ps generalizing pos cs with
  | nil => exact ⟨pos, cs, .rest, h, rfl⟩
  | cons p ps ih =>
    cases found : find pos cs with
    | error d =>
      rw [scan_of_error found] at h
      cases h
    | ok r =>
      cases r with
      | none =>
        rw [scan_of_none found] at h
        cases h
      | some f =>
        rw [scan_of_some found] at h
        obtain ⟨rfl, behind⟩ := List.cons.inj h
        obtain ⟨stop, left, further, pieces, tail⟩ := ih behind
        refine ⟨stop, left, .pass found further, pieces, ?_⟩
        rw [tail, scan_of_some found]

/-- Behind all tags of a scan stands the one that cannot be read. -/
theorem walk_of_tail_error {pos : Nat} {cs : List Char} {d : Defect} (h : (scan pos cs).tail = .error d) :
    ∃ stop left, Walk pos cs (scan pos cs).pieces stop left ∧ find stop left = .error d := by
  obtain ⟨stop, left, walk, none_, tail⟩ := walk_of_scan (List.append_nil (scan pos cs).pieces).symm
  refine ⟨stop, left, walk, ?_⟩
  rw [h] at tail
  cases found : find stop left with
  | error d' =>
    rw [scan_of_error found] at tail
    cases tail
    rfl
  | ok r =>
    cases r with
    | none =>
      rw [scan_of_none found] at tail
      cases tail
    | some f =>
      rw [scan_of_some found] at none_
      cases none_

end Tag

end Stencil

import Stencil.Tag.Scan

/-!
# The flat scan

The tags of a source one after the other: the first one is looked for from the start of the source,
and each further one from the end of the one before. `FlatScan` is such a search that finds every
tag and no defect; it is what `Tag.scan` gives (`flatScan_iff`), whose texts are therefore the bytes
of the source between the tags.
-/

namespace Stencil

namespace Text

/-- The first `n` bytes of a text. -/
def takeBytes : Nat → List Char → List Char
  | 0, _ => []
  | _ + 1, [] => []
  | n + 1, c :: cs => c :: takeBytes (n + 1 - c.utf8Size) cs

/-- The text that stands from byte `start` to byte `stop`. -/
def slice (cs : List Char) (start stop : Nat) : List Char :=
  takeBytes (stop - start) (dropBytes start cs)

@[simp] theorem takeBytes_zero (cs : List Char) : takeBytes 0 cs = [] := by
  cases cs <;> rfl

theorem takeBytes_append (xs ys : List Char) : takeBytes (byteCount xs) (xs ++ ys) = xs := by
  induction xs with
  | nil => simp
  | cons c cs ih =>
    have pos : 0 < c.utf8Size := Char.utf8Size_pos c
    obtain ⟨n, hn⟩ : ∃ n, c.utf8Size + byteCount cs = n + 1 := ⟨c.utf8Size + byteCount cs - 1, by omega⟩
    have rest : n + 1 - c.utf8Size = byteCount cs := by omega
    rw [byteCount_cons, hn, List.cons_append, takeBytes, rest, ih]

/-- A slice is the text between what stands in front of it and what stands behind it. -/
theorem slice_append (front text back : List Char) :
    slice (front ++ text ++ back) (byteCount front) (byteCount front + byteCount text) = text := by
  have size : byteCount front + byteCount text - byteCount front = byteCount text := by omega
  rw [slice, size, List.append_assoc, dropBytes_append, takeBytes_append]

theorem slice_to_end {whole front text : List Char} (split_ : whole = front ++ text) :
    slice whole (byteCount front) (byteCount whole) = text := by
  have all := slice_append front text []
  rwa [List.append_nil, ← byteCount_append, ← split_] at all

end Text

open Text

namespace Tag

/-- A tag that is found stands behind the text in front of it, and its bytes are its span. -/
theorem find_eq_some {pos : Nat} {cs : List Char} {f : Found} (h : find pos cs = .ok (some f)) :
    ∃ comment, cs = f.front ++ comment ++ f.rest ∧
      f.tag.span = ⟨pos + byteCount f.front, pos + byteCount f.front + byteCount comment⟩ := by
  induction cs generalizing pos f with
  | nil => simp [find] at h
  | cons c cs ih =>
    rw [find] at h
    split at h
    · next o rest opener =>
      cases hc : complete o pos rest with
      | error d => rw [hc] at h; cases h
      | ok read =>
        obtain ⟨t, after⟩ := read
        rw [hc] at h
        cases h
        obtain ⟨inside, cut, span⟩ := complete_eq_ok hc
        have text : c :: cs = o.text ++ rest := (opener?_eq_some opener).1
        have rest_eq : rest = inside ++ closer ++ after := cutAt?_eq_some cut
        refine ⟨o.text ++ inside ++ closer, ?_, ?_⟩
        · rw [text, rest_eq]
          simp only [List.nil_append, List.append_assoc]
        · rw [span]
          simp only [byteCount_nil, byteCount_append, Nat.add_zero, Nat.add_assoc]
    · cases hf : find (pos + c.utf8Size) cs with
      | error d => rw [hf] at h; cases h
      | ok found =>
        cases found with
        | none => rw [hf] at h; cases h
        | some g =>
          rw [hf] at h
          cases h
          obtain ⟨comment, text, span⟩ := ih hf
          refine ⟨comment, ?_, ?_⟩
          · simp only [Found.push, List.cons_append, ← text]
          · simp only [Found.push, span, byteCount_cons, Nat.add_assoc]

theorem scan_of_error {pos : Nat} {cs : List Char} {d : Defect} (h : find pos cs = .error d) :
    scan pos cs = ⟨[], .error d⟩ := by
  rw [scan]
  split
  · next e => rw [h] at e; cases e; rfl
  · next e => rw [h] at e; cases e
  · next e => rw [h] at e; cases e

theorem scan_of_none {pos : Nat} {cs : List Char} (h : find pos cs = .ok none) :
    scan pos cs = ⟨[], .ok cs⟩ := by
  rw [scan]
  split
  · next e => rw [h] at e; cases e
  · rfl
  · next e => rw [h] at e; cases e

theorem scan_of_some {pos : Nat} {cs : List Char} {f : Found} (h : find pos cs = .ok (some f)) :
    scan pos cs =
      ⟨⟨f.front, f.tag⟩ :: (scan f.tag.span.stop f.rest).pieces, (scan f.tag.span.stop f.rest).tail⟩ := by
  rw [scan]
  split
  · next e => rw [h] at e; cases e
  · next e => rw [h] at e; cases e
  · next e => rw [h] at e; cases e; rfl

/-- The tags from byte `pos` on with the text in front of each, and the text behind the last one. -/
inductive FlatScan (source : String) : Nat → List Piece → List Char → Prop where
  | done {pos : Nat} (none_left : findFrom source pos = .ok none) :
      FlatScan source pos [] (slice source.toList pos (byteCount source.toList))
  | tag {pos : Nat} {t : Tag} {ps : List Piece} {tail : List Char}
      (found : findFrom source pos = .ok (some t)) (rest : FlatScan source t.span.stop ps tail) :
      FlatScan source pos (⟨slice source.toList pos t.span.start, t⟩ :: ps) tail

theorem not_flatScan_of_error {source : String} {pos : Nat} {d : Defect} {ps : List Piece} {tail : List Char}
    (h : findFrom source pos = .error d) : ¬ FlatScan source pos ps tail := by
  intro flat
  cases flat with
  | done none_left => rw [h] at none_left; cases none_left
  | tag found => rw [h] at found; cases found

theorem flatScan_iff_of_none {source : String} {pos : Nat} {ps : List Piece} {tail : List Char}
    (h : findFrom source pos = .ok none) :
    FlatScan source pos ps tail ↔ ps = [] ∧ tail = slice source.toList pos (byteCount source.toList) := by
  constructor
  · intro flat
    cases flat with
    | done => exact ⟨rfl, rfl⟩
    | tag found => rw [h] at found; cases found
  · rintro ⟨rfl, rfl⟩
    exact .done h

theorem flatScan_iff_of_some {source : String} {pos : Nat} {t : Tag} {ps : List Piece} {tail : List Char}
    (h : findFrom source pos = .ok (some t)) :
    FlatScan source pos ps tail ↔
      ∃ qs, ps = ⟨slice source.toList pos t.span.start, t⟩ :: qs ∧ FlatScan source t.span.stop qs tail := by
  constructor
  · intro flat
    cases flat with
    | done none_left => rw [h] at none_left; cases none_left
    | tag found rest =>
      rw [h] at found
      cases found
      exact ⟨_, rfl, rest⟩
  · rintro ⟨qs, rfl, rest⟩
    exact .tag h rest

/-- The flat scan from the end of some text is the scan of what stands behind it. -/
theorem flatScan_iff {source : String} {before cs : List Char} (split_ : source.toList = before ++ cs)
    {ps : List Piece} {tail : List Char} :
    FlatScan source (byteCount before) ps tail ↔
      (scan (byteCount before) cs).pieces = ps ∧ (scan (byteCount before) cs).tail = .ok tail := by
  induction h : cs.length using Nat.strongRecOn generalizing before cs ps with
  | ind size ih =>
    have rest_eq : dropBytes (byteCount before) source.toList = cs := by
      rw [split_, dropBytes_append]
    have find_eq : findFrom source (byteCount before) = (find (byteCount before) cs).map (Option.map Found.tag) := by
      rw [findFrom, rest_eq]
    cases hf : find (byteCount before) cs with
    | error d =>
      rw [hf] at find_eq
      rw [scan_of_error hf]
      exact iff_of_false (not_flatScan_of_error find_eq) fun e => by cases e.2
    | ok found =>
      rw [hf] at find_eq
      cases found with
      | none =>
        rw [flatScan_iff_of_none find_eq, scan_of_none hf, slice_to_end split_]
        simp only [Except.ok.injEq, eq_comm]
      | some f =>
        obtain ⟨comment, text, span⟩ := find_eq_some hf
        have whole : source.toList = (before ++ f.front ++ comment) ++ f.rest := by
          rw [split_, text]
          simp only [List.append_assoc]
        have stop : f.tag.span.stop = byteCount (before ++ f.front ++ comment) := by
          rw [span]
          simp only [byteCount_append]
        have front : slice source.toList (byteCount before) f.tag.span.start = f.front := by
          rw [whole, span, List.append_assoc (before ++ f.front), slice_append]
        have rest (qs : List Piece) : FlatScan source f.tag.span.stop qs tail ↔
            (scan f.tag.span.stop f.rest).pieces = qs ∧ (scan f.tag.span.stop f.rest).tail = .ok tail := by
          rw [stop]
          exact ih _ (h ▸ find_shorter hf) whole rfl
        rw [flatScan_iff_of_some find_eq, scan_of_some hf, front]
        constructor
        · rintro ⟨qs, rfl, flat⟩
          obtain ⟨rfl, tail_eq⟩ := (rest qs).1 flat
          exact ⟨rfl, tail_eq⟩
        · rintro ⟨rfl, tail_eq⟩
          exact ⟨_, rfl, (rest _).2 ⟨rfl, tail_eq⟩⟩

/-- The flat scan of a source is its scan. -/
theorem flatScan_source {source : String} {ps : List Piece} {tail : List Char} :
    FlatScan source 0 ps tail ↔
      (scan 0 source.toList).pieces = ps ∧ (scan 0 source.toList).tail = .ok tail :=
  @flatScan_iff source [] source.toList rfl ps tail

end Tag

end Stencil

import Stencil.Proofs.FlatScan

/-!
# A source without its tags

The bytes of a source that stand in none of its tags are the texts between the tags, one after the
other (`FlatScan.uncovered_eq`).
-/

namespace Stencil

/-- Whether a position lies in a span. -/
def Span.covers (s : Span) (i : Nat) : Bool := s.start ≤ i && i < s.stop

namespace Text

/-- The bytes of some characters. -/
def charBytes (cs : List Char) : List UInt8 := bytes (String.ofList cs)

@[simp] theorem charBytes_append (xs ys : List Char) : charBytes (xs ++ ys) = charBytes xs ++ charBytes ys := by
  simp [charBytes, String.ofList_append]

theorem charBytes_toList (s : String) : charBytes s.toList = bytes s := by
  rw [charBytes, String.ofList_toList]

theorem length_charBytes (cs : List Char) : (charBytes cs).length = byteCount cs := by
  induction cs with
  | nil => rfl
  | cons c cs ih =>
    have one : (charBytes [c]).length = c.utf8Size := by
      simp [charBytes, bytes, List.utf8Encode_singleton]
    rw [← List.singleton_append, charBytes_append, List.length_append, one, ih]
    rfl

/-- The bytes that no span covers; the first byte stands at position `n`. -/
def uncovered (spans : List Span) : (n : Nat) → List UInt8 → List UInt8
  | _, [] => []
  | n, b :: bs => if spans.any (·.covers n) then uncovered spans (n + 1) bs else b :: uncovered spans (n + 1) bs

theorem uncovered_append (spans : List Span) (n : Nat) (xs ys : List UInt8) :
    uncovered spans n (xs ++ ys) = uncovered spans n xs ++ uncovered spans (n + xs.length) ys := by
  induction xs generalizing n with
  | nil => rfl
  | cons b xs ih =>
    have next : n + 1 + xs.length = n + (b :: xs).length := by
      rw [List.length_cons]; omega
    rw [List.cons_append, uncovered, uncovered, ih, next]
    split <;> rfl

theorem uncovered_of_covers {spans : List Span} {s : Span} (mem : s ∈ spans) {n : Nat} {bs : List UInt8}
    (start : s.start ≤ n) (stop : n + bs.length ≤ s.stop) : uncovered spans n bs = [] := by
  induction bs generalizing n with
  | nil => rfl
  | cons b bs ih =>
    rw [List.length_cons] at stop
    have here : (spans.any (·.covers n)) = true := by
      refine List.any_eq_true.2 ⟨s, mem, ?_⟩
      simp only [Span.covers, Bool.and_eq_true, decide_eq_true_eq]
      omega
    rw [uncovered, if_pos here]
    exact ih (by omega) (by omega)

theorem uncovered_of_later {spans : List Span} {n : Nat} {bs : List UInt8}
    (later : ∀ s ∈ spans, n + bs.length ≤ s.start) : uncovered spans n bs = bs := by
  induction bs generalizing n with
  | nil => rfl
  | cons b bs ih =>
    have here : ¬ (spans.any (·.covers n)) = true := by
      intro covered
      obtain ⟨s, mem, covers⟩ := List.any_eq_true.1 covered
      have := later s mem
      simp only [Span.covers, Bool.and_eq_true, decide_eq_true_eq] at covers
      rw [List.length_cons] at this
      omega
    rw [uncovered, if_neg here, ih fun s mem => ?_]
    have := later s mem
    rw [List.length_cons] at this
    omega

/-- A span that has ended covers nothing any more. -/
theorem uncovered_cons {spans : List Span} {s : Span} {n : Nat} (ended : s.stop ≤ n) (bs : List UInt8) :
    uncovered (s :: spans) n bs = uncovered spans n bs := by
  induction bs generalizing n with
  | nil => rfl
  | cons b bs ih =>
    have here : s.covers n = false := by
      simp only [Span.covers, Bool.and_eq_false_iff, decide_eq_false_iff_not]
      omega
    rw [uncovered, uncovered, List.any_cons, here, Bool.false_or, ih (by omega)]

/-- Of a stretch with one span in it, what stands in front of the span stays, and what stands behind
it is left to the later spans. -/
theorem uncovered_around {spans : List Span} {s : Span} {n : Nat} {front inside back : List UInt8}
    (start : s.start = n + front.length) (stop : s.stop = n + front.length + inside.length)
    (later : ∀ r ∈ spans, s.stop ≤ r.start) :
    uncovered (s :: spans) n (front ++ inside ++ back) = front ++ uncovered spans s.stop back := by
  have stays : uncovered (s :: spans) n front = front := by
    apply uncovered_of_later
    intro r hr
    rcases List.mem_cons.1 hr with rfl | hr
    · omega
    · have := later r hr
      omega
  have goes : uncovered (s :: spans) (n + front.length) inside = [] :=
    uncovered_of_covers List.mem_cons_self (by omega) (by omega)
  rw [uncovered_append, uncovered_append, stays, goes, List.append_nil, List.length_append, ← Nat.add_assoc,
    ← stop, uncovered_cons (Nat.le_refl _)]

end Text

open Text

namespace Tag

/-- A tag that is found from the end of some text stands in what is behind that text. -/
theorem findFrom_eq_some {source : String} {before cs : List Char} {t : Tag}
    (split_ : source.toList = before ++ cs) (found : findFrom source (byteCount before) = .ok (some t)) :
    ∃ front comment rest, cs = front ++ comment ++ rest ∧
      t.span = ⟨byteCount (before ++ front), byteCount (before ++ front ++ comment)⟩ := by
  rw [findFrom, split_, dropBytes_append] at found
  cases hf : find (byteCount before) cs with
  | error d => rw [hf] at found; cases found
  | ok r =>
    cases r with
    | none => rw [hf] at found; cases found
    | some f =>
      rw [hf] at found
      cases found
      obtain ⟨comment, text, span⟩ := find_eq_some hf
      refine ⟨f.front, comment, f.rest, text, ?_⟩
      rw [span]
      simp only [byteCount_append]

namespace FlatScan

variable {source : String} {before cs tail : List Char} {ps : List Piece}

/-- No tag of the scan begins in front of it. -/
theorem le_start (split_ : source.toList = before ++ cs) (scan : FlatScan source (byteCount before) ps tail) :
    ∀ s ∈ ps.map (·.tag.span), byteCount before ≤ s.start := by
  induction ps generalizing before cs with
  | nil => exact nofun
  | cons p ps ih =>
    cases scan with
    | @tag _ t _ _ found rest =>
      obtain ⟨front, comment, back, rfl, span⟩ := findFrom_eq_some split_ found
      have whole : source.toList = (before ++ front ++ comment) ++ back := by
        rw [split_]
        simp only [List.append_assoc]
      rw [span] at rest
      intro s hs
      rcases List.mem_cons.1 hs with rfl | hs
      · show byteCount before ≤ t.span.start
        rw [span, byteCount_append]
        exact Nat.le_add_right _ _
      · have := ih whole rest s hs
        simp only [byteCount_append] at this
        omega

/-- The bytes outside all tags are those of the texts between the tags. -/
theorem uncovered_eq (split_ : source.toList = before ++ cs) (scan : FlatScan source (byteCount before) ps tail) :
    uncovered (ps.map (·.tag.span)) (byteCount before) (charBytes cs) =
      charBytes (ps.flatMap (·.text) ++ tail) := by
  induction ps generalizing before cs with
  | nil =>
    cases scan with
    | done =>
      rw [slice_to_end split_]
      exact uncovered_of_later nofun
  | cons p ps ih =>
    cases scan with
    | @tag _ t _ _ found rest =>
      obtain ⟨front, comment, back, rfl, span⟩ := findFrom_eq_some split_ found
      have whole : source.toList = (before ++ front ++ comment) ++ back := by
        rw [split_]
        simp only [List.append_assoc]
      have text : slice source.toList (byteCount before) t.span.start = front := by
        rw [whole, span, byteCount_append, List.append_assoc (before ++ front), slice_append]
      have stop : t.span.stop = byteCount (before ++ front ++ comment) := by rw [span]
      rw [stop] at rest
      have around : uncovered (t.span :: ps.map (·.tag.span)) (byteCount before)
          (charBytes front ++ charBytes comment ++ charBytes back) =
          charBytes front ++ uncovered (ps.map (·.tag.span)) t.span.stop (charBytes back) := by
        refine uncovered_around ?_ ?_ ?_
        · rw [span, length_charBytes, byteCount_append]
        · rw [stop, length_charBytes, length_charBytes]
          simp only [byteCount_append]
        · rw [stop]
          exact le_start whole rest
      calc
        uncovered (t.span :: ps.map (·.tag.span)) (byteCount before) (charBytes (front ++ comment ++ back))
          = charBytes front ++ uncovered (ps.map (·.tag.span)) t.span.stop (charBytes back) := by
            rw [charBytes_append, charBytes_append, around]
        _ = charBytes (front ++ (ps.flatMap (·.text) ++ tail)) := by
            rw [stop, ih whole rest, ← charBytes_append]
        _ = charBytes ((⟨slice source.toList (byteCount before) t.span.start, t⟩ :: ps).flatMap (·.text) ++ tail) := by
            rw [List.flatMap_cons, text, List.append_assoc]

end FlatScan

end Tag

end Stencil

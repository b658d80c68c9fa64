import Stencil.Page

/-!
# What a sink goes through

`Sink.Served s events t` says that sink `s` has become `t` by writes and flushes alone, of which
`events` tells all that was taken and all that was asked for. A gap serves its sink whatever the sink
does (`writeGap_served`), and if the sink gives up, it has taken a part of the gap and was asked for
no flush, or it has taken the whole gap and refused the flush behind it (`writeGap_brokenOff`).
Otherwise it has taken the whole gap, and agreed to the flush if there is one (`writeGap_whole`).
-/

namespace Stencil

open Text

variable {σ : Type}

/-- What a sink has taken of the bytes it was offered, as an event if it is anything. -/
def Sink.takenOf (answer : Except SinkFault Nat) (bs : List UInt8) : List Event :=
  match answer with
  | .ok (n + 1) => [.wrote (bs.take (n + 1))]
  | _ => []

/-! ## Portions of a text -/

namespace Written

/-- How far some bytes have come: what was taken are pieces of them in their order, and all of them
unless the sink gave up. -/
def Portion (bs : List UInt8) (w : Written σ) : Prop :=
  ∃ pieces : List (List UInt8), w.events = pieces.map .wrote ∧ pieces.flatten <+: bs ∧
    (w.fault = none ↔ pieces.flatten = bs)

variable {bs rest : List UInt8} {first others : Written σ}

theorem Portion.append (h : Portion bs first) (done : first.fault = none) (later : Portion rest others) :
    Portion (bs ++ rest) { others with events := first.events ++ others.events } := by
  obtain ⟨pieces, events, -, whole⟩ := h
  obtain ⟨more, events', part', whole'⟩ := later
  have all : (pieces ++ more).flatten = bs ++ more.flatten := by
    rw [List.flatten_append, whole.1 done]
  refine ⟨pieces ++ more, by rw [events, events', List.map_append], ?_, ?_⟩
  · rw [all]
    exact (List.prefix_append_right_inj bs).2 part'
  · rw [all, List.append_cancel_left_eq]
    exact whole'

/-- Behind a fault nothing more is offered. -/
theorem Portion.stop (h : Portion bs first) (fault : first.fault ≠ none) : Portion (bs ++ rest) first := by
  obtain ⟨pieces, events, part, whole⟩ := h
  refine ⟨pieces, events, part.trans (List.prefix_append bs rest), iff_of_false fault fun e => ?_⟩
  -- All bytes and more would have to be a part of them.
  have longer := part.length_le
  rw [e, List.length_append] at longer
  have nothing : rest = [] := List.length_eq_zero_iff.1 (by omega)
  rw [nothing, List.append_nil] at e
  exact fault (whole.2 e)

end Written

section

variable [Sink σ]

/-- What one sink goes through: what it takes and the flushes it is asked for, with notes made in
between. -/
inductive Sink.Served : σ → List Event → σ → Prop where
  | done {s : σ} : Served s [] s
  | note {s t : σ} {events : List Event} (n : Note) (rest : Served s events t) : Served s (.note n :: events) t
  | write {s t : σ} {events : List Event} (bs : List UInt8) (rest : Served (Sink.write s bs).2 events t) :
      Served s (Sink.takenOf (Sink.write s bs).1 bs ++ events) t
  | flush {s t : σ} {events : List Event} (rest : Served (Sink.flush s).2 events t) :
      Served s (.flushed (Sink.flush s).1.isOk :: events) t

/-- Something about a sink that tells it from others: neither writes nor flushes change it. -/
structure Sink.Identifies {ι : Type} (ident : σ → ι) : Prop where
  write : ∀ s bs, ident (Sink.write s bs).2 = ident s
  flush : ∀ s, ident (Sink.flush s).2 = ident s

namespace Sink

variable {s t u : σ} {events more : List Event}

theorem Served.trans (first : Served s events t) (second : Served t more u) : Served s (events ++ more) u := by
  induction first with
  | done => exact second
  | note n _ ih => exact .note n (ih second)
  | write bs _ ih =>
    rw [List.append_assoc]
    exact .write bs (ih second)
  | flush _ ih => exact .flush (ih second)

theorem served_notes (s : σ) (notes : List Note) : Served s (notes.map .note) s := by
  induction notes with
  | nil => exact .done
  | cons n notes ih => exact .note n ih

/-- A sink that is served stays the same sink. -/
theorem Served.ident {ι : Type} {ident : σ → ι} (h : Served s events t) (same : Identifies ident) :
    ident t = ident s := by
  induction h with
  | done => rfl
  | note _ _ ih => exact ih
  | write bs _ ih => rw [ih, same.write]
  | flush _ ih => rw [ih, same.flush]

/-! ## Gaps -/

theorem writeAll_served (s : σ) (bs : List UInt8) :
    Served s (writeAll s bs).events (writeAll s bs).sink := by
  have offer {s t u : σ} {bs : List UInt8} {answer : Except SinkFault Nat} {events : List Event}
      (h : write s bs = (answer, t)) (rest : Served t events u) : Served s (takenOf answer bs ++ events) u := by
    have served : Served s (takenOf (write s bs).1 bs ++ events) u := .write bs (by rw [h]; exact rest)
    rwa [h] at served
  fun_induction writeAll s bs with
  | case1 => exact .done
  | case2 s bs _ fault t h => exact offer h .done
  | case3 s bs _ t h => exact offer h .done
  | case4 s bs _ n t h _ ih => exact offer h ih

theorem writeEach_served (s : σ) (texts : List (List UInt8)) :
    Served s (writeEach s texts).events (writeEach s texts).sink := by
  induction texts generalizing s with
  | nil => exact .done
  | cons bs texts ih =>
    have first := writeAll_served s bs
    rw [writeEach]
    split
    · exact first
    · exact first.trans (ih _)

theorem flushNow_served (s : σ) : Served s (flushNow s).events (flushNow s).sink := by
  have served := Served.flush (s := s) .done
  rw [flushNow]
  split
  · next h =>
    rw [h] at served
    exact served
  · next h =>
    rw [h] at served
    exact served

theorem writeAll_portion (s : σ) (bs : List UInt8) : Written.Portion bs (writeAll s bs) := by
  have gave_up {bs : List UInt8} (nonempty : bs ≠ []) (t : σ) (fault : SinkFault) :
      Written.Portion bs ⟨t, some fault, []⟩ :=
    ⟨[], rfl, List.nil_prefix, by simpa using Ne.symm nonempty⟩
  fun_induction writeAll s bs with
  | case1 => exact ⟨[], rfl, List.nil_prefix, by simp⟩
  | case2 s bs nonempty fault t => exact gave_up nonempty t fault
  | case3 s bs nonempty t => exact gave_up nonempty t .tookNothing
  | case4 s bs _ n t h _ ih =>
    have taken : Written.Portion (bs.take (n + 1)) (⟨t, none, [.wrote (bs.take (n + 1))]⟩ : Written σ) :=
      ⟨[bs.take (n + 1)], rfl, by simp, by simp⟩
    have all := taken.append rfl ih
    rw [List.take_append_drop] at all
    exact all

theorem writeEach_portion (s : σ) (texts : List (List UInt8)) :
    Written.Portion texts.flatten (writeEach s texts) := by
  induction texts generalizing s with
  | nil => exact ⟨[], rfl, List.nil_prefix, iff_of_true rfl rfl⟩
  | cons bs texts ih =>
    have first := writeAll_portion s bs
    rw [writeEach, List.flatten_cons]
    split
    · next fault => exact first.stop (by rw [fault]; nofun)
    · next done => exact first.append done (ih _)

end Sink

namespace Block

/-- A gap serves the sink it is written to, and no other. -/
theorem writeGap_served (b : Block) (k : Nat) (s : σ) :
    Sink.Served s (b.writeGap k s).events (b.writeGap k s).sink := by
  have texts := Sink.writeEach_served s ((b.gapTexts k).map bytes)
  rw [writeGap]
  split
  · exact texts.trans (Sink.flushNow_served _)
  · exact texts

/-- What happened when gap `k` was broken off: a part of it was taken and no flush was asked for, or
it was taken whole, as the last gap of the root, and the flush was refused. -/
inductive BrokenOff (b : Block) (k : Nat) : List Event → Prop where
  | writing (pieces : List (List UInt8)) (part : pieces.flatten <+: b.gapBytes k)
      (missing : pieces.flatten ≠ b.gapBytes k) : BrokenOff b k (pieces.map .wrote)
  | flushing (pieces : List (List UInt8)) (whole : pieces.flatten = b.gapBytes k) (root : b.isRoot = true)
      (last : k = b.children.length) : BrokenOff b k (pieces.map .wrote ++ [.flushed false])

/-- How far gap `k` comes: pieces of it are taken, all of them unless the sink gives up, and behind the last
gap of a root that was taken whole the sink is asked for a flush. -/
theorem writeGap_course (b : Block) (k : Nat) (s : σ) :
    ∃ pieces : List (List UInt8), pieces.flatten <+: b.gapBytes k ∧
      ((pieces.flatten = b.gapBytes k ∧ b.isRoot = true ∧ k = b.children.length ∧
          ∃ agreed : Bool, (b.writeGap k s).events = pieces.map .wrote ++ [.flushed agreed] ∧
            ((b.writeGap k s).fault = none ↔ agreed = true)) ∨
        ((b.writeGap k s).events = pieces.map .wrote ∧
          ((b.writeGap k s).fault = none ↔ pieces.flatten = b.gapBytes k) ∧
          ((b.writeGap k s).fault = none → ¬ (b.isRoot = true ∧ k = b.children.length)))) := by
  have texts := Sink.writeEach_portion s ((b.gapTexts k).map bytes)
  have gap : ((b.gapTexts k).map bytes).flatten = b.gapBytes k := by rw [gapBytes, List.flatMap_def]
  rw [gap] at texts
  obtain ⟨pieces, events, part, whole⟩ := texts
  refine ⟨pieces, part, ?_⟩
  rw [writeGap]
  split
  · next h =>
    simp only [Bool.and_eq_true, Option.isNone_iff_eq_none, beq_iff_eq] at h
    obtain ⟨⟨done, root⟩, last⟩ := h
    refine .inl ⟨whole.1 done, root, last, ?_⟩
    rw [Sink.flushNow, events]
    split
    · exact ⟨true, rfl, iff_of_true rfl rfl⟩
    · exact ⟨false, rfl, iff_of_false nofun nofun⟩
  · next h =>
    refine .inr ⟨events, whole, ?_⟩
    rintro done ⟨root, last⟩
    exact h (by rw [done, root, last]; simp)

theorem writeGap_brokenOff {b : Block} {k : Nat} {s : σ} (faulty : (b.writeGap k s).fault ≠ none) :
    b.BrokenOff k (b.writeGap k s).events := by
  obtain ⟨pieces, part, ⟨whole, root, last, agreed, events, verdict⟩ | ⟨events, verdict, -⟩⟩ := b.writeGap_course k s
  · have refused : agreed = false := Bool.eq_false_iff.2 fun ok => faulty (verdict.2 ok)
    rw [events, refused]
    exact .flushing pieces whole root last
  · rw [events]
    exact .writing pieces part fun e => faulty (verdict.2 e)

/-- A gap that is not broken off is taken whole, and behind the last one of a root the sink has agreed to a
flush. -/
theorem writeGap_whole {b : Block} {k : Nat} {s : σ} (faultless : (b.writeGap k s).fault = none) :
    ∃ pieces : List (List UInt8), pieces.flatten = b.gapBytes k ∧
      (b.writeGap k s).events =
        pieces.map .wrote ++ if b.isRoot = true ∧ k = b.children.length then [.flushed true] else [] := by
  obtain ⟨pieces, -, ⟨whole, root, last, agreed, events, verdict⟩ | ⟨events, verdict, inner⟩⟩ :=
    b.writeGap_course k s
  · refine ⟨pieces, whole, ?_⟩
    rw [events, verdict.1 faultless, if_pos ⟨root, last⟩]
  · refine ⟨pieces, verdict.1 faultless, ?_⟩
    rw [events, if_neg (inner faultless), List.append_nil]

end Block

end

end Stencil

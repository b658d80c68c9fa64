import Stencil.Page

/-!
# Sinks that never fail

A sink that never fails may still take a text piece by piece. `Sink.Steady` describes a kind of
sinks that always takes something and never refuses a flush, together with what such a sink has
taken so far; a gap written to it arrives whole.
-/

namespace Stencil

open Text

/-- The sinks with `fine` never fail and stay so, and `seen` tells what a sink has taken. -/
structure Sink.Steady {σ : Type} [Sink σ] (fine : σ → Prop) (seen : σ → List UInt8) : Prop where
  write : ∀ s bs, fine s → bs ≠ [] →
    ∃ n t, Sink.write s bs = (.ok (n + 1), t) ∧ fine t ∧ seen t = seen s ++ bs.take (n + 1)
  flush : ∀ s, fine s → ∃ t, Sink.flush s = (.ok (), t) ∧ fine t ∧ seen t = seen s

/-- A buffer is such a sink. -/
theorem Buffer.steady : Sink.Steady (fun _ : Buffer => True) (·.taken.toList) where
  write b bs _ nonempty := by
    obtain ⟨n, hn⟩ := Nat.exists_eq_succ_of_ne_zero (mt List.length_eq_zero_iff.1 nonempty)
    refine ⟨n, ⟨b.taken ++ bs⟩, ?_, trivial, ?_⟩
    · rw [← Nat.succ_eq_add_one, ← hn]; rfl
    · rw [List.take_of_length_le (by omega)]; simp
  flush b _ := ⟨b, rfl, trivial, rfl⟩

/-- A sink of limited size that has no limit and refuses no flush never fails. -/
theorem Quota.steady : Sink.Steady (fun q : Quota => q.settings.limit = none ∧ q.settings.flushFaults = 0)
    (·.taken.toList) where
  write q bs fine nonempty := by
    obtain ⟨n, hn⟩ := Nat.exists_eq_succ_of_ne_zero (mt List.length_eq_zero_iff.1 nonempty)
    have room : q.room bs.length = n + 1 := by
      rw [Quota.room, fine.1]
      exact hn
    exact ⟨n, _, Quota.write_of_room room, fine, by simp⟩
  flush q fine := ⟨q, Quota.flush_of_agreeing fine.2, fine, rfl⟩

/-- Some writing on sink `s` went through, and `bs` is what the sink took. -/
structure Written.Took {σ : Type} (fine : σ → Prop) (seen : σ → List UInt8) (s : σ) (bs : List UInt8)
    (w : Written σ) : Prop where
  fault : w.fault = none
  fine : fine w.sink
  seen : seen w.sink = seen s ++ bs

namespace Sink.Steady

variable {σ : Type} [Sink σ] {fine : σ → Prop} {seen : σ → List UInt8}

theorem writeAll (steady : Steady fine seen) {s : σ} (hs : fine s) (bs : List UInt8) :
    (Sink.writeAll s bs).Took fine seen s bs := by
  induction h : bs.length using Nat.strongRecOn generalizing s bs with
  | ind size ih =>
    rw [Sink.writeAll]
    split
    · next e => exact ⟨rfl, hs, by simp [e]⟩
    · next ne =>
      obtain ⟨n, t, e, ht, seen_t⟩ := steady.write s bs hs ne
      have shorter : (bs.drop (n + 1)).length < size := by
        have := List.length_pos_iff.2 ne
        rw [List.length_drop]; omega
      obtain ⟨fault, fine_rest, seen_rest⟩ := ih _ shorter ht _ rfl
      rw [e]
      refine ⟨fault, fine_rest, ?_⟩
      calc
        seen (Sink.writeAll t (bs.drop (n + 1))).sink
          = seen s ++ (bs.take (n + 1) ++ bs.drop (n + 1)) := by
            rw [seen_rest, seen_t, List.append_assoc]
        _ = seen s ++ bs := by rw [List.take_append_drop]

theorem writeEach (steady : Steady fine seen) {s : σ} (hs : fine s) (texts : List (List UInt8)) :
    (Sink.writeEach s texts).Took fine seen s texts.flatten := by
  induction texts generalizing s with
  | nil => exact ⟨rfl, hs, by simp [Sink.writeEach]⟩
  | cons bs rest ih =>
    have first := steady.writeAll hs bs
    have others := ih first.fine
    rw [Sink.writeEach, first.fault]
    exact ⟨others.fault, others.fine, by
      simp only [others.seen, first.seen, List.flatten_cons, List.append_assoc]⟩

theorem flushNow (steady : Steady fine seen) {s : σ} (hs : fine s) :
    (Sink.flushNow s).Took fine seen s [] := by
  obtain ⟨t, e, ht, seen_t⟩ := steady.flush s hs
  rw [Sink.flushNow, e]
  exact ⟨rfl, ht, by simp [seen_t]⟩

/-- A gap arrives whole. -/
theorem writeGap (steady : Steady fine seen) {s : σ} (hs : fine s) (b : Block) (k : Nat) :
    (b.writeGap k s).Took fine seen s (b.gapBytes k) := by
  have gap := steady.writeEach hs ((b.gapTexts k).map bytes)
  have texts : ((b.gapTexts k).map bytes).flatten = b.gapBytes k := by
    rw [Block.gapBytes, List.flatMap_def]
  rw [texts] at gap
  rw [Block.writeGap]
  split
  · have flush := steady.flushNow gap.fine
    exact ⟨flush.fault, flush.fine, by simp only [flush.seen, gap.seen, List.append_nil]⟩
  · exact gap

end Sink.Steady

end Stencil

import Stencil.Proofs.Served

/-!
# Sinks that run full

A sink may have room for so many bytes and no more. `Sink.Rationed` describes a kind of sinks that take
what they are offered, piece by piece if they like, while they have room, and behind that nothing.
`Spent` is what some writing to such a sink comes to: the bytes there was room for are taken, and the
writing fails exactly when there were more. A gap is spent so (`Sink.Rationed.writeGap`).
-/

namespace Stencil

open Text

/-- The sinks with `fine` take bytes while they have `room`, and nothing once they have none, be it that
they refuse or that they take nothing. They refuse no flush. `seen` tells what a sink has taken. -/
structure Sink.Rationed {σ : Type} [Sink σ] (fine : σ → Prop) (room : σ → Nat) (seen : σ → List UInt8) :
    Prop where
  write : ∀ s bs, fine s → bs ≠ [] → 0 < room s → ∃ n t, Sink.write s bs = (.ok (n + 1), t) ∧
    n < bs.length ∧ n < room s ∧ fine t ∧ room t = room s - (n + 1) ∧ seen t = seen s ++ bs.take (n + 1)
  full : ∀ s bs, fine s → bs ≠ [] → room s = 0 → ∃ answer t, Sink.write s bs = (answer, t) ∧
    (∀ n, answer = .ok n → n = 0) ∧ fine t ∧ room t = 0 ∧ seen t = seen s
  flush : ∀ s, fine s → ∃ t, Sink.flush s = (.ok (), t) ∧ fine t ∧ room t = room s ∧ seen t = seen s

namespace Quota

/-- A sink of limited size that refuses no flush is such a sink. -/
theorem rationed (limit : Nat) :
    Sink.Rationed (fun q : Quota => q.settings.limit = some limit ∧ q.settings.flushFaults = 0)
      (fun q => limit - q.taken.size) (·.taken.toList) where
  write q bs fine nonempty space := by
    have room : q.room bs.length = min bs.length (limit - q.taken.size) := by rw [Quota.room, fine.1]
    have some_ := List.length_pos_iff.2 nonempty
    obtain ⟨n, hn⟩ := Nat.exists_eq_succ_of_ne_zero (show q.room bs.length ≠ 0 by omega)
    have taken : (q.taken ++ bs.take (n + 1)).size = q.taken.size + (n + 1) := by
      have list : (q.taken ++ bs.take (n + 1)).toList = q.taken.toList ++ bs.take (n + 1) := by simp
      rw [← Array.length_toList, list, List.length_append, Array.length_toList, List.length_take]
      omega
    refine ⟨n, _, write_of_room hn, by omega, by omega, fine, ?_, by simp⟩
    show limit - (q.taken ++ bs.take (n + 1)).size = _
    omega
  full q bs fine nonempty none_left := by
    have room : q.room bs.length = 0 := by
      rw [Quota.room, fine.1]
      show min bs.length (limit - q.taken.size) = 0
      omega
    refine ⟨_, q, write_of_full room, ?_, fine, none_left, rfl⟩
    intro n taken
    split at taken
    · cases taken; rfl
    · cases taken
  flush q fine := ⟨q, flush_of_agreeing fine.2, fine, rfl, rfl⟩

end Quota

namespace Event

@[simp] theorem written_notes (notes : List Note) : written (notes.map .note) = [] := by
  induction notes with
  | nil => rfl
  | cons n notes ih => exact ih

theorem written_wrote (bs : List UInt8) : written [.wrote bs] = bs := List.append_nil bs

end Event

section

variable {σ : Type} [Sink σ]

/-- What the writing of `bs` to sink `s` comes to, of which `events` tells: the bytes that there is room
for are taken, and it fails exactly when these are not all. If it does not fail, the sink it leaves is
bound. -/
structure Spent (fine : σ → Prop) (room : σ → Nat) (seen : σ → List UInt8) (s : σ) (bs : List UInt8)
    (failed : Prop) (bound : Option σ) (events : List Event) : Prop where
  failed_iff : failed ↔ room s < bs.length
  written : Event.written events = bs.take (room s)
  served : ∃ t, Sink.Served s events t ∧ fine t ∧ room t = room s - bs.length ∧
    seen t = seen s ++ bs.take (room s) ∧ (¬ failed → bound = some t)

namespace Spent

variable {fine : σ → Prop} {room : σ → Nat} {seen : σ → List UInt8} {s : σ} {bs rest : List UInt8}
variable {failed failed' : Prop} {bound bound' : Option σ} {events more : List Event}

theorem nothing (good : fine s) (whole : ¬ failed) : Spent fine room seen s [] failed (some s) [] :=
  ⟨iff_of_false whole (by simp), List.take_nil.symm, s, .done, good, rfl, by simp, fun _ => rfl⟩

/-- What is bound behind writing that failed is no matter. -/
theorem congr (h : Spent fine room seen s bs failed bound events) (same : failed' ↔ failed)
    (now : ¬ failed' → bound' = bound) : Spent fine room seen s bs failed' bound' events := by
  obtain ⟨t, served, good, left, taken, still⟩ := h.served
  exact ⟨same.trans h.failed_iff, h.written, t, served, good, left, taken, fun whole =>
    (now whole).trans (still (mt same.2 whole))⟩

/-- Behind writing that did not fail comes other writing, to the sink that is left. -/
theorem trans (h : Spent fine room seen s bs failed bound events) (whole : ¬ failed) :
    ∃ t, bound = some t ∧ fine t ∧ (Spent fine room seen t rest failed' bound' more →
      Spent fine room seen s (bs ++ rest) failed' bound' (events ++ more)) := by
  obtain ⟨t, served, good, left, taken, now⟩ := h.served
  have enough : bs.length ≤ room s := Nat.le_of_not_lt (mt h.failed_iff.2 whole)
  have all : bs.take (room s) = bs := List.take_of_length_le enough
  have both : (bs ++ rest).take (room s) = bs ++ rest.take (room t) := by
    rw [List.take_append, all, left]
  refine ⟨t, now whole, good, fun later => ⟨?_, ?_, ?_⟩⟩
  · rw [later.failed_iff, List.length_append]
    omega
  · rw [Event.written_append, h.written, later.written, both, all]
  · obtain ⟨u, served', good', left', taken', now'⟩ := later.served
    refine ⟨u, served.trans served', good', ?_, ?_, now'⟩
    · rw [List.length_append]
      omega
    · rw [taken', taken, both, all, List.append_assoc]

/-- Behind writing that failed nothing else is written. -/
theorem stop (h : Spent fine room seen s bs failed bound events) (broken : failed) (broken' : failed') :
    Spent fine room seen s (bs ++ rest) failed' bound' events := by
  obtain ⟨t, served, good, left, taken, -⟩ := h.served
  have short : room s < bs.length := h.failed_iff.1 broken
  have part : (bs ++ rest).take (room s) = bs.take (room s) := List.take_append_of_le_length (by omega)
  refine ⟨iff_of_true broken' ?_, by rw [part, h.written], t, served, good, ?_, by rw [part, taken], ?_⟩
  · rw [List.length_append]
    omega
  · rw [List.length_append]
    omega
  · exact fun whole => absurd broken' whole

/-- Notes are nothing to a sink. -/
theorem append_notes (h : Spent fine room seen s bs failed bound events) (notes : List Note) :
    Spent fine room seen s bs failed bound (events ++ notes.map .note) := by
  obtain ⟨t, served, rest⟩ := h.served
  refine ⟨h.failed_iff, ?_, t, served.trans (Sink.served_notes t notes), rest⟩
  rw [Event.written_append, Event.written_notes, List.append_nil, h.written]

theorem prepend_notes (h : Spent fine room seen s bs failed bound events) (notes : List Note) :
    Spent fine room seen s bs failed bound (notes.map .note ++ events) := by
  obtain ⟨t, served, rest⟩ := h.served
  refine ⟨h.failed_iff, ?_, t, (Sink.served_notes s notes).trans served, rest⟩
  rw [Event.written_append, Event.written_notes, List.nil_append, h.written]

end Spent

namespace Sink.Rationed

variable {fine : σ → Prop} {room : σ → Nat} {seen : σ → List UInt8}

/-- A sink without room takes nothing of what it is offered. -/
theorem offer_full (ration : Rationed fine room seen) {s : σ} (hs : fine s) {bs : List UInt8} (nonempty : bs ≠ [])
    (none_left : room s = 0) :
    ∃ answer t, Sink.write s bs = (answer, t) ∧ (∀ n, answer = .ok n → n = 0) ∧
      ∀ fault : SinkFault, Spent fine room seen s bs (some fault ≠ none) (some t) [] := by
  have some_ := List.length_pos_iff.2 nonempty
  obtain ⟨answer, t, e, nothing, ht, left, taken⟩ := ration.full s bs hs nonempty none_left
  have quiet : takenOf answer bs = [] := by
    cases answer with
    | error fault => rfl
    | ok n => rw [nothing n rfl]; rfl
  have served : Served s [] t := by
    have offered : Served s (takenOf (Sink.write s bs).1 bs ++ []) t := .write bs (by rw [e]; exact .done)
    rwa [e, quiet] at offered
  refine ⟨answer, t, e, nothing, fun fault => ⟨iff_of_true nofun (by omega), ?_, t, served, ht, by omega, ?_, fun _ =>
    rfl⟩⟩
  · rw [none_left]
    rfl
  · rw [none_left, taken, List.take_zero, List.append_nil]

/-- A sink with room takes something of what it is offered. -/
theorem offer_part (ration : Rationed fine room seen) {s : σ} (hs : fine s) {bs : List UInt8} (nonempty : bs ≠ [])
    (space : 0 < room s) :
    ∃ n t, Sink.write s bs = (.ok (n + 1), t) ∧
      Spent fine room seen s (bs.take (n + 1)) False (some t) [.wrote (bs.take (n + 1))] := by
  obtain ⟨n, t, e, lt, fits, ht, left, taken⟩ := ration.write s bs hs nonempty space
  have length : (bs.take (n + 1)).length = n + 1 := by
    rw [List.length_take]
    omega
  have whole : (bs.take (n + 1)).take (room s) = bs.take (n + 1) := List.take_of_length_le (by omega)
  have served : Served s [.wrote (bs.take (n + 1))] t := by
    have offered : Served s (takenOf (Sink.write s bs).1 bs ++ []) t := .write bs (by rw [e]; exact .done)
    rwa [e] at offered
  refine ⟨n, t, e, iff_of_false id (by omega), ?_, t, served, ht, by omega, by rw [whole, taken], fun _ => rfl⟩
  rw [Event.written_wrote, whole]

/-- A text is spent on its sink: it is offered until all of it is taken, or nothing of the rest. -/
theorem writeAll (ration : Rationed fine room seen) {s : σ} (hs : fine s) (bs : List UInt8) :
    Spent fine room seen s bs ((Sink.writeAll s bs).fault ≠ none) (some (Sink.writeAll s bs).sink)
      (Sink.writeAll s bs).events := by
  induction h : bs.length using Nat.strongRecOn generalizing s bs with
  | ind size ih =>
    rw [Sink.writeAll]
    split
    · next e =>
      subst e
      exact .nothing hs fun fault => fault rfl
    · next nonempty =>
      rcases Nat.eq_zero_or_pos (room s) with none_left | space
      · obtain ⟨answer, t, e, nothing, spent⟩ := ration.offer_full hs nonempty none_left
        rw [e]
        cases answer with
        | error fault => exact spent fault
        | ok n =>
          obtain rfl := nothing n rfl
          exact spent .tookNothing
      · obtain ⟨n, t, e, first⟩ := ration.offer_part hs nonempty space
        obtain ⟨_, now, good, join⟩ := first.trans id
        cases now
        have shorter : (bs.drop (n + 1)).length < size := by
          have some_ := List.length_pos_iff.2 nonempty
          rw [List.length_drop]
          omega
        have all := join (ih _ shorter good _ rfl)
        rw [List.take_append_drop] at all
        rw [e]
        exact all

theorem writeEach (ration : Rationed fine room seen) {s : σ} (hs : fine s) (texts : List (List UInt8)) :
    Spent fine room seen s texts.flatten ((Sink.writeEach s texts).fault ≠ none)
      (some (Sink.writeEach s texts).sink) (Sink.writeEach s texts).events := by
  induction texts generalizing s with
  | nil => exact .nothing hs fun fault => fault rfl
  | cons bs texts ih =>
    have first := ration.writeAll hs bs
    rw [Sink.writeEach, List.flatten_cons]
    cases h : (Sink.writeAll s bs).fault with
    | some fault =>
      have broken : (Sink.writeAll s bs).fault ≠ none := by
        rw [h]
        exact Option.some_ne_none fault
      exact first.stop broken broken
    | none =>
      obtain ⟨t, bound, good, join⟩ := first.trans fun fault => fault h
      cases bound
      exact join (ih good)

theorem flushNow (ration : Rationed fine room seen) {s : σ} (hs : fine s) :
    Spent fine room seen s [] ((Sink.flushNow s).fault ≠ none) (some (Sink.flushNow s).sink)
      (Sink.flushNow s).events := by
  obtain ⟨t, e, ht, left, taken⟩ := ration.flush s hs
  have served := Sink.flushNow_served s
  rw [Sink.flushNow, e] at served ⊢
  exact ⟨iff_of_false (fun fault => fault rfl) (by simp), List.take_nil.symm, t, served, ht, left, by simp [taken],
    fun _ => rfl⟩

/-- A gap is spent on its sink. -/
theorem writeGap (ration : Rationed fine room seen) {s : σ} (hs : fine s) (b : Block) (k : Nat) :
    Spent fine room seen s (b.gapBytes k) ((b.writeGap k s).fault ≠ none) (some (b.writeGap k s).sink)
      (b.writeGap k s).events := by
  have gap := ration.writeEach hs ((b.gapTexts k).map bytes)
  have texts : ((b.gapTexts k).map bytes).flatten = b.gapBytes k := by
    rw [Block.gapBytes, List.flatMap_def]
  rw [texts] at gap
  rw [Block.writeGap]
  split
  · next last =>
    have done : (Sink.writeEach s ((b.gapTexts k).map bytes)).fault = none := by
      simp only [Bool.and_eq_true, Option.isNone_iff_eq_none] at last
      exact last.1.1
    obtain ⟨t, bound, good, join⟩ := gap.trans fun fault => fault done
    cases bound
    have all := join (ration.flushNow good)
    rwa [List.append_nil] at all
  · exact gap

end Sink.Rationed

end

end Stencil

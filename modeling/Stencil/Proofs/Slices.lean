import Stencil.Proofs.Nearest

/-!
# Slices and loops

Two things can go wrong where a text is read by byte positions: a slice may be asked for that does not exist
(`Text.slice?`), and a loop may never end (`loop?`). Nothing comes of either. A slice exists exactly between two
boundaries of characters (`Text.slice?_eq_some_iff`), and a loop comes to a result if a rank falls with every pass
but the last (`loop?_eq`).
-/

namespace Stencil

namespace Text

/-! ## Boundaries of characters -/

/-- Whether byte `n` stands between two characters of a text, or at one of its ends. -/
def isBoundary : List Char → Nat → Bool
  | _, 0 => true
  | [], _ + 1 => false
  | c :: cs, n + 1 => decide (c.utf8Size ≤ n + 1) && isBoundary cs (n + 1 - c.utf8Size)

theorem isBoundary_append (front back : List Char) : isBoundary (front ++ back) (byteCount front) = true := by
  induction front with
  | nil => cases back <;> rfl
  | cons c front ih =>
    have positive := Char.utf8Size_pos c
    obtain ⟨n, size⟩ : ∃ n, c.utf8Size + byteCount front = n + 1 := ⟨c.utf8Size + byteCount front - 1, by omega⟩
    have behind : n + 1 - c.utf8Size = byteCount front := by omega
    rw [byteCount_cons, size, List.cons_append, isBoundary, behind, ih, Bool.and_true, decide_eq_true_eq]
    omega

/-- A boundary is where a front part of the text ends. -/
theorem isBoundary_iff {cs : List Char} {n : Nat} :
    isBoundary cs n = true ↔ ∃ front back, cs = front ++ back ∧ byteCount front = n := by
  constructor
  · induction cs generalizing n with
    | nil =>
      intro h
      cases n with
      | zero => exact ⟨[], [], rfl, rfl⟩
      | succ n => cases h
    | cons c cs ih =>
      intro h
      cases n with
      | zero => exact ⟨[], c :: cs, rfl, rfl⟩
      | succ n =>
        rw [isBoundary, Bool.and_eq_true, decide_eq_true_eq] at h
        obtain ⟨fits, later⟩ := h
        obtain ⟨front, back, rfl, size⟩ := ih later
        refine ⟨c :: front, back, rfl, ?_⟩
        rw [byteCount_cons]
        omega
  · rintro ⟨front, back, rfl, rfl⟩
    exact isBoundary_append front back

theorem isBoundary_zero (cs : List Char) : isBoundary cs 0 = true :=
  isBoundary_append [] cs

theorem isBoundary_end (cs : List Char) : isBoundary cs (byteCount cs) = true := by
  have whole := isBoundary_append cs []
  rwa [List.append_nil] at whole

theorem le_of_isBoundary {cs : List Char} {n : Nat} (h : isBoundary cs n = true) : n ≤ byteCount cs := by
  obtain ⟨front, back, rfl, rfl⟩ := isBoundary_iff.1 h
  rw [byteCount_append]
  omega

/-! ## Slices -/

/-- The text from byte `start` to byte `stop`. There is none if the two are out of order, behind the end of the
text or inside a character. -/
def slice? (cs : List Char) (start stop : Nat) : Option (List Char) :=
  if start ≤ stop ∧ isBoundary cs start = true ∧ isBoundary cs stop = true then some (slice cs start stop) else none

/-- The text from byte `start` to the end. -/
def sliceFrom? (cs : List Char) (start : Nat) : Option (List Char) :=
  slice? cs start (byteCount cs)

theorem slice?_append (front text back : List Char) :
    slice? (front ++ text ++ back) (byteCount front) (byteCount front + byteCount text) = some text := by
  have start : isBoundary (front ++ text ++ back) (byteCount front) = true := by
    rw [List.append_assoc]
    exact isBoundary_append front _
  have stop : isBoundary (front ++ text ++ back) (byteCount front + byteCount text) = true := by
    rw [← byteCount_append]
    exact isBoundary_append _ back
  rw [slice?, if_pos ⟨Nat.le_add_right _ _, start, stop⟩, slice_append]

/-- A slice is the text between what stands in front of it and what stands behind it. -/
theorem slice?_eq_some_iff {cs text : List Char} {start stop : Nat} :
    slice? cs start stop = some text ↔
      ∃ front back, cs = front ++ text ++ back ∧ byteCount front = start ∧ byteCount front + byteCount text = stop := by
  constructor
  · intro h
    unfold slice? at h
    split at h
    · next ordered =>
      obtain ⟨le, left, right⟩ := ordered
      obtain ⟨front, rest, rfl, rfl⟩ := isBoundary_iff.1 left
      obtain ⟨before, back, same, rfl⟩ := isBoundary_iff.1 right
      obtain ⟨mid, rfl, -⟩ := exists_behind same le
      cases h
      rw [same, byteCount_append, slice_append]
      exact ⟨front, back, rfl, rfl, rfl⟩
    · cases h
  · rintro ⟨front, back, rfl, rfl, rfl⟩
    exact slice?_append front text back

theorem slice?_front (front back : List Char) : slice? (front ++ back) 0 (byteCount front) = some front :=
  slice?_eq_some_iff.2 ⟨[], back, rfl, rfl, Nat.zero_add _⟩

theorem sliceFrom?_append (front back : List Char) : sliceFrom? (front ++ back) (byteCount front) = some back := by
  refine slice?_eq_some_iff.2 ⟨front, [], ?_, rfl, ?_⟩
  · rw [List.append_nil]
  · rw [byteCount_append]

/-- The byte at which a pattern first occurs in a text. -/
def offset? (pat cs : List Char) : Option Nat :=
  (cutAt? pat cs).map fun parts => byteCount parts.1

end Text

/-! ## Loops -/

/-- What one pass of a loop comes to: another state to go on from, or the result of the loop. -/
inductive Pass (σ ρ : Type) where
  | again (state : σ)
  | done (result : ρ)

section

variable {σ ρ : Type} (pass : σ → Option (Pass σ ρ))

/-- Repeats a pass from a state on, until it comes to a result. Nothing comes of a loop that is stuck in some pass,
and nothing of one that goes on forever. -/
def loop? (s : σ) : Option ρ := do
  let onward : σ → Option ρ := by apply loop?
  match ← pass s with
  | .again s => onward s
  | .done result => some result
partial_fixpoint

variable {pass} {s : σ}

theorem loop?_of_done {result : ρ} (h : pass s = some (.done result)) : loop? pass s = some result := by
  rw [loop?, h]
  rfl

theorem loop?_of_again {s' : σ} (h : pass s = some (.again s')) : loop? pass s = loop? pass s' := by
  rw [loop?, h]
  rfl

/-- **The loop rule.** If every pass from a state with an invariant either ends with the value of the state, or goes
on to a state with the invariant, the same value and a smaller rank, then the loop ends with that value. -/
theorem loop?_eq (value : σ → ρ) (Inv : σ → Prop) (rank : σ → Nat)
    (step : ∀ s, Inv s → pass s = some (.done (value s)) ∨
      ∃ s', pass s = some (.again s') ∧ Inv s' ∧ rank s' < rank s ∧ value s' = value s)
    (inv : Inv s) : loop? pass s = some (value s) := by
  induction h : rank s using Nat.strongRecOn generalizing s with
  | ind n ih =>
    rcases step s inv with last | ⟨s', next, inv', falls, same⟩
    · exact loop?_of_done last
    · rw [loop?_of_again next, ih (rank s') (h ▸ falls) inv' rfl, same]

/-- A loop of which no pass is the last one comes to nothing. -/
theorem loop?_eq_none (endless : ∀ s result, pass s ≠ some (.done result)) : loop? pass s = none := by
  have never : ∀ s result, loop? pass s = some result → False := by
    refine loop?.partial_correctness pass (fun _ _ => False) fun go ih s result h => ?_
    cases next : pass s with
    | none =>
      rw [next] at h
      cases h
    | some out =>
      rw [next] at h
      cases out with
      | again s' => exact ih s' result h
      | done r => exact endless s r next
  cases h : loop? pass s with
  | none => rfl
  | some result => exact (never s result h).elim

end

end Stencil

import Stencil.Segment

/-!
# Cutting a text at its placeholders

A text that is cut at the placeholders of a table is made of the literal texts of its segments and
the placeholders between them, and the segments name variables of the table only.
-/

namespace Stencil

open Text

theorem Variable.take?_eq_some {v : Variable} {cs rest : List Char} (h : v.take? cs = some rest) :
    cs = v.placeholder.toList ++ rest := by
  rw [take?] at h
  split at h
  · cases h
  · next place => rw [place]; exact after?_eq_some_iff.1 h

namespace Variables

/-- Nothing is hit exactly if no variable can be taken. -/
theorem hit?_eq_none {cs : List Char} {i : Nat} {vs : List Variable} :
    hit? cs i vs = none ↔ ∀ v ∈ vs, v.take? cs = none := by
  induction vs generalizing i with
  | nil => simp [hit?]
  | cons v vs ih =>
    rw [hit?, List.forall_mem_cons, ← ih (i := i + 1)]
    split
    · next missed => simp [missed]
    · next taken _ => simp [taken]
    · next taken _ =>
      split <;> simp [taken]

/-- A hit is the first variable of those that leave the shortest rest. -/
theorem hit?_shortest {cs rest : List Char} {i j : Nat} {vs : List Variable} (h : hit? cs i vs = some (j, rest)) :
    ∃ n v, j = i + n ∧ vs[n]? = some v ∧ v.take? cs = some rest ∧ ∀ m w r, vs[m]? = some w →
      w.take? cs = some r → rest.length < r.length ∨ rest.length = r.length ∧ n ≤ m := by
  induction vs generalizing i j rest with
  | nil => cases h
  | cons v vs ih =>
    have each {n size : Nat} (first : ∀ r, v.take? cs = some r → size < r.length ∨ size = r.length ∧ n ≤ 0)
        (later : ∀ m w r, vs[m]? = some w → w.take? cs = some r → size < r.length ∨ size = r.length ∧ n ≤ m + 1) :
        ∀ m w r, (v :: vs)[m]? = some w → w.take? cs = some r → size < r.length ∨ size = r.length ∧ n ≤ m := by
      intro m w r entry taken
      cases m with
      | zero =>
        cases entry
        exact first r taken
      | succ m => exact later m w r entry taken
    have own {rest : List Char} (taken : v.take? cs = some rest) :
        ∀ r, v.take? cs = some r → rest.length < r.length ∨ rest.length = r.length ∧ 0 ≤ 0 := by
      intro r again
      cases taken.symm.trans again
      exact .inr ⟨rfl, Nat.le_refl _⟩
    rw [hit?] at h
    split at h
    · next missed =>
      obtain ⟨n, w, e, entry, taken, shortest⟩ := ih h
      refine ⟨n + 1, w, by omega, entry, taken, each (fun r again => ?_) fun m u r hu hr => ?_⟩
      · rw [missed] at again
        cases again
      · exact (shortest m u r hu hr).imp_right (And.imp_right Nat.succ_le_succ)
    · next taken none_ =>
      cases h
      refine ⟨0, v, rfl, rfl, taken, each (own taken) fun m u r hu hr => ?_⟩
      rw [hit?_eq_none.1 none_ u (List.mem_of_getElem? hu)] at hr
      cases hr
    · next taken further =>
      obtain ⟨n, w, e, entry, taken', shortest⟩ := ih further
      split at h
      · next shorter =>
        cases h
        refine ⟨n + 1, w, by omega, entry, taken', each (fun r again => ?_) fun m u r hu hr => ?_⟩
        · cases taken.symm.trans again
          exact .inl shorter
        · exact (shortest m u r hu hr).imp_right (And.imp_right Nat.succ_le_succ)
      · next longer =>
        cases h
        refine ⟨0, v, rfl, rfl, taken, each (own taken) fun m u r hu hr => ?_⟩
        have := shortest m u r hu hr
        omega

/-- The placeholder at an index; nothing where there is no variable. -/
def placeholder (vs : Variables) (index : Nat) : String :=
  (vs.entries[index]?.map (·.placeholder)).getD ""

/-- The text some segments were cut from. -/
def uncut (vs : Variables) (ss : List Segment) : List Char :=
  ss.flatMap fun s => s.text.toList ++ (s.var.map fun i => (vs.placeholder i).toList).getD []

theorem segmentsAfter_spec (vs : Variables) (seen cs : List Char) :
    vs.uncut (vs.segmentsAfter seen cs) = seen.reverse ++ cs ∧
      ∀ s ∈ vs.segmentsAfter seen cs, ∀ i, s.var = some i → i < vs.size := by
  induction h : cs.length using Nat.strongRecOn generalizing seen cs with
  | ind size ih =>
    rw [segmentsAfter]
    split
    · next i rest hit =>
      obtain ⟨n, v, e, entry, taken, -⟩ := hit?_shortest hit
      have text := Variable.take?_eq_some taken
      obtain ⟨uncut_rest, known⟩ := ih rest.length (h ▸ hit?_shorter hit) [] rest rfl
      have here : i = n := by omega
      subst here
      constructor
      · have place : vs.placeholder i = v.placeholder := by rw [placeholder, entry]; rfl
        rw [uncut, List.flatMap_cons, ← uncut, uncut_rest, Option.map_some, Option.getD_some, place, text]
        simp only [String.toList_ofList, List.reverse_nil, List.nil_append, List.append_assoc]
      · intro s hs j hj
        rcases List.mem_cons.1 hs with rfl | hs
        · cases hj
          exact (List.getElem?_eq_some_iff.1 entry).1
        · exact known s hs j hj
    · split
      · constructor
        · simp [uncut]
        · intro s hs j hj
          cases List.mem_singleton.1 hs
          cases hj
      · next c rest _ _ =>
        obtain ⟨uncut_rest, known⟩ := ih rest.length (by simp [← h]) (c :: seen) rest rfl
        exact ⟨by rw [uncut_rest, List.reverse_cons, List.append_assoc]; rfl, known⟩

/-- The pieces of a text and the placeholders between them are the text. -/
theorem uncut_segments (vs : Variables) (text : List Char) : vs.uncut (vs.segments text) = text :=
  (vs.segmentsAfter_spec [] text).1

theorem var_lt_of_mem_segments {vs : Variables} {text : List Char} {s : Segment} {i : Nat}
    (h : s ∈ vs.segments text) (var : s.var = some i) : i < vs.size :=
  (vs.segmentsAfter_spec [] text).2 s h i var

end Variables

end Stencil

import Stencil.Proofs.Placed
import Stencil.Proofs.Shifted

/-!
# Subtrees in the store

Behind other segments a tree is laid out as in a store of its own, only that many places further on
(`layOut_behind`). So wherever a block stands in a tree, the segments of the block and of those nested in it
are one stretch of the tree's store, and it is the block's own store (`exists_stretch`).
-/

namespace Stencil

namespace Placement

mutual

/-- The place `n` segments further on. -/
def shift (n : Nat) : Placement → Placement
  | ⟨range, gaps, ps⟩ => ⟨range.shift n, gaps.map (·.shift n), shiftAll n ps⟩

def shiftAll (n : Nat) : List Placement → List Placement
  | [] => []
  | p :: ps => p.shift n :: shiftAll n ps

end

end Placement

namespace Block

/-- Moving a tree through the source does not move its segments through the store. -/
theorem layOut_shift (b : Block) (n : Nat) (s : Store) : (b.shift n).layOut s = b.layOut s := by
  induction b using rowInduction (fun cs => ∀ s, layOutAll s (cs.map (·.shift n)) = layOutAll s cs) generalizing s with
  | nest b ih => rw [layOut_eq, layOut_eq, children_shift, gaps_shift, ih]
  | nil => rfl
  | cons c cs first others => rw [List.map_cons, layOutAll_cons, layOutAll_cons, first, others]

theorem layOut_behind (b : Block) (front : List Segment) (s : Store) :
    b.layOut ⟨front ++ s.segments⟩ =
      ((b.layOut s).1.shift front.length, ⟨front ++ (b.layOut s).2.segments⟩) := by
  induction b using rowInduction (fun cs => ∀ s : Store, layOutAll ⟨front ++ s.segments⟩ cs =
    (Placement.shiftAll front.length (layOutAll s cs).1, ⟨front ++ (layOutAll s cs).2.segments⟩)) generalizing s with
  | nest b ih =>
    rw [layOut_eq, layOut_eq, ih s]
    obtain ⟨ps, t⟩ := layOutAll s b.children
    have size : (⟨front ++ t.segments⟩ : Store).size = t.size + front.length := by
      rw [Store.size, List.length_append, Nat.add_comm]
      rfl
    simp only [Store.append, size, Placement.shift, Placement.gapSpans_shift, List.append_assoc, Span.shift,
      Nat.add_right_comm t.size]
  | nil => rfl
  | cons c cs first others =>
    rw [layOutAll_cons, layOutAll_cons, first, others]
    rfl

/-- The own range of a block ends where the store ends when the block has been laid out. -/
theorem stop_layOut (b : Block) (s : Store) : (b.layOut s).1.range.stop = (b.layOut s).2.size := by
  rw [layOut_eq]
  simp only [Store.append, Store.size, List.length_append]

/-- A store holds the segments of the blocks in their order. -/
theorem segments_layOut (b : Block) (s : Store) :
    (b.layOut s).2.segments = s.segments ++ b.postorder.flatMap (·.gaps.flatten) := by
  induction b using rowInduction (fun cs => ∀ s,
    (layOutAll s cs).2.segments = s.segments ++ (postorderAll cs).flatMap (·.gaps.flatten)) generalizing s with
  | nest b ih =>
    rw [layOut_eq, postorder_eq, List.flatMap_append, ← List.append_assoc, ← ih s]
    simp only [Store.append, List.flatMap_cons, List.flatMap_nil, List.append_nil]
  | nil => exact (List.append_nil _).symm
  | cons c cs first others =>
    rw [layOutAll_cons, others, first, postorderAll, List.flatMap_append, List.append_assoc]

/-- A block that stands in a tree was laid out where it stands, and then the store only grew. -/
theorem exists_layOut {a b : Block} {q : Placement} {s : Store}
    (placed : (b, q) ∈ a.postorder.zip (a.layOut s).1.postorder) :
    ∃ t, (b.layOut t).1 = q ∧ (b.layOut t).2.segments <+: (a.layOut s).2.segments := by
  induction a using rowInduction (fun cs => ∀ s, s.segments <+: (layOutAll s cs).2.segments ∧
    ((b, q) ∈ (postorderAll cs).zip (Placement.postorderAll (layOutAll s cs).1) →
      ∃ t, (b.layOut t).1 = q ∧ (b.layOut t).2.segments <+: (layOutAll s cs).2.segments)) generalizing s with
  | nest a ih =>
    have own : (a.layOut s).1.postorder =
        Placement.postorderAll (layOutAll s a.children).1 ++ [(a.layOut s).1] := by
      rw [layOut_eq]
      rfl
    have grown : (layOutAll s a.children).2.segments <+: (a.layOut s).2.segments := by
      rw [layOut_eq]
      exact List.prefix_append _ _
    have lengths : (postorderAll a.children).length = (Placement.postorderAll (layOutAll s a.children).1).length := by
      have both := (a.layOut_placing s).length
      rw [own, postorder_eq, List.length_append, List.length_append] at both
      exact Nat.add_right_cancel both
    rw [postorder_eq, own, List.zip_append lengths] at placed
    rcases List.mem_append.1 placed with below | here
    · obtain ⟨t, place, early⟩ := (ih s).2 below
      exact ⟨t, place, early.trans grown⟩
    · cases List.mem_singleton.1 here
      exact ⟨s, rfl, List.prefix_refl _⟩
  | nil => exact ⟨List.prefix_refl _, nofun⟩
  | cons c cs first others s =>
    have placing := c.layOut_placing s
    obtain ⟨longer, later⟩ := others (c.layOut s).2
    rw [layOutAll_cons, postorderAll, Placement.postorderAll, List.zip_append placing.length, List.mem_append]
    refine ⟨placing.longer.trans longer, ?_⟩
    rintro (here | behind)
    · obtain ⟨t, place, early⟩ := first here
      exact ⟨t, place, early.trans longer⟩
    · exact later behind

/-- The segments of a subtree are one stretch of the store, which ends with those of its topmost block. -/
theorem exists_stretch {a b : Block} {q : Placement} (placed : (b, q) ∈ a.placed) :
    ∃ n, b.placement.shift n = q ∧ Span.Consecutive n (q.postorder.map (·.range)) q.range.stop ∧
      a.store.get ⟨n, q.range.stop⟩ = b.store.segments := by
  obtain ⟨t, rfl, back, early⟩ := exists_layOut placed
  have behind : b.layOut t = (b.placement.shift t.size, ⟨t.segments ++ b.store.segments⟩) := by
    have moved := b.layOut_behind t.segments .empty
    rwa [show t.segments ++ Store.empty.segments = t.segments from List.append_nil _] at moved
  refine ⟨t.size, by rw [behind], ?_, ?_⟩
  · rw [stop_layOut]
    exact (b.layOut_placing t).consecutive
  · have size : (⟨t.segments ++ b.store.segments⟩ : Store).size = t.size + b.store.segments.length := by
      rw [Store.size, List.length_append]
      rfl
    have whole : a.store.segments = t.segments ++ (b.store.segments ++ back) := by
      show (a.layOut .empty).2.segments = _
      rw [← early, behind, List.append_assoc]
    rw [stop_layOut, behind, size, Store.get, whole, Span.size, Nat.add_sub_cancel_left]
    show List.take _ (List.drop t.segments.length _) = _
    rw [List.drop_left, List.take_left]

end Block

end Stencil

import Stencil.Proofs.Reachable

/-!
# Where segments stand

The blocks of a tree, each behind those nested in it, take ranges of the store one behind the other
(`layOut_placing`), and the range of a block holds its segments, one gap behind the other
(`Stands`). This is so of every tree; what a template adds to it is that no gap is empty.
-/

namespace Stencil

namespace Span

/-- The spans stand one behind the other, the first one at `start`, and the last one ends at `stop`. -/
def Consecutive : (start : Nat) → List Span → (stop : Nat) → Prop
  | start, [], stop => start = stop
  | start, s :: ss, stop => s.start = start ∧ s.start ≤ s.stop ∧ Consecutive s.stop ss stop

theorem Consecutive.append {start mid stop : Nat} {front back : List Span} (h : Consecutive start front mid)
    (behind : Consecutive mid back stop) : Consecutive start (front ++ back) stop := by
  induction front generalizing start with
  | nil =>
    cases h
    exact behind
  | cons s front ih =>
    obtain ⟨first, le, rest⟩ := h
    exact ⟨first, le, ih rest⟩

end Span

namespace Placement

theorem gapSpans_shift (start n : Nat) (gaps : List (List Segment)) :
    gapSpans (start + n) gaps = (gapSpans start gaps).map (·.shift n) := by
  induction gaps generalizing start with
  | nil => rfl
  | cons gap gaps ih =>
    rw [gapSpans, gapSpans, List.map_cons, Nat.add_right_comm, ih]
    rfl

end Placement

/-! ## Blocks and their places in the order of the store -/

namespace Block

mutual

/-- The block and everything nested in it, each block behind its nested ones. -/
def postorder : Block → List Block
  | ⟨name, vs, gaps, cs, span, state⟩ => postorderAll cs ++ [⟨name, vs, gaps, cs, span, state⟩]

def postorderAll : List Block → List Block
  | [] => []
  | c :: cs => c.postorder ++ postorderAll cs

end

theorem postorder_eq (b : Block) : b.postorder = postorderAll b.children ++ [b] := by
  cases b
  rw [postorder]

/-- Both orders list the same blocks. -/
theorem postorder_perm (b : Block) : b.postorder.Perm b.preorder := by
  induction b using rowInduction (fun cs => (postorderAll cs).Perm (preorderAll cs)) with
  | nest b ih =>
    rw [postorder_eq, preorder_eq]
    exact List.perm_append_comm.trans (ih.cons b)
  | nil => exact .refl _
  | cons c cs first others =>
    rw [postorderAll, preorderAll]
    exact first.append others

end Block

namespace Placement

mutual

/-- The place and the places of everything nested, in the order of the blocks. -/
def postorder : Placement → List Placement
  | ⟨range, gaps, ps⟩ => postorderAll ps ++ [⟨range, gaps, ps⟩]

def postorderAll : List Placement → List Placement
  | [] => []
  | p :: ps => p.postorder ++ postorderAll ps

end

/-- How far each gap reaches, counted from the beginning of the range. -/
def ends (q : Placement) : List Nat := q.gaps.map fun g => g.stop - q.range.start

end Placement

/-- Each block of a tree with its place, in the order of the store. -/
def Block.placed (b : Block) : List (Block × Placement) := b.postorder.zip b.placement.postorder

/-! ## Laying out -/

/-- A block stands in a store at a place: from there on come its segments, gap by gap. -/
structure Stands (s : Store) (b : Block) (q : Placement) : Prop where
  within : q.range.stop ≤ s.size
  stop : q.range.stop = q.range.start + b.gaps.flatten.length
  segments : b.gaps.flatten <+: s.segments.drop q.range.start
  gaps : q.gaps = Placement.gapSpans q.range.start b.gaps

/-- What stands in a store stands in every longer one. -/
theorem Stands.mono {s t : Store} {b : Block} {q : Placement} (h : Stands s b q)
    (longer : s.segments <+: t.segments) : Stands t b q := by
  refine ⟨Nat.le_trans h.within longer.length_le, h.stop, h.segments.trans ?_, h.gaps⟩
  obtain ⟨more, e⟩ := longer
  rw [← e, List.drop_append]
  exact List.prefix_append _ _

/-- Some blocks were placed, one behind the other, at the end of a store, which became `t`. -/
structure Placing (s t : Store) (bs : List Block) (qs : List Placement) : Prop where
  length : bs.length = qs.length
  longer : s.segments <+: t.segments
  consecutive : Span.Consecutive s.size (qs.map (·.range)) t.size
  stands : ∀ x ∈ bs.zip qs, Stands t x.1 x.2

theorem Placing.append {s t u : Store} {bs cs : List Block} {ps qs : List Placement} (h : Placing s t bs ps)
    (behind : Placing t u cs qs) : Placing s u (bs ++ cs) (ps ++ qs) := by
  refine ⟨?_, h.longer.trans behind.longer, ?_, ?_⟩
  · rw [List.length_append, List.length_append, h.length, behind.length]
  · rw [List.map_append]
    exact h.consecutive.append behind.consecutive
  · intro x hx
    rw [List.zip_append h.length] at hx
    rcases List.mem_append.1 hx with early | late
    · exact (h.stands x early).mono behind.longer
    · exact behind.stands x late

/-- A block comes to the end of the store. -/
theorem placing_own (s : Store) (b : Block) (children : List Placement) :
    Placing s (s.append b.gaps.flatten).2 [b]
      [⟨(s.append b.gaps.flatten).1, Placement.gapSpans (s.append b.gaps.flatten).1.start b.gaps, children⟩] := by
  have size : (s.append b.gaps.flatten).2.size = s.size + b.gaps.flatten.length := by
    rw [Store.append, Store.size, List.length_append, Store.size]
  refine ⟨rfl, List.prefix_append _ _, ⟨rfl, Nat.le_add_right _ _, size.symm⟩, ?_⟩
  intro x hx
  cases List.mem_singleton.1 hx
  refine ⟨Nat.le_of_eq size.symm, rfl, ?_, rfl⟩
  simp [Store.append, Store.size]

namespace Block

theorem layOutAll_cons (s : Store) (c : Block) (cs : List Block) :
    layOutAll s (c :: cs) =
      ((c.layOut s).1 :: (layOutAll (c.layOut s).2 cs).1, (layOutAll (c.layOut s).2 cs).2) := by
  rw [layOutAll]

/-- Laying out places the blocks of a tree one behind the other. -/
theorem layOut_placing (b : Block) (s : Store) :
    Placing s (b.layOut s).2 b.postorder (b.layOut s).1.postorder := by
  induction b using rowInduction (fun cs => ∀ s,
    Placing s (layOutAll s cs).2 (postorderAll cs) (Placement.postorderAll (layOutAll s cs).1)) generalizing s with
  | nest b ih =>
    rw [layOut_eq, postorder_eq]
    simp only [Placement.postorder]
    exact (ih s).append (placing_own _ b _)
  | nil => exact ⟨rfl, List.prefix_refl _, rfl, nofun⟩
  | cons c cs first others s =>
    rw [layOutAll_cons, postorderAll, Placement.postorderAll]
    exact (first s).append (others (c.layOut s).2)

theorem placing (b : Block) : Placing .empty b.store b.postorder b.placement.postorder :=
  b.layOut_placing .empty

theorem map_fst_placed (b : Block) : b.placed.map (·.1) = b.postorder :=
  List.map_fst_zip (Nat.le_of_eq b.placing.length)

end Block

/-! ## Gaps in the range of their block -/

namespace Placement

/-- The range of a gap stands in that of its block and holds its segments. -/
theorem getElem?_gapSpans {segments : List Segment} {start : Nat} {gaps : List (List Segment)}
    (stand : gaps.flatten <+: segments.drop start) {k : Nat} {gap : List Segment} (here : gaps[k]? = some gap) :
    ∃ g, (gapSpans start gaps)[k]? = some g ∧ start ≤ g.start ∧ g.stop = g.start + gap.length ∧
      g.stop ≤ start + gaps.flatten.length ∧ gap <+: segments.drop g.start := by
  induction gaps generalizing start k with
  | nil => cases here
  | cons first gaps ih =>
    rw [List.flatten_cons] at stand
    rw [List.flatten_cons, List.length_append, gapSpans]
    cases k with
    | zero =>
      cases here
      refine ⟨_, rfl, Nat.le_refl _, rfl, ?_, (List.prefix_append _ _).trans stand⟩
      show start + gap.length ≤ _
      omega
    | succ k =>
      have behind : gaps.flatten <+: segments.drop (start + first.length) := by
        obtain ⟨rest, e⟩ := stand
        rw [← List.drop_drop, ← e, List.append_assoc, List.drop_left]
        exact List.prefix_append _ _
      obtain ⟨g, at_, ge, stop, le, own⟩ := ih behind here
      exact ⟨g, at_, by omega, stop, by omega, own⟩

theorem length_gapSpans (start : Nat) (gaps : List (List Segment)) : (gapSpans start gaps).length = gaps.length := by
  induction gaps generalizing start with
  | nil => rfl
  | cons gap gaps ih => rw [gapSpans, List.length_cons, ih, List.length_cons]

theorem consecutive_gapSpans (start : Nat) (gaps : List (List Segment)) :
    Span.Consecutive start (gapSpans start gaps) (start + gaps.flatten.length) := by
  induction gaps generalizing start with
  | nil => rfl
  | cons gap gaps ih =>
    rw [List.flatten_cons, List.length_append, ← Nat.add_assoc]
    exact ⟨rfl, Nat.le_add_right _ _, ih _⟩

/-- Where no gap is empty, each reaches farther than the one before. -/
theorem ends_gapSpans {base start : Nat} {gaps : List (List Segment)} (le : base ≤ start)
    (nonempty : ∀ gap ∈ gaps, gap ≠ []) :
    ((gapSpans start gaps).map fun g => g.stop - base).Pairwise (· < ·) ∧
      ∀ e ∈ (gapSpans start gaps).map fun g => g.stop - base, start - base < e := by
  induction gaps generalizing start with
  | nil => exact ⟨.nil, nofun⟩
  | cons gap gaps ih =>
    have pos : 0 < gap.length := List.length_pos_iff.2 (nonempty gap List.mem_cons_self)
    obtain ⟨increasing, above⟩ := @ih (start + gap.length) (Nat.le_add_right_of_le le) fun g hg =>
      nonempty g (List.mem_cons_of_mem _ hg)
    have first : start - base < start + gap.length - base := by omega
    rw [gapSpans, List.map_cons]
    refine ⟨List.pairwise_cons.2 ⟨above, increasing⟩, List.forall_mem_cons.2 ⟨first, fun e he => ?_⟩⟩
    exact Nat.lt_trans first (above e he)

theorem getLast?_gapSpans (start : Nat) {gaps : List (List Segment)} (some_ : gaps ≠ []) :
    (gapSpans start gaps).getLast?.map (·.stop) = some (start + gaps.flatten.length) := by
  induction gaps generalizing start with
  | nil => exact absurd rfl some_
  | cons gap gaps ih =>
    cases gaps with
    | nil => simp [gapSpans]
    | cons next gaps =>
      have later := ih (start + gap.length) (List.cons_ne_nil _ _)
      rw [gapSpans, List.flatten_cons, List.length_append, ← Nat.add_assoc, ← later, gapSpans,
        List.getLast?_cons_cons]

end Placement

namespace Stands

variable {s : Store} {b : Block} {q : Placement}

/-- The range of a block holds its segments. -/
theorem get_range (h : Stands s b q) : s.get q.range = b.gaps.flatten := by
  have size : q.range.size = b.gaps.flatten.length := by
    rw [Span.size, h.stop]
    omega
  rw [Store.get, size]
  exact (List.prefix_iff_eq_take.1 h.segments).symm

/-- The range of a gap holds the gap's segments. -/
theorem get_gap (h : Stands s b q) {k : Nat} (lt : k < b.gaps.length) :
    ∃ g, q.gaps[k]? = some g ∧ q.range.start ≤ g.start ∧ g.stop = g.start + (b.gap k).length ∧
      g.stop ≤ q.range.stop ∧ s.get g = b.gap k := by
  have here : b.gaps[k]? = some (b.gap k) := by
    rw [Block.gap, List.getElem?_eq_getElem lt]
    rfl
  obtain ⟨g, at_, ge, stop, le, own⟩ := Placement.getElem?_gapSpans h.segments here
  have size : g.size = (b.gap k).length := by
    rw [Span.size, stop]
    omega
  refine ⟨g, by rw [h.gaps, at_], ge, stop, by rw [h.stop]; exact le, ?_⟩
  rw [Store.get, size]
  exact (List.prefix_iff_eq_take.1 own).symm

end Stands

end Stencil

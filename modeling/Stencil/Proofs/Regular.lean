import Stencil.Proofs.Contents
import Stencil.Proofs.Located
import Stencil.Proofs.Passes
import Stencil.Proofs.Placed

/-!
# Blocks as the reader leaves them

What is known of each block of a template that is read (`Block.Regular`): it has one gap more than nested blocks, no
gap is empty, the variables its segments carry are those of its table, and its nested blocks have names of their own.
So the gaps part the range of the store in which the segments stand (`Stands.parted`).
-/

namespace Stencil

open Block

/-! ## What reading makes of a block -/

/-- The last segment of a gap, and so the gap itself, is there, and carries no variable. -/
def Ended (gap : List Segment) : Prop := ∃ front text, gap = front ++ [⟨text, none⟩]

theorem Ended.append {gap : List Segment} (h : Ended gap) (front : List Segment) : Ended (front ++ gap) := by
  obtain ⟨others, text, rfl⟩ := h
  exact ⟨front ++ others, text, by rw [List.append_assoc]⟩

theorem Ended.ne_nil {gap : List Segment} (h : Ended gap) : gap ≠ [] := by
  obtain ⟨others, text, rfl⟩ := h
  simp

theorem Variables.segments_ended (vs : Variables) (text : List Char) : Ended (vs.segments text) := by
  have all (seen cs : List Char) : Ended (vs.segmentsAfter seen cs) := by
    induction h : cs.length using Nat.strongRecOn generalizing seen cs with
    | ind size ih =>
      rw [segmentsAfter]
      split
      · next i rest hit => exact (ih rest.length (h ▸ hit?_shorter hit) [] rest rfl).append [_]
      · split
        · exact ⟨[], _, rfl⟩
        · next c rest _ _ => exact ih rest.length (by simp [← h]) (c :: seen) rest rfl
  exact all [] text

namespace Outline

variable {vs : Variables} {o : Outline} {tail : List Char}

theorem length_gaps : (gaps vs o tail).length = o.blocks.length + 1 := by
  induction o generalizing vs with
  | nil => rfl
  | var p next ih =>
    have later := @ih (vs.declareBy p.tag)
    rw [gaps]
    cases hg : gaps (vs.declareBy p.tag) next tail with
    | nil => exact absurd hg (gaps_ne_nil _ _ _)
    | cons gap rest =>
      rw [hg] at later
      exact later
  | block opening body closing next _ ih => rw [gaps, List.length_cons, ih, blocks_block, List.length_cons]

theorem ended_of_mem_gaps : ∀ gap ∈ gaps vs o tail, Ended gap := by
  induction o generalizing vs with
  | nil =>
    intro gap hg
    cases List.mem_singleton.1 hg
    exact vs.segments_ended tail
  | var p next ih =>
    have later := @ih (vs.declareBy p.tag)
    rw [gaps]
    cases hg : gaps (vs.declareBy p.tag) next tail with
    | nil => exact absurd hg (gaps_ne_nil _ _ _)
    | cons gap rest =>
      rw [hg, List.forall_mem_cons] at later
      exact List.forall_mem_cons.2 ⟨later.1.append _, later.2⟩
  | block opening body closing next _ ih =>
    rw [gaps]
    exact List.forall_mem_cons.2 ⟨vs.segments_ended _, ih⟩

theorem var_lt_of_mem_gaps {s : Segment} (mem : s ∈ (gaps vs o tail).flatten) {i : Nat} (var : s.var = some i) :
    i < vs.size + o.table.length := by
  induction o generalizing vs with
  | nil =>
    rw [gaps, List.flatten_cons, List.flatten_nil, List.append_nil] at mem
    exact Variables.var_lt_of_mem_segments mem var
  | var p next ih =>
    rw [gaps, flatten_ontoFirst] at mem
    rw [table, List.length_cons]
    rcases List.mem_append.1 mem with early | late
    · have := Variables.var_lt_of_mem_segments early var
      omega
    · have size : (vs.declareBy p.tag).size = vs.size + 1 := Variables.size_declare ..
      have := ih late
      omega
  | block opening body closing next _ ih =>
    rw [gaps, List.flatten_cons] at mem
    rw [table]
    rcases List.mem_append.1 mem with early | late
    · have := Variables.var_lt_of_mem_segments early var
      omega
    · exact ih late

end Outline

/-- What is known of a block of a template: it has one gap more than nested blocks, no gap is without a
last segment that carries no variable, the variables its segments carry are those of its table, and its
nested blocks have names of their own. -/
structure Block.Regular (b : Block) : Prop where
  gaps : b.gaps.length = b.children.length + 1
  ended : ∀ gap ∈ b.gaps, Ended gap
  known : ∀ s ∈ b.gaps.flatten, ∀ i, s.var = some i → i < b.vars.size
  carried : ∀ i < b.vars.size, ∃ s ∈ b.gaps.flatten, s.var = some i
  named : ∀ c ∈ b.children, ∃ name, c.name = some name ∧ name ≠ ""
  distinct : (b.children.map (·.name)).Nodup

namespace Template

/-- Every block of a template is regular. -/
theorem regular_of_parse {source : String} {file : Nat} {root : Block}
    (parsed : Template.parse source file = .ok root) : ∀ b ∈ root.preorder, b.Regular := by
  intro b part
  obtain ⟨name, span, o, tail, rfl, lawful, shaped, declares⟩ := exists_content parsed part
  refine ⟨Outline.length_gaps, Outline.ended_of_mem_gaps, fun s mem i var => ?_, fun i lt => ?_, fun c hc => ?_,
    lawful.blocks⟩
  · have lt : i < Variables.empty.size + o.table.length := Outline.var_lt_of_mem_gaps mem var
    rwa [show Variables.empty.size = 0 from rfl, Nat.zero_add] at lt
  · refine Outline.carried_iff.1 lawful.carried i (Nat.zero_le i) ?_
    rw [show Variables.empty.size = 0 from rfl, Nat.zero_add]
    exact lt
  · obtain ⟨p, hp, opens, named⟩ := Outline.exists_opening shaped hc
    obtain ⟨a, -, declared⟩ := (declares p hp).block opens
    exact ⟨_, named, (Attributes.declaration_eq_block_iff.1 declared).2.1⟩

end Template

/-- Neither states nor values matter to what is known of a block. -/
theorem Block.Regular.congr {a b : Block} (h : b.Regular) (same : a.pristine = b.pristine) : a.Regular := by
  have gaps : a.gaps = b.gaps := by rw [← gaps_pristine a, same, gaps_pristine]
  have names : a.children.map (·.name) = b.children.map (·.name) := map_name_of_pristine_eq same
  have length : a.children.length = b.children.length := by
    simpa using congrArg List.length names
  have size : a.vars.size = b.vars.size := by
    have vars : a.vars.names = b.vars.names := Variables.names_eq_of_pristine_eq (by
      rw [← vars_pristine, same, vars_pristine])
    simpa [Variables.names, Variables.size] using congrArg List.length vars
  refine ⟨?_, ?_, ?_, ?_, ?_, names ▸ h.distinct⟩
  · rw [gaps, length, h.gaps]
  · rw [gaps]; exact h.ended
  · rw [gaps, size]; exact h.known
  · rw [gaps, size]; exact h.carried
  · intro c hc
    have mem : c.name ∈ b.children.map (·.name) := names ▸ List.mem_map_of_mem hc
    obtain ⟨d, hd, e⟩ := List.mem_map.1 mem
    obtain ⟨name, some_, nonempty⟩ := h.named d hd
    exact ⟨name, e ▸ some_, nonempty⟩

/-! ## Blocks in the store -/

/-- The range of a placed block holds its segments and is parted into its gaps, of which none is empty. -/
structure Parted (store : Store) (b : Block) (q : Placement) : Prop where
  within : q.range.stop ≤ store.size
  own : store.get q.range = b.gaps.flatten
  count : q.gaps.length = b.children.length + 1
  consecutive : Span.Consecutive q.range.start q.gaps q.range.stop
  gap : ∀ k ≤ b.children.length, ∃ g, q.gaps[k]? = some g ∧ g.start < g.stop ∧ g.stop ≤ q.range.stop ∧
    store.get g = b.gap k
  increasing : q.ends.Pairwise (· < ·)
  positive : ∀ e ∈ q.ends, 1 ≤ e
  last : q.ends.getLast? = some q.range.size

/-- A regular block is parted where it stands. -/
theorem Stands.parted {store : Store} {b : Block} {q : Placement} (h : Stands store b q) (regular : b.Regular) :
    Parted store b q := by
  have nonempty : ∀ gap ∈ b.gaps, gap ≠ [] := fun gap hg => (regular.ended gap hg).ne_nil
  obtain ⟨increasing, positive⟩ := Placement.ends_gapSpans (Nat.le_refl q.range.start) nonempty
  rw [← h.gaps] at increasing positive
  rw [Nat.sub_self] at positive
  refine ⟨h.within, h.get_range, ?_, ?_, ?_, increasing, positive, ?_⟩
  · rw [h.gaps, Placement.length_gapSpans, regular.gaps]
  · rw [h.gaps, h.stop]
    exact Placement.consecutive_gapSpans _ _
  · intro k le
    have lt : k < b.gaps.length := by rw [regular.gaps]; omega
    obtain ⟨g, here, -, stop, within, own⟩ := h.get_gap lt
    have mem : b.gap k ∈ b.gaps := by
      rw [Block.gap, List.getElem?_eq_getElem lt]
      exact List.getElem_mem lt
    have pos := List.length_pos_iff.2 (nonempty _ mem)
    exact ⟨g, here, by omega, within, own⟩
  · have some_ : b.gaps ≠ [] := by
      intro none_
      have := regular.gaps
      rw [none_] at this
      cases this
    have last := Placement.getLast?_gapSpans q.range.start some_
    rw [← h.gaps] at last
    obtain ⟨g, hg, stop⟩ := Option.map_eq_some_iff.1 last
    rw [Placement.ends, List.getLast?_map, hg, Option.map_some, Span.size, h.stop, stop]

/-! ## The places that calls use -/

namespace Block

variable {b : Block} {k : Nat}

theorem mem_flatten_of_mem_gap {s : Segment} (mem : s ∈ b.gap k) : s ∈ b.gaps.flatten := by
  rw [gap] at mem
  cases hg : b.gaps[k]? with
  | none => simp [hg] at mem
  | some gap =>
    rw [hg] at mem
    exact List.mem_flatten.2 ⟨gap, List.mem_of_getElem? hg, mem⟩

theorem Orderly.lt_of_active (h : b.Orderly) (active : b.state = .active k) : k < b.children.length := by
  unfold Orderly at h
  rw [active] at h
  exact h.1

end Block

end Stencil

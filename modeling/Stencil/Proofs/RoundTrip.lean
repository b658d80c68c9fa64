import Stencil.Proofs.Grammar
import Stencil.Proofs.Once
import Stencil.Proofs.Untagged

/-!
# Reading and writing lose nothing

As long as no variable is assigned, the segments of a gap write the text they were cut from. A
template that is written once with everything in it is therefore its source without the tags
(`once_received_untagged`).
-/

namespace Stencil

open Text
open Tag (Piece)

namespace Variables

/-- What some segments write with the values of a table. -/
def written (vs : Variables) (ss : List Segment) : List UInt8 :=
  (ss.flatMap fun s => s.text :: (s.var.map vs.value).toList).flatMap bytes

theorem written_append (vs : Variables) (xs ys : List Segment) :
    vs.written (xs ++ ys) = vs.written xs ++ vs.written ys := by
  simp [written]

/-- Values that are placeholders write the text that was cut. -/
theorem written_of_plain {vs : Variables} (plain : ∀ v ∈ vs.entries, v.value = v.placeholder)
    (ss : List Segment) : vs.written ss = charBytes (vs.uncut ss) := by
  have value (i : Nat) : vs.value i = vs.placeholder i := by
    rw [value, placeholder]
    cases hv : vs.entries[i]? with
    | none => rfl
    | some v => simp [plain v (List.mem_of_getElem? hv)]
  induction ss with
  | nil => rfl
  | cons s ss ih =>
    have here : (s.text :: (s.var.map vs.value).toList).flatMap bytes =
        charBytes (s.text.toList ++ (s.var.map fun i => (vs.placeholder i).toList).getD []) := by
      cases s.var with
      | none => simp [charBytes_toList]
      | some i => simp [charBytes_toList, value]
    have rest : vs.written (s :: ss) = (s.text :: (s.var.map vs.value).toList).flatMap bytes ++ vs.written ss := by
      rw [written, List.flatMap_cons, List.flatMap_append]
      rfl
    rw [rest, here, ih, ← charBytes_append]
    rfl

/-- Variables declared later do not matter for a text that has been cut. -/
theorem uncut_of_extends {vs more : Variables} {added : List Variable}
    (table : more.entries = vs.entries ++ added) (text : List Char) : more.uncut (vs.segments text) = text := by
  have same : more.uncut (vs.segments text) = vs.uncut (vs.segments text) := by
    apply List.flatMap_congr
    intro s hs
    cases hv : s.var with
    | none => rfl
    | some i =>
      have lt : i < vs.entries.length := var_lt_of_mem_segments hs hv
      have entry : more.placeholder i = vs.placeholder i := by
        rw [placeholder, placeholder, table, List.getElem?_append_left lt]
      simp [entry]
  rw [same, uncut_segments]

end Variables

namespace Outline

/-- All text of an outline, up to the text behind its last tag. -/
def text (o : Outline) (tail : List Char) : List Char := o.pieces.flatMap (·.text) ++ tail

theorem plain_table (o : Outline) : ∀ v ∈ o.table, v.value = v.placeholder := by
  induction o with
  | nil => exact nofun
  | var p next ih => exact List.forall_mem_cons.2 ⟨rfl, ih⟩
  | block opening body closing next _ ih => exact ih

theorem gapBytes_of_drop {b : Block} {k : Nat} {gap : List Segment} {gaps : List (List Segment)}
    (h : b.gaps.drop k = gap :: gaps) : b.gapBytes k = b.vars.written gap := by
  have entry : (b.gaps.drop k)[0]? = some gap := by rw [h]; rfl
  rw [List.getElem?_drop, Nat.add_zero] at entry
  rw [Block.gapBytes, Block.gapTexts, Block.gap, entry]
  rfl

/-- From gap `k` on a block writes the text of the outline that its further gaps and nested blocks
were made from; `front` are the segments that gap `k` already had. -/
theorem written_from {b : Block} {k : Nat} {vs : Variables} {o : Outline} {tail : List Char}
    {front : List Segment} (gaps_eq : b.gaps.drop k = ontoFirst front (gaps vs o tail))
    (more : b.vars.entries = vs.entries ++ o.table) (plain : ∀ v ∈ b.vars.entries, v.value = v.placeholder) :
    b.gapBytes k ++ b.behind k (Block.onceTexts o.blocks) = b.vars.written front ++ charBytes (o.text tail) := by
  induction o generalizing b k vs front tail with
  | nil =>
    have stretch : b.vars.written (vs.segments tail) = charBytes tail := by
      rw [Variables.written_of_plain plain, Variables.uncut_of_extends more]
    rw [gapBytes_of_drop gaps_eq, Variables.written_append, stretch]
    exact List.append_nil _
  | var p next ih =>
    have stretch : b.vars.written (vs.segments p.text) = charBytes p.text := by
      rw [Variables.written_of_plain plain, Variables.uncut_of_extends more]
    rw [gaps, ← ontoFirst_append] at gaps_eq
    have entries : b.vars.entries = (vs.declareBy p.tag).entries ++ next.table := by
      rw [more, table, Variables.declareBy, Variables.declare, List.append_assoc]
      rfl
    rw [blocks, ih gaps_eq entries plain, Variables.written_append, stretch, List.append_assoc,
      ← charBytes_append]
    simp only [text, pieces, List.flatMap_cons, List.append_assoc]
  | block opening body closing next ih_body ih_next =>
    have stretch : b.vars.written (vs.segments opening.text) = charBytes opening.text := by
      rw [Variables.written_of_plain plain, Variables.uncut_of_extends more]
    have later : b.gaps.drop (k + 1) = ontoFirst [] (gaps vs next tail) := by
      rw [← List.tail_drop, gaps_eq, ontoFirst_nil (gaps_ne_nil _ _ _)]
      rfl
    have inside : (nested opening body closing).onceText = charBytes (body.text closing.text) := by
      have gaps_nested : (nested opening body closing).gaps.drop 0 =
          ontoFirst [] (gaps .empty body closing.text) := (ontoFirst_nil (gaps_ne_nil _ _ _)).symm
      rw [Block.onceText_eq]
      exact ih_body gaps_nested rfl body.plain_table
    have outside := ih_next later more plain
    calc
      b.gapBytes k ++ b.behind k (Block.onceTexts (block opening body closing next).blocks)
        = b.vars.written (front ++ vs.segments opening.text) ++ ((nested opening body closing).onceText ++
            (b.gapBytes (k + 1) ++ b.behind (k + 1) (Block.onceTexts next.blocks))) := by
          rw [gapBytes_of_drop gaps_eq, blocks_block, Block.onceTexts, Block.behind, List.append_assoc]
      _ = b.vars.written front ++ (charBytes opening.text ++ (charBytes (body.text closing.text) ++
            charBytes (next.text tail))) := by
          rw [Variables.written_append, stretch, inside, outside, List.append_assoc]
          rfl
      _ = b.vars.written front ++ charBytes ((block opening body closing next).text tail) := by
          simp only [← charBytes_append, text, pieces, List.flatMap_cons, List.flatMap_append,
            List.cons_append, List.append_assoc]

/-- The template of an outline, written once with everything in it, is the text of the outline. -/
theorem onceText_root (o : Outline) (tail : List Char) (size : Nat) :
    (o.root tail size).onceText = charBytes (o.text tail) := by
  have gaps_root : (o.root tail size).gaps.drop 0 = ontoFirst [] (gaps .empty o tail) :=
    (ontoFirst_nil (gaps_ne_nil _ _ _)).symm
  rw [Block.onceText_eq]
  exact written_from gaps_root rfl o.plain_table

end Outline

/-- **Reading and then writing everything once loses nothing but the tags.** On a template that was
just read, the calls that write every block once, in document order, all succeed, and a sink that
never fails receives the bytes of the source that stand in none of the tags of its flat scan. -/
theorem once_received_untagged {σ : Type} [Sink σ] {fine : σ → Prop} {seen : σ → List UInt8}
    (steady : Sink.Steady fine seen) {source : String} {file : Nat} {root : Block} {s : σ}
    (parsed : Template.parse source file = .ok root) (good : fine s) :
    (∀ a ∈ (Page.ofTemplate root).attempts (root.writeOnce s), a.succeeded = true) ∧
    ∃ ps tail t, Tag.FlatScan source 0 ps tail ∧
      ((Page.ofTemplate root).afterCalls (root.writeOnce s)).sink = some t ∧
      seen t = seen s ++ uncovered (ps.map (·.tag.span)) 0 (bytes source) := by
  obtain ⟨ok, t, bound, seen_t⟩ := Page.once_received steady (Template.fresh_of_parse parsed) good
  obtain ⟨ps, tail, o, scan, declares, outlines⟩ := Template.exists_outline parsed
  obtain ⟨-, rfl⟩ := (Template.parse_outline_iff scan declares outlines).1 parsed
  have untagged : uncovered (ps.map (·.tag.span)) 0 (bytes source) = charBytes (o.text tail) := by
    have all : uncovered (ps.map (·.tag.span)) (byteCount []) (charBytes source.toList) = _ :=
      Tag.FlatScan.uncovered_eq rfl scan
    rw [charBytes_toList] at all
    rw [Outline.text, outlines.pieces]
    exact all
  refine ⟨ok, ps, tail, t, scan, bound, ?_⟩
  rw [seen_t, Outline.onceText_root, untagged]

/-- What is left of a source with one nested block. -/
theorem once_received_untagged_nested :
    ∃ root, Template.parse "a<!--rep blk=b-->x<!--/rep-->z" 0 = .ok root ∧
      ((Page.ofTemplate root).afterCalls (root.writeOnce Buffer.empty)).sink = some ⟨#[97, 120, 122]⟩ ∧
      ∃ ps tail, Tag.FlatScan "a<!--rep blk=b-->x<!--/rep-->z" 0 ps tail ∧
        uncovered (ps.map (·.tag.span)) 0 (bytes "a<!--rep blk=b-->x<!--/rep-->z") = [97, 120, 122] := by
  let root : Block := ⟨none, ⟨[]⟩, [[⟨"a", none⟩], [⟨"z", none⟩]],
    [⟨some "b", ⟨[]⟩, [[⟨"x", none⟩]], [], ⟨1, 29⟩, .out⟩], ⟨0, 30⟩, .out⟩
  have parsed : Template.parse "a<!--rep blk=b-->x<!--/rep-->z" 0 = .ok root := by
    with_unfolding_all rfl
  have received : ((Page.ofTemplate root).afterCalls (root.writeOnce Buffer.empty)).sink =
      some ⟨#[97, 120, 122]⟩ := by decide +kernel
  obtain ⟨-, ps, tail, t, scan, bound, seen⟩ := once_received_untagged Buffer.steady parsed trivial
  rw [received] at bound
  cases bound
  exact ⟨root, parsed, received, ps, tail, scan, seen.symm⟩

end Stencil

import Stencil.Proofs.Contents
import Stencil.Proofs.Subtrees
import Stencil.Proofs.Untagged
import Stencil.Proofs.Walks

/-!
# Reading a nested block alone

The text of a nested block, from its opening tag to the end of its closing tag, is a template whose only
nested block is that block (`Template.parse_excerpt`): its tags are found without the text around it, nothing
declared around it plays a part in how it is read, and its segments stand together in the store.
-/

namespace Stencil

open Text
open Tag (Piece)

/-- The bytes of a slice are those at its positions. -/
theorem Text.bytes_slice {whole : String} {front text back : List Char}
    (split_ : whole.toList = front ++ text ++ back) :
    bytes (String.ofList text) = ((bytes whole).drop (byteCount front)).take (byteCount text) := by
  rw [← charBytes_toList whole, split_, charBytes_append, charBytes_append, List.append_assoc,
    ← length_charBytes front, ← length_charBytes text, List.drop_left, List.take_left]
  rfl

/-- From the beginning of one tag to the end of another stand the tags between them, and no more. -/
theorem Tag.exists_excerpt {cs : List Char} {front between back : List Piece} {p q : Piece}
    (h : (scan 0 cs).pieces = front ++ (p :: (between ++ [q]) ++ back)) :
    ∃ before text behind, cs = before ++ text ++ behind ∧ p.tag.span.start = byteCount before ∧
      q.tag.span.stop = byteCount before + byteCount text ∧
      scan p.tag.span.start text = ⟨⟨[], p.tag⟩ :: (between ++ [q]), .ok []⟩ := by
  obtain ⟨mid, left, first, pieces, -⟩ := walk_of_scan h
  obtain ⟨stop, behind, walk, -, -⟩ := walk_of_scan pieces
  obtain ⟨passed, whole, mid_eq, -⟩ := first.exists_front
  obtain ⟨lead, text, parts, start, stop_eq, own⟩ := walk.alone
  rw [Nat.zero_add] at mid_eq
  have start_eq : p.tag.span.start = byteCount (passed ++ lead) := by
    rw [start, mid_eq, byteCount_append]
  have last : stop = q.tag.span.stop := by
    rw [← List.cons_append] at walk
    exact walk.stop_snoc
  have none_left : scan stop [] = ⟨[], .ok []⟩ := scan_of_none rfl
  refine ⟨passed ++ lead, text, behind, ?_, start_eq, ?_, ?_⟩
  · rw [whole, parts]
    simp only [List.append_assoc]
  · rw [← last, stop_eq, start_eq]
  · rw [scan_of_walk own, none_left, List.append_nil]

/-- Empty text is one segment. -/
theorem Variables.segments_nil : Variables.empty.segments [] = [⟨"", none⟩] :=
  segmentsAfter_of_miss rfl

/-- A text from the opening tag of a lawful block to the end of its closing tag is a template around that
block, which stands as many bytes farther to the front as there were in front of the text. -/
theorem Template.parse_bracketed {text : List Char} {start : Nat} {opening closing : Piece} {body : Outline}
    (scanned : Tag.scan start text = ⟨⟨[], opening.tag⟩ :: (body.pieces ++ [closing]), .ok []⟩)
    (opens : opening.tag.opens = true) (closes : closing.tag.closes = true) (shaped : body.Shaped)
    (declares : ∀ p ∈ opening :: (body.pieces ++ [closing]), p.tag.Declares) (lawful : body.Lawful closing.text)
    (below : body.LawfulBelow) (file : Nat) :
    ∃ alone b, Template.parse (String.ofList text) file = .ok alone ∧ alone.vars = .empty ∧
      alone.gaps = [[⟨"", none⟩], [⟨"", none⟩]] ∧ alone.children = [b] ∧
      b.shift start = Outline.nested opening body closing := by
  let first : Piece := ⟨[], opening.tag⟩
  let whole : Outline := .block first body closing .nil
  have moved := Tag.scan_shift 0 start text
  rw [Nat.zero_add, scanned] at moved
  obtain ⟨pieces, tail⟩ := Tag.Scan.mk.inj moved
  have tail_eq : (Tag.scan 0 text).tail = .ok [] := by
    cases rest : (Tag.scan 0 text).tail with
    | error d =>
      rw [rest] at tail
      cases tail
    | ok more =>
      rw [rest] at tail
      exact tail.symm
  have outlines : whole.Outlines ((Tag.scan 0 text).pieces.map (·.shift start)) :=
    ⟨⟨opens, closes, shaped, trivial⟩, pieces⟩
  obtain ⟨o, own, shift_eq⟩ := outlines.unshift
  have lawful_whole : (o.shift start).Lawful [] ∧ (o.shift start).LawfulBelow := by
    rw [shift_eq]
    refine ⟨⟨?_, List.nodup_nil, nofun, trivial⟩, lawful, below, trivial⟩
    exact List.nodup_cons.2 ⟨nofun, List.nodup_nil⟩
  rw [Outline.lawful_shift, Outline.lawfulBelow_shift] at lawful_whole
  have flat : Tag.FlatScan (String.ofList text) 0 (Tag.scan 0 text).pieces [] := by
    apply Tag.flatScan_source.2
    rw [String.toList_ofList]
    exact ⟨rfl, tail_eq⟩
  have declare : ∀ p ∈ (Tag.scan 0 text).pieces, p.tag.Declares := by
    intro p hp
    have mem : p.shift start ∈ first :: (body.pieces ++ [closing]) := pieces ▸ List.mem_map_of_mem hp
    -- A tag declares the same wherever it stands.
    have same : (p.shift start).tag.Declares → p.tag.Declares := id
    apply same
    rcases List.mem_cons.1 mem with e | later
    · rw [e]
      exact declares opening List.mem_cons_self
    · exact declares _ (List.mem_cons_of_mem _ later)
  have table : o.table.map (·.shift start) = [] := by
    rw [← Outline.table_shift, shift_eq]
    rfl
  have blocks : o.blocks.map (·.shift start) = [Outline.nested opening body closing] := by
    rw [← Outline.blocks_shift, shift_eq]
    rfl
  have gaps : Outline.gaps .empty o [] = [[⟨"", none⟩], [⟨"", none⟩]] := by
    rw [← Outline.gaps_empty_shift, shift_eq, Outline.gaps, Outline.gaps, Variables.segments_nil]
  obtain ⟨b, only, b_eq⟩ := List.map_eq_singleton_iff.1 blocks
  refine ⟨o.root [] (byteCount (String.ofList text).toList), b, ?_, ?_, gaps, only, b_eq⟩
  · exact (Template.parse_outline_iff flat declare own).2 ⟨lawful_whole, rfl⟩
  · show (⟨o.table⟩ : Variables) = .empty
    rw [List.map_eq_nil_iff.1 table]
    rfl

namespace Block

/-- A root around a single block stands behind it in the store. -/
theorem layOut_around {root b : Block} (only : root.children = [b]) :
    root.layOut .empty = (⟨⟨b.store.size, b.store.size + root.gaps.flatten.length⟩,
      Placement.gapSpans b.store.size root.gaps, [b.placement]⟩, ⟨b.store.segments ++ root.gaps.flatten⟩) := by
  rw [layOut_eq, only]
  rfl

theorem exists_placed {root b : Block} (part : b ∈ root.preorder) : ∃ q, (b, q) ∈ root.placed := by
  rw [← root.postorder_perm.mem_iff, ← map_fst_placed] at part
  obtain ⟨⟨b, q⟩, placed, rfl⟩ := List.mem_map.1 part
  exact ⟨q, placed⟩

end Block

namespace Template

variable {source : String} {file : Nat} {root : Block}

/-- **Nested blocks are read by themselves.** The text of a block nested at any depth, from its opening tag to
the end of its closing tag, is read, in whatever file it stands, as a root without variables around one block.
That block is the block of the template, moved to the front by the bytes before it, and its place is the place
in the template, moved to the front by the segments before it. The segments of the block and of those nested
in it stand in the template one behind the other and end with the block's own; they are the store of the text
read alone, but for the last two segments of that, which are the root's and empty. -/
theorem parse_excerpt (parsed : Template.parse source file = .ok root) {c b : Block} (nested : c ∈ root.children)
    (part : b ∈ c.preorder) (other : Nat) :
    ∃ text alone b' q', text = String.ofList (slice source.toList b.span.start b.span.stop) ∧
      bytes text = ((bytes source).drop b.span.start).take b.span.size ∧ Template.parse text other = .ok alone ∧
      alone.vars = .empty ∧ alone.gaps = [[⟨"", none⟩], [⟨"", none⟩]] ∧ alone.children = [b'] ∧
      b'.shift b.span.start = b ∧ alone.placement.children = [q'] ∧
      alone.placement.range = ⟨q'.range.stop, q'.range.stop + 2⟩ ∧ (∃ q, (b, q) ∈ root.placed) ∧
      ∀ q, (b, q) ∈ root.placed → ∃ n, q'.shift n = q ∧
        Span.Consecutive n (q.postorder.map (·.range)) q.range.stop ∧
        root.store.get ⟨n, q.range.stop⟩ = b.postorder.flatMap (·.gaps.flatten) ∧
        alone.store.segments = root.store.get ⟨n, q.range.stop⟩ ++ [⟨"", none⟩, ⟨"", none⟩] := by
  have inner : b ∈ root.preorder := Block.mem_preorder_of_child nested part
  obtain ⟨ps, tail, o, scan, declares, outlines⟩ := exists_outline parsed
  obtain ⟨⟨-, below⟩, rfl⟩ := (parse_outline_iff scan declares outlines).1 parsed
  obtain ⟨shaped, rfl⟩ := outlines
  obtain ⟨opening, body, closing, contained, rfl⟩ := Outline.exists_contains nested part
  obtain ⟨front, back, pieces⟩ := contained.pieces
  obtain ⟨opens, closes⟩ := contained.brackets shaped
  have order : o.pieces = front ++ (opening :: (body.pieces ++ [closing]) ++ back) := by
    rw [pieces]
    simp only [List.cons_append, List.append_assoc, List.nil_append]
  have own : ∀ p ∈ opening :: (body.pieces ++ [closing]), p.tag.Declares := fun p hp =>
    declares p (order ▸ List.mem_append_right _ (List.mem_append_left _ hp))
  obtain ⟨before, text, behind, whole, start, stop, scanned⟩ :=
    Tag.exists_excerpt ((Tag.flatScan_source.1 scan).1.trans order)
  obtain ⟨alone, b', read, vars, gaps, only, moved⟩ := parse_bracketed scanned opens closes
    (contained.shaped shaped) own (contained.lawful below) (contained.lawfulBelow below) other
  have span : (Outline.nested opening body closing).span = ⟨byteCount before, byteCount before + byteCount text⟩ := by
    rw [← stop, ← start]
    rfl
  have layOut : (Outline.nested opening body closing).layOut .empty = b'.layOut .empty := by
    rw [← moved, Block.layOut_shift]
  have around := Block.layOut_around only
  have last : b'.placement.range.stop = b'.store.size := b'.stop_layOut .empty
  have two : alone.gaps.flatten = [⟨"", none⟩, ⟨"", none⟩] := by
    rw [gaps]
    rfl
  refine ⟨String.ofList text, alone, b', b'.placement, ?_, ?_, read, vars, gaps, only, moved, ?_, ?_,
    Block.exists_placed inner, fun q placed => ?_⟩
  · rw [span, whole, slice_append]
  · rw [span, Span.size, Nat.add_sub_cancel_left]
    exact bytes_slice whole
  · rw [Block.placement, around]
  · rw [Block.placement, around, two, last]
    rfl
  · obtain ⟨n, place, consecutive, stretch⟩ := Block.exists_stretch placed
    have segments : (Outline.nested opening body closing).store.segments = _ :=
      Block.segments_layOut (Outline.nested opening body closing) .empty
    refine ⟨n, ?_, consecutive, ?_, ?_⟩
    · rw [← place, Block.placement, ← layOut]
      rfl
    · rw [stretch, segments]
      rfl
    · rw [stretch, Block.store, Block.store, around, two, layOut]
      rfl

/-- The second of two blocks, with a variable of its own, read alone. -/
theorem parse_excerpt_second :
    ∃ (root b alone b' : Block) (q q' : Placement) (n : Nat),
      Template.parse "<!--rep blk=a--><!--/rep-->é<!--rep blk=b--><!--rep var=v place=V-->V<!--/rep-->" 0 = .ok root ∧
      b ∈ root.children ∧ b.span = ⟨29, 81⟩ ∧ (b, q) ∈ root.placed ∧ q.range = ⟨1, 4⟩ ∧
      Template.parse "<!--rep blk=b--><!--rep var=v place=V-->V<!--/rep-->" 7 = .ok alone ∧ alone.children = [b'] ∧
      b'.shift 29 = b ∧ alone.placement.children = [q'] ∧ q'.shift n = q ∧
      alone.store.segments = root.store.get ⟨n, 4⟩ ++ [⟨"", none⟩, ⟨"", none⟩] := by
  let a : Block := ⟨some "a", ⟨[]⟩, [[⟨"", none⟩]], [], ⟨0, 27⟩, .out⟩
  let b : Block := ⟨some "b", ⟨[⟨"v", "V", "V", ⟨45, 69⟩⟩]⟩, [[⟨"", none⟩, ⟨"", some 0⟩, ⟨"", none⟩]], [],
    ⟨29, 81⟩, .out⟩
  let root : Block := ⟨none, ⟨[]⟩, [[⟨"", none⟩], [⟨"é", none⟩], [⟨"", none⟩]], [a, b], ⟨0, 81⟩, .out⟩
  let q : Placement := ⟨⟨1, 4⟩, [⟨1, 4⟩], []⟩
  have parsed : Template.parse
      "<!--rep blk=a--><!--/rep-->é<!--rep blk=b--><!--rep var=v place=V-->V<!--/rep-->" 0 = .ok root := by
    with_unfolding_all rfl
  have nested : b ∈ root.children := List.mem_cons_of_mem _ List.mem_cons_self
  have placed : (b, q) ∈ root.placed := by
    have listed : root.placed = [(a, ⟨⟨0, 1⟩, [⟨0, 1⟩], []⟩), (b, q),
        (root, ⟨⟨4, 7⟩, [⟨4, 5⟩, ⟨5, 6⟩, ⟨6, 7⟩], [⟨⟨0, 1⟩, [⟨0, 1⟩], []⟩, q]⟩)] := by
      with_unfolding_all rfl
    rw [listed]
    exact List.mem_cons_of_mem _ List.mem_cons_self
  have cut : String.ofList (slice
      "<!--rep blk=a--><!--/rep-->é<!--rep blk=b--><!--rep var=v place=V-->V<!--/rep-->".toList 29 81) =
      "<!--rep blk=b--><!--rep var=v place=V-->V<!--/rep-->" := by
    decide +kernel
  obtain ⟨text, alone, b', q', rfl, -, read, -, -, only, moved, below, -, -, places⟩ :=
    parse_excerpt parsed nested b.self_mem_preorder 7
  obtain ⟨n, place, -, -, segments⟩ := places q placed
  exact ⟨root, b, alone, b', q, q', n, parsed, nested, rfl, placed, rfl, cut ▸ read, only, moved, below, place,
    segments⟩

end Template

end Stencil

import Stencil.Proofs.Declares
import Stencil.Proofs.Described

/-!
# The grammar of templates

What reading accepts, told from the tags of the source alone: every tag declares a block or a
variable, the brackets are balanced, names differ where they have to, and every placeholder occurs
in its block's own text behind its declaration. The template that is read is then the one its
outline describes (`parse_iff_lawful`).
-/

namespace Stencil

open Text
open Tag (Piece)

/-! ## Reading an outline -/

namespace Frame

/-- The frame behind the tags of an outline. -/
def absorb : Frame → Outline → Frame
  | f, .nil => f
  | f, .var p next =>
    (f.declareAt p).absorb next
  | f, .block opening body closing next =>
    ((f.read opening.text).nest (Outline.nested opening body closing)).absorb next

/-- Whether a frame takes the tags of an outline one after the other. -/
def Admits : Frame → Outline → Prop
  | _, .nil => True
  | f, .var p next =>
    f.vars.declares p.tag.var = false ∧ p.tag.place ≠ "" ∧
      (f.declareAt p).Admits next
  | f, .block opening body closing next =>
    f.hasChild opening.tag.blk = false ∧
      (opened (some opening.tag.blk) opening.tag.span).Admits body ∧
      (((opened (some opening.tag.blk) opening.tag.span).absorb body).read closing.text).unmatched = [] ∧
      ((f.read opening.text).nest (Outline.nested opening body closing)).Admits next

theorem absorb_spec (f : Frame) (o : Outline) :
    (f.absorb o).name = f.name ∧ (f.absorb o).opening = f.opening ∧
      (f.absorb o).vars = ⟨f.vars.entries ++ o.table⟩ ∧ (f.absorb o).children = f.children ++ o.blocks := by
  induction o generalizing f with
  | nil => simp [absorb, Outline.table, Outline.blocks]
  | var p next ih =>
    obtain ⟨name, opening, vars, children⟩ :=
      ih (f.declareAt p)
    rw [absorb, Outline.table, Outline.blocks]
    refine ⟨name, opening, vars.trans ?_, children⟩
    simp only [declareAt, Variables.declareBy, Variables.declare, List.append_assoc, List.cons_append,
      List.nil_append]
  | block opening body closing next _ ih =>
    obtain ⟨name, span, vars, children⟩ := ih ((f.read opening.text).nest (Outline.nested opening body closing))
    rw [absorb, Outline.table, Outline.blocks]
    refine ⟨name, span, vars, children.trans ?_⟩
    simp only [nest, read, Outline.nested, List.append_assoc, List.cons_append, List.nil_append]

theorem allGaps_absorb (f : Frame) (o : Outline) (tail : List Char) :
    ((f.absorb o).read tail).allGaps = f.gaps ++ Outline.ontoFirst f.gap (Outline.gaps f.vars o tail) := by
  induction o generalizing f with
  | nil => rfl
  | var p next ih =>
    rw [absorb, ih, Outline.gaps, ← Outline.ontoFirst_append]
    rfl
  | block opening body closing next _ ih =>
    rw [absorb, ih, Outline.gaps]
    have first := Outline.ontoFirst_nil (Outline.gaps_ne_nil f.vars next tail)
    show (f.gaps ++ [f.gap ++ f.vars.segments opening.text]) ++ Outline.ontoFirst [] (Outline.gaps f.vars next tail) = _
    rw [first, List.append_assoc]
    rfl

/-- A frame that has absorbed an outline ends as the block around it. -/
theorem block_absorb (name : Option String) (opening : Span) (o : Outline) (tail : List Char) (stop : Nat) :
    (((opened name opening).absorb o).read tail).block stop =
      Outline.around name ⟨opening.start, stop⟩ o tail o.blocks := by
  obtain ⟨name_eq, opening_eq, vars, children⟩ := (opened name opening).absorb_spec o
  have gaps := (opened name opening).allGaps_absorb o tail
  have first := Outline.ontoFirst_nil (Outline.gaps_ne_nil .empty o tail)
  have gaps' : (((opened name opening).absorb o).read tail).allGaps = Outline.gaps .empty o tail := gaps.trans first
  have vars' : (((opened name opening).absorb o).read tail).vars = ⟨o.table⟩ := vars
  rw [block, gaps', vars']
  show (⟨((opened name opening).absorb o).name, _, _, ((opened name opening).absorb o).children,
    ⟨((opened name opening).absorb o).opening.start, stop⟩, .out⟩ : Block) = _
  rw [name_eq, opening_eq, children]
  rfl

end Frame

namespace Builder

/-- The tags of an outline are read exactly when the frame takes them, and the frame absorbs them. -/
theorem run_pieces_iff {o : Outline} (shaped : o.Shaped) (declares : ∀ p ∈ o.pieces, p.tag.Declares)
    {b after : Builder} {rest : List Piece} :
    b.run (o.pieces ++ rest) = (after, none) ↔ b.frame.Admits o ∧
      Builder.run ⟨b.frame.absorb o, b.enclosing, b.notes ++ o.notes⟩ rest = (after, none) := by
  induction o generalizing b rest with
  | nil => simp [Outline.pieces, Outline.notes, Frame.Admits, Frame.absorb]
  | var p next ih =>
    obtain ⟨opens, closes, shaped⟩ := shaped
    have here : p.tag.Declares := declares p List.mem_cons_self
    have behind : ∀ q ∈ next.pieces, q.tag.Declares := fun q hq => declares q (List.mem_cons_of_mem _ hq)
    rw [Outline.pieces, List.cons_append, run_cons_iff, Frame.Admits, Frame.absorb, Outline.notes]
    simp only [reads_declare_iff here opens closes]
    constructor
    · rintro ⟨mid, ⟨new, place, rfl⟩, run⟩
      obtain ⟨admits, run⟩ := (ih shaped behind).1 run
      exact ⟨⟨new, place, admits⟩, run⟩
    · rintro ⟨⟨new, place, admits⟩, run⟩
      exact ⟨_, ⟨new, place, rfl⟩, (ih shaped behind).2 ⟨admits, run⟩⟩
  | block opening body closing next ih_body ih_next =>
    obtain ⟨opens, closes, shaped_body, shaped_next⟩ := shaped
    rw [Outline.pieces, List.cons_append] at declares
    have here : opening.tag.Declares := declares opening List.mem_cons_self
    have inside : ∀ q ∈ body.pieces, q.tag.Declares := fun q hq =>
      declares q (List.mem_cons_of_mem _ (List.mem_append.2 (.inl hq)))
    have behind : ∀ q ∈ next.pieces, q.tag.Declares := fun q hq =>
      declares q (List.mem_cons_of_mem _ (List.mem_append.2 (.inr (List.mem_cons_of_mem _ hq))))
    have order : (body.pieces ++ closing :: next.pieces) ++ rest =
        body.pieces ++ closing :: (next.pieces ++ rest) := by
      rw [List.append_assoc, List.cons_append]
    have closed := Frame.block_absorb (some opening.tag.blk) opening.tag.span body closing.text
      closing.tag.span.stop
    rw [Outline.pieces, List.cons_append, List.cons_append, order, run_cons_iff, Frame.Admits, Frame.absorb,
      Outline.notes]
    simp only [reads_enter_iff here opens]
    constructor
    · rintro ⟨mid, ⟨new, rfl⟩, run⟩
      obtain ⟨admits_body, run⟩ := (ih_body shaped_body inside).1 run
      obtain ⟨mid, reads, run⟩ := run_cons_iff.1 run
      obtain ⟨parent, others, open_, matched, rfl⟩ := (reads_close_iff closes).1 reads
      cases open_
      obtain ⟨admits_next, run⟩ := (ih_next shaped_next behind).1 run
      simp only [closed, List.append_assoc] at admits_next run
      exact ⟨⟨new, admits_body, matched, admits_next⟩, run⟩
    · rintro ⟨⟨new, admits_body, matched, admits_next⟩, run⟩
      have reads : Reads ⟨(Frame.opened (some opening.tag.blk) opening.tag.span).absorb body,
          b.frame.read opening.text :: b.enclosing, b.notes ++ body.notes⟩ closing
          ⟨(b.frame.read opening.text).nest (Outline.nested opening body closing), b.enclosing,
            b.notes ++ body.notes ++ [(Outline.nested opening body closing).note]⟩ :=
        (reads_close_iff closes).2 ⟨_, _, rfl, matched, by rw [closed]; rfl⟩
      have run_next : Builder.run ⟨(b.frame.read opening.text).nest (Outline.nested opening body closing),
          b.enclosing, b.notes ++ body.notes ++ [(Outline.nested opening body closing).note]⟩
          (next.pieces ++ rest) = (after, none) :=
        (ih_next shaped_next behind).2 ⟨admits_next, by
          simpa only [List.append_assoc, List.cons_append, List.nil_append] using run⟩
      exact ⟨_, ⟨new, rfl⟩, (ih_body shaped_body inside).2
        ⟨admits_body, run_cons_iff.2 ⟨_, reads, run_next⟩⟩⟩

end Builder

/-! ## What a frame takes -/

theorem nodup_map_snoc {α β : Type} {f : α → β} {xs : List α} {x : α} (h : (xs.map f).Nodup) :
    ((xs ++ [x]).map f).Nodup ↔ f x ∉ xs.map f := by
  rw [List.map_append, List.nodup_append]
  constructor
  · rintro ⟨-, -, apart⟩ mem
    exact apart _ mem _ List.mem_cons_self rfl
  · intro new
    refine ⟨h, List.nodup_cons.2 ⟨nofun, List.nodup_nil⟩, fun a ha b hb e => new ?_⟩
    cases List.mem_singleton.1 hb
    exact e ▸ ha

theorem Variables.declares_eq_false_iff {vs : Variables} {name : String} :
    vs.declares name = false ↔ name ∉ vs.entries.map (·.name) := by
  rw [declares, indexOf?, Option.isSome_eq_false_iff, Option.isNone_iff_eq_none, List.findIdx?_eq_none_iff]
  constructor
  · intro h mem
    obtain ⟨v, hv, e⟩ := List.mem_map.1 mem
    simpa [e] using h v hv
  · intro h v hv
    have : v.name ≠ name := fun e => h (List.mem_map.2 ⟨v, hv, e⟩)
    simpa using this

namespace Frame

/-- Nothing is unmatched exactly when some segment carries each variable. -/
theorem unmatched_eq_nil_iff {f : Frame} :
    f.unmatched = [] ↔ ∀ i < f.vars.size, ∃ s ∈ f.allGaps.flatten, s.var = some i := by
  have carried (i : Nat) : (f.allGaps.flatten.any fun s => s.var == some i) = true ↔
      ∃ s ∈ f.allGaps.flatten, s.var = some i := by
    simp only [List.any_eq_true, beq_iff_eq]
  unfold unmatched Variables.missing
  rw [← List.length_eq_zero_iff, List.length_mergeSort, List.length_map, List.length_eq_zero_iff,
    List.filter_eq_nil_iff]
  constructor
  · intro h i lt
    have mem : (f.vars.entries[i], i) ∈ f.vars.entries.zipIdx :=
      List.mem_zipIdx_iff_getElem?.2 (List.getElem?_eq_getElem lt)
    have := h _ mem
    rw [← carried]
    simpa using this
  · rintro h ⟨v, i⟩ mem
    have lt : i < f.vars.size := (List.getElem?_eq_some_iff.1 (List.mem_zipIdx_iff_getElem?.1 mem)).1
    have := (carried i).2 (h i lt)
    simp [this]

/-- What a new frame takes is a lawful block, if what frames take of its outline is known. -/
theorem lawful_iff {name : Option String} {span : Span} {o : Outline} {tail : List Char}
    (admits : (opened name span).Admits o ↔ (o.blocks.map (·.name)).Nodup ∧ (o.table.map (·.name)).Nodup ∧
      (∀ v ∈ o.table, v.placeholder ≠ "") ∧ o.LawfulBelow) :
    (opened name span).Admits o ∧ (((opened name span).absorb o).read tail).unmatched = [] ↔
      o.Lawful tail ∧ o.LawfulBelow := by
  have gaps : (((opened name span).absorb o).read tail).allGaps = Outline.gaps .empty o tail :=
    ((opened name span).allGaps_absorb o tail).trans (Outline.ontoFirst_nil (Outline.gaps_ne_nil _ _ _))
  have vars : (((opened name span).absorb o).read tail).vars = ⟨o.table⟩ :=
    ((opened name span).absorb_spec o).2.2.1
  have carried : (((opened name span).absorb o).read tail).unmatched = [] ↔ o.Carried .empty tail := by
    rw [unmatched_eq_nil_iff, gaps, vars, Outline.carried_iff]
    simp [Variables.size, Variables.empty]
  rw [admits, carried]
  constructor
  · rintro ⟨⟨blocks, vars, places, below⟩, carried⟩
    exact ⟨⟨blocks, vars, places, carried⟩, below⟩
  · rintro ⟨⟨blocks, vars, places, carried⟩, below⟩
    exact ⟨⟨blocks, vars, places, below⟩, carried⟩

/-- A frame takes an outline exactly when the names go with those it has and with each other, places
are not empty, and the nested blocks are lawful. -/
theorem admits_iff {f : Frame} {o : Outline} (children : (f.children.map (·.name)).Nodup)
    (vars : (f.vars.entries.map (·.name)).Nodup) :
    f.Admits o ↔ ((f.children ++ o.blocks).map (·.name)).Nodup ∧
      ((f.vars.entries ++ o.table).map (·.name)).Nodup ∧ (∀ v ∈ o.table, v.placeholder ≠ "") ∧
      o.LawfulBelow := by
  induction o generalizing f with
  | nil => simp [Admits, Outline.blocks, Outline.table, Outline.LawfulBelow, children, vars]
  | var p next ih =>
    let v : Variable := ⟨p.tag.var, p.tag.place, p.tag.place, p.tag.span⟩
    have order : f.vars.entries ++ v :: next.table = (f.vars.entries ++ [v]) ++ next.table := by simp
    have new_iff : f.vars.declares p.tag.var = false ↔ ((f.vars.entries ++ [v]).map (·.name)).Nodup := by
      rw [Variables.declares_eq_false_iff, nodup_map_snoc vars]
    have rest (new : ((f.vars.entries ++ [v]).map (·.name)).Nodup) := ih (f := f.declareAt p) children new
    rw [Admits, Outline.blocks, Outline.table, Outline.LawfulBelow, order, new_iff, List.forall_mem_cons]
    constructor
    · rintro ⟨new, place, admits⟩
      obtain ⟨blocks, table, places, below⟩ := (rest new).1 admits
      exact ⟨blocks, table, ⟨place, places⟩, below⟩
    · rintro ⟨blocks, table, ⟨place, places⟩, below⟩
      have new : ((f.vars.entries ++ [v]).map (·.name)).Nodup := by
        rw [List.map_append] at table
        exact (List.nodup_append.1 table).1
      exact ⟨new, place, (rest new).2 ⟨blocks, table, places, below⟩⟩
  | block opening body closing next ih_body ih_next =>
    let c := Outline.nested opening body closing
    have order : f.children ++ c :: next.blocks = (f.children ++ [c]) ++ next.blocks := by simp
    have new_iff : f.hasChild opening.tag.blk = false ↔ ((f.children ++ [c]).map (·.name)).Nodup := by
      rw [hasChild_eq_false_iff, nodup_map_snoc children]
      rfl
    have rest (new : ((f.children ++ [c]).map (·.name)).Nodup) :=
      ih_next (f := (f.read opening.text).nest c) new vars
    have inside : (opened (some opening.tag.blk) opening.tag.span).Admits body ∧
        (((opened (some opening.tag.blk) opening.tag.span).absorb body).read closing.text).unmatched = [] ↔
        body.Lawful closing.text ∧ body.LawfulBelow :=
      lawful_iff (ih_body List.nodup_nil List.nodup_nil)
    rw [Admits, Outline.blocks_block, Outline.table, Outline.LawfulBelow, order, new_iff]
    constructor
    · rintro ⟨new, admits_body, matched, admits⟩
      obtain ⟨blocks, table, places, below⟩ := (rest new).1 admits
      obtain ⟨lawful, below_body⟩ := inside.1 ⟨admits_body, matched⟩
      exact ⟨blocks, table, places, lawful, below_body, below⟩
    · rintro ⟨blocks, table, places, lawful, below_body, below⟩
      have new : ((f.children ++ [c]).map (·.name)).Nodup := by
        rw [List.map_append] at blocks
        exact (List.nodup_append.1 blocks).1
      obtain ⟨admits_body, matched⟩ := inside.2 ⟨lawful, below_body⟩
      exact ⟨new, admits_body, matched, (rest new).2 ⟨blocks, table, places, below⟩⟩

end Frame

/-! ## Templates -/

/-- The variables of lawful nested blocks have names of their own, at every depth. -/
theorem Outline.LawfulBelow.wellDeclared {o : Outline} (h : o.LawfulBelow) : ∀ c ∈ o.blocks, c.WellDeclared := by
  induction o with
  | nil => exact nofun
  | var p next ih => exact ih h
  | block opening body closing next ih_body ih_next =>
    obtain ⟨lawful, inside, behind⟩ := h
    rw [Outline.blocks_block, List.forall_mem_cons]
    refine ⟨fun a part => ?_, ih_next behind⟩
    rcases Block.mem_preorder.1 part with rfl | ⟨c, hc, part⟩
    · exact lawful.vars
    · exact ih_body inside c hc a part

/-- Behind tags that are read, as many blocks are open as the brackets say. -/
theorem Builder.openAfter_of_run {b after : Builder} {ps : List Piece} (h : b.run ps = (after, none)) :
    (∀ p ∈ ps, p.tag.Declares) ∧
      Tag.openAfter b.enclosing.length (ps.map (·.tag)) = some after.enclosing.length := by
  induction ps generalizing b with
  | nil =>
    cases h
    exact ⟨nofun, rfl⟩
  | cons p ps ih =>
    obtain ⟨mid, reads, run⟩ := run_cons_iff.1 h
    obtain ⟨declare, open_⟩ := ih run
    have here := reads.declares
    refine ⟨List.forall_mem_cons.2 ⟨here, declare⟩, ?_⟩
    rw [List.map_cons, Tag.openAfter]
    cases closes : p.tag.closes with
    | true =>
      obtain ⟨parent, others, enclosing, -, rfl⟩ := (reads_close_iff closes).1 reads
      rw [if_pos rfl, enclosing, List.length_cons, if_neg (by omega), Nat.add_sub_cancel]
      exact open_
    | false =>
      rw [if_neg (by simp)]
      cases opens : p.tag.opens with
      | true =>
        obtain ⟨-, rfl⟩ := (reads_enter_iff here opens).1 reads
        exact open_
      | false =>
        obtain ⟨-, -, rfl⟩ := (reads_declare_iff here opens closes).1 reads
        exact open_

namespace Template

variable {source : String} {file : Nat} {root : Block} {ps : List Piece} {tail : List Char}

/-- A source whose scan has an outline is read exactly when the outline is lawful, and then as the
template the outline describes. -/
theorem parse_outline_iff {o : Outline} (scan : Tag.FlatScan source 0 ps tail)
    (declares : ∀ p ∈ ps, p.tag.Declares) (outlines : o.Outlines ps) :
    Template.parse source file = .ok root ↔
      (o.Lawful tail ∧ o.LawfulBelow) ∧ root = o.root tail (byteCount source.toList) := by
  obtain ⟨pieces, tail_eq⟩ := Tag.flatScan_source.1 scan
  obtain ⟨shaped, rfl⟩ := outlines
  let first := Frame.opened none ⟨0, byteCount source.toList⟩
  have run (b : Builder) : (Builder.start (byteCount source.toList)).run o.pieces = (b, none) ↔
      first.Admits o ∧ b = ⟨first.absorb o, [], o.notes⟩ := by
    have all : (Builder.start (byteCount source.toList)).run (o.pieces ++ []) = (b, none) ↔ _ :=
      Builder.run_pieces_iff shaped declares
    rw [List.append_nil] at all
    rw [all]
    simp [Builder.run, Builder.start, eq_comm, first]
  have lawful : first.Admits o ∧ ((first.absorb o).read tail).unmatched = [] ↔ o.Lawful tail ∧ o.LawfulBelow :=
    Frame.lawful_iff (Frame.admits_iff List.nodup_nil List.nodup_nil)
  have closed : ((first.absorb o).read tail).block (byteCount source.toList) =
      o.root tail (byteCount source.toList) := Frame.block_absorb ..
  rw [parse_eq_ok, pieces, tail_eq, ← lawful]
  constructor
  · rintro ⟨b, text, ran, e, -, close⟩
    cases e
    obtain ⟨admits, rfl⟩ := (run b).1 ran
    obtain ⟨matched, rfl⟩ := Frame.close_eq_ok_iff.1 close
    exact ⟨⟨admits, matched⟩, closed⟩
  · rintro ⟨⟨admits, matched⟩, rfl⟩
    refine ⟨_, tail, (run _).2 ⟨admits, rfl⟩, rfl, rfl, Frame.close_eq_ok_iff.2 ⟨matched, closed.symm⟩⟩

/-- The scan of a source that is read has an outline. -/
theorem exists_outline (h : Template.parse source file = .ok root) :
    ∃ ps tail o, Tag.FlatScan source 0 ps tail ∧ (∀ p ∈ ps, p.tag.Declares) ∧ Outline.Outlines o ps := by
  obtain ⟨b, text, run, tail_eq, outer, -⟩ := parse_eq_ok.1 h
  obtain ⟨declares, open_⟩ := Builder.openAfter_of_run run
  rw [outer] at open_
  obtain ⟨o, outlines⟩ := Outline.balanced_iff.1 open_
  exact ⟨_, text, o, Tag.flatScan_source.2 ⟨rfl, tail_eq⟩, declares, outlines⟩

/-- No block of a template declares a variable twice. -/
theorem wellDeclared_of_parse (h : Template.parse source file = .ok root) : root.WellDeclared := by
  obtain ⟨ps, tail, o, scan, declares, outlines⟩ := exists_outline h
  obtain ⟨⟨lawful, below⟩, rfl⟩ := (parse_outline_iff scan declares outlines).1 h
  intro a part
  rcases Block.mem_preorder.1 part with rfl | ⟨c, hc, part⟩
  · exact lawful.vars
  · exact below.wellDeclared c hc a part

/-- **Reading accepts exactly its grammar.** A source is read exactly when its flat scan comes to an
end without a defect, every tag declares a block or a variable, the brackets are balanced, and their
outline is lawful at every depth; the template is then the one the outline describes. -/
theorem parse_iff_lawful (source : String) (file : Nat) :
    ((∃ root, Template.parse source file = .ok root) ↔
      ∃ ps tail, Tag.FlatScan source 0 ps tail ∧ (∀ p ∈ ps, p.tag.Declares) ∧
        Tag.Balanced (ps.map (·.tag)) ∧
        ∀ o : Outline, o.Outlines ps → o.Lawful tail ∧ o.LawfulBelow) ∧
    ∀ root, Template.parse source file = .ok root →
      ∃ ps tail o, Tag.FlatScan source 0 ps tail ∧ Outline.Outlines o ps ∧
        root = o.root tail (byteCount source.toList) := by
  refine ⟨⟨?_, ?_⟩, ?_⟩
  · rintro ⟨root, parsed⟩
    obtain ⟨ps, tail, o, scan, declares, outlines⟩ := exists_outline parsed
    refine ⟨ps, tail, scan, declares, Outline.balanced_iff.2 ⟨o, outlines⟩, ?_⟩
    intro o' outlines'
    rw [outlines'.unique outlines]
    exact ((parse_outline_iff scan declares outlines).1 parsed).1
  · rintro ⟨ps, tail, scan, declares, balanced, lawful⟩
    obtain ⟨o, outlines⟩ := Outline.balanced_iff.1 balanced
    exact ⟨_, (parse_outline_iff scan declares outlines).2 ⟨lawful o outlines, rfl⟩⟩
  · intro root parsed
    obtain ⟨ps, tail, o, scan, declares, outlines⟩ := exists_outline parsed
    exact ⟨ps, tail, o, scan, outlines, ((parse_outline_iff scan declares outlines).1 parsed).2⟩

/-- A source with a variable of the root and a nested block. -/
theorem parse_iff_lawful_nested :
    ∃ root, Template.parse "<!--rep var=v place=V-->V<!--rep blk=b-->x<!--/rep-->" 0 = .ok root ∧
      root.vars.names = ["v"] ∧ root.childNames = ["b"] ∧
      ∃ ps tail o, Tag.FlatScan "<!--rep var=v place=V-->V<!--rep blk=b-->x<!--/rep-->" 0 ps tail ∧
        Outline.Outlines o ps ∧ root = o.root tail 53 := by
  let root : Block := ⟨none, ⟨[⟨"v", "V", "V", ⟨0, 24⟩⟩]⟩, [[⟨"", none⟩, ⟨"", some 0⟩, ⟨"", none⟩], [⟨"", none⟩]],
    [⟨some "b", ⟨[]⟩, [[⟨"x", none⟩]], [], ⟨25, 53⟩, .out⟩], ⟨0, 53⟩, .out⟩
  have parsed : Template.parse "<!--rep var=v place=V-->V<!--rep blk=b-->x<!--/rep-->" 0 = .ok root := by
    with_unfolding_all rfl
  have size : byteCount "<!--rep var=v place=V-->V<!--rep blk=b-->x<!--/rep-->".toList = 53 := by decide +kernel
  have described := (parse_iff_lawful "<!--rep var=v place=V-->V<!--rep blk=b-->x<!--/rep-->" 0).2 root parsed
  rw [size] at described
  exact ⟨root, parsed, rfl, rfl, described⟩

end Template

end Stencil

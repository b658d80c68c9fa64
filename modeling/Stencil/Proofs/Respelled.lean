import Mathlib.Data.List.Forall2
import Stencil.Proofs.Declares
import Stencil.Proofs.FlatScan
import Stencil.Proofs.Shifted
import Stencil.Proofs.Spanless

/-!
# Other spellings of a template

Of a tag the reader looks at what it does and at three attributes. How the tag is spelled beyond that only
moves the text behind it. Reading without places commutes with the reader (`Builder.step_spanless`), and of two
tags without places that agree the reader makes the same (`Builder.step_congr`); so two spellings of a template
are read as the same tree but for places, or refused for the same fault (`Template.parse_respelled`).
-/

namespace Stencil

open Text

/-! ## Tags that agree -/

namespace Tag

/-- Two tags do the same, with the same values for the attributes that count. -/
structure Agrees (t u : Tag) : Prop where
  closes : t.closes = u.closes
  blk : t.get? "blk" = u.get? "blk"
  var : t.get? "var" = u.get? "var"
  place : t.get? "place" = u.get? "place"

/-- Two tags that agree, behind the same text. -/
structure Piece.Agrees (p q : Piece) : Prop where
  text : p.text = q.text
  tag : p.tag.Agrees q.tag

/-- The tag without its place. -/
def spanless (t : Tag) : Tag := ⟨t.kind, ⟨0, 0⟩⟩

/-- The tag without its place, behind its text. -/
def Piece.spanless (p : Piece) : Piece := ⟨p.text, p.tag.spanless⟩

/-- Two tags that agree both close a block, or declare the same. -/
theorem Agrees.kinds {t u : Tag} (h : t.Agrees u) :
    (t.kind = .closing ∧ u.kind = .closing) ∨
      ∃ a a', t.kind = .opening a ∧ u.kind = .opening a' ∧ a.declaration = a'.declaration := by
  cases kind : t.kind with
  | closing =>
    have closes : u.closes = true := h.closes.symm.trans (closes_iff.2 kind)
    exact .inl ⟨rfl, closes_iff.1 closes⟩
  | opening a =>
    cases kind' : u.kind with
    | closing =>
      have closes : t.closes = true := h.closes.trans (closes_iff.2 kind')
      rw [closes_iff, kind] at closes
      cases closes
    | opening a' =>
      have same {key : String} (agree : t.get? key = u.get? key) : a.get? key = a'.get? key := by
        rwa [get?_opening kind, get?_opening kind'] at agree
      refine .inr ⟨a, a', rfl, rfl, ?_⟩
      unfold Attributes.declaration
      rw [same h.blk, same h.var, same h.place]

end Tag

open Tag (Piece)

/-! ## Reading without places -/

/-- The defect without its place. -/
def Defect.spanless (d : Defect) : Defect := ⟨d.fault, ⟨0, 0⟩⟩

namespace Variables

theorem segments_spanless (vs : Variables) (text : List Char) : vs.spanless.segments text = vs.segments text := by
  apply segmentsAfter_congr
  rw [spanless, List.map_map]
  rfl

theorem declare_spanless (vs : Variables) (name place : String) (span : Span) :
    (vs.declare name place span).spanless = vs.spanless.declare name place ⟨0, 0⟩ := by
  unfold declare spanless
  rw [List.map_append]
  rfl

end Variables

namespace Frame

/-- The frame without places. -/
def spanless (f : Frame) : Frame :=
  ⟨f.name, ⟨0, 0⟩, f.vars.spanless, f.gaps, f.gap, f.children.map Block.spanless⟩

variable (f : Frame)

theorem read_spanless (text : List Char) : f.spanless.read text = (f.read text).spanless := by
  unfold read spanless
  simp only [Variables.decompose, Variables.segments_spanless]

theorem nest_spanless (child : Block) : f.spanless.nest child.spanless = (f.nest child).spanless := by
  unfold nest spanless
  rw [List.map_append]
  rfl

theorem hasChild_spanless (name : String) : f.spanless.hasChild name = f.hasChild name := by
  simp only [hasChild, spanless, List.any_map, Function.comp_def, Block.name_spanless]

theorem declare_spanless (name : String) (place : Option String) (span : Span) :
    f.spanless.declare name place ⟨0, 0⟩ = ((f.declare name place span).map spanless).mapError (·.spanless) := by
  have declares : f.spanless.vars.declares name = f.vars.declares name := f.vars.declares_spanless name
  unfold declare Variables.declare?
  rw [declares]
  split
  · rfl
  · cases place with
    | none => rfl
    | some place =>
      simp only
      split
      · rfl
      · simp only [Except.map, Except.mapError, spanless, Variables.declare_spanless]

theorem unmatched_spanless : f.spanless.unmatched = f.unmatched.map Variable.spanless := by
  have gaps : f.spanless.allGaps = f.allGaps := rfl
  have entries : f.spanless.vars.entries = f.vars.entries.map Variable.spanless := rfl
  have sorted (vs : List Variable) :
      (vs.mergeSort fun a b => decide (a.name ≤ b.name)).map Variable.spanless =
        (vs.map Variable.spanless).mergeSort fun a b => decide (a.name ≤ b.name) :=
    List.map_mergeSort fun _ _ _ _ => rfl
  unfold unmatched Variables.missing
  simp only [gaps, entries, sorted, List.zipIdx_map, List.filter_map, List.map_map]
  rfl

theorem close_spanless (stop : Nat) :
    f.spanless.close 0 = ((f.close stop).map Block.spanless).mapError (·.spanless) := by
  rw [close, close, unmatched_spanless]
  cases f.unmatched with
  | nil =>
    simp only [List.map_nil, Except.map, Except.mapError, Block.spanless_eq]
    rfl
  | cons v vs =>
    simp only [List.map_cons, List.map_map]
    rfl

end Frame

theorem Block.note_spanless (b : Block) : b.spanless.note = b.note := by
  unfold note ownCount Variables.size
  rw [Block.spanless_eq]
  simp only [Variables.spanless, List.length_map]

namespace Builder

/-- What comes of a closing tag that ends at byte `stop`, behind the text that `frame` has read. -/
def shutBy (b : Builder) (frame : Frame) (span : Span) : Except Defect Builder :=
  match b.enclosing with
  | [] => .error ⟨.unmatchedClose, span⟩
  | parent :: others =>
    (frame.close span.stop).map fun block => ⟨parent.nest block, others, b.notes ++ [block.note]⟩

/-- What comes of an opening tag with such a declaration, behind the text that `frame` has read. -/
def openBy (b : Builder) (frame : Frame) (span : Span) : Except Fault Declaration → Except Defect Builder
  | .error fault => .error ⟨fault, span⟩
  | .ok (.block name) =>
    if frame.hasChild name then .error ⟨.duplicateBlock name, span⟩
    else .ok ⟨.opened (some name) span, frame :: b.enclosing, b.notes⟩
  | .ok (.var name place) => (frame.declare name place span).map fun frame => { b with frame := frame }

theorem step_of_closing {p : Piece} (kind : p.tag.kind = .closing) (b : Builder) :
    b.step p = b.shutBy (b.frame.read p.text) p.tag.span := by
  cases enclosing : b.enclosing with
  | nil => simp only [step, kind, shutBy, enclosing]
  | cons => simp only [step, kind, shutBy, enclosing]

theorem step_of_opening {p : Piece} {a : Attributes} (kind : p.tag.kind = .opening a) (b : Builder) :
    b.step p = b.openBy (b.frame.read p.text) p.tag.span a.declaration := by
  simp only [step, kind]
  cases a.declaration with
  | error => rfl
  | ok declaration => cases declaration <;> rfl

/-- Of two tags without places that agree the same is made. -/
theorem step_congr {p q : Piece} (agree : p.Agrees q) (b : Builder) : b.step p.spanless = b.step q.spanless := by
  have text : p.spanless.text = q.spanless.text := agree.text
  have span : p.spanless.tag.span = q.spanless.tag.span := rfl
  rcases agree.tag.kinds with ⟨kind, kind'⟩ | ⟨a, a', kind, kind', same⟩
  · rw [step_of_closing (p := p.spanless) kind, step_of_closing (p := q.spanless) kind', text, span]
  · rw [step_of_opening (p := p.spanless) kind, step_of_opening (p := q.spanless) kind', text, span, same]

/-- The builder without places. -/
def spanless (b : Builder) : Builder := ⟨b.frame.spanless, b.enclosing.map Frame.spanless, b.notes⟩

variable (b : Builder) (f : Frame) (span : Span)

theorem shutBy_spanless :
    b.spanless.shutBy f.spanless ⟨0, 0⟩ = ((b.shutBy f span).map spanless).mapError (·.spanless) := by
  obtain ⟨frame, enclosing, notes⟩ := b
  cases enclosing with
  | nil => rfl
  | cons parent others =>
    simp only [shutBy, spanless, List.map_cons, f.close_spanless span.stop]
    cases f.close span.stop with
    | error => rfl
    | ok block =>
      simp only [Except.map, Except.mapError, Frame.nest_spanless, Block.note_spanless]
      rfl

theorem openBy_spanless (declaration : Except Fault Declaration) :
    b.spanless.openBy f.spanless ⟨0, 0⟩ declaration =
      ((b.openBy f span declaration).map spanless).mapError (·.spanless) := by
  cases declaration with
  | error => rfl
  | ok declaration =>
    cases declaration with
    | block name =>
      simp only [openBy, Frame.hasChild_spanless]
      split <;> rfl
    | var name place =>
      simp only [openBy, f.declare_spanless name place span]
      cases f.declare name place span <;> rfl

/-- Without places a tag is read as it is with them. -/
theorem step_spanless (p : Piece) :
    b.spanless.step p.spanless = ((b.step p).map spanless).mapError (·.spanless) := by
  have read : b.spanless.frame.read p.spanless.text = (b.frame.read p.text).spanless :=
    b.frame.read_spanless p.text
  cases kind : p.tag.kind with
  | closing => rw [step_of_closing (p := p.spanless) kind, step_of_closing kind, read]; exact b.shutBy_spanless _ _
  | opening a =>
    rw [step_of_opening (p := p.spanless) kind, step_of_opening kind, read]
    exact b.openBy_spanless _ _ _

theorem run_spanless (ps : List Piece) :
    b.spanless.run (ps.map Piece.spanless) = ((b.run ps).1.spanless, (b.run ps).2.map (·.spanless)) := by
  induction ps generalizing b with
  | nil => rfl
  | cons p ps ih =>
    have first := b.step_spanless p
    rw [List.map_cons, run, run]
    cases read : b.step p with
    | error d =>
      rw [read] at first
      simp only [first, Except.map, Except.mapError]
      rfl
    | ok after =>
      rw [read] at first
      simp only [first, Except.map, Except.mapError]
      exact ih after

/-- Of tags without places that agree the same is made, and the reading stops at the same. -/
theorem run_congr {ps qs : List Piece} (agree : List.Forall₂ Piece.Agrees ps qs) :
    b.run (ps.map Piece.spanless) = b.run (qs.map Piece.spanless) := by
  induction agree generalizing b with
  | nil => rfl
  | cons first _ ih =>
    rw [List.map_cons, List.map_cons, run, run, step_congr first]
    split
    · exact ih _
    · rfl

theorem finish_spanless (size : Nat) (tail : List Char) :
    b.spanless.finish 0 (.ok tail) = ((b.finish size (.ok tail)).map Block.spanless).mapError (·.spanless) := by
  obtain ⟨frame, enclosing, notes⟩ := b
  cases enclosing with
  | nil =>
    have read : (frame.spanless.read tail).close 0 = (frame.read tail).spanless.close 0 := by
      rw [frame.read_spanless]
    exact read.trans ((frame.read tail).close_spanless size)
  | cons => rfl

end Builder

namespace Template

/-- What is read from tags in front of a tail, without places. -/
def bareReading (ps : List Piece) (tail : List Char) : Except Fault Block :=
  match (Builder.start 0).run (ps.map Piece.spanless) with
  | (_, some d) => .error d.fault
  | (b, none) => (b.finish 0 (.ok tail)).mapError (·.fault)

/-- A source whose tags can all be read is read as its tags are without places. -/
theorem parse_spanless {source : String} {ps : List Piece} {tail : List Char} (scan : Tag.FlatScan source 0 ps tail)
    (file : Nat) :
    ((parse source file).map Block.spanless).mapError (·.fault) = bareReading ps tail := by
  obtain ⟨pieces, rest⟩ := Tag.flatScan_source.1 scan
  have start : (Builder.start (byteCount source.toList)).spanless = Builder.start 0 := rfl
  have bare := (Builder.start (byteCount source.toList)).run_spanless ps
  rw [start] at bare
  rw [bareReading, bare, parse, read]
  simp only [pieces, rest, ← Builder.start_eq]
  cases (Builder.start (byteCount source.toList)).run ps with
  | mk b defect =>
    cases defect with
    | some d => rfl
    | none =>
      simp only [Option.map_none, b.finish_spanless (byteCount source.toList)]
      cases b.finish (byteCount source.toList) (.ok tail) <;> rfl

/-- **The spelling of tags does not matter.** Two sources whose tags can all be read, with the same text in
front of each tag and behind the last one, and with tags that agree one by one on what they do and on the values
of the attributes `blk`, `var` and `place`, are read alike. Either both give a template, and the two are the same
but for places, with the same segments at the same places of the store, and answer every row of requests alike;
or both are refused for the same fault. -/
theorem parse_respelled {source other : String} {ps qs : List Piece} {tail : List Char}
    (scan : Tag.FlatScan source 0 ps tail) (scan' : Tag.FlatScan other 0 qs tail)
    (agree : List.Forall₂ Piece.Agrees ps qs) (file file' : Nat) :
    (∃ a b, parse source file = .ok a ∧ parse other file' = .ok b ∧ a.spanless = b.spanless ∧
      a.placement = b.placement ∧ a.store = b.store ∧
      ∀ (σ : Type) [Sink σ] (requests : List (Page.Request σ)),
        (Page.ofTemplate a).responses requests = (Page.ofTemplate b).responses requests) ∨
    ∃ d e, parse source file = .error d ∧ parse other file' = .error e ∧ d.fault = e.fault := by
  have first := parse_spanless scan file
  have second := parse_spanless scan' file'
  have same : bareReading ps tail = bareReading qs tail := by
    rw [bareReading, bareReading, Builder.run_congr _ agree]
  rw [same, ← second] at first
  -- Both come to the same without places, so where one is read the other is not refused.
  cases read : parse source file with
  | ok a =>
    cases read' : parse other file' with
    | ok b =>
      rw [read, read'] at first
      have spanless : a.spanless = b.spanless := Except.ok.inj first
      have laidOut : a.layOut .empty = b.layOut .empty := by
        rw [← a.layOut_spanless, spanless, b.layOut_spanless]
      exact .inl ⟨a, b, rfl, rfl, spanless, congrArg Prod.fst laidOut, congrArg Prod.snd laidOut,
        fun σ _ requests => Page.responses_congr spanless requests⟩
    | error e =>
      rw [read, read'] at first
      cases first
  | error d =>
    cases read' : parse other file' with
    | ok b =>
      rw [read, read'] at first
      cases first
    | error e =>
      rw [read, read'] at first
      exact .inr ⟨d, e, rfl, rfl, Except.error.inj first⟩

/-- Attributes in another order and other quotes, one that is not known, and text in a closing tag. -/
theorem parse_respelled_quoted :
    ∃ (ps qs : List Piece) (a b : Block),
      Tag.FlatScan "<!--rep blk=b--><!--rep var=x place=X-->X<!--/rep-->" 0 ps [] ∧
      Tag.FlatScan "<!--rep blk='b' n=1--><!--rep  place='X' var=x -->X<!--/rep b-->" 0 qs [] ∧
      List.Forall₂ Piece.Agrees ps qs ∧
      parse "<!--rep blk=b--><!--rep var=x place=X-->X<!--/rep-->" 0 = .ok a ∧
      parse "<!--rep blk='b' n=1--><!--rep  place='X' var=x -->X<!--/rep b-->" 0 = .ok b ∧
      a.spanless = b.spanless ∧ a.span.stop = 52 ∧
      ∀ requests : List (Page.Request Buffer),
        (Page.ofTemplate a).responses requests = (Page.ofTemplate b).responses requests := by
  let ps : List Piece := [⟨[], ⟨.opening ⟨[("blk", "b")]⟩, ⟨0, 16⟩⟩⟩,
    ⟨[], ⟨.opening ⟨[("var", "x"), ("place", "X")]⟩, ⟨16, 40⟩⟩⟩, ⟨['X'], ⟨.closing, ⟨41, 52⟩⟩⟩]
  let qs : List Piece := [⟨[], ⟨.opening ⟨[("blk", "b"), ("n", "1")]⟩, ⟨0, 22⟩⟩⟩,
    ⟨[], ⟨.opening ⟨[("place", "X"), ("var", "x")]⟩, ⟨22, 50⟩⟩⟩, ⟨['X'], ⟨.closing, ⟨51, 64⟩⟩⟩]
  let root : Block := ⟨none, ⟨[]⟩, [[⟨"", none⟩], [⟨"", none⟩]],
    [⟨some "b", ⟨[⟨"x", "X", "X", ⟨16, 40⟩⟩]⟩, [[⟨"", none⟩, ⟨"", some 0⟩, ⟨"", none⟩]], [], ⟨0, 52⟩, .out⟩],
    ⟨0, 52⟩, .out⟩
  have scan : Tag.FlatScan "<!--rep blk=b--><!--rep var=x place=X-->X<!--/rep-->" 0 ps [] :=
    Tag.flatScan_source.2 ⟨by with_unfolding_all rfl, by with_unfolding_all rfl⟩
  have scan' : Tag.FlatScan "<!--rep blk='b' n=1--><!--rep  place='X' var=x -->X<!--/rep b-->" 0 qs [] :=
    Tag.flatScan_source.2 ⟨by with_unfolding_all rfl, by with_unfolding_all rfl⟩
  have parsed : parse "<!--rep blk=b--><!--rep var=x place=X-->X<!--/rep-->" 0 = .ok root := by
    with_unfolding_all rfl
  have agree : List.Forall₂ Piece.Agrees ps qs :=
    .cons ⟨rfl, rfl, rfl, rfl, rfl⟩ (.cons ⟨rfl, rfl, rfl, rfl, rfl⟩ (.cons ⟨rfl, rfl, rfl, rfl, rfl⟩ .nil))
  rcases parse_respelled scan scan' agree 0 0 with ⟨a, b, read, read', same, -, -, responses⟩ | ⟨d, _, fails, -⟩
  · have whole : a = root := Except.ok.inj (read.symm.trans parsed)
    exact ⟨ps, qs, a, b, scan, scan', agree, read, read', same, by rw [whole],
      fun requests => responses Buffer requests⟩
  · rw [parsed] at fails
    cases fails

end Template

end Stencil

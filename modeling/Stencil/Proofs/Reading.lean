import Stencil.Proofs.Tree
import Stencil.Template

/-!
# What reading gives

`Reads` says once what reading a tag does when it succeeds, and `Builder.run_induct` carries a
property of the builder along the tags of a source. The first use is what every template that was
read has in common (`Template.Fresh`): no block has been reached, every variable has its
placeholder for a value, the root alone has no name, and siblings differ in theirs.
-/

namespace Stencil

open Text

/-! ## One tag -/

namespace Frame

/-- The block a frame ends as at byte `stop`. -/
def block (f : Frame) (stop : Nat) : Block :=
  ⟨f.name, f.vars, f.allGaps, f.children, ⟨f.opening.start, stop⟩, .out⟩

theorem close_eq_ok_iff {f : Frame} {stop : Nat} {b : Block} :
    f.close stop = .ok b ↔ f.unmatched = [] ∧ b = f.block stop := by
  rw [close]
  cases f.unmatched with
  | nil => simp [block, eq_comm]
  | cons v vs => simp

theorem declare_eq_ok_iff {f g : Frame} {name : String} {place : Option String} {span : Span} :
    f.declare name place span = .ok g ↔
      f.vars.declares name = false ∧ ∃ text, place = some text ∧ text ≠ "" ∧
        g = { f with vars := f.vars.declare name text span } := by
  unfold declare Variables.declare?
  split
  · next twice => simp [twice, Except.map]
  · next once =>
    cases place with
    | none => simp [Except.map]
    | some text =>
      by_cases e : text = ""
      · simp [e, Except.map]
      · simp [e, once, eq_comm, Except.map]

end Frame

/-- What reading a tag makes of a builder. -/
inductive Reads (b : Builder) (p : Tag.Piece) : Builder → Prop where
  | close {parent : Frame} {others : List Frame} {block : Block} (tag : p.tag.kind = .closing)
      (open_ : b.enclosing = parent :: others)
      (closed : (b.frame.read p.text).close p.tag.span.stop = .ok block) :
      Reads b p ⟨parent.nest block, others, b.notes ++ [block.note]⟩
  | enter {attributes : Attributes} {name : String} (tag : p.tag.kind = .opening attributes)
      (declared : attributes.declaration = .ok (.block name))
      (new : (b.frame.read p.text).hasChild name = false) :
      Reads b p ⟨.opened (some name) p.tag.span, b.frame.read p.text :: b.enclosing, b.notes⟩
  | declare {attributes : Attributes} {name : String} {place : Option String} {frame : Frame}
      (tag : p.tag.kind = .opening attributes) (declared : attributes.declaration = .ok (.var name place))
      (added : (b.frame.read p.text).declare name place p.tag.span = .ok frame) :
      Reads b p { b with frame := frame }

namespace Builder

theorem step_eq_ok_iff {b after : Builder} {p : Tag.Piece} : b.step p = .ok after ↔ Reads b p after := by
  constructor
  · intro h
    simp only [step] at h
    split at h
    · next tag =>
      split at h
      · cases h
      · next parent others open_ =>
        cases hc : (b.frame.read p.text).close p.tag.span.stop with
        | error d => rw [hc] at h; cases h
        | ok block =>
          rw [hc] at h
          cases h
          exact .close tag open_ hc
    · next attributes tag =>
      split at h
      · cases h
      · next name declared =>
        split at h
        · cases h
        · next new =>
          cases h
          exact .enter tag declared (by simpa using new)
      · next name place declared =>
        cases hd : (b.frame.read p.text).declare name place p.tag.span with
        | error d => rw [hd] at h; cases h
        | ok frame =>
          rw [hd] at h
          cases h
          exact .declare tag declared hd
  · intro h
    cases h with
    | close tag open_ closed => simp [step, tag, open_, closed, Except.map]
    | enter tag declared new => simp [step, tag, declared, new]
    | declare tag declared added => simp [step, tag, declared, added, Except.map]

/-! ## A run of tags -/

theorem run_cons_iff {b after : Builder} {p : Tag.Piece} {ps : List Tag.Piece} :
    b.run (p :: ps) = (after, none) ↔ ∃ mid, Reads b p mid ∧ mid.run ps = (after, none) := by
  rw [run]
  constructor
  · intro h
    split at h
    · next mid hs => exact ⟨mid, step_eq_ok_iff.1 hs, h⟩
    · cases h
  · rintro ⟨mid, reads, rest⟩
    rw [step_eq_ok_iff.2 reads]
    exact rest

/-- What holds at the beginning and is kept by each tag holds behind all tags. The property may
look at the pieces read so far. -/
theorem run_induct (Inv : List Tag.Piece → Builder → Prop)
    (keep : ∀ done p b after, Inv done b → Reads b p after → Inv (done ++ [p]) after)
    {ps : List Tag.Piece} {b after : Builder} (h : b.run ps = (after, none)) (begin_ : Inv [] b) :
    Inv ps after := by
  have run : ∀ (ps done : List Tag.Piece) (b : Builder), b.run ps = (after, none) → Inv done b →
      Inv (done ++ ps) after := by
    intro ps
    induction ps with
    | nil =>
      intro done b h inv
      cases h
      simpa using inv
    | cons p ps ih =>
      intro done b h inv
      obtain ⟨mid, reads, rest⟩ := run_cons_iff.1 h
      simpa using ih (done ++ [p]) mid rest (keep done p b mid inv reads)
  exact run ps [] b h begin_

/-- The builder in front of the first tag of a source of `size` bytes. -/
def start (size : Nat) : Builder := ⟨.opened none ⟨0, size⟩, [], []⟩

theorem start_eq (size : Nat) : start size = ⟨.opened none ⟨0, size⟩, [], []⟩ := rfl

theorem finish_eq_ok_iff {b : Builder} {size : Nat} {tail : Except Defect (List Char)} {root : Block} :
    b.finish size tail = .ok root ↔
      b.enclosing = [] ∧ ∃ text, tail = .ok text ∧ (b.frame.read text).close size = .ok root := by
  cases tail with
  | error d => simp [finish, bind, Except.bind]
  | ok text => cases hb : b.enclosing <;> simp [finish, bind, Except.bind, hb]

end Builder

/-- A template is read exactly when every tag is read, nothing is left open, and the root closes
behind the text after the last tag. -/
theorem Template.parse_eq_ok {source : String} {file : Nat} {root : Block} :
    Template.parse source file = .ok root ↔
      ∃ b text, (Builder.start (byteCount source.toList)).run (Tag.scan 0 source.toList).pieces = (b, none) ∧
        (Tag.scan 0 source.toList).tail = .ok text ∧ b.enclosing = [] ∧
        (b.frame.read text).close (byteCount source.toList) = .ok root := by
  simp only [parse, read, ← Builder.start_eq]
  rcases (Builder.start (byteCount source.toList)).run (Tag.scan 0 source.toList).pieces with ⟨b, _ | d⟩
  · simp only [Prod.mk.injEq, and_true]
    cases hf : b.finish (byteCount source.toList) (Tag.scan 0 source.toList).tail with
    | error d =>
      simp only [reduceCtorEq, false_iff]
      rintro ⟨_, text, rfl, tail, outer, close⟩
      rw [Builder.finish_eq_ok_iff.2 ⟨outer, text, tail, close⟩] at hf
      cases hf
    | ok r =>
      obtain ⟨outer, text, tail, close⟩ := Builder.finish_eq_ok_iff.1 hf
      constructor
      · intro e
        cases e
        exact ⟨b, text, rfl, tail, outer, close⟩
      · rintro ⟨_, text', rfl, tail', outer', close'⟩
        rw [Builder.finish_eq_ok_iff.2 ⟨outer', text', tail', close'⟩] at hf
        cases hf
        rfl
  · simp

/-! ## Templates that were read -/

/-- What is known of a block while it is being read. -/
structure Frame.Fair (f : Frame) : Prop where
  vars : f.vars.pristine = f.vars
  children : ∀ c ∈ f.children, c.pristine = c ∧ c.WellNamed ∧ c.isRoot = false
  distinct : (f.children.map (·.name)).Nodup

namespace Frame

theorem opened_fair (name : Option String) (span : Span) : (opened name span).Fair :=
  ⟨rfl, by simp [opened], by simp [opened]⟩

theorem Fair.read {f : Frame} (h : f.Fair) (text : List Char) : (f.read text).Fair :=
  ⟨h.vars, h.children, h.distinct⟩

theorem Fair.declare {f : Frame} (h : f.Fair) (name text : String) (span : Span) :
    Fair { f with vars := f.vars.declare name text span } := by
  exact ⟨by rw [Variables.pristine_declare, h.vars], h.children, h.distinct⟩

theorem Fair.block {f : Frame} (h : f.Fair) (stop : Nat) :
    (f.block stop).pristine = f.block stop ∧ (f.block stop).WellNamed := by
  constructor
  · have children : f.children.map Block.pristine = f.children := by
      rw [List.map_congr_left fun c hc => (h.children c hc).1, List.map_id']
    rw [Block.pristine_eq]
    simp only [Frame.block, h.vars, children]
  · intro a ha
    rcases Block.mem_preorder.1 ha with rfl | ⟨c, hc, part⟩
    · exact ⟨h.distinct, fun c hc => (h.children c hc).2.2⟩
    · exact (h.children c hc).2.1 a part

theorem hasChild_eq_false_iff {f : Frame} {name : String} :
    f.hasChild name = false ↔ some name ∉ f.children.map (·.name) := by
  simp only [hasChild, List.any_eq_false, beq_iff_eq, List.mem_map, not_exists, not_and]

theorem Fair.nest {f : Frame} {c : Block} {name : String} (h : f.Fair) (fresh : c.pristine = c)
    (named : c.WellNamed) (name_eq : c.name = some name) (new : f.hasChild name = false) :
    (f.nest c).Fair := by
  refine ⟨h.vars, fun d hd => ?_, ?_⟩
  · rcases List.mem_append.1 hd with old | last
    · exact h.children d old
    · cases List.mem_singleton.1 last
      exact ⟨fresh, named, by simp [Block.isRoot, name_eq]⟩
  · simp only [Frame.nest, List.map_append, List.map_cons, List.map_nil, name_eq]
    refine List.nodup_append.2 ⟨h.distinct, by simp, ?_⟩
    intro a ha b hb e
    cases List.mem_singleton.1 hb
    exact hasChild_eq_false_iff.1 new (e ▸ ha)

end Frame

namespace Builder

/-- Each open block has a name that is new to the one around it; the outermost has none. -/
def Stacked : Frame → List Frame → Prop
  | f, [] => f.name = none
  | f, g :: gs => (∃ name, f.name = some name ∧ g.hasChild name = false) ∧ Stacked g gs

/-- What is known of a builder at each tag. -/
structure Fair (b : Builder) : Prop where
  frames : ∀ f ∈ b.frame :: b.enclosing, f.Fair
  stacked : Stacked b.frame b.enclosing

theorem start_fair (size : Nat) : (start size).Fair :=
  ⟨fun _ hf => List.mem_singleton.1 hf ▸ Frame.opened_fair .., rfl⟩

/-- What counts for the stack is the innermost block's name. -/
theorem Stacked.congr {f g : Frame} {gs : List Frame} (h : Stacked f gs) (name : g.name = f.name) :
    Stacked g gs := by
  cases gs with
  | nil => exact name.trans h
  | cons a gs =>
    obtain ⟨⟨n, hn, new⟩, rest⟩ := h
    exact ⟨⟨n, name.trans hn, new⟩, rest⟩

theorem Fair.reads {b after : Builder} {p : Tag.Piece} (h : b.Fair) (reads : Reads b p after) :
    after.Fair := by
  have inner := h.frames b.frame List.mem_cons_self
  have outer : ∀ f ∈ b.enclosing, f.Fair := fun f hf => h.frames f (List.mem_cons_of_mem _ hf)
  have stacked := h.stacked
  cases reads with
  | @close parent others block tag open_ closed =>
    obtain ⟨-, rfl⟩ := Frame.close_eq_ok_iff.1 closed
    rw [open_] at outer stacked
    obtain ⟨⟨name, name_eq, new⟩, rest⟩ := stacked
    obtain ⟨fresh, named⟩ := (inner.read p.text).block p.tag.span.stop
    refine ⟨fun f hf => ?_, rest.congr rfl⟩
    rcases List.mem_cons.1 hf with rfl | hf
    · exact (outer parent List.mem_cons_self).nest fresh named name_eq new
    · exact outer f (List.mem_cons_of_mem _ hf)
  | enter tag declared new =>
    refine ⟨fun f hf => ?_, ⟨_, rfl, new⟩, stacked.congr rfl⟩
    rcases List.mem_cons.1 hf with rfl | hf
    · exact Frame.opened_fair ..
    · rcases List.mem_cons.1 hf with rfl | hf
      · exact inner.read _
      · exact outer f hf
  | declare tag declared added =>
    obtain ⟨-, text, -, -, rfl⟩ := Frame.declare_eq_ok_iff.1 added
    refine ⟨fun f hf => ?_, stacked.congr rfl⟩
    rcases List.mem_cons.1 hf with rfl | hf
    · exact (inner.read _).declare ..
    · exact outer f hf

end Builder

/-- What every template that was read has in common. -/
structure Template.Fresh (root : Block) : Prop where
  unnamed : root.name = none
  pristine : root.pristine = root
  named : root.WellNamed

theorem Template.fresh_of_parse {source : String} {file : Nat} {root : Block}
    (h : Template.parse source file = .ok root) : Template.Fresh root := by
  obtain ⟨b, text, run, -, outer, close⟩ := parse_eq_ok.1 h
  obtain ⟨-, rfl⟩ := Frame.close_eq_ok_iff.1 close
  have fair : b.Fair := Builder.run_induct (fun _ b => b.Fair)
    (fun _ _ _ _ h reads => h.reads reads) run (Builder.start_fair _)
  have stacked := fair.stacked
  rw [outer] at stacked
  obtain ⟨pristine, named⟩ := ((fair.frames b.frame List.mem_cons_self).read text).block
    (byteCount source.toList)
  exact ⟨stacked, pristine, named⟩

end Stencil

import Stencil.Proofs.Sliced.Segments
import Stencil.Proofs.Sliced.Tags

/-!
# The tags of a block by byte positions

A source read block by block: the loop over the tags of a block moves a byte position, slices the text in front of
each tag, and calls itself for a nested block, from whose end it goes on (`block?`). One turn of the loop is never
stuck, leaves the position at a boundary further behind, and does to the block what the tag does to a builder that is
reading it (`exists_turn`).
-/

namespace Stencil

open Text

/-- No variable has an empty placeholder. -/
def Frame.Proper (f : Frame) : Prop := ∀ v ∈ f.vars.entries, v.placeholder ≠ ""

namespace Sliced

/-! ## The recursion -/

/-- What one turn of the loop over the tags of a block comes to: the end of the block with its result, the same block
behind the tag, or a nested block that has been opened in it. `φ` is what is kept of a block that is being read. -/
inductive Turn (φ ρ : Type) where
  | ended (result : Except Defect ρ)
  | on (frame : φ) (pos : Nat)
  | enter (frame : φ) (name : String) (opening : Span) (pos : Nat)

/-- Adds the text between two bytes to a block. -/
def read? (cs : List Char) (f : Frame) (start stop : Nat) : Option Frame := do
  let text ← slice? cs start stop
  let (gap, _) ← decompose? f.vars text f.gap
  some { f with gap := gap }

/-- What a tag makes of the block it stands in. -/
def meet (f : Frame) (t : Tag) : Turn Frame (Block × Nat) :=
  match t.kind with
  | .closing =>
    match f.name with
    | none => .ended (.error ⟨.unmatchedClose, t.span⟩)
    | some _ => .ended ((f.close t.span.stop).map fun block => (block, t.span.stop))
  | .opening attributes =>
    match attributes.declaration with
    | .error fault => .ended (.error ⟨fault, t.span⟩)
    | .ok (.block name) =>
      if f.hasChild name then .ended (.error ⟨.duplicateBlock name, t.span⟩)
      else .enter f name t.span t.span.stop
    | .ok (.var name place) =>
      match f.declare name place t.span with
      | .error d => .ended (.error d)
      | .ok f => .on f t.span.stop

/-- One turn of the loop over the tags of a block, from byte `pos` on. -/
def turn? (cs : List Char) (f : Frame) (pos : Nat) : Option (Turn Frame (Block × Nat)) := do
  match ← tag? cs pos with
  | .error d => some (.ended (.error d))
  | .ok none =>
    match f.name with
    | some name => some (.ended (.error ⟨.unclosedBlock name, f.opening⟩))
    | none => do
      let f ← read? cs f pos (byteCount cs)
      some (.ended ((f.close (byteCount cs)).map fun block => (block, byteCount cs)))
  | .ok (some t) => do
    let f ← read? cs f pos t.span.start
    some (meet f t)

section

variable (cs : List Char)

/-- The rest of a block from byte `pos` on: the block, and the byte behind its end. The loop over the tags goes on by
the same call that reads a nested block. -/
def block? (f : Frame) (pos : Nat) : Option (Except Defect (Block × Nat)) := do
  let call : Frame → Nat → Option (Except Defect (Block × Nat)) := by apply block?
  match ← turn? cs f pos with
  | .ended result => some result
  | .on f pos => call f pos
  | .enter f name opening pos =>
    match ← call (.opened (some name) opening) pos with
    | .error d => some (.error d)
    | .ok (child, pos) => call (f.nest child) pos
partial_fixpoint

end

/-- The root block of a template. -/
def template? (source : String) (file : Nat) : Option (Except ParseError Block) := do
  let result ← block? source.toList (.opened none ⟨0, byteCount source.toList⟩) 0
  some ((result.map (·.1)).mapError (·.inFile file))

/-- While a source is read, the loop over the tags of some block stands at byte `pos` with a frame. A block that is
called stands there first with the frame it is opened with. -/
inductive Reached (cs : List Char) : Frame → Nat → Prop where
  | root : Reached cs (.opened none ⟨0, byteCount cs⟩) 0
  | on {f g : Frame} {pos next : Nat} (outer : Reached cs f pos) (turn : turn? cs f pos = some (.on g next)) :
      Reached cs g next
  | enter {f g : Frame} {pos next : Nat} {name : String} {opening : Span} (outer : Reached cs f pos)
      (turn : turn? cs f pos = some (.enter g name opening next)) : Reached cs (.opened (some name) opening) next
  | leave {f g : Frame} {pos next after : Nat} {name : String} {opening : Span} {child : Block}
      (outer : Reached cs f pos) (turn : turn? cs f pos = some (.enter g name opening next))
      (inner : block? cs (.opened (some name) opening) next = some (.ok (child, after))) :
      Reached cs (g.nest child) after

end Sliced

/-! ## Frames with proper placeholders -/

namespace Frame.Proper

variable {f g : Frame}

theorem opened (name : Option String) (opening : Span) : (Frame.opened name opening).Proper := nofun

theorem read (h : f.Proper) (text : List Char) : (f.read text).Proper := h

theorem nest (h : f.Proper) (child : Block) : (f.nest child).Proper := h

/-- A variable is declared with a placeholder only. -/
theorem declare (h : f.Proper) {name : String} {place : Option String} {span : Span}
    (declared : f.declare name place span = .ok g) : g.Proper := by
  obtain ⟨-, text, -, some_, rfl⟩ := declare_eq_ok_iff.1 declared
  intro v mem
  rcases List.mem_append.1 mem with earlier | last
  · exact h v earlier
  · rw [List.mem_singleton.1 last]
    exact some_

end Frame.Proper

/-! ## One turn -/

/-- What a builder makes of the rest of a source. -/
def Builder.readOn (size : Nat) (b : Builder) (s : Tag.Scan) : Except Defect Block :=
  match b.run s.pieces with
  | (_, some d) => .error d
  | (after, none) => after.finish size s.tail

namespace Builder

variable {size pos : Nat} {b : Builder} {cs : List Char}

theorem readOn_of_error {d : Defect} (h : Tag.find pos cs = .error d) : b.readOn size (Tag.scan pos cs) = .error d := by
  rw [Tag.scan_of_error h]
  rfl

theorem readOn_of_none (h : Tag.find pos cs = .ok none) :
    b.readOn size (Tag.scan pos cs) = b.finish size (.ok cs) := by
  rw [Tag.scan_of_none h]
  rfl

theorem readOn_of_found {f : Tag.Found} (h : Tag.find pos cs = .ok (some f)) :
    b.readOn size (Tag.scan pos cs) = match b.step ⟨f.front, f.tag⟩ with
      | .error d => .error d
      | .ok b => b.readOn size (Tag.scan f.tag.span.stop f.rest) := by
  rw [Tag.scan_of_some h]
  unfold readOn
  rw [run]
  cases b.step ⟨f.front, f.tag⟩ <;> rfl

end Builder

theorem Template.parse_eq_readOn (source : String) (file : Nat) :
    Template.parse source file =
      ((Builder.start (byteCount source.toList)).readOn (byteCount source.toList)
        (Tag.scan 0 source.toList)).mapError (·.inFile file) := by
  simp only [parse, read, ← Builder.start_eq, Builder.readOn]
  rcases (Builder.start (byteCount source.toList)).run (Tag.scan 0 source.toList).pieces with ⟨b, _ | d⟩
  · dsimp only
    cases b.finish (byteCount source.toList) (Tag.scan 0 source.toList).tail <;> rfl
  · rfl

namespace Sliced

/-- What a block that has been read comes to for the blocks around it. -/
def goOn (cs : List Char) (enclosing : List Frame) (notes : List Note) :
    Except Defect (Block × Nat) → Except Defect Block
  | .error d => .error d
  | .ok (block, next) =>
    match enclosing with
    | [] => .ok block
    | parent :: others =>
      (Builder.mk (parent.nest block) others notes).readOn (byteCount cs) (Tag.scan next (dropBytes next cs))

/-- A block that begins or goes on at byte `pos` ends at a boundary behind it; if a tag closes it, further behind. -/
def EndsBehind (cs : List Char) (f : Frame) (pos : Nat) (result : Except Defect (Block × Nat)) : Prop :=
  ∀ block next, result = .ok (block, next) →
    pos ≤ next ∧ next ≤ byteCount cs ∧ isBoundary cs next = true ∧ (f.name ≠ none → pos < next)

/-- A tag that is found has at least ten bytes. -/
theorem exists_of_find {before after : List Char} {g : Tag.Found}
    (h : Tag.find (byteCount before) after = .ok (some g)) :
    ∃ comment, after = g.front ++ comment ++ g.rest ∧ 10 ≤ byteCount comment ∧
      g.tag.span = ⟨byteCount (before ++ g.front), byteCount (before ++ (g.front ++ comment))⟩ := by
  obtain ⟨o, inside, first, -, -, span⟩ := Tag.find_eq_ok_some h
  obtain ⟨text, -⟩ := Tag.firstOpener?_eq_some first
  have opener : 7 ≤ byteCount o.text := by cases o <;> decide
  have three : byteCount Tag.closer = 3 := by decide
  refine ⟨o.text ++ inside ++ Tag.closer, ?_, ?_, ?_⟩
  · rw [text]
    simp only [List.append_assoc]
  · rw [byteCount_append, byteCount_append, three]
    omega
  · rw [span]
    simp only [byteCount_append, Nat.add_assoc]

theorem read?_eq {f : Frame} (proper : f.Proper) (before text after : List Char) :
    read? (before ++ text ++ after) f (byteCount before) (byteCount (before ++ text)) = some (f.read text) := by
  rw [read?, byteCount_append, slice?_append, Option.bind_eq_bind, Option.bind_some, decompose?_eq proper]
  rfl

section

variable {cs before after : List Char} {f : Frame} (whole : cs = before ++ after) (proper : f.Proper)

include whole

theorem tag?_eq_find :
    tag? cs (byteCount before) = some ((Tag.find (byteCount before) after).map (Option.map Tag.Found.tag)) := by
  rw [whole]
  exact tag?_eq before after

theorem turn?_of_error {d : Defect} (h : Tag.find (byteCount before) after = .error d) :
    turn? cs f (byteCount before) = some (.ended (.error d)) := by
  rw [turn?, tag?_eq_find whole, h]
  rfl

include proper

theorem turn?_of_none (h : Tag.find (byteCount before) after = .ok none) :
    turn? cs f (byteCount before) = some (.ended (match f.name with
      | some name => .error ⟨.unclosedBlock name, f.opening⟩
      | none => ((f.read after).close (byteCount cs)).map fun block => (block, byteCount cs))) := by
  rw [turn?, tag?_eq_find whole, h]
  cases name : f.name with
  | some name => simp [Except.map]
  | none =>
    have read := read?_eq proper before after []
    rw [List.append_nil, ← whole] at read
    simp [Except.map, read]

theorem turn?_of_found {g : Tag.Found} (h : Tag.find (byteCount before) after = .ok (some g)) :
    turn? cs f (byteCount before) = some (meet (f.read g.front) g.tag) := by
  obtain ⟨comment, text, -, span⟩ := exists_of_find h
  have read : read? cs f (byteCount before) g.tag.span.start = some (f.read g.front) := by
    rw [whole, text, span, List.append_assoc, ← List.append_assoc]
    exact read?_eq proper before g.front _
  rw [turn?, tag?_eq_find whole, h]
  simp [Except.map, read]

end

/-- What a tag makes of a block, and of a builder that is reading it. -/
inductive Meets (f : Frame) (p : Tag.Piece) : Turn Frame (Block × Nat) → Prop where
  | on {g : Frame} (same : g.name = f.name) (proper : f.Proper → g.Proper)
      (step : ∀ enclosing notes, Builder.step ⟨f, enclosing, notes⟩ p = .ok ⟨g, enclosing, notes⟩) :
      Meets f p (.on g p.tag.span.stop)
  | enter {name : String}
      (step : ∀ enclosing notes, Builder.step ⟨f, enclosing, notes⟩ p =
        .ok ⟨.opened (some name) p.tag.span, f.read p.text :: enclosing, notes⟩) :
      Meets f p (.enter (f.read p.text) name p.tag.span p.tag.span.stop)
  | refused {d : Defect}
      (step : ∀ enclosing notes, (enclosing = [] ↔ f.name = none) →
        Builder.step ⟨f, enclosing, notes⟩ p = .error d) :
      Meets f p (.ended (.error d))
  | closed {block : Block}
      (step : ∀ parent others notes, Builder.step ⟨f, parent :: others, notes⟩ p =
        .ok ⟨parent.nest block, others, notes ++ [block.note]⟩) (nested : f.name ≠ none) :
      Meets f p (.ended (.ok (block, p.tag.span.stop)))

theorem meets_meet (f : Frame) (p : Tag.Piece) : Meets f p (meet (f.read p.text) p.tag) := by
  have name : (f.read p.text).name = f.name := rfl
  unfold meet
  split
  · next closes =>
    split
    · next outer =>
      refine .refused fun enclosing notes nested => ?_
      rw [nested.2 (name ▸ outer)]
      simp [Builder.step, closes]
    · next blockName inner =>
      have nested : f.name ≠ none := by
        rw [← name, inner]
        exact Option.some_ne_none _
      cases close : (f.read p.text).close p.tag.span.stop with
      | error d =>
        refine .refused fun enclosing notes around => ?_
        cases enclosing with
        | nil => exact absurd (around.1 rfl) nested
        | cons parent others => simp [Builder.step, closes, close, Except.map]
      | ok block => exact .closed (fun parent others notes => by simp [Builder.step, closes, close, Except.map]) nested
  · next attributes opens =>
    split
    · next fault declared => exact .refused fun enclosing notes _ => by simp [Builder.step, opens, declared]
    · next blockName declared =>
      split
      · next twice => exact .refused fun enclosing notes _ => by simp [Builder.step, opens, declared, twice]
      · next new => exact .enter fun enclosing notes => by simp [Builder.step, opens, declared, new]
    · next varName place declared =>
      split
      · next d refused =>
        exact .refused fun enclosing notes _ => by simp [Builder.step, opens, declared, refused, Except.map]
      · next g added =>
        refine .on ?_ (fun proper => (proper.read p.text).declare added) fun enclosing notes => ?_
        · obtain ⟨-, text, -, -, rfl⟩ := Frame.declare_eq_ok_iff.1 added
          rfl
        · simp [Builder.step, opens, declared, added, Except.map]

/-- A result is right for a block that goes on at byte `pos` with the text behind it: the block ends where it may, and
for the blocks around it the result is what a builder comes to from there. -/
structure Settles (cs : List Char) (f : Frame) (pos : Nat) (after : List Char)
    (result : Except Defect (Block × Nat)) : Prop where
  ends : EndsBehind cs f pos result
  reads : ∀ enclosing notes, (enclosing = [] ↔ f.name = none) → ∃ notes',
    (Builder.mk f enclosing notes).readOn (byteCount cs) (Tag.scan pos after) = goOn cs enclosing notes' result

/-- What one turn says about the result of a block: it is the result, or the rest of the block settles it, or a nested
block and then the rest do. -/
inductive Turns (cs before after : List Char) (f : Frame) : Turn Frame (Block × Nat) → Prop where
  | ended {result : Except Defect (Block × Nat)} (settles : Settles cs f (byteCount before) after result) :
      Turns cs before after f (.ended result)
  | on {passed later : List Char} {g : Frame} (text : cs = before ++ passed ++ later)
      (less : byteCount later < byteCount after) (proper : g.Proper)
      (settles : ∀ result, Settles cs g (byteCount (before ++ passed)) later result →
        Settles cs f (byteCount before) after result) :
      Turns cs before after f (.on g (byteCount (before ++ passed)))
  | enter {passed later : List Char} {g : Frame} {name : String} {opening : Span}
      (text : cs = before ++ passed ++ later) (less : byteCount later < byteCount after) (proper : g.Proper)
      (fails : ∀ d, Settles cs (.opened (some name) opening) (byteCount (before ++ passed)) later (.error d) →
        Settles cs f (byteCount before) after (.error d))
      (settles : ∀ child stop result,
        Settles cs (.opened (some name) opening) (byteCount (before ++ passed)) later (.ok (child, stop)) →
        Settles cs (g.nest child) stop (dropBytes stop cs) result → Settles cs f (byteCount before) after result) :
      Turns cs before after f (.enter g name opening (byteCount (before ++ passed)))

/-- What ends behind a later byte ends further behind. -/
theorem EndsBehind.later {cs : List Char} {f g : Frame} {pos next : Nat} {result : Except Defect (Block × Nat)}
    (h : EndsBehind cs g next result) (behind : pos < next) : EndsBehind cs f pos result := by
  intro block stop ok
  obtain ⟨le, within, boundary, -⟩ := h block stop ok
  exact ⟨by omega, within, boundary, fun _ => by omega⟩

section

variable {cs before after : List Char} {f : Frame}

theorem settles_of_error {d : Defect} (h : Tag.find (byteCount before) after = .error d) :
    Settles cs f (byteCount before) after (.error d) :=
  ⟨nofun, fun _ notes _ => ⟨notes, Builder.readOn_of_error h⟩⟩

theorem settles_of_none (whole : cs = before ++ after) (h : Tag.find (byteCount before) after = .ok none) :
    Settles cs f (byteCount before) after (match f.name with
      | some name => .error ⟨.unclosedBlock name, f.opening⟩
      | none => ((f.read after).close (byteCount cs)).map fun block => (block, byteCount cs)) := by
  cases name : f.name with
  | some name =>
    refine ⟨nofun, fun enclosing notes nested => ⟨notes, ?_⟩⟩
    rw [Builder.readOn_of_none h]
    cases enclosing with
    | nil =>
      rw [nested.1 rfl] at name
      cases name
    | cons parent others => simp [Builder.finish, bind, Except.bind, goOn, name]
  | none =>
    refine ⟨fun block next ok => ?_, fun enclosing notes nested => ⟨notes, ?_⟩⟩
    · cases close : (f.read after).close (byteCount cs) with
      | error d =>
        rw [close] at ok
        cases ok
      | ok root =>
        rw [close] at ok
        cases ok
        have le : byteCount before ≤ byteCount cs := by
          rw [whole, byteCount_append]
          omega
        exact ⟨le, Nat.le_refl _, isBoundary_end cs, fun inner => absurd name inner⟩
    · rw [Builder.readOn_of_none h, nested.2 name]
      cases close : (f.read after).close (byteCount cs) <;>
        simp [Builder.finish, bind, Except.bind, goOn, close, Except.map]

/-- The first tag of the text behind `before`, with what is passed up to its end. -/
structure Finds (cs before after passed : List Char) (g : Tag.Found) : Prop where
  find : Tag.find (byteCount before) after = .ok (some g)
  text : cs = before ++ passed ++ g.rest
  stop : g.tag.span.stop = byteCount (before ++ passed)
  less : byteCount g.rest < byteCount after
  behind : byteCount before < byteCount (before ++ passed)

theorem exists_finds {g : Tag.Found} (whole : cs = before ++ after)
    (h : Tag.find (byteCount before) after = .ok (some g)) : ∃ passed, Finds cs before after passed g := by
  obtain ⟨comment, text, size, span⟩ := exists_of_find h
  refine ⟨g.front ++ comment, h, ?_, by rw [span], ?_, ?_⟩
  · rw [whole, text]
    simp only [List.append_assoc]
  · rw [text]
    simp only [byteCount_append]
    omega
  · simp only [byteCount_append]
    omega

section

variable {passed : List Char} {g : Tag.Found} (finds : Finds cs before after passed g)

include finds

theorem Finds.readOn (b : Builder) : b.readOn (byteCount cs) (Tag.scan (byteCount before) after) =
    match b.step ⟨g.front, g.tag⟩ with
      | .error d => .error d
      | .ok b => b.readOn (byteCount cs) (Tag.scan (byteCount (before ++ passed)) g.rest) := by
  rw [← finds.stop]
  exact Builder.readOn_of_found finds.find

theorem Finds.boundary : isBoundary cs (byteCount (before ++ passed)) = true := by
  rw [finds.text]
  exact isBoundary_append _ g.rest

theorem settles_of_on {g' : Frame} (same : g'.name = f.name)
    (step : ∀ enclosing notes, Builder.step ⟨f, enclosing, notes⟩ ⟨g.front, g.tag⟩ = .ok ⟨g', enclosing, notes⟩)
    {result : Except Defect (Block × Nat)} (settled : Settles cs g' (byteCount (before ++ passed)) g.rest result) :
    Settles cs f (byteCount before) after result := by
  refine ⟨settled.ends.later finds.behind, fun enclosing notes nested => ?_⟩
  rw [finds.readOn, step]
  exact settled.reads enclosing notes (by rw [same]; exact nested)

theorem settles_of_refused {d : Defect}
    (step : ∀ enclosing notes, (enclosing = [] ↔ f.name = none) →
      Builder.step ⟨f, enclosing, notes⟩ ⟨g.front, g.tag⟩ = .error d) :
    Settles cs f (byteCount before) after (.error d) := by
  refine ⟨nofun, fun enclosing notes nested => ⟨notes, ?_⟩⟩
  rw [finds.readOn, step enclosing notes nested]
  rfl

theorem settles_of_closed {block : Block} (nested : f.name ≠ none)
    (step : ∀ parent others notes, Builder.step ⟨f, parent :: others, notes⟩ ⟨g.front, g.tag⟩ =
      .ok ⟨parent.nest block, others, notes ++ [block.note]⟩) :
    Settles cs f (byteCount before) after (.ok (block, byteCount (before ++ passed))) := by
  refine ⟨fun block' next ok => ?_, fun enclosing notes around => ?_⟩
  · cases ok
    exact ⟨Nat.le_of_lt finds.behind, le_of_isBoundary finds.boundary, finds.boundary, fun _ => finds.behind⟩
  · cases enclosing with
    | nil => exact absurd (around.1 rfl) nested
    | cons parent others =>
      have rest : dropBytes (byteCount (before ++ passed)) cs = g.rest := by rw [finds.text, dropBytes_append]
      refine ⟨notes ++ [block.note], ?_⟩
      rw [finds.readOn, step, goOn, rest]

section

variable {name : String}
  (step : ∀ enclosing notes, Builder.step ⟨f, enclosing, notes⟩ ⟨g.front, g.tag⟩ =
    .ok ⟨.opened (some name) g.tag.span, f.read g.front :: enclosing, notes⟩)

include step

/-- Where a tag opens a nested block, the builder reads that block first. -/
theorem reads_of_enter {result : Except Defect (Block × Nat)}
    (settled : Settles cs (.opened (some name) g.tag.span) (byteCount (before ++ passed)) g.rest result)
    (enclosing : List Frame) (notes : List Note) : ∃ notes',
      (Builder.mk f enclosing notes).readOn (byteCount cs) (Tag.scan (byteCount before) after) =
        goOn cs (f.read g.front :: enclosing) notes' result := by
  rw [finds.readOn, step]
  exact settled.reads _ notes (iff_of_false (List.cons_ne_nil _ _) (Option.some_ne_none _))

theorem settles_of_enter_error {d : Defect}
    (settled : Settles cs (.opened (some name) g.tag.span) (byteCount (before ++ passed)) g.rest (.error d)) :
    Settles cs f (byteCount before) after (.error d) :=
  ⟨nofun, fun enclosing notes _ => reads_of_enter finds step settled enclosing notes⟩

theorem settles_of_enter {child : Block} {stop : Nat} {result : Except Defect (Block × Nat)}
    (settled : Settles cs (.opened (some name) g.tag.span) (byteCount (before ++ passed)) g.rest (.ok (child, stop)))
    (later : Settles cs ((f.read g.front).nest child) stop (dropBytes stop cs) result) :
    Settles cs f (byteCount before) after result := by
  obtain ⟨le, -⟩ := settled.ends child stop rfl
  refine ⟨later.ends.later (Nat.lt_of_lt_of_le finds.behind le), fun enclosing notes nested => ?_⟩
  obtain ⟨notes', read⟩ := reads_of_enter finds step settled enclosing notes
  rw [read]
  exact later.reads enclosing notes' nested

end

theorem turns_of_found (proper : f.Proper) : Turns cs before after f (meet (f.read g.front) g.tag) := by
  have meets := meets_meet f ⟨g.front, g.tag⟩
  dsimp only at meets
  generalize meet (f.read g.front) g.tag = turn at meets
  cases meets with
  | on same proper' step =>
    dsimp only
    rw [finds.stop]
    exact .on finds.text finds.less (proper' proper) fun _ => settles_of_on finds same step
  | enter step =>
    dsimp only
    rw [finds.stop]
    exact .enter finds.text finds.less (proper.read g.front) (fun _ => settles_of_enter_error finds step)
      fun _ _ _ => settles_of_enter finds step
  | refused step => exact .ended (settles_of_refused finds step)
  | closed step nested =>
    dsimp only
    rw [finds.stop]
    exact .ended (settles_of_closed finds nested step)

end

variable (whole : cs = before ++ after)

include whole

/-- A turn is never stuck, and says what the result of the block is. -/
theorem exists_turn (proper : f.Proper) :
    ∃ turn, turn? cs f (byteCount before) = some turn ∧ Turns cs before after f turn := by
  cases h : Tag.find (byteCount before) after with
  | error d => exact ⟨_, turn?_of_error whole h, .ended (settles_of_error h)⟩
  | ok found =>
    cases found with
    | none => exact ⟨_, turn?_of_none whole proper h, .ended (settles_of_none whole h)⟩
    | some g =>
      obtain ⟨passed, finds⟩ := exists_finds whole h
      exact ⟨_, turn?_of_found whole proper h, turns_of_found finds proper⟩

end

end Sliced

end Stencil

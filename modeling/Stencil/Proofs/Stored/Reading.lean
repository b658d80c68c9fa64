import Stencil.Proofs.Placed
import Stencil.Proofs.Sliced.Blocks

/-!
# Templates in one store

A source read into one store of segments, as `Sliced.block?` reads it into a tree of gaps. The segments of a block are
gathered in one row, with the end of each gap counted in it; where the block ends they go to the end of the store, and
the block keeps the range they take. So nested blocks come in front of the block that holds them. `Stencil.Block.put`
says which block of this kind stands for a block of the tree with its place in the store, and reading comes to the one
that stands for what `Template.parse` gives (`template?_eq`).
-/

namespace Stencil

open Text

namespace Stored

/-! ## Blocks and their reading -/

/-- A block whose segments are a range of a store. The end of each of its gaps is counted from the start of the
range. -/
structure Block where
  name : Option String
  children : List Block
  vars : Variables
  segments : Span
  gaps : List Nat
  span : Span
  state : State

/-- A block whose end has not been read: its segments so far, the ends of its finished gaps, and that of the gap in
progress. -/
structure Frame where
  name : Option String
  opening : Span
  children : List Block
  vars : Variables
  segments : List Segment
  gaps : List Nat
  gapEnd : Nat

namespace Frame

/-- A block that has just been opened. -/
def opened (name : Option String) (opening : Span) : Frame :=
  ⟨name, opening, [], .empty, [], [], 0⟩

/-- Adds the text between two bytes. -/
def read? (cs : List Char) (f : Frame) (start stop : Nat) : Option Frame := do
  let text ← slice? cs start stop
  let (segments, pushed) ← Sliced.decompose? f.vars text f.segments
  some { f with segments := segments, gapEnd := f.gapEnd + pushed }

/-- Whether a nested block of this name has been read. -/
def hasChild (f : Frame) (name : String) : Bool :=
  f.children.any (·.name == some name)

/-- Adds a nested block, which ends the gap in progress. -/
def nest (f : Frame) (child : Block) : Frame :=
  { f with children := f.children ++ [child], gaps := f.gaps ++ [f.gapEnd] }

/-- The block that ends at byte `stop`, with the store that has its segments too. Each of its variables has to occur in
its text. -/
def close (f : Frame) (s : Store) (stop : Nat) : Except Defect (Block × Store) :=
  match f.vars.missing f.segments with
  | [] =>
    let (range, s) := s.append f.segments
    .ok (⟨f.name, f.children, f.vars, range, f.gaps ++ [f.gapEnd], ⟨f.opening.start, stop⟩, .out⟩, s)
  | v :: vs => .error ⟨.placeholdersNotFound ((v :: vs).map (·.name)), v.span⟩

end Frame

open Sliced (Turn tag?)

/-- A block that has been read, the store behind it, and the byte behind its end. -/
abbrev Finished := Block × Store × Nat

/-- What a tag makes of the block it stands in. -/
def meet (f : Frame) (s : Store) (t : Tag) : Turn Frame Finished :=
  match t.kind with
  | .closing =>
    match f.name with
    | none => .ended (.error ⟨.unmatchedClose, t.span⟩)
    | some _ => .ended ((f.close s t.span.stop).map fun (block, s) => (block, s, t.span.stop))
  | .opening attributes =>
    match attributes.declaration with
    | .error fault => .ended (.error ⟨fault, t.span⟩)
    | .ok (.block name) =>
      if f.hasChild name then .ended (.error ⟨.duplicateBlock name, t.span⟩)
      else .enter f name t.span t.span.stop
    | .ok (.var name place) =>
      match f.vars.declare? name place t.span with
      | .error d => .ended (.error d)
      | .ok vs => .on { f with vars := vs } t.span.stop

/-- One turn of the loop over the tags of a block, from byte `pos` on. -/
def turn? (cs : List Char) (f : Frame) (s : Store) (pos : Nat) : Option (Turn Frame Finished) := do
  match ← tag? cs pos with
  | .error d => some (.ended (.error d))
  | .ok none =>
    match f.name with
    | some name => some (.ended (.error ⟨.unclosedBlock name, f.opening⟩))
    | none => do
      let f ← f.read? cs pos (byteCount cs)
      some (.ended ((f.close s (byteCount cs)).map fun (block, s) => (block, s, byteCount cs)))
  | .ok (some t) => do
    let f ← f.read? cs pos t.span.start
    some (meet f s t)

section

variable (cs : List Char)

/-- The rest of a block from byte `pos` on, behind what the store has. -/
def block? (f : Frame) (s : Store) (pos : Nat) : Option (Except Defect Finished) := do
  let call : Frame → Store → Nat → Option (Except Defect Finished) := by apply block?
  match ← turn? cs f s pos with
  | .ended result => some result
  | .on f pos => call f s pos
  | .enter f name opening pos =>
    match ← call (.opened (some name) opening) s pos with
    | .error d => some (.error d)
    | .ok (child, s, pos) => call (f.nest child) s pos
partial_fixpoint

end

/-- The root block of a template and the store with the segments of all blocks. -/
def template? (source : String) (file : Nat) : Option (Except ParseError (Block × Store)) := do
  let result ← block? source.toList (.opened none ⟨0, byteCount source.toList⟩) .empty 0
  some ((result.map fun (root, s, _) => (root, s)).mapError (·.inFile file))

end Stored

/-! ## What stands for a block of the tree -/

/-- No place in a store. -/
def Placement.nowhere : Placement := ⟨⟨0, 0⟩, [], []⟩

namespace Block

mutual

/-- What stands for a block with a place in the store. -/
def put (q : Placement) : Block → Stored.Block
  | ⟨name, vs, _, cs, span, state⟩ => ⟨name, putAll q.children cs, vs, q.range, q.ends, span, state⟩

def putAll (qs : List Placement) : List Block → List Stored.Block
  | [] => []
  | c :: cs => c.put (qs.headD .nowhere) :: putAll qs.tail cs

end

/-- What stands for a block that is laid out behind what a store has, and the store behind it. -/
def stored (b : Block) (s : Store) : Stored.Block × Store :=
  (b.put (b.layOut s).1, (b.layOut s).2)

theorem put_eq (b : Block) (q : Placement) :
    b.put q = ⟨b.name, putAll q.children b.children, b.vars, q.range, q.ends, b.span, b.state⟩ := by
  cases b
  rw [put]

theorem length_putAll (qs : List Placement) (cs : List Block) : (putAll qs cs).length = cs.length := by
  induction cs generalizing qs with
  | nil => rfl
  | cons c cs ih => rw [putAll, List.length_cons, ih, List.length_cons]

theorem putAll_append (ps qs : List Placement) {bs : List Block} (same : ps.length = bs.length) (cs : List Block) :
    putAll (ps ++ qs) (bs ++ cs) = putAll ps bs ++ putAll qs cs := by
  induction bs generalizing ps with
  | nil =>
    rw [List.eq_nil_of_length_eq_zero same]
    rfl
  | cons b bs ih =>
    cases ps with
    | nil => cases same
    | cons p ps => rw [List.cons_append, List.cons_append, putAll, putAll, List.tail_cons, List.tail_cons,
        ih ps (Nat.succ.inj same), List.cons_append, List.headD_cons, List.headD_cons]

theorem layOutAll_append (s : Store) (bs cs : List Block) :
    layOutAll s (bs ++ cs) = ((layOutAll s bs).1 ++ (layOutAll (layOutAll s bs).2 cs).1,
      (layOutAll (layOutAll s bs).2 cs).2) := by
  induction bs generalizing s with
  | nil => rfl
  | cons b bs ih => rw [List.cons_append, layOutAll_cons, ih, layOutAll_cons, List.cons_append]

theorem length_layOutAll (s : Store) (cs : List Block) : (layOutAll s cs).1.length = cs.length := by
  induction cs generalizing s with
  | nil => rfl
  | cons c cs ih => rw [layOutAll_cons, List.length_cons, ih, List.length_cons]

end Block

namespace Placement

theorem gapSpans_append (start : Nat) (front back : List (List Segment)) :
    gapSpans start (front ++ back) = gapSpans start front ++ gapSpans (start + front.flatten.length) back := by
  induction front generalizing start with
  | nil => rfl
  | cons gap front ih =>
    rw [List.cons_append, gapSpans, gapSpans, ih, List.flatten_cons, List.length_append, Nat.add_assoc,
      List.cons_append]

/-- Where gaps end does not depend on where they start, if it is counted from there. -/
theorem map_sub_gapSpans (start : Nat) (gaps : List (List Segment)) :
    (gapSpans start gaps).map (fun g => g.stop - start) = (gapSpans 0 gaps).map (·.stop) := by
  have moved := gapSpans_shift 0 start gaps
  rw [Nat.zero_add] at moved
  rw [moved, List.map_map]
  refine List.map_congr_left fun g _ => ?_
  exact Nat.add_sub_cancel ..

end Placement

/-- What stands for a block that is being read, whose nested blocks are laid out behind what a store has, and the store
behind those. -/
def Frame.stored (f : Frame) (s : Store) : Stored.Frame × Store :=
  (⟨f.name, f.opening, Block.putAll (Block.layOutAll s f.children).1 f.children, f.vars, f.allGaps.flatten,
    (Placement.gapSpans 0 f.gaps).map (·.stop), f.allGaps.flatten.length⟩, (Block.layOutAll s f.children).2)

namespace Frame

variable (f : Frame) (s : Store)

theorem stored_nest (child : Block) :
    (f.nest child).stored s =
      ((f.stored s).1.nest (child.stored (f.stored s).2).1, (child.stored (f.stored s).2).2) := by
  have gaps : (f.nest child).allGaps.flatten = f.allGaps.flatten := by simp [nest, allGaps]
  have ends : (Placement.gapSpans 0 (f.nest child).gaps).map (·.stop) =
      (Placement.gapSpans 0 f.gaps).map (·.stop) ++ [f.allGaps.flatten.length] := by
    rw [nest, Placement.gapSpans_append, List.map_append]
    simp [Placement.gapSpans, allGaps]
  have children : Block.layOutAll s (f.nest child).children = ((Block.layOutAll s f.children).1 ++
      [(child.layOut (Block.layOutAll s f.children).2).1], (child.layOut (Block.layOutAll s f.children).2).2) := by
    rw [nest, Block.layOutAll_append]
    rfl
  have put : Block.putAll ((Block.layOutAll s f.children).1 ++
      [(child.layOut (Block.layOutAll s f.children).2).1]) (f.nest child).children =
        Block.putAll (Block.layOutAll s f.children).1 f.children ++
          [child.put (child.layOut (Block.layOutAll s f.children).2).1] := by
    rw [nest, Block.putAll_append _ _ (Block.length_layOutAll ..)]
    rfl
  unfold stored
  rw [gaps, ends, children, put]
  rfl

theorem hasChild_stored (name : String) : (f.stored s).1.hasChild name = f.hasChild name := by
  have named (qs : List Placement) (cs : List Block) :
      (Block.putAll qs cs).any (·.name == some name) = cs.any (·.name == some name) := by
    induction cs generalizing qs with
    | nil => rfl
    | cons c cs ih => rw [Block.putAll, List.any_cons, ih, Block.put_eq, List.any_cons]
  exact named _ _

theorem close_stored (stop : Nat) :
    (f.stored s).1.close (f.stored s).2 stop = (f.close stop).map (·.stored s) := by
  unfold Stored.Frame.close close
  have same : (f.stored s).1.vars.missing (f.stored s).1.segments = f.unmatched := rfl
  rw [same]
  cases f.unmatched with
  | cons v vs => rfl
  | nil =>
    have ends (start : Nat) : (Placement.gapSpans start f.allGaps).map (fun g => g.stop - start) =
        (Placement.gapSpans 0 f.gaps).map (·.stop) ++ [f.allGaps.flatten.length] := by
      rw [Placement.map_sub_gapSpans, allGaps, Placement.gapSpans_append, List.map_append]
      simp [Placement.gapSpans]
    dsimp only [Except.map]
    rw [Block.stored, Block.layOut_eq, Block.put_eq]
    dsimp only [Placement.ends]
    rw [ends]
    rfl

end Frame

/-! ## Reading comes to what stands for the template -/

namespace Sliced

/-- The same turn for something else that is kept of blocks. -/
def Turn.map {φ φ' ρ ρ' : Type} (onFrame : φ → φ') (onResult : ρ → ρ') : Turn φ ρ → Turn φ' ρ'
  | .ended result => .ended (result.map onResult)
  | .on frame pos => .on (onFrame frame) pos
  | .enter frame name opening pos => .enter (onFrame frame) name opening pos

/-- The block with which the loop goes on, or in which another one has been opened. -/
def Turn.frame? {φ ρ : Type} : Turn φ ρ → Option φ
  | .ended _ => none
  | .on frame _ | .enter frame _ _ _ => some frame

theorem eq_of_read? {cs : List Char} {f g : Frame} {start stop : Nat} (h : read? cs f start stop = some g) :
    ∃ gap, g = { f with gap := gap } := by
  obtain ⟨text, -, h⟩ := Option.bind_eq_some_iff.1 h
  obtain ⟨⟨gap, pushed⟩, -, h⟩ := Option.bind_eq_some_iff.1 h
  cases h
  exact ⟨gap, rfl⟩

theorem children_of_meet {f g : Frame} {t : Tag} (h : (meet f t).frame? = some g) : g.children = f.children := by
  unfold meet at h
  split at h
  · split at h <;> cases h
  · split at h
    · cases h
    · split at h <;> cases h
      rfl
    · split at h
      · cases h
      · next after added =>
        cases h
        obtain ⟨-, -, -, -, rfl⟩ := Frame.declare_eq_ok_iff.1 added
        rfl

/-- No tag of a block changes what is nested in it so far. -/
theorem children_of_turn? {cs : List Char} {f g : Frame} {pos : Nat} {turn : Turn Frame (Block × Nat)}
    (h : turn? cs f pos = some turn) (frame : turn.frame? = some g) : g.children = f.children := by
  obtain ⟨found, -, h⟩ := Option.bind_eq_some_iff.1 h
  rcases found with d | _ | t
  · cases h
    cases frame
  · cases name : f.name with
    | some blockName =>
      simp only [name] at h
      cases h
      cases frame
    | none =>
      simp only [name] at h
      obtain ⟨after, -, h⟩ := Option.bind_eq_some_iff.1 h
      cases h
      cases frame
  · obtain ⟨after, read, h⟩ := Option.bind_eq_some_iff.1 h
    cases h
    obtain ⟨gap, rfl⟩ := eq_of_read? read
    have same : g.children = Frame.children { f with gap := gap } := children_of_meet frame
    exact same

end Sliced

namespace Stored

open Sliced (Turn)

/-- What stands for a block that has been read, behind what a store has. -/
def finished (s : Store) (ended : Stencil.Block × Nat) : Finished :=
  ((ended.1.stored s).1, (ended.1.stored s).2, ended.2)

variable {cs : List Char} {f : Stencil.Frame} (s : Store)

theorem read?_stored (proper : f.Proper) (start stop : Nat) :
    (f.stored s).1.read? cs start stop = (Sliced.read? cs f start stop).map fun g => (g.stored s).1 := by
  unfold Frame.read? Sliced.read?
  cases slice? cs start stop with
  | none => rfl
  | some text =>
    have same : (f.stored s).1.vars = f.vars := rfl
    simp only [Option.bind_eq_bind, Option.bind_some, same, Sliced.decompose?_eq proper, Variables.decompose,
      Option.map_some, Option.some.injEq]
    simp [Frame.stored, Frame.allGaps, Nat.add_assoc]

theorem meet_stored (f : Stencil.Frame) (t : Tag) :
    meet (f.stored s).1 (f.stored s).2 t = (Sliced.meet f t).map (fun g => (g.stored s).1) (finished s) := by
  have name : (f.stored s).1.name = f.name := rfl
  have vars : (f.stored s).1.vars = f.vars := rfl
  unfold meet Sliced.meet
  cases t.kind with
  | closing =>
    dsimp only
    rw [name]
    cases f.name with
    | none => rfl
    | some blockName =>
      dsimp only
      rw [f.close_stored]
      cases f.close t.span.stop <;> rfl
  | opening attributes =>
    dsimp only
    cases attributes.declaration with
    | error fault => rfl
    | ok declared =>
      cases declared with
      | block blockName =>
        dsimp only
        rw [f.hasChild_stored]
        split <;> rfl
      | var varName place =>
        dsimp only [Frame.declare]
        rw [vars]
        cases f.vars.declare? varName place t.span <;> rfl

theorem turn?_stored (proper : f.Proper) (pos : Nat) :
    turn? cs (f.stored s).1 (f.stored s).2 pos =
      (Sliced.turn? cs f pos).map (Turn.map (fun g => (g.stored s).1) (finished s)) := by
  -- Text of its own leaves the nested blocks of a block alone, and so the store.
  have store {g : Stencil.Frame} {start stop : Nat} (read : Sliced.read? cs f start stop = some g) :
      (g.stored s).2 = (f.stored s).2 := by
    obtain ⟨gap, rfl⟩ := Sliced.eq_of_read? read
    rfl
  have name : (f.stored s).1.name = f.name := rfl
  unfold turn? Sliced.turn?
  cases Sliced.tag? cs pos with
  | none => rfl
  | some found =>
    simp only [Option.bind_eq_bind, Option.bind_some]
    rcases found with d | _ | t
    · rfl
    · dsimp only
      rw [name]
      cases f.name with
      | some blockName => rfl
      | none =>
        dsimp only
        rw [read?_stored s proper]
        cases read : Sliced.read? cs f pos (byteCount cs) with
        | none => rfl
        | some g =>
          simp only [Option.map_some, Option.bind_some]
          rw [← store read, g.close_stored]
          cases g.close (byteCount cs) <;> rfl
    · dsimp only
      rw [read?_stored s proper]
      cases read : Sliced.read? cs f pos t.span.start with
      | none => rfl
      | some g =>
        simp only [Option.map_some, Option.bind_some]
        rw [← store read, meet_stored]

theorem block?_of_ended {f : Frame} {s : Store} {pos : Nat} {result : Except Defect Finished}
    (h : turn? cs f s pos = some (.ended result)) : block? cs f s pos = some result := by
  rw [block?, h]
  rfl

theorem block?_of_on {f g : Frame} {s : Store} {pos next : Nat} (h : turn? cs f s pos = some (.on g next)) :
    block? cs f s pos = block? cs g s next := by
  rw [block?, h]
  rfl

theorem block?_of_enter {f g : Frame} {s : Store} {pos next : Nat} {name : String} {opening : Span}
    (h : turn? cs f s pos = some (.enter g name opening next)) :
    block? cs f s pos = (block? cs (.opened (some name) opening) s next).bind fun
      | .error d => some (.error d)
      | .ok (child, s, next) => block? cs (g.nest child) s next := by
  rw [block?, h]
  rfl

/-- The rest of a block is read to what stands for the rest of the block. -/
theorem block?_stored {before after : List Char} (whole : cs = before ++ after) (proper : f.Proper) :
    block? cs (f.stored s).1 (f.stored s).2 (byteCount before) =
      (Sliced.block? cs f (byteCount before)).map fun result => result.map (finished s) := by
  induction h : byteCount after using Nat.strongRecOn generalizing before after f s with
  | ind size ih =>
    obtain ⟨turn, turned, turns⟩ := Sliced.exists_turn whole proper
    have same : turn? cs (f.stored s).1 (f.stored s).2 (byteCount before) =
        (Sliced.turn? cs f (byteCount before)).map (Turn.map (fun g => (g.stored s).1) (finished s)) :=
      turn?_stored s proper (byteCount before)
    have children {g : Stencil.Frame} := Sliced.children_of_turn? (g := g) turned
    rw [turned, Option.map_some] at same
    subst h
    cases turns with
    | ended settles => rw [block?_of_ended same, Sliced.block?_of_ended turned, Option.map_some]
    | @on passed later g text less proper' settles =>
      have store : (g.stored s).2 = (f.stored s).2 := by rw [Frame.stored, children rfl]; rfl
      rw [block?_of_on same, Sliced.block?_of_on turned, ← store]
      exact ih _ less s text proper' rfl
    | @enter passed later g name opening text less proper' fails settles =>
      have store : (g.stored s).2 = (f.stored s).2 := by rw [Frame.stored, children rfl]; rfl
      have nested := Frame.Proper.opened (some name) opening
      have inner := ih _ less (f.stored s).2 text nested rfl
      obtain ⟨result, read, settled⟩ := Sliced.exists_block text nested
      rw [read] at inner
      rw [block?_of_enter same, Sliced.block?_of_enter turned, read]
      have call : block? cs (.opened (some name) opening) (f.stored s).2 (byteCount (before ++ passed)) =
          some (result.map (finished (f.stored s).2)) := inner
      rw [call, Option.bind_some, Option.bind_some]
      cases result with
      | error d => rfl
      | ok ended =>
        obtain ⟨child, stop⟩ := ended
        obtain ⟨le, -, boundary, -⟩ := settled.ends child stop rfl
        obtain ⟨front, rest, split_, rfl⟩ := isBoundary_iff.1 boundary
        -- The nested block ends behind its opening tag, so less is left behind it too.
        have fewer : byteCount rest < byteCount after := by
          have sizes : byteCount (front ++ rest) = byteCount (before ++ passed ++ later) := by rw [← split_, ← text]
          simp only [byteCount_append] at sizes le
          omega
        have later := ih _ fewer s split_ (proper'.nest child) rfl
        rw [g.stored_nest, store] at later
        exact later

end Stored

/-- **What is read into a store stands for the template.** -/
theorem Stored.template?_eq (source : String) (file : Nat) :
    Stored.template? source file = some ((Template.parse source file).map fun root => root.stored .empty) := by
  have parsed := Sliced.template?_eq source file
  obtain ⟨result, read, -⟩ :=
    Sliced.exists_block (List.nil_append source.toList).symm (Frame.Proper.opened none ⟨0, byteCount source.toList⟩)
  have same := block?_stored .empty (List.nil_append source.toList).symm
    (Frame.Proper.opened none ⟨0, byteCount source.toList⟩)
  have sliced : Sliced.block? source.toList (.opened none ⟨0, byteCount source.toList⟩) 0 = some result := read
  have stored : block? source.toList (.opened none ⟨0, byteCount source.toList⟩) .empty 0 =
      some (result.map (finished .empty)) := by
    rw [read] at same
    exact same
  rw [Sliced.template?, sliced] at parsed
  rw [template?, stored, ← Option.some.inj parsed]
  cases result <;> rfl

end Stencil

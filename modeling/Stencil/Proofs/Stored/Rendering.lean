import Stencil.Proofs.Regular
import Stencil.Proofs.Stored.Reading

/-!
# Writing from one store

The calls on blocks whose segments stand in one store. Nothing is looked up without asking: where an index of a nested
block, of a gap or of a variable, or a range of the store, is out of range, nothing comes of the call. On blocks that
stand where they were laid out each call comes to what it comes to on the blocks of the tree (`callAt?_put`).
-/

namespace Stencil

open Text

/-- The segments of a range, which has to be one of the store. -/
def Store.get? (s : Store) (range : Span) : Option (List Segment) :=
  if range.start ≤ range.stop ∧ range.stop ≤ s.size then some (s.get range) else none

namespace Stored

/-- What a call leaves: the block, the bound sink, the verdict, and what happened. -/
structure Outcome (σ : Type) where
  block : Block
  sink : Option σ
  result : Except RenderError Unit
  events : List Event

namespace Block

/-- Whether this is the block of the whole template. -/
def isRoot (b : Block) : Bool := b.name.isNone

/-- The nested block of a name. -/
def blk? (b : Block) (name : String) : Option Block :=
  b.children.find? (·.name == some name)

/-- The block that names lead to, each naming a block nested in the one before. -/
def descend? (b : Block) : List String → Option Block
  | [] => some b
  | name :: path => (b.blk? name).bind (·.descend? path)

/-- The place of the nested block of a name. -/
def childIndex? (b : Block) (name : String) : Option Nat :=
  b.children.findIdx? (·.name == some name)

/-- The block with nested block `k` changed. -/
def modifyChild (b : Block) (k : Nat) (f : Block → Block) : Block :=
  { b with children := b.children.modify k f }

/-- Where gap `k` stands in the store. -/
def gap? (b : Block) (k : Nat) : Option Span := do
  let start ← if k = 0 then some 0 else b.gaps[k - 1]?
  let stop ← b.gaps[k]?
  some ⟨b.segments.start + start, b.segments.start + stop⟩

/-- The text of a segment and the value of its variable, which has to be one of the table. -/
def pieces? (vs : Variables) (s : Segment) : Option (List String) :=
  match s.var with
  | none => some [s.text]
  | some i => vs.entries[i]?.map fun v => [s.text, v.value]

/-- The texts of gap `k` with the current values of the variables, in the order they are written. -/
def gapTexts? (b : Block) (store : Store) (k : Nat) : Option (List String) := do
  let range ← b.gap? k
  let segments ← store.get? range
  let pieces ← segments.mapM (pieces? b.vars)
  some pieces.flatten

mutual

/-- Takes back a pass in progress. -/
def reset : Block → Block
  | ⟨name, cs, vs, segments, gaps, span, .active k⟩ => ⟨name, resetAt k cs, vs, segments, gaps, span, .out⟩
  | ⟨name, cs, vs, segments, gaps, span, _⟩ => ⟨name, cs, vs, segments, gaps, span, .out⟩

def resetAt : Nat → List Block → List Block
  | _, [] => []
  | 0, c :: cs => c.reset :: cs
  | k + 1, c :: cs => c :: resetAt k cs

end

/-- Puts the block in a new state. -/
def enter (b : Block) (state : State) : Block × List Event :=
  ({ b with state := state }, [.note (.changedState b.name b.state state)])

/-- Goes on behind gap `k`: nested block `k` is waited for, or the block is written. -/
def advance (b : Block) (k : Nat) : Block × List Event :=
  match b.children[k]? with
  | some _ => (b.modifyChild k fun c => { c with state := .ready }).enter (.active k)
  | none => b.enter .used

section

variable {σ : Type} [Sink σ]

/-- Writes gap `k`. Behind the last gap of the root the sink is flushed. -/
def writeGap? (b : Block) (store : Store) (k : Nat) (sink : σ) : Option (Written σ) := do
  let texts ← b.gapTexts? store k
  let w := Sink.writeEach sink (texts.map bytes)
  if w.fault.isNone && b.isRoot && k == b.children.length then
    let f := Sink.flushNow w.sink
    some { f with events := w.events ++ f.events }
  else some w

/-- A call that is refused. -/
def refuse (b : Block) (sink : Option σ) (e : RenderError) : Outcome σ :=
  ⟨b, sink, .error e, []⟩

/-- Begins a pass on the root. -/
def startWith? (b : Block) (store : Store) (bound : Option σ) (sink : σ) : Option (Outcome σ) :=
  if b.isRoot then do
    let w ← b.writeGap? store 0 sink
    match w.fault with
    | some fault => some ⟨b, bound, .error (.io fault), w.events⟩
    | none =>
      let (fresh, restarted) :=
        if b.state.isActive then (b.reset, [Event.note (.restarted b.state)]) else (b, [])
      let (b, moved) := fresh.advance 0
      some ⟨b, some w.sink, .ok (), w.events ++ restarted ++ moved⟩
  else some (b.refuse bound .wrongMethod)

/-- Writes gap `k` of `b`, then leaves `after` moved on behind that gap. -/
def writeThen? (b after : Block) (store : Store) (k : Nat) (bound : Option σ) : Option (Outcome σ) :=
  match bound with
  | none => some (b.refuse none (.io .unbound))
  | some sink => do
    let w ← b.writeGap? store k sink
    match w.fault with
    | some fault => some ⟨b, some w.sink, .error (.io fault), w.events⟩
    | none =>
      let (b, moved) := after.advance k
      some ⟨b, some w.sink, .ok (), w.events ++ moved⟩

/-- Writes a nested block up to its first nested block. -/
def start? (b : Block) (store : Store) (bound : Option σ) : Option (Outcome σ) :=
  if b.isRoot then some (b.refuse bound .wrongMethod)
  else if b.state = .ready ∨ b.state = .used then b.writeThen? b store 0 bound
  else some (b.refuse bound (.invalidState b.state))

/-- Leaves a nested block out of the current repetition of its parent. -/
def skip (b : Block) (bound : Option σ) : Outcome σ :=
  if b.isRoot then b.refuse bound .wrongMethod
  else if b.state = .ready then
    let (b, moved) := b.enter .closed
    ⟨b, bound, .ok (), moved⟩
  else b.refuse bound (.invalidState b.state)

/-- Closes the current nested block and writes the gap behind it. -/
def next? (b : Block) (store : Store) (bound : Option σ) : Option (Outcome σ) :=
  match b.state with
  | .active k => do
    let child ← b.children[k]?
    if child.state = .used ∨ child.state = .closed then
      b.writeThen? (b.modifyChild k fun c => { c with state := .out }) store (k + 1) bound
    else some (b.refuse bound (.childNotFinished (child.name.getD "") child.state))
  | state => some (b.refuse bound (.invalidState state))

/-- Checks that the root has been written completely. -/
def finish (b : Block) (bound : Option σ) : Outcome σ :=
  if b.isRoot then
    if b.state = .used then ⟨b, bound, .ok (), []⟩
    else b.refuse bound (.notFinalized b.state)
  else b.refuse bound .wrongMethod

/-- Assigns a variable of a block that is not in progress. -/
def setVariable (b : Block) (bound : Option σ) (name value : String) : Outcome σ :=
  if b.state.isActive then b.refuse bound (.invalidState b.state)
  else
    match b.vars.assign? name value with
    | some vs => ⟨{ b with vars := vs }, bound, .ok (), []⟩
    | none => ⟨b, bound, .ok (), [.note (.unknownVariable b.name name)]⟩

/-- Makes a call on a block. -/
def call? (b : Block) (store : Store) (bound : Option σ) : Call σ → Option (Outcome σ)
  | .startWith sink => b.startWith? store bound sink
  | .start => b.start? store bound
  | .skip => some (b.skip bound)
  | .next => b.next? store bound
  | .finish => some (b.finish bound)
  | .set name value => some (b.setVariable bound name value)

/-- Makes a call on the block that a path of names leads to, if there is one. -/
def callAt? (b : Block) (store : Store) (bound : Option σ) (c : Call σ) :
    List String → Option (Option (Outcome σ))
  | [] => (b.call? store bound c).map some
  | name :: path =>
    match b.childIndex? name with
    | none => some none
    | some k => do
      let child ← b.children[k]?
      let outcome ← child.callAt? store bound c path
      some (outcome.map fun o => { o with block := b.modifyChild k fun _ => o.block })

end

/-- The place of a name depends on the names alone. -/
theorem childIndex?_eq_names (b : Block) (name : String) :
    b.childIndex? name = (b.children.map (·.name)).findIdx? (· == some name) := by
  rw [List.findIdx?_map]
  rfl

theorem resetAt_eq_modify (k : Nat) (cs : List Block) : resetAt k cs = cs.modify k reset := by
  induction cs generalizing k with
  | nil => cases k <;> rfl
  | cons c cs ih =>
    cases k with
    | zero => rfl
    | succ k => rw [resetAt, ih, List.modify_succ_cons]

theorem reset_active {b : Block} {k : Nat} (here : b.state = .active k) :
    b.reset = { b.modifyChild k reset with state := .out } := by
  cases b
  cases here
  rw [reset, resetAt_eq_modify]
  rfl

theorem reset_idle {b : Block} (idle : b.state.isActive = false) : b.reset = { b with state := .out } := by
  obtain ⟨name, cs, vs, segments, gaps, span, state⟩ := b
  cases state with
  | active k => cases idle
  | _ => rfl

end Block

/-- A template, the store with its segments, and the sink of its current pass. -/
structure Page (σ : Type) where
  root : Block
  store : Store
  sink : Option σ

namespace Page

variable {σ : Type}

/-- What a call on a page leaves. -/
structure Reply (σ : Type) where
  page : Page σ
  result : Except RenderError Unit
  events : List Event

variable [Sink σ]

/-- Makes a call on the block that a path of names leads to, if there is one. -/
def call? (p : Page σ) (path : List String) (c : Call σ) : Option (Option (Reply σ)) :=
  (p.root.callAt? p.store p.sink c path).map fun outcome =>
    outcome.map fun o => ⟨⟨o.block, p.store, o.sink⟩, o.result, o.events⟩

/-- The pages that can be reached from a template by calls, and by whatever the owner of the bound sink does to it in
between. -/
inductive Reachable (root : Block) (store : Store) : Page σ → Prop where
  | fresh : Reachable root store ⟨root, store, none⟩
  | call {p : Page σ} {path : List String} {c : Call σ} {r : Reply σ} (before : Reachable root store p)
      (reply : p.call? path c = some (some r)) : Reachable root store r.page
  | touch {p : Page σ} {s : σ} (before : Reachable root store p) (bound : p.sink = some s) (t : σ) :
      Reachable root store ⟨p.root, p.store, some t⟩

end Page

end Stored

/-! ## Blocks at their places -/

namespace Placement

/-- The place of nested block `k`. -/
def child (q : Placement) (k : Nat) : Placement := q.children.getD k .nowhere

/-- Where the gaps of a block stand, told from the segments in front of them. -/
theorem getElem?_gapSpans_eq (start : Nat) (gaps : List (List Segment)) (k : Nat) :
    (gapSpans start gaps)[k]? = gaps[k]?.map fun _ =>
      ⟨start + (gaps.take k).flatten.length, start + (gaps.take (k + 1)).flatten.length⟩ := by
  induction gaps generalizing start k with
  | nil => rfl
  | cons gap gaps ih =>
    cases k with
    | zero => simp [gapSpans]
    | succ k =>
      rw [gapSpans, List.getElem?_cons_succ, ih, List.getElem?_cons_succ]
      simp only [List.take_succ_cons, List.flatten_cons, List.length_append, Nat.add_assoc]

end Placement

/-- The outcome on what stands for the block. -/
def Outcome.put {σ : Type} (o : Outcome σ) (q : Placement) : Stored.Outcome σ :=
  ⟨o.block.put q, o.sink, o.result, o.events⟩

namespace Block

variable (b : Block) (q : Placement)

@[simp] theorem name_put : (b.put q).name = b.name := by rw [put_eq]

@[simp] theorem vars_put : (b.put q).vars = b.vars := by rw [put_eq]

@[simp] theorem state_put : (b.put q).state = b.state := by rw [put_eq]

@[simp] theorem segments_put : (b.put q).segments = q.range := by rw [put_eq]

@[simp] theorem gaps_put : (b.put q).gaps = q.ends := by rw [put_eq]

@[simp] theorem isRoot_put : (b.put q).isRoot = b.isRoot := by rw [Stored.Block.isRoot, name_put, isRoot]

theorem getElem?_putAll (qs : List Placement) (cs : List Block) (k : Nat) :
    (putAll qs cs)[k]? = cs[k]?.map (·.put (qs.getD k .nowhere)) := by
  induction cs generalizing qs k with
  | nil => rfl
  | cons c cs ih =>
    rw [putAll]
    cases k with
    | zero => cases qs <;> rfl
    | succ k =>
      rw [List.getElem?_cons_succ, List.getElem?_cons_succ, ih]
      cases qs <;> rfl

theorem getElem?_children_put (k : Nat) : (b.put q).children[k]? = b.children[k]?.map (·.put (q.child k)) := by
  rw [put_eq]
  exact getElem?_putAll _ _ k

@[simp] theorem length_children_put : (b.put q).children.length = b.children.length := by
  rw [put_eq]
  exact length_putAll _ _

theorem map_name_putAll (qs : List Placement) (cs : List Block) :
    (putAll qs cs).map (·.name) = cs.map (·.name) := by
  induction cs generalizing qs with
  | nil => rfl
  | cons c cs ih => rw [putAll, List.map_cons, ih, name_put, List.map_cons]

@[simp] theorem map_name_children_put : (b.put q).children.map (·.name) = b.children.map (·.name) := by
  rw [put_eq]
  exact map_name_putAll _ _

theorem childIndex?_put (name : String) : (b.put q).childIndex? name = b.childIndex? name := by
  rw [Stored.Block.childIndex?_eq_names, childIndex?_eq_names, map_name_children_put]

variable {b q}

/-- A change to a nested block is made to what stands for it. -/
theorem put_modifyChild {k : Nat} {f : Block → Block} {g : Stored.Block → Stored.Block}
    (alike : ∀ c, b.children[k]? = some c → (f c).put (q.child k) = g (c.put (q.child k))) :
    (b.modifyChild k f).put q = (b.put q).modifyChild k g := by
  have children : putAll q.children (b.children.modify k f) = (putAll q.children b.children).modify k g := by
    apply List.ext_getElem?
    intro j
    rw [getElem?_putAll, List.getElem?_modify, List.getElem?_modify, getElem?_putAll]
    by_cases here : k = j
    · subst here
      cases child : b.children[k]? with
      | none => rfl
      | some c => simpa [Placement.child] using alike c child
    · simp [here]
  rw [put_eq, put_eq b, Stored.Block.modifyChild, modifyChild]
  dsimp only
  rw [children]

theorem put_enter (state : State) : (b.put q).enter state = ((b.enter state).1.put q, (b.enter state).2) := by
  cases b
  rfl

theorem put_state (b : Block) (state : State) :
    ({ b with state := state } : Block).put q = { b.put q with state := state } := by
  cases b
  rfl

/-- Going on behind a gap is the same. -/
theorem put_moveOn (k : Nat) : (b.put q).advance k = ((b.moveOn k).1.put q, (b.moveOn k).2) := by
  rw [Stored.Block.advance, moveOn, getElem?_children_put]
  by_cases lt : k < b.children.length
  · rw [if_pos lt, List.getElem?_eq_getElem lt, Option.map_some, ← put_enter]
    dsimp only
    rw [put_modifyChild (g := fun c => { c with state := .ready }) fun c _ => put_state c .ready]
  · rw [if_neg lt, List.getElem?_eq_none (Nat.not_lt.1 lt)]
    exact put_enter .used

/-- Taking back a pass in progress is the same. -/
theorem put_reset (b : Block) (q : Placement) : b.reset.put q = (b.put q).reset := by
  induction b using nestInduction generalizing q with
  | nest b ih =>
    cases state : b.state with
    | active k =>
      have own : b.reset = { b.modifyChild k reset with state := .out } := reset_active state
      have nested := put_modifyChild (q := q) fun c (child : b.children[k]? = some c) =>
        ih c (List.mem_of_getElem? child) (q.child k)
      rw [own, put_state, nested, Stored.Block.reset_active (by rw [state_put, state])]
    | out | ready | used | closed =>
      have idle : b.state.isActive = false := by rw [state]; rfl
      rw [reset_idle idle, put_state, Stored.Block.reset_idle (by rwa [state_put])]

theorem layOutAll_longer (s : Store) (cs : List Block) : s.segments <+: (layOutAll s cs).2.segments := by
  induction cs generalizing s with
  | nil => exact List.prefix_refl _
  | cons c cs ih =>
    rw [layOutAll_cons]
    exact (c.layOut_placing s).longer.trans (ih _)

end Block

/-! ## Blocks in the store -/

/-- Each block of a tree stands in a store at its place. -/
inductive LaidIn (t : Store) : Block → Placement → Prop where
  | mk {b : Block} {q : Placement} (own : Stands t b q)
      (nested : ∀ k c, b.children[k]? = some c → LaidIn t c (q.child k)) : LaidIn t b q

/-- Blocks that are laid out fit into every store that goes on behind them. -/
theorem laidIn_layOut (b : Block) {s t : Store} (longer : (b.layOut s).2.segments <+: t.segments) :
    LaidIn t b (b.layOut s).1 := by
  induction b using Block.rowInduction (fun cs => ∀ s t : Store, (Block.layOutAll s cs).2.segments <+: t.segments →
    ∀ k c, cs[k]? = some c → LaidIn t c ((Block.layOutAll s cs).1.getD k .nowhere)) generalizing s t with
  | nest b ih =>
    have own := (placing_own (Block.layOutAll s b.children).2 b (Block.layOutAll s b.children).1).stands _
      (List.mem_singleton.2 rfl)
    rw [Block.layOut_eq] at longer ⊢
    exact .mk (own.mono longer) (ih s t ((List.prefix_append _ _).trans longer))
  | nil s t longer k c here => cases here
  | cons c cs first others s t longer k d here =>
    rw [Block.layOutAll_cons] at longer ⊢
    cases k with
    | zero =>
      cases here
      exact first ((Block.layOutAll_longer _ cs).trans longer)
    | succ k => exact others _ t longer k d here

/-! ## Gaps -/

namespace Stands

variable {t : Store} {b : Block} {q : Placement}

/-- A gap stands where its ends say. -/
theorem gap?_put (h : Stands t b q) {k : Nat} (lt : k < b.gaps.length) : (b.put q).gap? k = q.gaps[k]? := by
  have ends (j : Nat) (lt : j < b.gaps.length) : q.ends[j]? = some (b.gaps.take (j + 1)).flatten.length := by
    rw [Placement.ends, h.gaps, List.getElem?_map, Placement.getElem?_gapSpans_eq, List.getElem?_eq_getElem lt]
    simp
  rw [Stored.Block.gap?, Block.gaps_put, Block.segments_put, h.gaps, Placement.getElem?_gapSpans_eq, ends k lt,
    List.getElem?_eq_getElem lt]
  cases k with
  | zero => simp
  | succ k => simp [ends k (Nat.lt_of_succ_lt lt)]

/-- The segments of a gap are found where it stands. -/
theorem get?_gap (h : Stands t b q) {k : Nat} (lt : k < b.gaps.length) :
    ∃ g, (b.put q).gap? k = some g ∧ t.get? g = some (b.gap k) := by
  obtain ⟨g, here, -, stop, within, own⟩ := h.get_gap lt
  have := h.within
  refine ⟨g, (h.gap?_put lt).trans here, ?_⟩
  rw [Store.get?, if_pos ⟨by omega, by omega⟩, own]

end Stands

/-- With known variables only, every segment has its pieces. -/
theorem mapM_pieces? {vs : Variables} {ss : List Segment} (known : ∀ s ∈ ss, ∀ i, s.var = some i → i < vs.size) :
    ss.mapM (Stored.Block.pieces? vs) = some (ss.map fun s => s.text :: (s.var.map vs.value).toList) := by
  induction ss with
  | nil => rfl
  | cons s ss ih =>
    have own : Stored.Block.pieces? vs s = some (s.text :: (s.var.map vs.value).toList) := by
      rw [Stored.Block.pieces?]
      cases var : s.var with
      | none => rfl
      | some i =>
        have lt : i < vs.entries.length := known s List.mem_cons_self i var
        simp [Variables.value, List.getElem?_eq_getElem lt]
    rw [List.mapM_cons, own, ih fun x hx => known x (List.mem_cons_of_mem _ hx)]
    rfl

section

variable {σ : Type} [Sink σ] {t : Store} {b : Block} {q : Placement} (stands : Stands t b q) (regular : b.Regular)

include stands regular

/-- A gap of a block is written as that of the block in the tree. -/
theorem writeGap?_put {k : Nat} (le : k ≤ b.children.length) (sink : σ) :
    (b.put q).writeGap? t k sink = some (b.writeGap k sink) := by
  obtain ⟨g, here, own⟩ := stands.get?_gap (k := k) (by rw [regular.gaps]; omega)
  have pieces := mapM_pieces? fun s (mem : s ∈ b.gap k) => regular.known s (Block.mem_flatten_of_mem_gap mem)
  have texts : (b.put q).gapTexts? t k = some (b.gapTexts k) := by
    rw [Stored.Block.gapTexts?, here, Block.vars_put, Block.gapTexts, List.flatMap_def]
    simp only [Option.bind_eq_bind, Option.bind_some, own, pieces]
  rw [Stored.Block.writeGap?, texts, Block.writeGap, Block.isRoot_put, Block.length_children_put]
  dsimp only [Option.bind_eq_bind, Option.bind_some]
  split <;> rfl

/-- Writing a gap and going on behind it comes to the same. -/
theorem writeThen?_put (after : Block) {k : Nat} (le : k ≤ b.children.length) (bound : Option σ) :
    (b.put q).writeThen? (after.put q) t k bound = some ((b.writeThen after k bound).put q) := by
  unfold Stored.Block.writeThen? Block.writeThen
  cases bound with
  | none => rfl
  | some sink =>
    simp only [writeGap?_put stands regular le, Option.bind_eq_bind, Option.bind_some]
    cases (b.writeGap k sink).fault with
    | some fault => rfl
    | none =>
      dsimp only
      rw [Block.put_moveOn]
      rfl

theorem startWith?_put (bound : Option σ) (sink : σ) :
    (b.put q).startWith? t bound sink = some ((b.startWith bound sink).put q) := by
  unfold Stored.Block.startWith? Block.startWith
  rw [Block.isRoot_put]
  split
  · simp only [writeGap?_put stands regular (Nat.zero_le _), Option.bind_eq_bind, Option.bind_some]
    cases (b.writeGap 0 sink).fault with
    | some fault => rfl
    | none =>
      dsimp only
      rw [Block.state_put]
      cases b.state.isActive with
      | false =>
        simp only [Bool.false_eq_true, if_false, Block.put_moveOn]
        rfl
      | true =>
        simp only [if_true, ← Block.put_reset, Block.put_moveOn]
        rfl
  · rfl

theorem start?_put (bound : Option σ) : (b.put q).start? t bound = some ((b.start bound).put q) := by
  unfold Stored.Block.start? Block.start
  rw [Block.isRoot_put, Block.state_put]
  split
  · rfl
  · split
    · exact writeThen?_put stands regular b (Nat.zero_le _) bound
    · rfl

omit [Sink σ] stands regular in
theorem skip_put (bound : Option σ) : (b.put q).skip bound = (b.skip bound).put q := by
  unfold Stored.Block.skip Block.skip
  rw [Block.isRoot_put, Block.state_put, Block.put_enter]
  split
  · rfl
  · split <;> rfl

theorem next?_put (inside : ∀ k, b.state = .active k → k < b.children.length) (bound : Option σ) :
    (b.put q).next? t bound = some ((b.next bound).put q) := by
  unfold Stored.Block.next? Block.next
  rw [Block.state_put]
  cases state : b.state with
  | active k =>
    have lt := inside k state
    dsimp only
    rw [Block.getElem?_children_put, List.getElem?_eq_getElem lt]
    simp only [Option.map_some, Option.bind_eq_bind, Option.bind_some, Block.state_put, Block.name_put]
    split
    · rw [← Block.put_modifyChild (f := fun c => { c with state := .out }) fun c _ => Block.put_state c .out]
      exact writeThen?_put stands regular _ (Nat.succ_le_of_lt lt) bound
    · rfl
  | out | ready | used | closed => rfl

omit [Sink σ] stands regular in
theorem finish_put (bound : Option σ) : (b.put q).finish bound = (b.finish bound).put q := by
  unfold Stored.Block.finish Block.finish
  rw [Block.isRoot_put, Block.state_put]
  split
  · split <;> rfl
  · rfl

omit [Sink σ] stands regular in
theorem setVariable_put (bound : Option σ) (name value : String) :
    (b.put q).setVariable bound name value = (b.setVariable bound name value).put q := by
  unfold Stored.Block.setVariable Block.setVariable
  rw [Block.state_put, Block.vars_put, Block.name_put]
  split
  · rfl
  · cases b.vars.assign? name value with
    | none => rfl
    | some vs =>
      cases b
      rfl

/-- A call comes to what it comes to on the block of the tree. -/
theorem call?_put (inside : ∀ k, b.state = .active k → k < b.children.length) (bound : Option σ) (c : Call σ) :
    (b.put q).call? t bound c = some ((b.call bound c).put q) := by
  cases c with
  | startWith sink => exact startWith?_put stands regular bound sink
  | start => exact start?_put stands regular bound
  | skip => exact congrArg some (skip_put bound)
  | next => exact next?_put stands regular inside bound
  | finish => exact congrArg some (finish_put bound)
  | set name value => exact congrArg some (setVariable_put bound name value)

end

/-- A call along a path comes to what it comes to in the tree. -/
theorem callAt?_put {σ : Type} [Sink σ] {t : Store} {b : Block} {q : Placement} (laid : LaidIn t b q)
    (regular : ∀ a ∈ b.preorder, a.Regular)
    (inside : ∀ a ∈ b.preorder, ∀ k, a.state = .active k → k < a.children.length) (bound : Option σ) (c : Call σ)
    (path : List String) :
    (b.put q).callAt? t bound c path = some ((b.callAt bound c path).map (·.put q)) := by
  induction path generalizing b q with
  | nil =>
    cases laid with
    | mk own nested =>
      rw [Stored.Block.callAt?, call?_put own (regular b b.self_mem_preorder) (inside b b.self_mem_preorder)]
      rfl
  | cons name path ih =>
    rw [Stored.Block.callAt?, Block.childIndex?_put, Block.callAt]
    cases index : b.childIndex? name with
    | none => rfl
    | some k =>
      obtain ⟨d, child⟩ := Block.exists_child_of_childIndex? index
      have mem := List.mem_of_getElem? child
      cases laid with
      | mk own nested =>
        have below := ih (nested k d child) (fun a part => regular a (Block.mem_preorder_of_child mem part))
          fun a part => inside a (Block.mem_preorder_of_child mem part)
        dsimp only
        rw [Block.getElem?_children_put, child]
        simp only [Option.map_some, Option.bind_eq_bind, Option.bind_some, below]
        cases d.callAt bound c path with
        | none => rfl
        | some o =>
          have same := Block.put_modifyChild (b := b) (q := q) (k := k) (f := fun _ => o.block)
            (g := fun _ => o.block.put (q.child k)) fun _ _ => rfl
          simp only [Option.map_some, Outcome.put, same]

end Stencil

import Stencil.Sink

/-!
# Writing a page

A page is a template and the sink its current pass writes to. A pass starts the root with a
sink; every block then starts each nested block any number of times or skips it, and `next`
writes the text behind it. A call that is out of order, or that the sink fails, changes no
block and no binding.
-/

namespace Stencil

open Text

/-- Why a call is refused. -/
inductive RenderError where
  /-- A call for the root made on a nested block, or the reverse. -/
  | wrongMethod
  | invalidState (state : State)
  | childNotFinished (child : String) (state : State)
  | notFinalized (state : State)
  | io (fault : SinkFault)
  deriving Repr, BEq, DecidableEq

/-- The wording of a refusal. -/
def RenderError.message : RenderError → String
  | wrongMethod => "this method cannot be used on this block"
  | invalidState state => s!"operation not allowed on a block in state {state.text}"
  | childNotFinished child state =>
    s!"next not allowed: child '{child}' is in state {state.text}"
  | notFinalized state => s!"the page has not been written completely (state {state.text})"
  | io fault => "cannot write to sink: " ++ fault.message

/-- The calls a block understands. -/
inductive Call (σ : Type) where
  /-- Begins a pass on the root, writing to a new sink. -/
  | startWith (sink : σ)
  /-- Writes a nested block, once more if it has been written. -/
  | start
  /-- Leaves a nested block out. -/
  | skip
  /-- Closes the current nested block and writes the text behind it. -/
  | next
  /-- Checks that the root is written completely. -/
  | finish
  /-- Gives a variable the value it has from the next writing on. -/
  | set (name value : String)

/-- What a call leaves: the block, the bound sink, the verdict, and what happened. -/
structure Outcome (σ : Type) where
  block : Block
  sink : Option σ
  result : Except RenderError Unit
  events : List Event

namespace Block

/-- The texts of gap `k` with the current values of the variables, in the order they are
written. -/
def gapTexts (b : Block) (k : Nat) : List String :=
  (b.gap k).flatMap fun s => s.text :: (s.var.map b.vars.value).toList

/-- The bytes of gap `k` with the current values of the variables. -/
def gapBytes (b : Block) (k : Nat) : List UInt8 :=
  (b.gapTexts k).flatMap bytes

mutual

/-- Takes back a pass in progress: the block and, down the chain of active blocks, whatever
it was writing. -/
def reset : Block → Block
  | ⟨name, vs, gaps, cs, span, .active k⟩ => ⟨name, vs, gaps, resetAt k cs, span, .out⟩
  | ⟨name, vs, gaps, cs, span, _⟩ => ⟨name, vs, gaps, cs, span, .out⟩

def resetAt : Nat → List Block → List Block
  | _, [] => []
  | 0, c :: cs => c.reset :: cs
  | k + 1, c :: cs => c :: resetAt k cs

end

/-- Puts the block in a new state. -/
def enter (b : Block) (state : State) : Block × List Event :=
  ({ b with state := state }, [.note (.changedState b.name b.state state)])

/-- Goes on behind gap `k`: nested block `k` is waited for, or the block is written. -/
def moveOn (b : Block) (k : Nat) : Block × List Event :=
  if k < b.children.length then
    (b.modifyChild k fun c => { c with state := .ready }).enter (.active k)
  else
    b.enter .used

section

variable {σ : Type} [Sink σ]

/-- Writes gap `k`. Behind the last gap of the root the sink is flushed. -/
def writeGap (b : Block) (k : Nat) (sink : σ) : Written σ :=
  let w := Sink.writeEach sink ((b.gapTexts k).map bytes)
  if w.fault.isNone && b.isRoot && k == b.children.length then
    let f := Sink.flushNow w.sink
    { f with events := w.events ++ f.events }
  else w

/-- A call that is refused. -/
def refuse (b : Block) (sink : Option σ) (e : RenderError) : Outcome σ :=
  ⟨b, sink, .error e, []⟩

/-- Begins a pass on the root. A pass in progress is abandoned once the first gap is written;
until then the previous sink stays bound. -/
def startWith (b : Block) (bound : Option σ) (sink : σ) : Outcome σ :=
  if b.isRoot then
    let w := b.writeGap 0 sink
    match w.fault with
    | some fault => ⟨b, bound, .error (.io fault), w.events⟩
    | none =>
      let (fresh, restarted) :=
        if b.state.isActive then (b.reset, [Event.note (.restarted b.state)]) else (b, [])
      let (b, moved) := fresh.moveOn 0
      ⟨b, some w.sink, .ok (), w.events ++ restarted ++ moved⟩
  else b.refuse bound .wrongMethod

/-- Writes gap `k` of `b`, then leaves `after` moved on behind that gap. -/
def writeThen (b after : Block) (k : Nat) (bound : Option σ) : Outcome σ :=
  match bound with
  | none => b.refuse none (.io .unbound)
  | some sink =>
    let w := b.writeGap k sink
    match w.fault with
    | some fault => ⟨b, some w.sink, .error (.io fault), w.events⟩
    | none =>
      let (b, moved) := after.moveOn k
      ⟨b, some w.sink, .ok (), w.events ++ moved⟩

/-- Writes a nested block up to its first nested block. -/
def start (b : Block) (bound : Option σ) : Outcome σ :=
  if b.isRoot then b.refuse bound .wrongMethod
  else if b.state = .ready ∨ b.state = .used then b.writeThen b 0 bound
  else b.refuse bound (.invalidState b.state)

/-- Leaves a nested block out of the current repetition of its parent. -/
def skip (b : Block) (bound : Option σ) : Outcome σ :=
  if b.isRoot then b.refuse bound .wrongMethod
  else if b.state = .ready then
    let (b, moved) := b.enter .closed
    ⟨b, bound, .ok (), moved⟩
  else b.refuse bound (.invalidState b.state)

/-- Closes the current nested block and writes the gap behind it. -/
def next (b : Block) (bound : Option σ) : Outcome σ :=
  match b.state with
  | .active k =>
    match b.children[k]? with
    | none => b.refuse bound (.invalidState b.state)
    | some child =>
      if child.state = .used ∨ child.state = .closed then
        b.writeThen (b.modifyChild k fun c => { c with state := .out }) (k + 1) bound
      else b.refuse bound (.childNotFinished (child.name.getD "") child.state)
  | state => b.refuse bound (.invalidState state)

/-- Checks that the root has been written completely. -/
def finish (b : Block) (bound : Option σ) : Outcome σ :=
  if b.isRoot then
    if b.state = .used then ⟨b, bound, .ok (), []⟩
    else b.refuse bound (.notFinalized b.state)
  else b.refuse bound .wrongMethod

/-- Assigns a variable of a block that is not in progress. A name the block does not declare
is noted and otherwise ignored. -/
def setVariable (b : Block) (bound : Option σ) (name value : String) : Outcome σ :=
  if b.state.isActive then b.refuse bound (.invalidState b.state)
  else
    match b.vars.assign? name value with
    | some vs => ⟨{ b with vars := vs }, bound, .ok (), []⟩
    | none => ⟨b, bound, .ok (), [.note (.unknownVariable b.name name)]⟩

/-- Makes a call on a block. -/
def call (b : Block) (bound : Option σ) : Call σ → Outcome σ
  | .startWith sink => b.startWith bound sink
  | .start => b.start bound
  | .skip => b.skip bound
  | .next => b.next bound
  | .finish => b.finish bound
  | .set name value => b.setVariable bound name value

/-- Makes a call on the block that a path of names leads to, if there is one. -/
def callAt (b : Block) (bound : Option σ) (c : Call σ) : List String → Option (Outcome σ)
  | [] => some (b.call bound c)
  | name :: path =>
    match b.childIndex? name with
    | none => none
    | some k =>
      (b.children[k]?.bind fun child => child.callAt bound c path).map fun o =>
        { o with block := b.modifyChild k fun _ => o.block }

end

end Block

/-- A template and the sink of its current pass. -/
structure Page (σ : Type) where
  root : Block
  sink : Option σ

namespace Page

variable {σ : Type}

/-- A template on which no pass has been begun. -/
def ofTemplate (root : Block) : Page σ := ⟨root, none⟩

/-- What a call on a page leaves. -/
structure Reply (σ : Type) where
  page : Page σ
  result : Except RenderError Unit
  events : List Event

/-- Makes a call on the block that a path of names leads to, if there is one. -/
def call? [Sink σ] (p : Page σ) (path : List String) (c : Call σ) : Option (Reply σ) :=
  (p.root.callAt p.sink c path).map fun o => ⟨⟨o.block, o.sink⟩, o.result, o.events⟩

end Page

end Stencil

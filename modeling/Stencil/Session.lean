import Stencil.Fill

/-!
# Sessions

A session makes one call after another on a page and keeps count of the sinks that were made
for it, so that what happens can be told sink by sink. Every sink is of limited size.
-/

namespace Stencil

/-- A sink with the number it was given when it was made. -/
structure Tap where
  number : Nat
  quota : Quota
  deriving Repr, BEq, DecidableEq

instance : Sink Tap where
  write t bs := let (r, q) := Sink.write t.quota bs; (r, { t with quota := q })
  flush t := let (r, q) := Sink.flush t.quota; (r, { t with quota := q })

/-- The step of a session. A path leads from the root to a block. -/
inductive SessionStep where
  /-- A call other than one that begins a pass. -/
  | call (path : List String) (c : Call Empty)
  /-- Begins a pass with a new sink. -/
  | startWith (path : List String) (settings : QuotaSettings)
  /-- Fills the template, writing to a new sink. -/
  | fill (fields : Fields) (settings : QuotaSettings)
  /-- Gives the bound sink other settings. -/
  | configure (settings : QuotaSettings)
  /-- Looks at a block. -/
  | look (path : List String)

/-- What a step of a session answers. -/
inductive SessionReply where
  | done
  | refused (e : RenderError)
  | noSuchBlock
  | noSink
  | filled (result : Except FillError (List Warning))
  | block (b : Block)

/-- The page of a session and the number of sinks made so far. -/
structure Session where
  page : Page Tap
  sinks : Nat

namespace Session

/-- A session on a template that has not been written. -/
def ofTemplate (root : Block) : Session := ⟨.ofTemplate root, 0⟩

/-- The number of the bound sink. -/
def bound (s : Session) : Option Nat := s.page.sink.map (·.number)

/-- What the bound sink has taken. -/
def output (s : Session) : Option (List UInt8) := s.page.sink.map (·.quota.taken.toList)

/-- A new sink, and the session that has made it. -/
def newSink (s : Session) (settings : QuotaSettings) : Tap × Session :=
  (⟨s.sinks, settings, #[]⟩, { s with sinks := s.sinks + 1 })

/-- A step's reply, the session after it, the sink that was used, and what happened. -/
structure Turn where
  reply : SessionReply
  session : Session
  sink : Option Nat
  events : List Event

/-- A call that takes no sink, whatever the sinks are. -/
def Call.free {σ : Type} : Call Empty → Call σ
  | .startWith sink => nomatch sink
  | .start => .start
  | .skip => .skip
  | .next => .next
  | .finish => .finish
  | .set name value => .set name value

/-- Makes a call, whose writing goes to sink `used`. -/
def makeCall (s : Session) (path : List String) (c : Call Tap) (used : Option Nat) : Turn :=
  match s.page.call? path c with
  | none => ⟨.noSuchBlock, s, none, []⟩
  | some r =>
    let reply := match r.result with
      | .ok _ => SessionReply.done
      | .error e => .refused e
    ⟨reply, { s with page := r.page }, used, r.events⟩

/-- Makes one step. -/
def step (s : Session) : SessionStep → Turn
  | .call path c => s.makeCall path (Call.free c) s.bound
  | .startWith path settings =>
    let (tap, s) := s.newSink settings
    s.makeCall path (.startWith tap) (some tap.number)
  | .fill fields settings =>
    let (tap, s) := s.newSink settings
    let f := s.page.fill fields tap
    ⟨.filled f.result, { s with page := f.page }, some tap.number, f.events⟩
  | .configure settings =>
    match s.page.sink with
    | none => ⟨.noSink, s, none, []⟩
    | some tap =>
      let tap := { tap with quota := { tap.quota with settings := settings } }
      ⟨.done, { s with page := { s.page with sink := some tap } }, none, []⟩
  | .look path =>
    match s.page.root.descend? path with
    | none => ⟨.noSuchBlock, s, none, []⟩
    | some b => ⟨.block b, s, none, []⟩

end Session

/-- What a sink sees, with neighbouring writes joined. -/
inductive Sight where
  | wrote (bytes : List UInt8)
  | flushed (accepted : Bool)
  deriving Repr, BEq, DecidableEq

/-- What a sink sees of some events. -/
def Event.sights : List Event → List Sight
  | [] => []
  | .note _ :: rest => sights rest
  | .flushed accepted :: rest => .flushed accepted :: sights rest
  | .wrote bs :: rest =>
    match sights rest with
    | .wrote more :: others => .wrote (bs ++ more) :: others
    | others => .wrote bs :: others

end Stencil

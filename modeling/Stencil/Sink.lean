import Stencil.Note
import Stencil.Text.Utf8

/-!
# Sinks

A sink takes bytes. It may take only part of what it is offered, refuse, or take nothing; a
flush may be refused too. `Sink.writeAll` offers a text until it is taken or the sink gives
up, and lists what happened. `Buffer` takes everything; `Quota` takes a set number of bytes.

A `write` stands for one offer together with its repetitions: an offer that is merely interrupted
is made again until it is not, so that being interrupted is none of the faults.
-/

namespace Stencil

/-- Why a sink gave up. Faults of the system that owns the sink come under `closed`. -/
inductive SinkFault where
  /-- It was closed. -/
  | closed
  /-- It took nothing of a text that was not empty. -/
  | tookNothing
  | flushRefused
  /-- There is no sink. -/
  | unbound
  deriving Repr, BEq, DecidableEq

/-- The wording of a sink's fault. -/
def SinkFault.message : SinkFault → String
  | closed => "closed"
  | tookNothing => "failed to write whole buffer"
  | flushRefused => "flush refused"
  | unbound => "no sink bound"

/-- What happened during a call, in order: bytes a sink took, flushes it was asked for and
whether it agreed, and notes. -/
inductive Event where
  | wrote (bytes : List UInt8)
  | flushed (accepted : Bool)
  | note (note : Note)
  deriving Repr, BEq, DecidableEq

namespace Event

/-- The bytes taken during some events. -/
def written (events : List Event) : List UInt8 :=
  events.flatMap fun e => match e with | wrote bs => bs | _ => []

/-- The notes among some events. -/
def notes (events : List Event) : List Note :=
  events.filterMap fun e => match e with | note n => some n | _ => none

@[simp] theorem written_nil : written [] = [] := rfl

@[simp] theorem written_append (xs ys : List Event) :
    written (xs ++ ys) = written xs ++ written ys := by
  simp [written]

end Event

/-- Things that take bytes. -/
class Sink (σ : Type) where
  /-- Offers bytes: how many were taken from the front, or why none were. -/
  write : σ → List UInt8 → Except SinkFault Nat × σ
  /-- Asks that everything taken be passed on. -/
  flush : σ → Except SinkFault Unit × σ

/-- What is left of a sink after some writing: its fault, if it gave up, and the events. -/
structure Written (σ : Type) where
  sink : σ
  fault : Option SinkFault
  events : List Event

namespace Sink

variable {σ : Type} [Sink σ]

/-- Offers bytes until all are taken or the sink gives up. Nothing is offered when there are
none. -/
def writeAll (s : σ) (bs : List UInt8) : Written σ :=
  if _ : bs = [] then ⟨s, none, []⟩
  else
    match write s bs with
    | (.error fault, s) => ⟨s, some fault, []⟩
    | (.ok 0, s) => ⟨s, some .tookNothing, []⟩
    | (.ok (n + 1), s) =>
      let w := writeAll s (bs.drop (n + 1))
      { w with events := .wrote (bs.take (n + 1)) :: w.events }
  termination_by bs.length
  decreasing_by
    have := List.length_pos_iff.2 ‹¬bs = []›
    simp only [List.length_drop]; omega

/-- Writes several texts, one after the other, until the sink gives up. -/
def writeEach (s : σ) : List (List UInt8) → Written σ
  | [] => ⟨s, none, []⟩
  | bs :: rest =>
    let first := writeAll s bs
    match first.fault with
    | some _ => first
    | none =>
      let others := writeEach first.sink rest
      { others with events := first.events ++ others.events }

/-- Flushes the sink. -/
def flushNow (s : σ) : Written σ :=
  match flush s with
  | (.ok _, s) => ⟨s, none, [.flushed true]⟩
  | (.error fault, s) => ⟨s, some fault, [.flushed false]⟩

end Sink

/-- A sink in memory that takes everything. -/
structure Buffer where
  taken : Array UInt8
  deriving Repr, BEq, DecidableEq

/-- A buffer that has taken nothing. -/
def Buffer.empty : Buffer := ⟨#[]⟩

instance : Sink Buffer where
  write b bs := (.ok bs.length, ⟨b.taken ++ bs⟩)
  flush b := (.ok (), b)

/-- How a sink of limited size behaves: the bytes it takes in all, whether it then takes
nothing instead of refusing, and how many flushes it will refuse. -/
structure QuotaSettings where
  limit : Option Nat
  takesNothing : Bool
  flushFaults : Nat
  deriving Repr, BEq, DecidableEq

/-- A sink of limited size. -/
structure Quota where
  settings : QuotaSettings
  taken : Array UInt8
  deriving Repr, BEq, DecidableEq

/-- How many of `n` bytes a sink of limited size has room for. -/
def Quota.room (q : Quota) (n : Nat) : Nat :=
  match q.settings.limit with
  | none => n
  | some limit => min n (limit - q.taken.size)

instance : Sink Quota where
  write q bs :=
    match q.room bs.length with
    | 0 => (if q.settings.takesNothing || bs.isEmpty then .ok 0 else .error .closed, q)
    | n + 1 => (.ok (n + 1), { q with taken := q.taken ++ bs.take (n + 1) })
  flush q :=
    match q.settings.flushFaults with
    | 0 => (.ok (), q)
    | n + 1 => (.error .flushRefused, { q with settings := { q.settings with flushFaults := n } })

namespace Quota

variable {q : Quota} {bs : List UInt8}

/-- A sink of limited size takes what it has room for. -/
theorem write_of_room {n : Nat} (room : q.room bs.length = n + 1) :
    Sink.write q bs = (.ok (n + 1), { q with taken := q.taken ++ bs.take (n + 1) }) := by
  simp only [Sink.write, room]

/-- Without room it takes nothing, or refuses. -/
theorem write_of_full (room : q.room bs.length = 0) :
    Sink.write q bs = (if q.settings.takesNothing || bs.isEmpty then .ok 0 else .error .closed, q) := by
  simp only [Sink.write, room]

theorem flush_of_agreeing (agreeing : q.settings.flushFaults = 0) : Sink.flush q = (.ok (), q) := by
  simp only [Sink.flush, agreeing]

end Quota

end Stencil

import Stencil.Proofs.Granted

/-!
# Decisions

Before any sink is asked, a block decides on a call from its name, its states and its variables: it refuses
the call, it changes and writes nothing, or it writes a gap and then changes. Only a gap that fails keeps it
from carrying the decision out (`call_eq_carryOut`). Two blocks are compared by their decisions, whatever their
sinks do.
-/

namespace Stencil

/-- What a block makes of a call: the refusal, or the block it leaves and what it notes, once the gap that is
due has gone through. -/
inductive Decision where
  | refuse (e : RenderError)
  | settle (after : Block) (notes : List Note)
  | write (k : Nat) (after : Block) (notes : List Note)

/-- The same decision on another block. -/
def Decision.map (f : Block → Block) : Decision → Decision
  | refuse e => refuse e
  | settle after notes => settle (f after) notes
  | write k after notes => write k (f after) notes

variable {σ : Type}

namespace Block

/-- What is noted when the block goes on behind gap `k`. -/
def moveNote (b : Block) (k : Nat) : Note :=
  .changedState b.name b.state (if k < b.children.length then .active k else .used)

theorem moveOn_snd (b : Block) (k : Nat) : (b.moveOn k).2 = [.note (b.moveNote k)] := by
  rw [moveOn, moveNote]
  split <;> rfl

/-- The block in front of a new pass. -/
def restarted (b : Block) : Block := if b.state.isActive then b.reset else b

/-- What is noted when a pass is begun in the middle of another one. -/
def restartNotes (b : Block) : List Note := if b.state.isActive then [.restarted b.state] else []

/-- The block with nested block `k` out of the way. -/
def shut (b : Block) (k : Nat) : Block := b.modifyChild k fun c => { c with state := .out }

/-- What a block decides on a call. -/
def decision (b : Block) : Call σ → Decision
  | .startWith _ =>
    if b.isRoot then .write 0 (b.restarted.moveOn 0).1 (b.restartNotes ++ [b.restarted.moveNote 0])
    else .refuse .wrongMethod
  | .start =>
    if b.isRoot then .refuse .wrongMethod
    else if b.state = .ready ∨ b.state = .used then .write 0 (b.moveOn 0).1 [b.moveNote 0]
    else .refuse (.invalidState b.state)
  | .skip =>
    if b.isRoot then .refuse .wrongMethod
    else if b.state = .ready then .settle { b with state := .closed } [.changedState b.name b.state .closed]
    else .refuse (.invalidState b.state)
  | .next =>
    match b.state with
    | .active k =>
      match b.children[k]? with
      | none => .refuse (.invalidState b.state)
      | some child =>
        if child.state = .used ∨ child.state = .closed then
          .write (k + 1) ((b.shut k).moveOn (k + 1)).1 [(b.shut k).moveNote (k + 1)]
        else .refuse (.childNotFinished (child.name.getD "") child.state)
    | state => .refuse (.invalidState state)
  | .finish =>
    if b.isRoot then if b.state = .used then .settle b [] else .refuse (.notFinalized b.state)
    else .refuse .wrongMethod
  | .set name value =>
    if b.state.isActive then .refuse (.invalidState b.state)
    else
      match b.vars.assign? name value with
      | some vs => .settle { b with vars := vs } []
      | none => .settle b [.unknownVariable b.name name]

end Block

variable [Sink σ]

/-- What comes of a decision of block `b` when its gap is written to the sink the call is meant for. -/
def Decision.carryOut (b : Block) (bound : Option σ) (c : Call σ) : Decision → Outcome σ
  | refuse e => b.refuse bound e
  | settle after notes => ⟨after, bound, .ok (), notes.map .note⟩
  | write k after notes =>
    match c.target bound with
    | none => b.refuse bound (.io .unbound)
    | some sink =>
      let w := b.writeGap k sink
      match w.fault with
      | some fault => ⟨b, c.kept bound w.sink, .error (.io fault), w.events⟩
      | none => ⟨after, some w.sink, .ok (), w.events ++ notes.map .note⟩

namespace Block

theorem startWith_eq (b : Block) (bound : Option σ) (s : σ) :
    b.startWith bound s = (b.decision (.startWith s)).carryOut b bound (.startWith s) := by
  rw [startWith, decision]
  split
  · simp only [Decision.carryOut, Call.target, Call.kept]
    cases (b.writeGap 0 s).fault with
    | some fault => rfl
    | none =>
      simp only [restarted, restartNotes]
      split <;> simp [moveOn_snd]
  · rfl

theorem writeThen_eq {c : Call σ} {bound : Option σ} (b after : Block) (k : Nat) (target : c.target bound = bound)
    (kept : ∀ t, c.kept bound t = some t) :
    b.writeThen after k bound =
      (Decision.write k (after.moveOn k).1 [after.moveNote k]).carryOut b bound c := by
  rw [Decision.carryOut, target]
  cases bound with
  | none => rfl
  | some s =>
    simp only [writeThen, kept]
    cases (b.writeGap k s).fault with
    | some fault => rfl
    | none => simp only [moveOn_snd, List.map_cons, List.map_nil]

theorem next_eq (b : Block) (bound : Option σ) :
    b.next bound = (b.decision (.next : Call σ)).carryOut b bound .next := by
  cases here : b.state with
  | active k =>
    simp only [next, decision, here]
    cases b.children[k]? with
    | none => rfl
    | some child =>
      simp only
      split
      · exact writeThen_eq (c := .next) b (b.shut k) (k + 1) rfl fun _ => rfl
      · rfl
  | _ =>
    simp only [next, decision, here]
    rfl

/-- **A call carries out what its block decides.** -/
theorem call_eq_carryOut (b : Block) (bound : Option σ) (c : Call σ) :
    b.call bound c = (b.decision c).carryOut b bound c := by
  cases c with
  | startWith s => exact b.startWith_eq bound s
  | start =>
    rw [call, start, decision]
    split
    · rfl
    · split
      · exact writeThen_eq (c := .start) b b 0 rfl fun _ => rfl
      · rfl
  | skip =>
    rw [call, skip, decision]
    split
    · rfl
    · split <;> rfl
  | next => exact b.next_eq bound
  | finish =>
    rw [call, finish, decision]
    split
    · split <;> rfl
    · rfl
  | set name value =>
    rw [call, setVariable, decision]
    split
    · rfl
    · cases b.vars.assign? name value <;> rfl

end Block

end Stencil

import Stencil.Proofs.Flushes
import Stencil.Proofs.Misfits
import Stencil.Proofs.Rationed
import Stencil.Proofs.Recast

/-!
# The variables of one block

Two runs of the same calls that differ only in the values they give to the variables of one block agree on
everything but what that block writes. Muted, the trees of both runs stay equal: `Recast.muting` forgets the
values of some blocks, and what a block decides can be read off its muted tree (`decision_alike`). Over sinks
that never fail nothing but the decisions counts (`callAt_alike`), so the runs go on side by side
(`Page.variables_stay_apart`).
-/

namespace Stencil

open Block

variable {σ : Type}

/-- Forgets the values of the variables of some blocks. -/
def Recast.muting (own : List String → Bool) : Recast :=
  ⟨fun path vs => if own path then vs.pristine else vs, id⟩

/-- Two calls that are the same but for the value they give a variable, if it is one of a muted block. -/
inductive Call.Varies (muted : Bool) : Call σ → Call σ → Prop where
  | same (c : Call σ) : Varies muted c c
  | value (here : muted = true) (name v w : String) : Varies muted (.set name v) (.set name w)

/-! ## Decisions of muted blocks -/

namespace Block

variable {own : List String → Bool} {a b : Block} {c d : Call σ}

/-- What a muted block decides on an assignment does not depend on the value, and cannot be seen. -/
theorem decision_set_muted (muted : own [] = true) (b : Block) (name value : String) :
    (b.decision (.set name value : Call σ)).map (·.recast (.muting own)) =
      (let m := b.recast (.muting own)
      if m.state.isActive then .refuse (.invalidState m.state)
      else .settle m (if m.vars.declares name then [] else [.unknownVariable m.name name])) := by
  have vars : (b.recast (.muting own)).vars = b.vars.pristine := by
    rw [vars_recast]
    exact if_pos muted
  simp only [decision, state_recast, name_recast, vars, declares_pristine]
  split
  · rfl
  · rw [Variables.declares]
    cases assigned : b.vars.assign? name value with
    | none =>
      have unknown : b.vars.indexOf? name = none := Option.map_eq_none_iff.1 assigned
      simp [Decision.map, unknown]
    | some vs =>
      obtain ⟨i, known, -⟩ := Option.map_eq_some_iff.1 assigned
      have same : (Recast.muting own).vars [] vs = (Recast.muting own).vars [] b.vars := by
        simp only [Recast.muting, muted, if_true, Variables.pristine_assign? assigned]
      simp [Decision.map, known, recast_eq, same]

/-- Blocks that are alike when muted decide alike. -/
theorem decision_alike (alike : a.recast (.muting own) = b.recast (.muting own)) (varies : c.Varies (own []) d) :
    (a.decision c).map (·.recast (.muting own)) = (b.decision d).map (·.recast (.muting own)) := by
  have both (muted : own [] = true) (name v w : String) :
      (a.decision (.set name v : Call σ)).map (·.recast (.muting own)) =
        (b.decision (.set name w : Call σ)).map (·.recast (.muting own)) := by
    rw [decision_set_muted muted, decision_set_muted muted, alike]
  cases varies with
  | value muted name v w => exact both muted name v w
  | same =>
    -- Only an assignment looks at what is muted.
    by_cases sets : own [] = true ∧ ∃ name value, c = .set name value
    · obtain ⟨muted, name, value, rfl⟩ := sets
      exact both muted name value value
    · have assigns (x : Block) (name value : String) (set_ : c = .set name value) :
          ((Recast.muting own).vars [] x.vars).assign? name value =
            (x.vars.assign? name value).map ((Recast.muting own).vars []) := by
        have open_ : (Recast.muting own).vars [] = id := by
          have unmuted : own [] = false := by simpa using fun muted => sets ⟨muted, name, value, set_⟩
          funext vs
          simp [Recast.muting, unmuted]
        rw [open_, Option.map_id]
        rfl
      rw [← decision_recast _ a c (assigns a), alike, decision_recast _ b c (assigns b)]

/-- On a path in trees that are alike when muted the same gap is due. -/
theorem gapOf?_alike {path : List String} (alike : a.recast (.muting own) = b.recast (.muting own))
    (varies : c.Varies (own path) d) :
    (a.descend? path).map (·.gapOf? c) = (b.descend? path).map (·.gapOf? d) := by
  have gap (x : Block) (e : Call σ) :
      ((x.recast (.muting own)).descend? path).map (·.gapOf? e) = (x.descend? path).map (·.gapOf? e) := by
    rw [descend?_recast, Option.map_map]
    simp only [Function.comp_def, gapOf?_recast]
  have calls (x : Block) : x.gapOf? c = x.gapOf? d := by cases varies <;> rfl
  rw [← gap, alike, gap]
  simp only [calls]

/-- Blocks that are not muted have the same text in their gaps. -/
theorem gapBytes_alike (alike : a.recast (.muting own) = b.recast (.muting own)) (open_ : own [] = false) (k : Nat) :
    a.gapBytes k = b.gapBytes k := by
  have vars : a.vars = b.vars := by
    have muted := congrArg Block.vars alike
    simpa [Recast.muting, open_] using muted
  have gaps : a.gaps = b.gaps := by
    have same := congrArg Block.gaps alike
    simpa using same
  rw [gapBytes, gapBytes, gapTexts, gapTexts, gap, gap, vars, gaps]

end Block

/-! ## Outcomes over sinks that never fail -/

/-- Nothing is bound in either place, or a sink that has not failed in both. -/
abbrev Bindings (fine : σ → Prop) : Option σ → Option σ → Prop := Option.Rel fun s t => fine s ∧ fine t

theorem Call.Varies.target {fine : σ → Prop} {muted : Bool} {c d : Call σ} {x y : Option σ}
    (varies : c.Varies muted d) (good : ∀ s, c = .startWith s → fine s) (bound : Bindings fine x y) :
    Bindings fine (c.target x) (d.target y) := by
  cases varies with
  | value => exact bound
  | same =>
    cases c with
    | startWith s => exact .some ⟨good s rfl, good s rfl⟩
    | _ => exact bound

/-- A name that a block does not declare can be assigned, and nothing changes. -/
theorem GrantedAt.set_undeclared {b b' : Block} {path : List String} {name value : String}
    (h : GrantedAt b path (.set name value : Call σ) b')
    (unknown : ∀ d, b.descend? path = some d → d.vars.declares name = false) : b' = b := by
  generalize set_ : (.set name value : Call σ) = c at h
  induction h with
  | @self b _ _ granted =>
    subst set_
    cases granted with
    | set =>
      have none_ : b.vars.assign? name value = none := by
        have undeclared := unknown b rfl
        rw [Variables.declares, Option.isSome_eq_false_iff, Option.isNone_iff_eq_none] at undeclared
        rw [Variables.assign?, undeclared, Option.map_none]
      rw [none_, Option.getD_none, mk_fields]
  | nested index child _ ih =>
    rw [ih (fun d target => unknown d ((descend?_child index child _).trans target)) set_, modifyChild_self child]

variable [Sink σ]

/-- Two outcomes with the same verdict, with trees that are alike when muted, and with sinks that have not
failed in the same places. -/
structure Outcome.Alike (own : List String → Bool) (fine : σ → Prop) (o q : Outcome σ) : Prop where
  block : o.block.recast (.muting own) = q.block.recast (.muting own)
  sink : Bindings fine o.sink q.sink
  result : o.result = q.result

/-- Of a gap that goes through, all bytes are taken. -/
theorem Block.written_writeGap {b : Block} {k : Nat} {s : σ} (faultless : (b.writeGap k s).fault = none) :
    Event.written (b.writeGap k s).events = b.gapBytes k := by
  have pieces_written (pieces : List (List UInt8)) : Event.written (pieces.map .wrote) = pieces.flatten := by
    rw [Event.written, List.flatMap_map, List.flatMap_def, List.map_id']
  obtain ⟨pieces, whole, events⟩ := writeGap_whole faultless
  have flush : Event.written (if b.isRoot = true ∧ k = b.children.length then [.flushed true] else []) = [] := by
    split <;> rfl
  rw [events, Event.written_append, pieces_written, flush, List.append_nil, whole]

section

variable {own : List String → Bool} {fine : σ → Prop} {seen : σ → List UInt8} (steady : Sink.Steady fine seen)
  {a b : Block} {c c' : Call σ} {x y : Option σ}

include steady

/-- Decisions that are alike when muted are carried out alike, and unless the block is muted they write the
same. -/
theorem Decision.carryOut_alike {d e : Decision}
    (same : d.map (·.recast (.muting own)) = e.map (·.recast (.muting own)))
    (alike : a.recast (.muting own) = b.recast (.muting own)) (bound : Bindings fine x y)
    (aim : Bindings fine (c.target x) (c'.target y)) :
    (d.carryOut a x c).Alike own fine (e.carryOut b y c') ∧
      (own [] = false → Event.written (d.carryOut a x c).events = Event.written (e.carryOut b y c').events) := by
  cases d with
  | refuse =>
    cases e with
    | refuse =>
      cases same
      exact ⟨⟨alike, bound, rfl⟩, fun _ => rfl⟩
    | _ => cases same
  | settle after notes =>
    cases e with
    | settle after' =>
      injection same with blocks told
      subst told
      exact ⟨⟨blocks, bound, rfl⟩, fun _ => rfl⟩
    | _ => cases same
  | write k after notes =>
    cases e with
    | write k' after' =>
      injection same with gap blocks told
      subst gap told
      rw [carryOut, carryOut]
      cases hx : c.target x with
      | none =>
        cases hy : c'.target y with
        | none => exact ⟨⟨alike, bound, rfl⟩, fun _ => rfl⟩
        | some t => rw [hx, hy] at aim; cases aim
      | some s =>
        cases hy : c'.target y with
        | none => rw [hx, hy] at aim; cases aim
        | some t =>
          rw [hx, hy] at aim
          cases aim with
          | some good =>
            have first := steady.writeGap good.1 a k
            have second := steady.writeGap good.2 b k
            simp only [first.fault, second.fault]
            refine ⟨⟨blocks, .some ⟨first.fine, second.fine⟩, rfl⟩, fun open_ => ?_⟩
            rw [Event.written_append, Event.written_append, written_writeGap first.fault,
              written_writeGap second.fault, gapBytes_alike alike open_]
    | _ => cases same

omit steady in
/-- A call leaves the name of the block. -/
theorem Block.name_callAt {path : List String} {o : Outcome σ} (call : a.callAt x c path = some o) :
    o.block.name = a.name := by
  obtain ⟨_, answer⟩ := answerAt call
  cases verdict : o.result with
  | ok => exact name_eq_of_pristine_eq (answer.granted verdict).pristine
  | error e => rw [answer.refused e verdict]

/-- A call on the same path in two trees that are alike when muted has alike outcomes, and unless the block it
is made on is muted it writes the same. -/
theorem Block.callAt_alike {path : List String} (alike : a.recast (.muting own) = b.recast (.muting own))
    (varies : c.Varies (own path) c') (good : ∀ s, c = .startWith s → fine s) (bound : Bindings fine x y) :
    (a.callAt x c path = none ∧ b.callAt y c' path = none) ∨
      ∃ o q, a.callAt x c path = some o ∧ b.callAt y c' path = some q ∧ o.Alike own fine q ∧
        (own path = false → Event.written o.events = Event.written q.events) := by
  induction path generalizing a b own with
  | nil =>
    refine .inr ⟨_, _, rfl, rfl, ?_⟩
    rw [call_eq_carryOut, call_eq_carryOut]
    exact Decision.carryOut_alike steady (decision_alike alike varies) alike bound (varies.target good bound)
  | cons name path ih =>
    cases index : a.childIndex? name with
    | none =>
      have missing : b.childIndex? name = none := by
        rw [← childIndex?_recast (.muting own), ← alike, childIndex?_recast, index]
      exact .inl ⟨by rw [callAt, index], by rw [callAt, missing]⟩
    | some k =>
      obtain ⟨index', u, v, here, there, named_u, named_v, below⟩ := exists_children_of_recast_eq alike index
      rw [callAt_child index here, callAt_child index' there]
      rcases ih below varies with ⟨none_u, none_v⟩ | ⟨o, q, call_u, call_v, outcomes, written⟩
      · exact .inl ⟨by rw [none_u]; rfl, by rw [none_v]; rfl⟩
      · rw [call_u, call_v]
        refine .inr ⟨_, _, rfl, rfl, ⟨?_, outcomes.sink, outcomes.result⟩, written⟩
        have changed : recastIn (.muting own) o.block = recastIn (.muting own) q.block := by
          rw [recastIn_named ((name_callAt call_u).trans named_u), recastIn_named ((name_callAt call_v).trans named_v)]
          exact outcomes.block
        rw [recast_put, recast_put, alike, changed]

end

/-! ## Runs -/

namespace Page

namespace Attempt

/-- The gap that was written, with the path of its block. -/
def gap? (a : Attempt σ) : Option (List String × Nat) :=
  if a.succeeded then (a.block.gapOf? a.call).map (a.path, ·) else none

/-- Two calls of two runs agree on all but what the block at `own` writes: the verdict, the states behind it,
and the gap that is written, with its bytes if it is one of another block. -/
structure Agrees (own : List String) (a b : Attempt σ) : Prop where
  path : a.path = b.path
  verdict : a.reply?.map (·.result) = b.reply?.map (·.result)
  states : a.after.root.states = b.after.root.states
  gap : a.gap? = b.gap?
  written : a.path ≠ own → Event.written a.events = Event.written b.events

end Attempt

/-- Two calls that are the same, or assign a variable of the block at `own`. -/
def Vary (own : List String) (x y : List String × Call σ) : Prop :=
  x.1 = y.1 ∧ x.2.Varies (x.1 == own) y.2

/-- Two pages that are alike when the block at `own` is muted, with sinks that have not failed. -/
structure Alike (own : List String) (fine : σ → Prop) (p q : Page σ) : Prop where
  root : p.root.recast (.muting (· == own)) = q.root.recast (.muting (· == own))
  sink : Bindings fine p.sink q.sink

section

variable {fine : σ → Prop} {seen : σ → List UInt8} (steady : Sink.Steady fine seen) {own : List String}

include steady

/-- On pages that are alike, calls that vary agree and leave pages that are alike. -/
theorem Alike.attempt {a b : Attempt σ} (alike : a.before.Alike own fine b.before)
    (vary : Vary own (a.path, a.call) (b.path, b.call)) (good : ∀ s, a.call = .startWith s → fine s) :
    a.after.Alike own fine b.after ∧ a.Agrees own b := by
  obtain ⟨p, path, c⟩ := a
  obtain ⟨q, path', c'⟩ := b
  obtain ⟨same_path, varies⟩ := vary
  obtain ⟨roots, sinks⟩ := alike
  simp only at same_path varies roots sinks good
  subst same_path
  have states {a b : Block} (alike : a.recast (.muting (· == own)) = b.recast (.muting (· == own))) :
      a.states = b.states := by
    rw [← states_recast (.muting (· == own)), alike, states_recast]
  rcases callAt_alike steady roots varies good sinks with ⟨none_p, none_q⟩ | ⟨o, r, call_p, call_q, outcomes, written⟩
  · have reply_p : Attempt.reply? ⟨p, path, c⟩ = none := by rw [Attempt.reply?, call?, none_p]; rfl
    have reply_q : Attempt.reply? ⟨q, path, c'⟩ = none := by rw [Attempt.reply?, call?, none_q]; rfl
    have after_p : Attempt.after ⟨p, path, c⟩ = p := by rw [Attempt.after, reply_p]; rfl
    have after_q : Attempt.after ⟨q, path, c'⟩ = q := by rw [Attempt.after, reply_q]; rfl
    refine ⟨by rw [after_p, after_q]; exact ⟨roots, sinks⟩, rfl, by rw [reply_p, reply_q], ?_, ?_, fun _ => ?_⟩
    · rw [after_p, after_q]
      exact states roots
    · simp only [Attempt.gap?, Attempt.succeeded, reply_p, reply_q, Option.any_none, Bool.false_eq_true, if_false]
    · simp only [Attempt.events, reply_p, reply_q]
  · have reply_p : Attempt.reply? ⟨p, path, c⟩ = some ⟨⟨o.block, o.sink⟩, o.result, o.events⟩ := by
      rw [Attempt.reply?, call?, call_p]; rfl
    have reply_q : Attempt.reply? ⟨q, path, c'⟩ = some ⟨⟨r.block, r.sink⟩, r.result, r.events⟩ := by
      rw [Attempt.reply?, call?, call_q]; rfl
    have after_p := Attempt.after_eq reply_p
    have after_q := Attempt.after_eq reply_q
    refine ⟨by rw [after_p, after_q]; exact ⟨outcomes.block, outcomes.sink⟩, rfl, ?_, ?_, ?_, fun other => ?_⟩
    · rw [reply_p, reply_q, Option.map_some, Option.map_some, outcomes.result]
    · rw [after_p, after_q]
      exact states outcomes.block
    · obtain ⟨d, answer_p⟩ := Block.answerAt call_p
      obtain ⟨e, answer_q⟩ := Block.answerAt call_q
      have due := gapOf?_alike roots varies
      rw [answer_p.target, answer_q.target, Option.map_some, Option.map_some, Option.some.injEq] at due
      simp only [Attempt.gap?, Attempt.succeeded, Attempt.block, reply_p, reply_q, answer_p.target, answer_q.target,
        Option.any_some, Option.getD_some, outcomes.result, due]
    · rw [Attempt.events_eq reply_p, Attempt.events_eq reply_q]
      exact written (by simpa using other)

/-- On pages that are alike, runs that vary agree call by call. -/
theorem Alike.attempts {p q : Page σ} {calls calls' : List (List String × Call σ)} (alike : p.Alike own fine q)
    (vary : List.Forall₂ (Vary own) calls calls') (good : ∀ path s, (path, .startWith s) ∈ calls → fine s) :
    List.Forall₂ (Attempt.Agrees own) (p.attempts calls) (q.attempts calls') := by
  induction vary generalizing p q with
  | nil => exact .nil
  | @cons x y calls calls' first others ih =>
    obtain ⟨path, c⟩ := x
    obtain ⟨path', c'⟩ := y
    have brought (s : σ) (begins : c = .startWith s) : fine s :=
      good path s (begins ▸ List.mem_cons_self)
    obtain ⟨after, agrees⟩ := Alike.attempt steady (a := ⟨p, path, c⟩) (b := ⟨q, path', c'⟩) alike first brought
    exact .cons agrees (ih after fun path s hs => good path s (List.mem_cons_of_mem _ hs))

end

/-- **The variables of one block stay its own.** From every page whose sink, if it has one, never fails, two
runs of the same calls that bring sinks that never fail, and differ only in the values they give to variables
of the block at `own`, agree call by call: on the verdict, on all states behind it, and on the gap that is
written; and the bytes of that gap are the same unless it is one of that block. To assign a name that a block
does not declare leaves the page as it is, so that all that follows is as without it. -/
theorem variables_stay_apart {fine : σ → Prop} {seen : σ → List UInt8} (steady : Sink.Steady fine seen)
    (p : Page σ) (bound : ∀ t, p.sink = some t → fine t) :
    (∀ own calls calls', List.Forall₂ (Vary own) calls calls' →
      (∀ path s, (path, .startWith s) ∈ calls → fine s) →
      List.Forall₂ (Attempt.Agrees own) (p.attempts calls) (p.attempts calls')) ∧
    (∀ path name value, (∀ d, p.root.descend? path = some d → d.vars.declares name = false) →
      let a : Attempt σ := ⟨p, path, .set name value⟩
      a.after = p ∧ (∃ notes : List Note, a.events = notes.map .note) ∧
        ∀ calls, p.attempts ((path, .set name value) :: calls) = a :: p.attempts calls) := by
  refine ⟨fun own calls calls' vary good => ?_, fun path name value unknown => ?_⟩
  · refine Alike.attempts steady ⟨rfl, ?_⟩ vary good
    cases here : p.sink with
    | none => exact .none
    | some t => exact .some ⟨bound t here, bound t here⟩
  · intro a
    have quiet : a.after = p ∧ ∃ notes : List Note, a.events = notes.map .note := by
      cases reply : a.reply? with
      | none => exact ⟨by rw [Attempt.after, reply]; rfl, [], by rw [Attempt.events, reply]; rfl⟩
      | some r =>
        obtain ⟨d, _, target, own, goes, stays⟩ := answered reply
        have root : r.page.root = p.root := by
          cases verdict : r.result with
          | ok => exact (goes verdict).set_undeclared unknown
          | error e => exact stays e verdict
        rcases own.quiet_or_due with ⟨notes, told, kept, -⟩ | ⟨_, _, _, gap⟩
        · exact ⟨(Attempt.after_eq reply).trans (congrArg₂ Page.mk root kept), notes,
            (Attempt.events_eq reply).trans told⟩
        · cases gap
    refine ⟨quiet.1, quiet.2, fun calls => ?_⟩
    rw [attempts]
    exact congrArg (fun q => a :: q.attempts calls) quiet.1

/-- A nested block is given a placeholder of the block around it in one run, and a tag in the other. -/
theorem variables_stay_apart_nested :
    ∃ (root : Block) (run : String → List (List String × Call Buffer)),
      Template.parse "<!--rep var=x place=X-->X<!--rep blk=b--><!--rep var=x place=Y-->Y<!--/rep-->X" 0 = .ok root ∧
      (∀ v, run v = [([], .startWith Buffer.empty), (["b"], .set "x" v), (["b"], .start), ([], .next)]) ∧
      let p : Page Buffer := .ofTemplate root
      (p.attempts (run "X")).map Attempt.gap? = [some ([], 0), none, some (["b"], 0), some ([], 1)] ∧
      (p.attempts (run "X")).map (fun a => Event.written a.events) ≠
        (p.attempts (run "<!--rep blk=c-->Y")).map (fun a => Event.written a.events) ∧
      List.Forall₂ (Attempt.Agrees ["b"]) (p.attempts (run "X")) (p.attempts (run "<!--rep blk=c-->Y")) := by
  let root : Block := ⟨none, ⟨[⟨"x", "X", "X", ⟨0, 24⟩⟩]⟩,
    [[⟨"", none⟩, ⟨"", some 0⟩, ⟨"", none⟩], [⟨"", some 0⟩, ⟨"", none⟩]],
    [⟨some "b", ⟨[⟨"x", "Y", "Y", ⟨41, 65⟩⟩]⟩, [[⟨"", none⟩, ⟨"", some 0⟩, ⟨"", none⟩]], [], ⟨25, 77⟩, .out⟩],
    ⟨0, 78⟩, .out⟩
  let p : Page Buffer := .ofTemplate root
  let run (v : String) : List (List String × Call Buffer) :=
    [([], .startWith Buffer.empty), (["b"], .set "x" v), (["b"], .start), ([], .next)]
  have parsed : Template.parse
      "<!--rep var=x place=X-->X<!--rep blk=b--><!--rep var=x place=Y-->Y<!--/rep-->X" 0 = .ok root := by
    with_unfolding_all rfl
  have vary (v w : String) : List.Forall₂ (Vary ["b"]) (run v) (run w) :=
    .cons ⟨rfl, .same _⟩ (.cons ⟨rfl, .value rfl "x" v w⟩ (.cons ⟨rfl, .same _⟩ (.cons ⟨rfl, .same _⟩ .nil)))
  obtain ⟨agree, -⟩ := variables_stay_apart Buffer.steady p fun _ _ => trivial
  exact ⟨root, run, parsed, fun _ => rfl, by decide +kernel, by decide +kernel,
    agree ["b"] _ _ (vary _ _) fun _ _ _ => trivial⟩

end Page

end Stencil

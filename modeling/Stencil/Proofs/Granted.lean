import Stencil.Proofs.Steady
import Stencil.Proofs.Tree

/-!
# What a call does

`Granted` says once when a call is granted and what it makes of its block, without the sink;
`GrantedAt` is the same along a path. `Answer` adds the sink: a call is denied, or its gap fails,
or it goes through (`Block.answer`). Everything known about a call on a page is read off these: a
call that succeeds was granted, one that fails leaves every block (`Block.answerAt`), and over sinks
that never fail a granted call succeeds (`AnswerAt.of_granted`).
-/

namespace Stencil

variable {σ : Type}

/-- A call that `b` may be asked for, and the block it leaves. -/
inductive Granted : Block → Call σ → Block → Prop where
  | startWith {b : Block} (sink : σ) (root : b.isRoot = true) :
      Granted b (.startWith sink) ((if b.state.isActive then b.reset else b).moveOn 0).1
  | start {b : Block} (nested : b.isRoot = false) (waits : b.state = .ready ∨ b.state = .used) :
      Granted b .start (b.moveOn 0).1
  | skip {b : Block} (nested : b.isRoot = false) (waits : b.state = .ready) :
      Granted b .skip { b with state := .closed }
  | next {b c : Block} {k : Nat} (here : b.state = .active k) (child : b.children[k]? = some c)
      (done : c.state = .used ∨ c.state = .closed) :
      Granted b .next ((b.modifyChild k fun c => { c with state := .out }).moveOn (k + 1)).1
  | finish {b : Block} (root : b.isRoot = true) (used : b.state = .used) : Granted b .finish b
  | set {b : Block} (name value : String) (idle : b.state.isActive = false) :
      Granted b (.set name value) { b with vars := (b.vars.assign? name value).getD b.vars }

/-- A call granted to the block a path leads to, and the tree it leaves. -/
inductive GrantedAt : Block → List String → Call σ → Block → Prop where
  | self {b b' : Block} {c : Call σ} (granted : Granted b c b') : GrantedAt b [] c b'
  | nested {b d d' : Block} {k : Nat} {name : String} {path : List String} {c : Call σ}
      (index : b.childIndex? name = some k) (child : b.children[k]? = some d)
      (granted : GrantedAt d path c d') :
      GrantedAt b (name :: path) c (b.modifyChild k fun _ => d')

namespace Call

/-- The sink a call writes to, if it writes: the one it brings, or the bound one. -/
def target (bound : Option σ) : Call σ → Option σ
  | startWith sink => some sink
  | _ => bound

/-- The sink that stays bound when writing has left the target as `after` and failed. -/
def kept (bound : Option σ) (after : σ) : Call σ → Option σ
  | startWith _ => bound
  | _ => some after

end Call

namespace Block

/-- The gap a granted call writes. -/
def gapOf? (b : Block) : Call σ → Option Nat
  | .startWith _ | .start => some 0
  | .next => match b.state with
    | .active k => some (k + 1)
    | _ => none
  | _ => none

/-- The bytes a granted call writes. -/
def output (b : Block) (c : Call σ) : List UInt8 :=
  ((b.gapOf? c).map b.gapBytes).getD []

end Block

/-! ## Granted calls are determined -/

theorem Granted.unique {b b₁ b₂ : Block} {c : Call σ} (h₁ : Granted b c b₁) (h₂ : Granted b c b₂) :
    b₁ = b₂ := by
  cases h₁ with
  | next here₁ child₁ _ =>
    cases h₂ with
    | next here₂ child₂ _ =>
      rw [here₁] at here₂
      cases here₂
      rfl
  | _ => cases h₂; rfl

theorem GrantedAt.unique {b b₁ b₂ : Block} {path : List String} {c : Call σ}
    (h₁ : GrantedAt b path c b₁) (h₂ : GrantedAt b path c b₂) : b₁ = b₂ := by
  induction h₁ generalizing b₂ with
  | self granted₁ =>
    cases h₂ with
    | self granted₂ => exact granted₁.unique granted₂
  | nested index₁ child₁ _ ih =>
    cases h₂ with
    | nested index₂ child₂ granted₂ =>
      rw [index₁] at index₂; cases index₂
      rw [child₁] at child₂; cases child₂
      rw [ih granted₂]

/-- A path along which a call is granted leads to a block. -/
theorem GrantedAt.exists_target {b b' : Block} {path : List String} {c : Call σ}
    (h : GrantedAt b path c b') : ∃ d, b.descend? path = some d := by
  induction h with
  | self => exact ⟨_, rfl⟩
  | nested index child _ ih =>
    obtain ⟨d, hd⟩ := ih
    exact ⟨d, by rw [Block.descend?_child index child, hd]⟩

/-- A call granted along a path is granted to the block at its end. -/
theorem GrantedAt.at_target {b b' d : Block} {path : List String} {c : Call σ}
    (h : GrantedAt b path c b') (target : b.descend? path = some d) : ∃ d', Granted d c d' := by
  induction h with
  | self granted =>
    cases target
    exact ⟨_, granted⟩
  | nested index child _ ih =>
    rw [Block.descend?_child index child] at target
    exact ih target

/-! ## Answers -/

variable [Sink σ]

/-- The outcomes of a call on block `b`: it is denied, no sink is there for its gap, the gap
fails, it goes through, or it has nothing to write. -/
inductive Answer (b : Block) (bound : Option σ) (c : Call σ) : Outcome σ → Prop where
  | denied (e : RenderError) (order : ∀ fault, e ≠ .io fault) (never : ∀ b', ¬ Granted b c b') :
      Answer b bound c (b.refuse bound e)
  | unbound {b' : Block} {k : Nat} (granted : Granted b c b') (gap : b.gapOf? c = some k)
      (target : c.target bound = none) : Answer b bound c (b.refuse bound (.io .unbound))
  | failed {b' : Block} {k : Nat} {s : σ} {fault : SinkFault} (granted : Granted b c b')
      (gap : b.gapOf? c = some k) (target : c.target bound = some s)
      (faulty : (b.writeGap k s).fault = some fault) :
      Answer b bound c ⟨b, c.kept bound (b.writeGap k s).sink, .error (.io fault),
        (b.writeGap k s).events⟩
  | written {b' : Block} {k : Nat} {s : σ} (granted : Granted b c b') (gap : b.gapOf? c = some k)
      (target : c.target bound = some s) (faultless : (b.writeGap k s).fault = none)
      (notes : List Note) :
      Answer b bound c ⟨b', some (b.writeGap k s).sink, .ok (),
        (b.writeGap k s).events ++ notes.map .note⟩
  | silent {b' : Block} (granted : Granted b c b') (gap : b.gapOf? c = none) (notes : List Note) :
      Answer b bound c ⟨b', bound, .ok (), notes.map .note⟩

namespace Block

/-! ## Calls on a block -/

/-- Going on is noted once. -/
theorem moveOn_notes (b : Block) (k : Nat) : ∃ notes : List Note, (b.moveOn k).2 = notes.map .note := by
  rw [moveOn]
  split <;> exact ⟨[_], rfl⟩

/-- Writing gap `k` and going on is an answer to every call that does so. -/
theorem answer_writeThen {b after : Block} {bound : Option σ} {c : Call σ} {k : Nat}
    (granted : Granted b c (after.moveOn k).1) (gap : b.gapOf? c = some k)
    (target : c.target bound = bound) (kept : ∀ t, c.kept bound t = some t) :
    Answer b bound c (b.writeThen after k bound) := by
  cases bound with
  | none => exact .unbound granted gap target
  | some s =>
    rw [writeThen]
    cases hf : (b.writeGap k s).fault with
    | none =>
      obtain ⟨notes, e⟩ := after.moveOn_notes k
      simp only [e]
      exact .written granted gap target hf notes
    | some fault =>
      simp only
      rw [← kept (b.writeGap k s).sink]
      exact .failed granted gap target hf

theorem answer_startWith (b : Block) (bound : Option σ) (s : σ) :
    Answer b bound (.startWith s) (b.startWith bound s) := by
  rw [startWith]
  split
  · next root =>
    have granted := Granted.startWith s root
    cases hf : (b.writeGap 0 s).fault with
    | some fault =>
      simp only [hf]
      exact .failed granted rfl rfl hf
    | none =>
      simp only [hf]
      by_cases active : b.state.isActive = true
      · obtain ⟨notes, e⟩ := b.reset.moveOn_notes 0
        rw [if_pos active] at granted ⊢
        simp only [e, List.append_assoc]
        exact .written granted rfl rfl hf (.restarted b.state :: notes)
      · obtain ⟨notes, e⟩ := b.moveOn_notes 0
        rw [if_neg active] at granted ⊢
        simp only [e, List.append_nil]
        exact .written granted rfl rfl hf notes
  · next nested =>
    apply Answer.denied _ (by simp)
    intro b' h
    cases h with
    | startWith _ root => exact nested root

theorem answer_start (b : Block) (bound : Option σ) : Answer b bound .start (b.start bound) := by
  rw [start]
  split
  · next root =>
    apply Answer.denied _ (by simp)
    intro b' h
    cases h with
    | start nested _ => simp [nested] at root
  · next nested =>
    split
    · next waits =>
      exact answer_writeThen (.start (by simpa using nested) waits) rfl rfl fun _ => rfl
    · next busy =>
      apply Answer.denied _ (by simp)
      intro b' h
      cases h with
      | start _ waits => exact busy waits

theorem answer_skip (b : Block) (bound : Option σ) : Answer b bound .skip (b.skip bound) := by
  rw [skip]
  split
  · next root =>
    apply Answer.denied _ (by simp)
    intro b' h
    cases h with
    | skip nested _ => simp [nested] at root
  · next nested =>
    split
    · next waits =>
      exact .silent (.skip (by simpa using nested) waits) rfl [.changedState b.name b.state .closed]
    · next busy =>
      apply Answer.denied _ (by simp)
      intro b' h
      cases h with
      | skip _ waits => exact busy waits

theorem answer_next (b : Block) (bound : Option σ) : Answer b bound .next (b.next bound) := by
  rw [next]
  split
  · next k hs =>
    split
    · next missing =>
      apply Answer.denied _ (by simp)
      intro b' h
      cases h with
      | next here child _ =>
        rw [hs] at here; cases here
        rw [missing] at child; cases child
    · next c hc =>
      split
      · next done =>
        exact answer_writeThen (.next hs hc done) (by simp [gapOf?, hs]) rfl fun _ => rfl
      · next open_ =>
        apply Answer.denied _ (by simp)
        intro b' h
        cases h with
        | next here child done =>
          rw [hs] at here; cases here
          rw [hc] at child; cases child
          exact open_ done
  · next idle =>
    apply Answer.denied _ (by simp)
    intro b' h
    cases h with
    | next here _ _ => exact idle _ here

theorem answer_finish (b : Block) (bound : Option σ) : Answer b bound .finish (b.finish bound) := by
  rw [finish]
  split
  · next root =>
    split
    · next used => exact .silent (.finish root used) rfl []
    · next unused =>
      apply Answer.denied _ (by simp)
      intro b' h
      cases h with
      | finish _ used => exact unused used
  · next nested =>
    apply Answer.denied _ (by simp)
    intro b' h
    cases h with
    | finish root _ => exact nested root

theorem answer_set (b : Block) (bound : Option σ) (name value : String) :
    Answer b bound (.set name value) (b.setVariable bound name value) := by
  rw [setVariable]
  split
  · next active =>
    apply Answer.denied _ (by simp)
    intro b' h
    cases h with
    | set _ _ idle => simp [idle] at active
  · next idle =>
    have granted := Granted.set (σ := σ) name value (by simpa using idle)
    cases hv : b.vars.assign? name value with
    | none =>
      rw [hv, Option.getD_none, mk_fields] at granted
      exact .silent granted rfl [_]
    | some vs =>
      rw [hv] at granted
      exact .silent granted rfl []

/-- Every call is answered in one of these ways. -/
theorem answer (b : Block) (bound : Option σ) (c : Call σ) : Answer b bound c (b.call bound c) := by
  cases c with
  | startWith s => exact b.answer_startWith bound s
  | start => exact b.answer_start bound
  | skip => exact b.answer_skip bound
  | next => exact b.answer_next bound
  | finish => exact b.answer_finish bound
  | set name value => exact b.answer_set bound name value

end Block

namespace Answer

variable {b : Block} {bound : Option σ} {c : Call σ} {o : Outcome σ}

/-- A call that succeeds was granted. -/
theorem granted (h : Answer b bound c o) (ok : o.result = .ok ()) : Granted b c o.block := by
  cases h with
  | written granted | silent granted => exact granted
  | _ => cases ok

/-- A call that fails leaves its block. -/
theorem block_eq {e : RenderError} (h : Answer b bound c o) (err : o.result = .error e) :
    o.block = b := by
  cases h with
  | written | silent => cases err
  | _ => rfl

/-- A bound sink may be replaced, but a sink stays bound. -/
theorem sink_ne_none (h : Answer b bound c o) (hb : bound ≠ none) : o.sink ≠ none := by
  cases h with
  | failed => cases c <;> simp [Call.kept, hb]
  | written => simp
  | _ => exact hb

/-- A call that begins a pass binds its sink. -/
theorem sink_of_startWith {s : σ} (h : Answer b bound (.startWith s) o) (ok : o.result = .ok ()) :
    o.sink ≠ none := by
  cases h with
  | written => simp
  | silent _ gap => cases gap
  | _ => cases ok

/-- Only a granted call can meet a failing sink. -/
theorem granted_of_io {fault : SinkFault} (h : Answer b bound c o) (err : o.result = .error (.io fault)) :
    ∃ b' k, Granted b c b' ∧ b.gapOf? c = some k := by
  cases h with
  | denied _ order =>
    cases err
    exact absurd rfl (order fault)
  | unbound granted gap | failed granted gap => exact ⟨_, _, granted, gap⟩
  | written | silent => cases err

end Answer

/-! ## Calls along a path -/

/-- What is known of a call along a path: how the block at its end answers, and what becomes of
the tree. -/
structure AnswerAt (b : Block) (bound : Option σ) (c : Call σ) (path : List String) (d : Block)
    (o : Outcome σ) : Prop where
  target : b.descend? path = some d
  answer : ∃ d', Answer d bound c { o with block := d' }
  granted : o.result = .ok () → GrantedAt b path c o.block
  refused : ∀ e, o.result = .error e → o.block = b

namespace Block

/-- A call along a path is a call on a nested block, whose outcome is put in its place. -/
theorem callAt_cons {b : Block} {bound : Option σ} {c : Call σ} {name : String} {path : List String}
    {o : Outcome σ} (h : b.callAt bound c (name :: path) = some o) :
    ∃ k d below, b.childIndex? name = some k ∧ b.children[k]? = some d ∧
      d.callAt bound c path = some below ∧
      o = { below with block := b.modifyChild k fun _ => below.block } := by
  rw [callAt] at h
  split at h
  · cases h
  · next k hk =>
    obtain ⟨below, hb, rfl⟩ := Option.map_eq_some_iff.1 h
    obtain ⟨d, hd, hcall⟩ := Option.bind_eq_some_iff.1 hb
    exact ⟨k, d, below, hk, hd, hcall, rfl⟩

theorem callAt_child {b d : Block} {name : String} {k : Nat} (index : b.childIndex? name = some k)
    (child : b.children[k]? = some d) (bound : Option σ) (c : Call σ) (path : List String) :
    b.callAt bound c (name :: path) =
      (d.callAt bound c path).map fun o => { o with block := b.modifyChild k fun _ => o.block } := by
  rw [callAt, index]
  simp only [child, Option.bind_some]

/-- A nested block put back in its place changes nothing. -/
theorem modifyChild_self {b d : Block} {k : Nat} (child : b.children[k]? = some d) :
    b.modifyChild k (fun _ => d) = b := by
  have same : b.children.modify k (fun _ => d) = b.children := by
    apply List.ext_getElem?
    intro j
    rw [List.getElem?_modify]
    by_cases e : k = j
    · subst e; simp [child]
    · simp [e]
  rw [modifyChild, same, mk_fields]

/-- Of two changes to one nested block the later one stays. -/
theorem modifyChild_twice (b d e : Block) (k : Nat) :
    (b.modifyChild k fun _ => d).modifyChild k (fun _ => e) = b.modifyChild k fun _ => e := by
  rw [modifyChild, modifyChild, modifyChild, List.modify_modify_eq]
  rfl

theorem answerAt {b : Block} {bound : Option σ} {c : Call σ} {path : List String} {o : Outcome σ}
    (h : b.callAt bound c path = some o) : ∃ d, AnswerAt b bound c path d o := by
  induction path generalizing b o with
  | nil =>
    cases h
    have answer := b.answer bound c
    exact ⟨b, rfl, ⟨_, answer⟩, fun ok => .self (answer.granted ok), fun e err => answer.block_eq err⟩
  | cons name path ih =>
    obtain ⟨k, d, below, index, child, hcall, rfl⟩ := callAt_cons h
    obtain ⟨a, target, answer, granted, refused⟩ := ih hcall
    refine ⟨a, ?_, answer, fun ok => .nested index child (granted ok), fun e err => ?_⟩
    · rw [descend?_child index child, target]
    · simp only [refused e err, modifyChild_self child]

/-- A call can be made wherever a path leads to a block. -/
theorem exists_callAt {b d : Block} {path : List String} (h : b.descend? path = some d)
    (bound : Option σ) (c : Call σ) : ∃ o, b.callAt bound c path = some o := by
  induction path generalizing b with
  | nil => exact ⟨_, rfl⟩
  | cons name path ih =>
    obtain ⟨k, a, index, child, below⟩ := descend?_cons h
    obtain ⟨o, ho⟩ := ih below
    rw [callAt_child index child, ho]
    exact ⟨_, rfl⟩

end Block

/-! ## Sinks that never fail -/

section Steady

variable {fine : σ → Prop} {seen : σ → List UInt8} (steady : Sink.Steady fine seen)
variable {b : Block} {bound : Option σ} {c : Call σ} {o : Outcome σ}

include steady

/-- A granted call succeeds, and its gap arrives at its sink. -/
theorem Answer.of_granted {b' : Block} {s : σ} (h : Answer b bound c o) (can : Granted b c b')
    (target : c.target bound = some s) (hs : fine s) :
    o.result = .ok () ∧ ∃ t, o.sink = some t ∧ fine t ∧ seen t = seen s ++ b.output c := by
  cases h with
  | denied _ _ never => exact absurd can (never b')
  | unbound _ _ missing => rw [missing] at target; cases target
  | failed _ _ aim faulty =>
    rw [aim] at target; cases target
    rw [(steady.writeGap hs _ _).fault] at faulty
    cases faulty
  | written _ gap aim _ _ =>
    rw [aim] at target; cases target
    obtain ⟨-, fine_after, seen_after⟩ := steady.writeGap hs b _
    exact ⟨rfl, _, rfl, fine_after, by rw [seen_after, Block.output, gap]; rfl⟩
  | silent _ gap _ =>
    have bound_eq : bound = some s := by
      cases c with
      | startWith _ => cases gap
      | _ => exact target
    exact ⟨rfl, s, bound_eq, hs, by rw [Block.output, gap]; simp⟩

/-- A call that fails leaves the bound sink as it was. -/
theorem Answer.sink_eq {e : RenderError} (h : Answer b bound c o) (err : o.result = .error e)
    (hs : ∀ s, bound = some s → fine s) : o.sink = bound := by
  cases h with
  | denied | unbound => rfl
  | failed _ _ aim faulty =>
    cases c with
    | startWith _ => rfl
    | _ =>
      rw [(steady.writeGap (hs _ aim) _ _).fault] at faulty
      cases faulty
  | written | silent => cases err

end Steady

/-- Over sinks that never fail, a granted call along a path succeeds. -/
theorem AnswerAt.of_granted {fine : σ → Prop} {seen : σ → List UInt8} (steady : Sink.Steady fine seen)
    {b b' d : Block} {bound : Option σ} {c : Call σ} {path : List String} {o : Outcome σ} {s : σ}
    (h : AnswerAt b bound c path d o) (can : GrantedAt b path c b') (target : c.target bound = some s)
    (hs : fine s) :
    o.result = .ok () ∧ o.block = b' ∧ ∃ t, o.sink = some t ∧ fine t ∧ seen t = seen s ++ d.output c := by
  obtain ⟨d', granted⟩ := can.at_target h.target
  obtain ⟨_, answer⟩ := h.answer
  obtain ⟨ok, written⟩ := answer.of_granted steady granted target hs
  exact ⟨ok, (h.granted ok).unique can, written⟩

end Stencil

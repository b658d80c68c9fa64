import Stencil.Proofs.Once

/-!
# The frontier of a pass

Down the chain of active blocks stands the first block that is not active: the frontier. In the whole tree
only this block can be started or skipped, and only the block around it can go on
(`GrantedAt.at_frontier`). What is refused is refused with the objection to it (`Page.Sound.fails_iff`).
Skipping and going on always completes the pass, so no page is stuck (`one_frontier`).
-/

namespace Stencil

variable {σ : Type}

/-- Following the active blocks down from `b`, `waiting` is the first block that is not active; it is
nested in `around`, which the path leads to. -/
inductive Frontier : (b : Block) → List String → (around waiting : Block) → Prop where
  | here {b d : Block} {k : Nat} (at_ : b.state = .active k) (child : b.children[k]? = some d)
      (idle : d.state.isActive = false) : Frontier b [] b d
  | down {b c a d : Block} {k : Nat} {name : String} {path : List String} (at_ : b.state = .active k)
      (child : b.children[k]? = some c) (named : c.name = some name) (rest : Frontier c path a d) :
      Frontier b (name :: path) a d

/-- What is wrong with a call that is refused. -/
inductive Objection : Block → Call σ → RenderError → Prop where
  | start_root {b : Block} (root : b.isRoot = true) : Objection b .start .wrongMethod
  | skip_root {b : Block} (root : b.isRoot = true) : Objection b .skip .wrongMethod
  | finish_nested {b : Block} (nested : b.isRoot = false) : Objection b .finish .wrongMethod
  | unfinished {b : Block} (root : b.isRoot = true) (unused : b.state ≠ .used) :
      Objection b .finish (.notFinalized b.state)
  | child_unfinished {b c : Block} {k : Nat} {name : String} (here : b.state = .active k)
      (child : b.children[k]? = some c) (named : c.name = some name)
      (open_ : c.state ≠ .used ∧ c.state ≠ .closed) : Objection b .next (.childNotFinished name c.state)
  | start_state {b : Block} (nested : b.isRoot = false) (busy : b.state ≠ .ready ∧ b.state ≠ .used) :
      Objection b .start (.invalidState b.state)
  | skip_state {b : Block} (nested : b.isRoot = false) (busy : b.state ≠ .ready) :
      Objection b .skip (.invalidState b.state)
  | next_state {b : Block} (idle : b.state.isActive = false) : Objection b .next (.invalidState b.state)

namespace Block

/-! ## The frontier -/

theorem WellNamed.exists_name {b c : Block} (h : b.WellNamed) (child : c ∈ b.children) :
    ∃ name, c.name = some name := by
  have nested := (h b b.self_mem_preorder).2 c child
  exact Option.isSome_iff_exists.1 (by simpa [isRoot] using nested)

/-- Every chain of active blocks comes to an end. -/
theorem Chained.exists_frontier {b : Block} (h : b.Chained) (named : b.WellNamed) {k : Nat}
    (here : b.state = .active k) :
    ∃ path name a d, Frontier b path a d ∧ d.name = some name ∧ d.state ≠ .out := by
  induction h generalizing k with
  | resting idle => simp [here, State.isActive] at idle
  | @writing b c j at_ child reached chained _ ih =>
    have mem := List.mem_of_getElem? child
    obtain ⟨name, name_eq⟩ := named.exists_name mem
    cases hs : c.state.isActive with
    | false => exact ⟨[], name, b, c, .here at_ child hs, name_eq, reached⟩
    | true =>
      obtain ⟨i, hi⟩ : ∃ i, c.state = .active i := by
        cases e : c.state with
        | active i => exact ⟨i, rfl⟩
        | _ => simp [e, State.isActive] at hs
      obtain ⟨path, n, a, d, front, rest⟩ := ih (named.child mem) hi
      exact ⟨name :: path, n, a, d, .down at_ child name_eq front, rest⟩

end Block

open Block

namespace Frontier

variable {b a d : Block} {path : List String}

theorem active (h : Frontier b path a d) : ∃ k, b.state = .active k := by
  cases h with
  | here at_ => exact ⟨_, at_⟩
  | down at_ => exact ⟨_, at_⟩

/-- The block around the frontier is at it. -/
theorem around (h : Frontier b path a d) (named : b.WellNamed) :
    b.descend? path = some a ∧ ∃ k, a.state = .active k ∧ a.children[k]? = some d := by
  induction h with
  | here at_ child _ => exact ⟨rfl, _, at_, child⟩
  | @down b c a d k name path at_ child name_eq _ ih =>
    obtain ⟨target, rest⟩ := ih (named.child (List.mem_of_getElem? child))
    have index : b.childIndex? name = some k := by simpa [name_eq] using named.childIndex? child
    exact ⟨by rw [descend?_child index child, target], rest⟩

/-- The path to the frontier itself. -/
theorem target {name : String} (h : Frontier b path a d) (named : b.WellNamed) (name_eq : d.name = some name) :
    b.descend? (path ++ [name]) = some d := by
  induction h with
  | @here b d k _ child _ =>
    have index : b.childIndex? name = some k := by simpa [name_eq] using named.childIndex? child
    exact descend?_child index child []
  | @down b c a d k n path at_ child name_eq' _ ih =>
    have index : b.childIndex? n = some k := by simpa [name_eq'] using named.childIndex? child
    rw [List.cons_append, descend?_child index child, ih (named.child (List.mem_of_getElem? child)) name_eq]

end Frontier

/-- Below a block that is being written, moves are granted in the nested block it is at. -/
theorem GrantedAt.in_child {b b' c : Block} {k : Nat} {name : String} {path : List String} {m : Move}
    (h : GrantedAt b (name :: path) (m.call : Call σ) b') (chained : b.Chained) (at_ : b.state = .active k)
    (child : b.children[k]? = some c) :
    c.Chained ∧ c.name = some name ∧ ∃ c', GrantedAt c path (m.call : Call σ) c' := by
  cases chained with
  | resting idle => simp [at_, State.isActive] at idle
  | @writing _ e i here child' _ chained others =>
    rw [at_] at here
    cases here
    rw [child] at child'
    cases child'
    cases h with
    | @nested _ d d' j _ _ _ index child' granted =>
      by_cases same : j = k
      · subst same
        rw [child] at child'
        cases child'
        exact ⟨chained, name_of_childIndex? index child, d', granted⟩
      · exact absurd (others j d same child') (granted.not_dormant rfl)

/-- A move that is granted in a tree that is being written is one at its frontier. -/
theorem GrantedAt.at_frontier {b b' a d : Block} {path above : List String} {name : String} {m : Move}
    (h : GrantedAt b path (m.call : Call σ) b') (front : Frontier b above a d) (chained : b.Chained)
    (name_eq : d.name = some name) :
    (m = .next ∧ path = above) ∨ (m ≠ .next ∧ path = above ++ [name]) := by
  -- The blocks down to the frontier are active, so none of them can be started or skipped.
  have active_denies {e e' : Block} (active : ∃ k, e.state = .active k)
      (granted : Granted e (m.call : Call σ) e') : m = .next := by
    obtain ⟨k, here⟩ := active
    cases m with
    | next => rfl
    | enter =>
      cases granted with
      | start _ waits => simp [here] at waits
    | skip =>
      cases granted with
      | skip _ waits => simp [here] at waits
  induction front generalizing path b' with
  | @here b d k at_ child idle =>
    cases path with
    | nil =>
      cases h with
      | self granted => exact .inl ⟨active_denies ⟨k, at_⟩ granted, rfl⟩
    | cons n path =>
      obtain ⟨chained, n_eq, d', granted⟩ := h.in_child chained at_ child
      cases n_eq.symm.trans name_eq
      cases path with
      | nil =>
        refine .inr ⟨?_, rfl⟩
        rintro rfl
        cases granted with
        | self granted =>
          cases granted with
          | next here => simp [here, State.isActive] at idle
      | cons =>
        obtain ⟨j, here⟩ := granted.active_above chained rfl
        simp [here, State.isActive] at idle
  | @down b c a d k n above at_ child n_eq rest ih =>
    cases path with
    | nil =>
      cases h with
      | self granted =>
        cases active_denies ⟨k, at_⟩ granted
        -- The nested block is not finished, so the block cannot go on.
        obtain ⟨j, busy⟩ := rest.active
        cases granted with
        | next here child' done =>
          rw [at_] at here
          cases here
          rw [child] at child'
          cases child'
          simp [busy] at done
    | cons n' path =>
      obtain ⟨chained, n_eq', c', granted⟩ := h.in_child chained at_ child
      cases n_eq.symm.trans n_eq'
      rcases ih granted chained name_eq with ⟨next, rfl⟩ | ⟨other, rfl⟩
      · exact .inl ⟨next, rfl⟩
      · exact .inr ⟨other, rfl⟩

/-- A call that is granted to a block is granted along the path to it. -/
theorem Granted.at_path {b d d' : Block} {path : List String} {c : Call σ} (h : Granted d c d')
    (target : b.descend? path = some d) : ∃ b', GrantedAt b path c b' := by
  induction path generalizing b with
  | nil =>
    cases target
    exact ⟨_, .self h⟩
  | cons name path ih =>
    obtain ⟨k, e, index, child, below⟩ := descend?_cons target
    obtain ⟨e', granted⟩ := ih below
    exact ⟨_, .nested index child granted⟩

/-- What stands below another block is not the root. -/
theorem Block.WellNamed.isRoot_below {b d : Block} {name : String} {path : List String} (named : b.WellNamed)
    (target : b.descend? (name :: path) = some d) : d.isRoot = false := by
  induction path generalizing b name with
  | nil =>
    obtain ⟨k, c, -, child, e⟩ := descend?_cons target
    cases e
    exact (named b b.self_mem_preorder).2 d (List.mem_of_getElem? child)
  | cons other path ih =>
    obtain ⟨k, c, -, child, below⟩ := descend?_cons target
    exact ih (named.child (List.mem_of_getElem? child)) below

/-- The calls without arguments. -/
def Call.bare : List (Call σ) := [.start, .skip, .next, .finish]

section

variable {b : Block} {path : List String} {c : Call σ}

theorem Call.mem_bare : c ∈ (bare : List (Call σ)) ↔ (∃ m : Move, c = m.call) ∨ c = .finish := by
  constructor
  · intro h
    cases c with
    | start => exact .inl ⟨.enter, rfl⟩
    | skip => exact .inl ⟨.skip, rfl⟩
    | next => exact .inl ⟨.next, rfl⟩
    | finish => exact .inr rfl
    | startWith | set => simp [bare] at h
  · rintro (⟨m, rfl⟩ | rfl)
    · cases m <;> simp [bare, Move.call]
    · simp [bare]

/-- A check is granted on the root alone, once it is written. -/
theorem finish_granted_iff (named : b.WellNamed) (root : b.isRoot = true) :
    (∃ b', GrantedAt b path (.finish : Call σ) b') ↔ path = [] ∧ b.state = .used := by
  constructor
  · rintro ⟨b', granted⟩
    obtain ⟨d, target⟩ := granted.exists_target
    obtain ⟨d', own⟩ := granted.at_target target
    cases own with
    | finish root' used =>
      cases path with
      | nil =>
        cases target
        exact ⟨rfl, used⟩
      | cons name path => simp [named.isRoot_below target] at root'
  · rintro ⟨rfl, used⟩
    exact ⟨b, .self (.finish root used)⟩

/-- While the root is being written, what is granted is granted at the frontier. -/
theorem Frontier.granted_iff {a d : Block} {above : List String} {name : String} (front : Frontier b above a d)
    (name_eq : d.name = some name) (chained : b.Chained) (named : b.WellNamed) (root : b.isRoot = true)
    (hc : c ∈ Call.bare) :
    (∃ b', GrantedAt b path c b') ↔
      (c = .start ∧ path = above ++ [name] ∧ (d.state = .ready ∨ d.state = .used)) ∨
      (c = .skip ∧ path = above ++ [name] ∧ d.state = .ready) ∨
      (c = .next ∧ path = above ∧ (d.state = .used ∨ d.state = .closed)) := by
  have target := front.target named name_eq
  obtain ⟨around, k, here, child⟩ := front.around named
  have nested : d.isRoot = false := by rw [isRoot, name_eq]; rfl
  constructor
  · rintro ⟨b', granted⟩
    rcases Call.mem_bare.1 hc with ⟨m, rfl⟩ | rfl
    · have place := granted.at_frontier front chained name_eq
      cases m with
      | enter =>
        obtain ⟨-, rfl⟩ := place.resolve_left (by simp)
        obtain ⟨d', own⟩ := granted.at_target target
        cases own with
        | start _ waits => exact .inl ⟨rfl, rfl, waits⟩
      | skip =>
        obtain ⟨-, rfl⟩ := place.resolve_left (by simp)
        obtain ⟨d', own⟩ := granted.at_target target
        cases own with
        | skip _ waits => exact .inr (.inl ⟨rfl, rfl, waits⟩)
      | next =>
        obtain ⟨-, rfl⟩ := place.resolve_right (by simp)
        obtain ⟨a', own⟩ := granted.at_target around
        cases own with
        | next here' child' done =>
          rw [here] at here'
          cases here'
          rw [child] at child'
          cases child'
          exact .inr (.inr ⟨rfl, rfl, done⟩)
    · obtain ⟨-, used⟩ := (finish_granted_iff named root).1 ⟨b', granted⟩
      obtain ⟨j, busy⟩ := front.active
      simp [used] at busy
  · rintro (⟨rfl, rfl, waits⟩ | ⟨rfl, rfl, waits⟩ | ⟨rfl, rfl, done⟩)
    · exact (Granted.start nested waits).at_path target
    · exact (Granted.skip nested waits).at_path target
    · exact (Granted.next here child done).at_path around

/-- While it is not, only a check on the written root is granted. -/
theorem granted_iff_of_idle (idle : b.state.isActive = false) (chained : b.Chained) (named : b.WellNamed)
    (root : b.isRoot = true) (hc : c ∈ Call.bare) :
    (∃ b', GrantedAt b path c b') ↔ c = .finish ∧ path = [] ∧ b.state = .used := by
  rcases Call.mem_bare.1 hc with ⟨m, rfl⟩ | rfl
  · refine iff_of_false ?_ (by cases m <;> simp [Move.call])
    rintro ⟨b', granted⟩
    cases path with
    | nil =>
      cases granted with
      | self granted =>
        cases m with
        | enter =>
          cases granted with
          | start nested => simp [nested] at root
        | skip =>
          cases granted with
          | skip nested => simp [nested] at root
        | next =>
          cases granted with
          | next here => simp [here, State.isActive] at idle
    | cons name path =>
      obtain ⟨k, here⟩ := granted.active_above chained rfl
      simp [here, State.isActive] at idle
  · rw [finish_granted_iff named root]
    exact (and_iff_right rfl).symm

end

/-! ## Objections -/

section

variable [Sink σ] {b : Block} {c : Call σ} {e : RenderError} {bound : Option σ}

/-- A call that there is an objection to is refused with it. -/
theorem Objection.refused (h : Objection b c e) : (b.call bound c).result = .error e := by
  cases h with
  | start_root root | skip_root root => simp [call, start, skip, refuse, root]
  | finish_nested nested => simp [call, finish, refuse, nested]
  | unfinished root unused => simp [call, finish, refuse, root, unused]
  | child_unfinished here child named open_ => simp [call, next, refuse, here, child, named, open_]
  | start_state nested busy => simp [call, start, refuse, nested, busy]
  | skip_state nested busy => simp [call, skip, refuse, nested, busy]
  | next_state idle =>
    rw [call, next]
    split
    · next here => simp [here, State.isActive] at idle
    · rfl

/-- What writes is not refused but fails on a sink. -/
theorem io_of_writeThen {after : Block} {k : Nat} (err : (b.writeThen after k bound).result = .error e) :
    ∃ fault, e = .io fault := by
  cases bound with
  | none =>
    cases err
    exact ⟨_, rfl⟩
  | some s =>
    rw [writeThen] at err
    cases hf : (b.writeGap k s).fault with
    | none => simp [hf] at err
    | some fault =>
      simp only [hf] at err
      cases err
      exact ⟨fault, rfl⟩

/-- Where no sink is at fault, there is an objection to a call that is refused. -/
theorem objection_of_error
    (waits : ∀ k, b.state = .active k → ∃ c name, b.children[k]? = some c ∧ c.name = some name)
    (hc : c ∈ Call.bare) (order : ∀ fault, e ≠ .io fault) (err : (b.call bound c).result = .error e) :
    Objection b c e := by
  have no_writing {after : Block} {k : Nat} (err : (b.writeThen after k bound).result = .error e) : False := by
    obtain ⟨fault, io⟩ := io_of_writeThen err
    exact order fault io
  cases c with
  | start =>
    rw [call, start] at err
    split at err
    · next root =>
      cases err
      exact .start_root root
    · next nested =>
      split at err
      · exact (no_writing err).elim
      · next busy =>
        cases err
        exact .start_state (by simpa using nested) (by simpa using busy)
  | skip =>
    rw [call, skip] at err
    split at err
    · next root =>
      cases err
      exact .skip_root root
    · next nested =>
      split at err
      · cases err
      · next busy =>
        cases err
        exact .skip_state (by simpa using nested) busy
  | next =>
    rw [call, next] at err
    split at err
    · next k here =>
      obtain ⟨c, name, child, named⟩ := waits k here
      simp only [child] at err
      split at err
      · exact (no_writing err).elim
      · next open_ =>
        cases err
        rw [named]
        exact .child_unfinished here child named (by simpa using open_)
    · next state idle =>
      cases err
      exact .next_state (by cases hs : b.state with
        | active k => exact absurd hs (idle k)
        | _ => rfl)
  | finish =>
    rw [call, finish] at err
    split at err
    · next root =>
      split at err
      · cases err
      · next unused =>
        cases err
        exact .unfinished root unused
    · next nested =>
      cases err
      exact .finish_nested (by simpa using nested)
  | startWith | set => simp [Call.bare] at hc

end

/-! ## Pages -/

/-- What is left of a pass can be run through. -/
theorem Block.runs_of_mem_rest {b : Block} {w : List Letter} (hw : w ∈ b.rest) (root : b.isRoot = true)
    (named : b.WellNamed) (chained : b.Chained) : ∃ out last, Runs σ b w out last ∧ last.state = .used := by
  induction w generalizing b with
  | nil => exact ⟨[], b, .done, nil_mem_rest.1 hw⟩
  | cons l w ih =>
    obtain ⟨path, m⟩ := l
    obtain ⟨b', granted, left⟩ := (cons_mem_rest (σ := σ) root named chained path m w).1 hw
    obtain ⟨d, target⟩ := granted.exists_target
    have root' : b'.isRoot = true := (isRoot_of_pristine_eq granted.pristine).trans root
    obtain ⟨out, last, rest, used⟩ :=
      ih left root' (wellNamed_of_pristine_eq granted.pristine named) (granted.chained named chained).1
    exact ⟨_, last, .move granted target rest, used⟩

variable [Sink σ]

/-- A call along a path has the result of the call on the block at its end. -/
theorem Block.callAt_eq {b d : Block} {path : List String} (target : b.descend? path = some d)
    (bound : Option σ) (c : Call σ) :
    ∃ after, b.callAt bound c path = some { d.call bound c with block := after } := by
  induction path generalizing b with
  | nil =>
    cases target
    exact ⟨_, rfl⟩
  | cons name path ih =>
    obtain ⟨k, e, index, child, below⟩ := descend?_cons target
    obtain ⟨after, h⟩ := ih below
    exact ⟨_, by rw [callAt_child index child, h]; rfl⟩

namespace Page

section

variable {fine : σ → Prop} {seen : σ → List UInt8} (steady : Sink.Steady fine seen)
variable {root : Block} {p : Page σ} {path : List String} {c : Call σ}

include steady

/-- Over a sink that never fails, what is granted succeeds, and nothing else. -/
theorem Sound.succeeds_iff (h : Sound root p) (fresh : Template.Fresh root)
    (good : ∀ t, p.sink = some t → fine t) (hc : c ∈ Call.bare) :
    (∃ r, p.call? path c = some r ∧ r.result = .ok ()) ↔ ∃ b', GrantedAt p.root path c b' := by
  constructor
  · rintro ⟨r, reply, ok⟩
    obtain ⟨d, answer⟩ := answerAt reply
    exact ⟨_, answer.granted ok⟩
  · rintro ⟨b', granted⟩
    have started : ¬ p.root.Dormant := by
      rcases Call.mem_bare.1 hc with ⟨m, rfl⟩ | rfl
      · exact granted.not_dormant rfl
      · obtain ⟨-, used⟩ := (finish_granted_iff (h.named fresh) (h.isRoot fresh)).1 ⟨b', granted⟩
        intro dormant
        rw [dormant.state] at used
        cases used
    obtain ⟨t, bound⟩ := Option.ne_none_iff_exists'.1 (mt h.unbound started)
    have aim : c.target p.sink = some t := by
      rcases Call.mem_bare.1 hc with ⟨m, rfl⟩ | rfl
      · cases m <;> exact bound
      · exact bound
    obtain ⟨d, target⟩ := granted.exists_target
    obtain ⟨r, reply, ok, -⟩ := call_of_granted steady granted target aim (good t bound)
    exact ⟨r, reply, ok⟩

/-- Over a sink that never fails, a call fails exactly with the objection to it. -/
theorem Sound.fails_iff {d : Block} (h : Sound root p) (fresh : Template.Fresh root)
    (good : ∀ t, p.sink = some t → fine t) (hc : c ∈ Call.bare) (target : p.root.descend? path = some d) :
    ∃ r, p.call? path c = some r ∧ ∀ e, r.result = .error e ↔ Objection d c e := by
  obtain ⟨after, ho⟩ := callAt_eq target p.sink c
  have reply : p.call? path c = some ⟨⟨after, (d.call p.sink c).sink⟩, (d.call p.sink c).result,
      (d.call p.sink c).events⟩ := by rw [call?, ho]; rfl
  refine ⟨_, reply, fun e => ⟨fun err => ?_, fun objection => objection.refused⟩⟩
  have waits : ∀ k, d.state = .active k → ∃ c name, d.children[k]? = some c ∧ c.name = some name := by
    intro k here
    have part := mem_preorder_of_descend? target
    have named : d.WellNamed := fun x hx => h.named fresh x (preorder_trans part hx)
    cases h.chained.part part with
    | resting idle => simp [here, State.isActive] at idle
    | writing at_ child =>
      rw [here] at at_
      cases at_
      obtain ⟨name, name_eq⟩ := named.exists_name (List.mem_of_getElem? child)
      exact ⟨_, name, child, name_eq⟩
  refine objection_of_error waits hc ?_ err
  rintro fault rfl
  obtain ⟨b', k, granted, -⟩ := (d.answer p.sink c).granted_of_io err
  obtain ⟨_, along⟩ := granted.at_path target
  obtain ⟨r, again, ok⟩ := (h.succeeds_iff steady fresh good hc).2 ⟨_, along⟩
  rw [reply] at again
  cases again
  rw [err] at ok
  cases ok

/-- What is left of a pass can be completed by skipping and going on. -/
theorem Sound.completes {t : σ} (h : Sound root p) (fresh : Template.Fresh root) (bound : p.sink = some t)
    (good : fine t) {k : Nat} (here : p.root.state = .active k) :
    ∃ w : List Letter, Sparing w ∧ (∀ a ∈ p.attempts (w.map Letter.request), a.succeeded = true) ∧
      (p.afterCalls (w.map Letter.request)).root.state = .used := by
  obtain ⟨w, hw, sparing⟩ := h.chained.exists_sparing_rest (.inl ⟨k, here⟩)
  obtain ⟨out, last, runs, used⟩ :=
    runs_of_mem_rest (σ := σ) hw (h.isRoot fresh) (h.named fresh) h.chained
  obtain ⟨succeed, root_eq, -⟩ := runs_received steady runs bound good
  exact ⟨w, sparing, succeed, root_eq ▸ used⟩

/-- **There is one frontier, and no page is stuck.** Over sinks that never fail: while the root is being
written, of all calls without arguments on all blocks exactly those succeed that start or skip the block
at the frontier or go on behind it, as its state allows; while it is not, only the check of a written root
does. A call fails exactly with the objection to it. And a pass can always be completed by skipping and
going on. -/
theorem one_frontier {source : String} {file : Nat} (parsed : Template.parse source file = .ok root)
    (reached : Reachable root p) (good : ∀ t, p.sink = some t → fine t) :
    (∀ k, p.root.state = .active k →
      (∃ above name around waiting, Frontier p.root above around waiting ∧ waiting.name = some name ∧
        p.root.descend? above = some around ∧ p.root.descend? (above ++ [name]) = some waiting ∧
        ∀ path, ∀ c ∈ Call.bare, (∃ r, p.call? path c = some r ∧ r.result = .ok ()) ↔
          (c = .start ∧ path = above ++ [name] ∧ (waiting.state = .ready ∨ waiting.state = .used)) ∨
          (c = .skip ∧ path = above ++ [name] ∧ waiting.state = .ready) ∨
          (c = .next ∧ path = above ∧ (waiting.state = .used ∨ waiting.state = .closed))) ∧
      ∃ w : List Letter, (∀ l ∈ w, l.2 = .skip ∨ l.2 = .next) ∧
        (∀ a ∈ p.attempts (w.map Letter.request), a.succeeded = true) ∧
        (p.afterCalls (w.map Letter.request)).root.state = .used) ∧
    (p.root.state.isActive = false → ∀ path, ∀ c ∈ Call.bare,
      (∃ r, p.call? path c = some r ∧ r.result = .ok ()) ↔
        c = .finish ∧ path = [] ∧ p.root.state = .used) ∧
    (∀ path d, p.root.descend? path = some d → ∀ c ∈ Call.bare,
      ∃ r, p.call? path c = some r ∧ ∀ e, r.result = .error e ↔ Objection d c e) := by
  have fresh := Template.fresh_of_parse parsed
  have sound := reached.sound fresh
  have named := sound.named fresh
  have isRoot := sound.isRoot fresh
  refine ⟨fun k here => ⟨?_, ?_⟩, fun idle path c hc => ?_, fun path d target c hc => ?_⟩
  · obtain ⟨above, name, around, waiting, front, name_eq, -⟩ := sound.chained.exists_frontier named here
    refine ⟨above, name, around, waiting, front, name_eq, (front.around named).1,
      front.target named name_eq, fun path c hc => ?_⟩
    rw [sound.succeeds_iff steady fresh good hc]
    exact front.granted_iff name_eq sound.chained named isRoot hc
  · have started : ¬ p.root.Dormant := fun dormant => by
      rw [dormant.state] at here
      cases here
    obtain ⟨t, bound⟩ := Option.ne_none_iff_exists'.1 (mt sound.unbound started)
    obtain ⟨w, sparing, completes⟩ := sound.completes steady fresh bound (good t bound) here
    refine ⟨w, fun l hl => ?_, completes⟩
    have := sparing l hl
    cases hm : l.2 with
    | enter => exact absurd hm this
    | skip => exact .inl rfl
    | next => exact .inr rfl
  · rw [sound.succeeds_iff steady fresh good hc]
    exact granted_iff_of_idle idle sound.chained named isRoot hc
  · exact sound.fails_iff steady fresh good hc target

end

/-- A page with the frontier two blocks down: the block above it cannot go on yet, and the pass can be
completed. -/
theorem one_frontier_nested :
    ∃ (root : Block) (p : Page Buffer) (r : Reply Buffer) (w : List Letter),
      Template.parse "a<!--rep blk=b-->x<!--rep blk=c-->y<!--/rep--><!--/rep-->z" 0 = .ok root ∧
      Reachable root p ∧ p.root.states = [.active 0, .active 0, .ready] ∧
      p.call? ["b"] .next = some r ∧ r.result = .error (.childNotFinished "c" .ready) ∧
      (∀ l ∈ w, l.2 = .skip ∨ l.2 = .next) ∧
      (p.afterCalls (w.map Letter.request)).root.state = .used := by
  let root : Block := ⟨none, ⟨[]⟩, [[⟨"a", none⟩], [⟨"z", none⟩]],
    [⟨some "b", ⟨[]⟩, [[⟨"x", none⟩], [⟨"", none⟩]],
      [⟨some "c", ⟨[]⟩, [[⟨"y", none⟩]], [], ⟨18, 46⟩, .out⟩], ⟨1, 57⟩, .out⟩], ⟨0, 58⟩, .out⟩
  have parsed : Template.parse "a<!--rep blk=b-->x<!--rep blk=c-->y<!--/rep--><!--/rep-->z" 0 =
      .ok root := by
    with_unfolding_all rfl
  let p : Page Buffer := (Page.ofTemplate root).afterCalls [([], .startWith Buffer.empty), (["b"], .start)]
  have reached : Reachable root p := Reachable.fresh.afterCalls _
  let c : Block := ⟨some "c", ⟨[]⟩, [[⟨"y", none⟩]], [], ⟨18, 46⟩, .ready⟩
  let b : Block := ⟨some "b", ⟨[]⟩, [[⟨"x", none⟩], [⟨"", none⟩]], [c], ⟨1, 57⟩, .active 0⟩
  have target : p.root.descend? ["b"] = some b := by with_unfolding_all rfl
  have waits : Objection b (.next : Call Buffer) (.childNotFinished "c" .ready) :=
    .child_unfinished (c := c) rfl rfl rfl ⟨nofun, nofun⟩
  obtain ⟨active, -, fails⟩ := one_frontier Buffer.steady parsed reached fun _ _ => trivial
  obtain ⟨-, w, moves, -, used⟩ := active 0 (by with_unfolding_all rfl)
  obtain ⟨r, reply, refused⟩ := fails ["b"] b target .next (by simp [Call.bare])
  exact ⟨root, p, r, w, parsed, reached, by decide +kernel, reply, (refused _).2 waits, moves, used⟩

end Page

end Stencil

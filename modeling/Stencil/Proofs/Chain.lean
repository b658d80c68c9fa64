import Stencil.Proofs.Granted

/-!
# The chain of active blocks

In a tree that is being written, the active blocks form one chain down from its top: each is at
one nested block, which has been reached, and everything beside the chain is dormant. `Chained`
says so along the chain, `Orderly` for one block at a time. Granted calls keep the chain, and they
keep everything else as it was read (`GrantedAt.pristine`).
-/

namespace Stencil

namespace Block

/-- The active blocks of a tree are one chain, and beside it nothing has been reached. -/
inductive Chained : Block → Prop where
  | resting {b : Block} (idle : b.state.isActive = false) (below : ∀ c ∈ b.children, c.Dormant) :
      Chained b
  | writing {b c : Block} {k : Nat} (here : b.state = .active k) (child : b.children[k]? = some c)
      (reached : c.state ≠ .out) (chained : Chained c)
      (others : ∀ j d, j ≠ k → b.children[j]? = some d → d.Dormant) : Chained b

/-- An active block is at one of its nested blocks, which has been reached; all other nested
blocks, and all nested blocks of a block that is not active, are dormant. -/
def Orderly (b : Block) : Prop :=
  match b.state with
  | .active k => k < b.children.length ∧
      ∀ j c, b.children[j]? = some c → if j = k then c.state ≠ .out else c.Dormant
  | _ => ∀ c ∈ b.children, c.Dormant

theorem orderly_of_idle {b : Block} (idle : b.state.isActive = false)
    (below : ∀ c ∈ b.children, c.Dormant) : b.Orderly := by
  unfold Orderly
  cases hs : b.state with
  | active k => simp [hs, State.isActive] at idle
  | _ => exact below

theorem Dormant.chained {b : Block} (h : b.Dormant) : b.Chained :=
  .resting (by rw [h.state]; rfl) fun _ hc => h.child hc

theorem Dormant.orderly {a b : Block} (h : b.Dormant) (part : a ∈ b.preorder) : a.Orderly := by
  induction b using nestInduction with
  | nest b ih =>
    rcases mem_preorder.1 part with rfl | ⟨c, hc, part⟩
    · exact orderly_of_idle (by rw [h.state]; rfl) fun _ hc => h.child hc
    · exact ih c hc (h.child hc) part

/-- Along the chain and beside it, every block is in order. -/
theorem Chained.orderly {b : Block} (h : b.Chained) : ∀ a ∈ b.preorder, a.Orderly := by
  induction h with
  | resting idle below =>
    intro a part
    rcases mem_preorder.1 part with rfl | ⟨c, hc, part⟩
    · exact orderly_of_idle idle below
    · exact (below c hc).orderly part
  | @writing b c k here child reached _ others ih =>
    intro a part
    rcases mem_preorder.1 part with rfl | ⟨d, hd, part⟩
    · have lt : k < a.children.length := (List.getElem?_eq_some_iff.1 child).1
      simp only [Orderly, here]
      refine ⟨lt, ?_⟩
      intro j d hd
      split
      · next e =>
        rw [e, child] at hd
        cases hd
        exact reached
      · next ne => exact others j d ne hd
    · obtain ⟨j, hj⟩ := List.getElem?_of_mem hd
      by_cases e : j = k
      · rw [e, child] at hj
        cases hj
        exact ih a part
      · exact (others j d e hj).orderly part

/-- Below a block that is not active nothing has been reached. -/
theorem Chained.below_idle {b : Block} (h : b.Chained) (idle : b.state.isActive = false) :
    ∀ c ∈ b.children, c.Dormant := by
  cases h with
  | resting _ below => exact below
  | writing here => simp [here, State.isActive] at idle

/-- What has been reached stands below active blocks only. -/
theorem Chained.active_above {a b : Block} {path : List String} (h : a.Chained)
    (target : a.descend? path = some b) (below : path ≠ []) (reached : b.state ≠ .out) :
    a.state.isActive = true := by
  cases hs : a.state.isActive with
  | true => rfl
  | false =>
    cases path with
    | nil => exact absurd rfl below
    | cons name path =>
      obtain ⟨k, c, -, child, rest⟩ := descend?_cons target
      have dormant := h.below_idle hs c (List.mem_of_getElem? child)
      exact absurd (dormant b (mem_preorder_of_descend? rest)) reached

/-- Every block of a chained tree heads a chain of its own. -/
theorem Chained.part {a b : Block} (h : b.Chained) (part : a ∈ b.preorder) : a.Chained := by
  induction h with
  | resting idle below =>
    rcases mem_preorder.1 part with rfl | ⟨c, hc, part⟩
    · exact .resting idle below
    · exact Dormant.chained fun x hx => below c hc x (preorder_trans part hx)
  | @writing b c k here child reached chained others ih =>
    rcases mem_preorder.1 part with rfl | ⟨d, hd, part⟩
    · exact .writing here child reached chained others
    · obtain ⟨j, hj⟩ := List.getElem?_of_mem hd
      by_cases e : j = k
      · rw [e, child] at hj
        cases hj
        exact ih part
      · exact Dormant.chained fun x hx => others j d e hj x (preorder_trans part hx)

/-- A block put out rests dormant when its nested blocks do. -/
theorem dormant_of_out {b : Block} (below : ∀ c ∈ b.children, c.Dormant) :
    Dormant { b with state := .out } :=
  dormant_iff.2 ⟨rfl, below⟩

theorem forall_mem_modify {P : Block → Prop} {cs : List Block} {k : Nat} {f : Block → Block}
    (changed : ∀ c, cs[k]? = some c → P (f c)) (others : ∀ j c, j ≠ k → cs[j]? = some c → P c) :
    ∀ c ∈ cs.modify k f, P c := by
  intro c hc
  obtain ⟨j, hj⟩ := List.getElem?_of_mem hc
  rw [List.getElem?_modify] at hj
  obtain ⟨d, hd, rfl⟩ := Option.map_eq_some_iff.1 hj
  by_cases e : k = j
  · subst e
    simpa using changed d hd
  · simpa [e] using others j d (Ne.symm e) hd

/-! ## Going on and going back -/

/-- Going on behind gap `k` makes nested block `k` ready, or ends the block. -/
theorem moveOn_eq (b : Block) (k : Nat) :
    (b.moveOn k).1 =
      if k < b.children.length then
        { b with children := b.children.modify k (fun c => { c with state := .ready }), state := .active k }
      else { b with state := .used } := by
  rw [moveOn]
  split <;> rfl

theorem state_moveOn (b : Block) (k : Nat) : (b.moveOn k).1.state = .active k ∨ (b.moveOn k).1.state = .used := by
  rw [moveOn_eq]
  split
  · exact .inl rfl
  · exact .inr rfl

theorem moveOn_chained {b : Block} (below : ∀ c ∈ b.children, c.Dormant) (k : Nat) :
    (b.moveOn k).1.Chained := by
  rw [moveOn_eq]
  split
  · next lt =>
    have child := List.getElem?_eq_getElem lt
    have ready : (b.children.modify k fun c => { c with state := .ready })[k]? =
        some { b.children[k] with state := .ready } := by
      rw [List.getElem?_modify_eq, child]
      rfl
    refine .writing rfl ready (by simp) ?_ fun j d ne hd => ?_
    · exact .resting rfl fun c hc => (below _ (List.getElem_mem lt)).child hc
    · rw [List.getElem?_modify_ne _ _ (Ne.symm ne)] at hd
      exact below d (List.mem_of_getElem? hd)
  · exact .resting rfl below

theorem pristine_moveOn (b : Block) (k : Nat) : (b.moveOn k).1.pristine = b.pristine := by
  rw [moveOn_eq]
  split
  · exact pristine_congr rfl rfl rfl (map_pristine_modify fun c _ => pristine_state c .ready) rfl
  · exact pristine_state b .used

/-- The nested block behind the gap is waited for. -/
theorem getElem?_moveOn {b d : Block} {k : Nat} (child : b.children[k]? = some d) :
    (b.moveOn k).1.children[k]? = some { d with state := .ready } := by
  rw [moveOn_eq, if_pos (List.getElem?_eq_some_iff.1 child).1]
  exact getElem?_modifyChild child _

theorem childIndex?_moveOn (b : Block) (k : Nat) (name : String) :
    (b.moveOn k).1.childIndex? name = b.childIndex? name :=
  childIndex?_of_pristine_eq (pristine_moveOn b k) name

theorem resetAt_eq_modify (k : Nat) (cs : List Block) : resetAt k cs = cs.modify k reset := by
  induction cs generalizing k with
  | nil => cases k <;> rfl
  | cons c cs ih =>
    cases k with
    | zero => rfl
    | succ k => rw [resetAt, ih, List.modify_succ_cons]

theorem reset_active {b : Block} {k : Nat} (here : b.state = .active k) :
    b.reset = { b with children := b.children.modify k reset, state := .out } := by
  cases b
  cases here
  rw [reset, resetAt_eq_modify]

theorem reset_idle {b : Block} (idle : b.state.isActive = false) : b.reset = { b with state := .out } := by
  obtain ⟨name, vs, gaps, cs, span, state⟩ := b
  cases state with
  | active k => cases idle
  | _ => rfl

/-- Going back down the chain leaves nothing reached. -/
theorem Chained.reset_dormant {b : Block} (h : b.Chained) : b.reset.Dormant := by
  induction h with
  | resting idle below =>
    rw [reset_idle idle]
    exact dormant_of_out below
  | writing here child _ _ others ih =>
    rw [reset_active here]
    refine dormant_iff.2 ⟨rfl, forall_mem_modify (fun c hc => ?_) others⟩
    rw [child] at hc
    cases hc
    exact ih

theorem pristine_reset (b : Block) : b.reset.pristine = b.pristine := by
  induction b using nestInduction with
  | nest b ih =>
    cases hs : b.state.isActive with
    | false =>
      rw [reset_idle hs]
      exact pristine_state b .out
    | true =>
      cases e : b.state with
      | active k =>
        rw [reset_active e]
        exact pristine_congr rfl rfl rfl
          (map_pristine_modify fun c hc => ih c (List.mem_of_getElem? hc)) rfl
      | _ => simp [e, State.isActive] at hs

end Block

open Block

variable {σ : Type}

/-! ## Granted calls -/

/-- Once nested block `k` has become `d'`, which is finished, the block can go on behind it. -/
theorem Granted.next_behind {b d d' : Block} {k : Nat} (child : b.children[k]? = some d)
    (done : d'.state = .used ∨ d'.state = .closed) :
    Granted ((b.moveOn k).1.modifyChild k fun _ => d') (.next : Call σ)
      ((b.modifyChild k fun _ => { d' with state := .out }).moveOn (k + 1)).1 := by
  have lt : k < b.children.length := (List.getElem?_eq_some_iff.1 child).1
  have there := getElem?_modifyChild (getElem?_moveOn child) fun _ => d'
  rw [moveOn_eq, if_pos lt] at there ⊢
  have granted := Granted.next (σ := σ) rfl there done
  have children (cs : List Block) :
      ((cs.modify k fun c => { c with state := .ready }).modify k fun _ => d').modify k
        (fun c => { c with state := .out }) = cs.modify k fun _ => { d' with state := .out } := by
    rw [List.modify_modify_eq, List.modify_modify_eq]
    rfl
  rw [moveOn_eq, children_modifyChild, children_modifyChild, children] at granted
  rw [moveOn_eq]
  exact granted

/-- It then writes the gap behind that block, with the values it has. -/
theorem Block.output_behind {b d : Block} {k : Nat} (child : b.children[k]? = some d) (d' : Block) :
    ((b.moveOn k).1.modifyChild k fun _ => d').output (.next : Call σ) = b.gapBytes (k + 1) := by
  rw [moveOn_eq, if_pos (List.getElem?_eq_some_iff.1 child).1]
  rfl

theorem Granted.pristine {b b' : Block} {c : Call σ} (h : Granted b c b') : b'.pristine = b.pristine := by
  cases h with
  | startWith =>
    rw [pristine_moveOn]
    split
    · exact pristine_reset b
    · rfl
  | start => exact pristine_moveOn b 0
  | skip => exact pristine_state b .closed
  | next =>
    rw [pristine_moveOn]
    exact pristine_modifyChild fun c _ => pristine_state c .out
  | finish => rfl
  | set name value =>
    refine pristine_congr rfl ?_ rfl rfl rfl
    cases hv : b.vars.assign? name value with
    | none => rfl
    | some vs => exact Variables.pristine_assign? hv

/-- Names, texts and the shape of the tree are beyond the reach of calls. -/
theorem GrantedAt.pristine {b b' : Block} {path : List String} {c : Call σ} (h : GrantedAt b path c b') :
    b'.pristine = b.pristine := by
  induction h with
  | self granted => exact granted.pristine
  | nested index child _ ih =>
    apply pristine_modifyChild
    intro d hd
    rw [child] at hd
    cases hd
    exact ih

/-- Where nothing has been reached, only the root can be begun. -/
theorem Granted.dormant {b b' : Block} {c : Call σ} (h : Granted b c b')
    (other : b.isRoot = false ∨ ∀ s, c ≠ .startWith s) (dormant : b.Dormant) : b'.Dormant := by
  have out := dormant.state
  cases h with
  | startWith s root =>
    rcases other with nested | other
    · simp [nested] at root
    · exact absurd rfl (other s)
  | start _ waits => simp [out] at waits
  | skip _ waits => simp [out] at waits
  | next here => simp [out] at here
  | finish => exact dormant
  | set => exact dormant_iff.2 ⟨out, fun c hc => dormant.child hc⟩

theorem GrantedAt.dormant {b b' : Block} {path : List String} {c : Call σ} (h : GrantedAt b path c b')
    (named : b.WellNamed) (other : b.isRoot = false ∨ ∀ s, c ≠ .startWith s) (dormant : b.Dormant) :
    b'.Dormant := by
  induction h with
  | self granted => exact granted.dormant other dormant
  | @nested b d d' k _ _ _ index child _ ih =>
    have mem := List.mem_of_getElem? child
    have nested := (named b b.self_mem_preorder).2 d mem
    have below := ih (named.child mem) (.inl nested) (dormant.child mem)
    refine dormant_iff.2 ⟨dormant.state, forall_mem_modify (fun _ _ => below) ?_⟩
    intro j a _ ha
    exact dormant.child (List.mem_of_getElem? ha)

theorem Granted.chained {b b' : Block} {c : Call σ} (h : Granted b c b') (chained : b.Chained) :
    b'.Chained := by
  cases h with
  | startWith =>
    apply moveOn_chained
    split
    · exact fun c hc => chained.reset_dormant.child hc
    · next idle => exact chained.below_idle (by simpa using idle)
  | start _ waits =>
    apply moveOn_chained
    apply chained.below_idle
    rcases waits with e | e <;> rw [e] <;> rfl
  | skip _ waits =>
    refine .resting rfl (chained.below_idle ?_)
    rw [waits]; rfl
  | next here child done =>
    apply moveOn_chained
    cases chained with
    | resting idle => simp [here, State.isActive] at idle
    | writing at_ child' _ below others =>
      rw [here] at at_; cases at_
      rw [child] at child'; cases child'
      refine forall_mem_modify (fun d hd => ?_) others
      rw [child] at hd; cases hd
      apply dormant_of_out
      apply below.below_idle
      rcases done with e | e <;> rw [e] <;> rfl
  | finish => exact chained
  | set _ _ idle => exact .resting idle (chained.below_idle idle)

/-- No granted call takes a block out of the pass. -/
theorem Granted.reached {b b' : Block} {c : Call σ} (h : Granted b c b') (reached : b.state ≠ .out) :
    b'.state ≠ .out := by
  have moved (a : Block) (k : Nat) : (a.moveOn k).1.state ≠ .out := by
    rcases a.state_moveOn k with e | e <;> simp [e]
  cases h with
  | startWith | start | next => exact moved _ _
  | skip => simp
  | finish => exact reached
  | set => exact reached

/-- A granted call keeps the chain, and its own block within the pass. -/
theorem GrantedAt.chained {b b' : Block} {path : List String} {c : Call σ} (h : GrantedAt b path c b')
    (named : b.WellNamed) (chained : b.Chained) :
    b'.Chained ∧ (b.state ≠ .out → b'.state ≠ .out) := by
  induction h with
  | self granted => exact ⟨granted.chained chained, granted.reached⟩
  | @nested b d d' j _ _ _ index child granted ih =>
    have mem := List.mem_of_getElem? child
    have dormant (hd : d.Dormant) : d'.Dormant :=
      granted.dormant (named.child mem) (.inl ((named b b.self_mem_preorder).2 d mem)) hd
    refine ⟨?_, id⟩
    cases chained with
    | resting idle below =>
      refine .resting idle (forall_mem_modify (fun _ _ => dormant (below d mem)) fun i a _ ha => ?_)
      exact below a (List.mem_of_getElem? ha)
    | @writing _ a k here child' reached below others =>
      by_cases e : j = k
      · subst e
        rw [child] at child'; cases child'
        obtain ⟨chained', reached'⟩ := ih (named.child mem) below
        have changed : (b.modifyChild j fun _ => d').children[j]? = some d' := getElem?_modifyChild child _
        refine .writing here changed (reached' reached) chained' ?_
        intro i x ne hx
        rw [children_modifyChild, List.getElem?_modify_ne _ _ (Ne.symm ne)] at hx
        exact others i x ne hx
      · have kept : (b.modifyChild j fun _ => d').children[k]? = some a := by
          rw [children_modifyChild, List.getElem?_modify_ne _ _ e, child']
        refine .writing here kept reached below ?_
        intro i x ne hx
        rw [children_modifyChild, List.getElem?_modify] at hx
        obtain ⟨y, hy, rfl⟩ := Option.map_eq_some_iff.1 hx
        by_cases e' : j = i
        · subst e'
          rw [child] at hy; cases hy
          simpa using dormant (others j d e child)
        · simpa [e'] using others i y ne hy

end Stencil

import Mathlib.Logic.Function.Basic
import Stencil.Proofs.Chain

/-!
# The block that was entered

While a block is active its variables cannot be assigned, so from the call that enters it to the
last one that goes on it is written with the values it was entered with. A ledger keeps for every
path the block as it was entered and counts how often it has gone on; `Ledger.Tells` is that the
active blocks of a tree are written from the ledger, and granted calls keep it.
-/

namespace Stencil

variable {σ : Type}

/-! ## What a granted call leaves of other blocks -/

/-- Behind a granted call, an active block waits for the nested block it is at. -/
theorem Granted.waiting {b b' d : Block} {c : Call σ} {k : Nat} (h : Granted b c b')
    (here : b'.state = .active k) (child : b'.children[k]? = some d) : d.state = .ready := by
  have moved (a : Block) (j : Nat) (here : (a.moveOn j).1.state = .active k)
      (child : (a.moveOn j).1.children[k]? = some d) : d.state = .ready := by
    rw [Block.moveOn_eq] at here child
    split at here
    · next lt =>
      cases here
      rw [if_pos lt, List.getElem?_modify_eq] at child
      obtain ⟨_, -, rfl⟩ := Option.map_eq_some_iff.1 child
      rfl
    · cases here
  cases h with
  | startWith | start | next => exact moved _ _ here child
  | skip => cases here
  | finish _ used => simp [here] at used
  | set _ _ idle =>
    have : b.state = .active k := here
    simp [this, State.isActive] at idle

/-- Below the block of a granted call nothing is active. -/
theorem Granted.idle_below {b b' d : Block} {c : Call σ} {name : String} {path : List String}
    (h : Granted b c b') (chained : b'.Chained) (target : b'.descend? (name :: path) = some d) :
    d.state.isActive = false := by
  obtain ⟨j, a, -, child, below⟩ := Block.descend?_cons target
  have part := Block.mem_preorder_of_descend? below
  have dormant_idle (dormant : a.Dormant) : d.state.isActive = false := by
    rw [dormant d part]; rfl
  cases chained with
  | resting _ dormant => exact dormant_idle (dormant a (List.mem_of_getElem? child))
  | @writing _ a' k here child' _ chained others =>
    by_cases e : j = k
    · subst e
      rw [child] at child'
      cases child'
      have ready := h.waiting here child
      rcases Block.mem_preorder.1 part with rfl | ⟨x, hx, part⟩
      · rw [ready]; rfl
      · have dormant := chained.below_idle (by rw [ready]; rfl) x hx
        rw [dormant d part]; rfl
    · exact dormant_idle (others j a e child)

/-- What a path leads to behind a change of one nested block that keeps its name. -/
theorem Block.descend?_modifyChild_ne {b d d' : Block} {k : Nat} {name other : String}
    {path : List String} (index : b.childIndex? name = some k) (child : b.children[k]? = some d)
    (same : d'.name = d.name) (ne : other ≠ name) :
    (b.modifyChild k fun _ => d').descend? (other :: path) = b.descend? (other :: path) := by
  rw [descend?, descend?, childIndex?_modifyChild child same]
  cases index' : b.childIndex? other with
  | none => rfl
  | some j =>
    have apart : k ≠ j := by
      rintro rfl
      obtain ⟨c, hc⟩ := exists_child_of_childIndex? index'
      have := name_of_childIndex? index hc
      rw [name_of_childIndex? index' hc] at this
      exact ne (Option.some.inj this)
    simp only [children_modifyChild, List.getElem?_modify_ne _ _ apart]

theorem Block.descend?_modifyChild {b d d' : Block} {k : Nat} {name : String} {path : List String}
    (index : b.childIndex? name = some k) (child : b.children[k]? = some d) (same : d'.name = d.name) :
    (b.modifyChild k fun _ => d').descend? (name :: path) = d'.descend? path := by
  exact descend?_child ((childIndex?_modifyChild child same name).trans index) (getElem?_modifyChild child _) path

/-- A block that is active behind a granted call is the one that was called, or it was active
before, with the same values. -/
theorem GrantedAt.active_after {b b' d' : Block} {path at_ : List String} {c : Call σ} {k : Nat}
    (h : GrantedAt b path c b') (named : b.WellNamed) (chained : b.Chained)
    (target : b'.descend? at_ = some d') (here : d'.state = .active k) :
    (at_ = path ∧ ∃ d, b.descend? path = some d ∧ Granted d c d') ∨
    (at_ ≠ path ∧ ∃ d, b.descend? at_ = some d ∧ d.state = .active k ∧ d.vars = d'.vars ∧
      d.gaps = d'.gaps) := by
  induction h generalizing at_ with
  | @self b b' c granted =>
    cases at_ with
    | nil =>
      cases target
      exact .inl ⟨rfl, b, rfl, granted⟩
    | cons name at_ =>
      have idle := granted.idle_below (granted.chained chained) target
      simp [here, State.isActive] at idle
  | @nested b d after j name path c index child granted ih =>
    have same : after.name = d.name := Block.name_eq_of_pristine_eq granted.pristine
    cases at_ with
    | nil =>
      cases target
      exact .inr ⟨(List.cons_ne_nil name path).symm, b, rfl, here, rfl, rfl⟩
    | cons other at_ =>
      by_cases e : other = name
      · subst e
        rw [Block.descend?_modifyChild index child same] at target
        have mem := List.mem_of_getElem? child
        rcases ih (named.child mem) (chained.part (Block.mem_preorder_of_child mem d.self_mem_preorder))
          target with ⟨rfl, x, hx, grant⟩ | ⟨ne, x, hx, rest⟩
        · exact .inl ⟨rfl, x, by rw [Block.descend?_child index child, hx], grant⟩
        · exact .inr ⟨by simpa using ne, x, by rw [Block.descend?_child index child, hx], rest⟩
      · rw [Block.descend?_modifyChild_ne index child same e] at target
        exact .inr ⟨by simp [e], d', target, here, rfl, rfl⟩

/-! ## Ledgers -/

/-- For every path, the block as it was entered, and how often it has gone on since. -/
abbrev Ledger := List String → Block × Nat

namespace Ledger

/-- The entry of a block that is entered. -/
def enter (l : Ledger) (path : List String) (b : Block) : Ledger :=
  Function.update l path (b, 0)

/-- The entry of a block that goes on. -/
def goOn (l : Ledger) (path : List String) : Ledger :=
  Function.update l path ((l path).1, (l path).2 + 1)

/-- The active blocks of a tree have the values and stand at the gaps that a ledger has them with. -/
def Tells (l : Ledger) (b : Block) : Prop :=
  ∀ path d k, b.descend? path = some d → d.state = .active k →
    (l path).1.vars = d.vars ∧ (l path).1.gaps = d.gaps ∧ (l path).2 = k

variable {l : Ledger} {b b' : Block} {path : List String}

/-- Gaps read off the ledger are those of the active block. -/
theorem Tells.gapBytes {d : Block} {k : Nat} (h : l.Tells b) (target : b.descend? path = some d)
    (here : d.state = .active k) (j : Nat) : (l path).1.gapBytes j = d.gapBytes j := by
  obtain ⟨vars, gaps, -⟩ := h path d k target here
  rw [Block.gapBytes, Block.gapBytes, Block.gapTexts, Block.gapTexts, Block.gap, Block.gap, vars, gaps]

/-- A block that has just moved on keeps its values and is at the nested block behind the gap. -/
theorem moveOn_entry {d : Block} {j k : Nat} (here : (d.moveOn j).1.state = .active k) :
    (d.moveOn j).1.vars = d.vars ∧ (d.moveOn j).1.gaps = d.gaps ∧ j = k := by
  rw [Block.moveOn_eq] at here ⊢
  split at here
  · next more =>
    cases here
    rw [if_pos more]
    exact ⟨rfl, rfl, rfl⟩
  · cases here

variable {c : Call σ}

/-- A granted call keeps the ledger right if the entry of its block is right behind the call. -/
theorem Tells.call {entry : Block × Nat} (h : l.Tells b) (granted : GrantedAt b path c b')
    (named : b.WellNamed) (chained : b.Chained)
    (entered : ∀ d d' k, b.descend? path = some d → Granted d c d' → d'.state = .active k →
      entry.1.vars = d'.vars ∧ entry.1.gaps = d'.gaps ∧ entry.2 = k) :
    Tells (Function.update l path entry) b' := by
  intro at_ d' k target here
  rcases granted.active_after named chained target here with
    ⟨rfl, d, was, grant⟩ | ⟨ne, d, was, active, vars, gaps⟩
  · rw [Function.update_self]
    exact entered d d' k was grant here
  · rw [Function.update_of_ne ne, ← vars, ← gaps]
    exact h at_ d k was active

/-- A call that leaves its block idle needs no entry. -/
theorem Tells.keep (h : l.Tells b) (granted : GrantedAt b path c b') (named : b.WellNamed)
    (chained : b.Chained) (idle : ∀ d d' : Block, Granted d c d' → d'.state.isActive = false) :
    l.Tells b' := by
  have same : Tells (Function.update l path (l path)) b' :=
    h.call granted named chained fun d d' k _ grant here => by
      have := idle d d' grant
      simp [here, State.isActive] at this
  rwa [Function.update_eq_self] at same

theorem Tells.start {d : Block} (h : l.Tells b) (granted : GrantedAt (σ := σ) b path .start b')
    (named : b.WellNamed) (chained : b.Chained) (target : b.descend? path = some d) :
    (l.enter path d).Tells b' := by
  apply h.call granted named chained
  intro x d' k was grant here
  rw [target] at was
  cases was
  cases grant with
  | start =>
    obtain ⟨vars, gaps, first⟩ := moveOn_entry here
    exact ⟨vars.symm, gaps.symm, first⟩

theorem Tells.next (h : l.Tells b) (granted : GrantedAt (σ := σ) b path .next b') (named : b.WellNamed)
    (chained : b.Chained) : (l.goOn path).Tells b' := by
  apply h.call granted named chained
  intro d d' k was grant here
  cases grant with
  | @next _ j at_ _ _ =>
    obtain ⟨vars, gaps, count⟩ := h path d j was at_
    obtain ⟨vars', gaps', next⟩ := moveOn_entry here
    exact ⟨vars.trans vars'.symm, gaps.trans gaps'.symm, (congrArg (· + 1) count).trans next⟩

/-- Behind the beginning of a pass the ledger needs an entry for the root only. -/
theorem tells_of_startWith {s : σ} (granted : Granted b (.startWith s) b') (chained : b.Chained) :
    (l.enter [] b).Tells b' := by
  have after := granted.chained chained
  intro at_ d k target here
  cases at_ with
  | nil =>
    cases target
    rw [Ledger.enter, Function.update_self]
    cases granted with
    | startWith =>
      obtain ⟨vars, gaps, first⟩ := moveOn_entry here
      rw [vars, gaps]
      split
      · next active =>
        cases hs : b.state with
        | active j =>
          rw [Block.reset_active hs]
          exact ⟨rfl, rfl, first⟩
        | _ => simp [hs, State.isActive] at active
      · exact ⟨rfl, rfl, first⟩
  | cons name at_ =>
    have idle := granted.idle_below after target
    simp [here, State.isActive] at idle

end Ledger

end Stencil

import Stencil.Fill
import Stencil.Proofs.Chain
import Stencil.Proofs.Reading

/-!
# Pages that can be reached

A page is reached from a template by calls on any of its blocks, by filling it from data, and by
whatever its owner does to the bound sink in between; calls may be refused and sinks may fail.
`Page.Sound` is the invariant of all of them, and `reachable_page_in_order` spells it out block by
block.
-/

namespace Stencil

open Block

variable {σ : Type}

namespace Page

/-- The pages that can be reached from a template. -/
inductive Reachable [Sink σ] (root : Block) : Page σ → Prop where
  | fresh : Reachable root (.ofTemplate root)
  | call {p : Page σ} {path : List String} {c : Call σ} {r : Reply σ} (before : Reachable root p)
      (reply : p.call? path c = some r) : Reachable root r.page
  | fill {p : Page σ} (before : Reachable root p) (fields : Fields) (sink : σ) :
      Reachable root (p.fill fields sink).page
  | touch {p : Page σ} {s : σ} (before : Reachable root p) (bound : p.sink = some s) (t : σ) :
      Reachable root ⟨p.root, some t⟩

/-- What holds of every page that is reached from a template: it still is that template, its
active blocks are one chain, its root waits for no parent, and without a sink nothing is reached. -/
structure Sound (root : Block) (p : Page σ) : Prop where
  pristine : p.root.pristine = root
  chained : p.root.Chained
  top : p.root.state ≠ .ready ∧ p.root.state ≠ .closed
  unbound : p.sink = none → p.root.Dormant

theorem Sound.ofTemplate {root : Block} (fresh : Template.Fresh root) :
    Sound root (.ofTemplate root : Page σ) := by
  have dormant : root.Dormant := fresh.pristine ▸ root.pristine_dormant
  refine ⟨fresh.pristine, dormant.chained, ?_, fun _ => dormant⟩
  simp only [Page.ofTemplate, dormant.state]
  exact ⟨nofun, nofun⟩

section

variable {root : Block} {p : Page σ}

theorem Sound.named (h : Sound root p) (fresh : Template.Fresh root) : p.root.WellNamed :=
  wellNamed_of_pristine_eq (h.pristine.trans fresh.pristine.symm) fresh.named

theorem Sound.top_states (h : Sound root p) :
    p.root.state = .out ∨ (∃ k, p.root.state = .active k) ∨ p.root.state = .used := by
  cases hs : p.root.state with
  | out => exact .inl rfl
  | active k => exact .inr (.inl ⟨k, rfl⟩)
  | used => exact .inr (.inr rfl)
  | ready => exact absurd hs h.top.1
  | closed => exact absurd hs h.top.2

theorem Sound.isRoot (h : Sound root p) (fresh : Template.Fresh root) : p.root.isRoot = true := by
  rw [isRoot_of_pristine_eq (h.pristine.trans fresh.pristine.symm), Block.isRoot, fresh.unnamed]
  rfl

/-- A granted call keeps the root's state among those of a root. -/
theorem top_of_granted {b b' : Block} {path : List String} {c : Call σ} (h : GrantedAt b path c b')
    (root : b.isRoot = true) (top : b.state ≠ .ready ∧ b.state ≠ .closed) :
    b'.state ≠ .ready ∧ b'.state ≠ .closed := by
  have moved (a : Block) (k : Nat) : (a.moveOn k).1.state ≠ .ready ∧ (a.moveOn k).1.state ≠ .closed := by
    rcases a.state_moveOn k with e | e <;> rw [e] <;> exact ⟨nofun, nofun⟩
  cases h with
  | self granted =>
    cases granted with
    | startWith | next => exact moved _ _
    | start nested | skip nested => simp [nested] at root
    | finish | set => exact top
  | nested => exact top

variable [Sink σ]

/-- The answer to a call on a page. -/
theorem answerAt {path : List String} {c : Call σ} {r : Reply σ} (h : p.call? path c = some r) :
    ∃ d, AnswerAt p.root p.sink c path d ⟨r.page.root, r.page.sink, r.result, r.events⟩ := by
  obtain ⟨o, ho, rfl⟩ := Option.map_eq_some_iff.1 h
  exact Block.answerAt ho

/-- Over sinks that never fail, a call that is granted succeeds, and what it writes is received. -/
theorem call_of_granted {fine : σ → Prop} {seen : σ → List UInt8} (steady : Sink.Steady fine seen)
    {path : List String} {c : Call σ} {d b' : Block} {s : σ} (can : GrantedAt p.root path c b')
    (target : p.root.descend? path = some d) (aim : c.target p.sink = some s) (good : fine s) :
    ∃ r, p.call? path c = some r ∧ r.result = .ok () ∧ r.page.root = b' ∧
      ∃ t, r.page.sink = some t ∧ fine t ∧ seen t = seen s ++ d.output c := by
  obtain ⟨o, ho⟩ := exists_callAt target p.sink c
  obtain ⟨d', answer⟩ := Block.answerAt ho
  have here : d' = d := Option.some.inj (answer.target.symm.trans target)
  obtain ⟨ok, root_eq, received⟩ := answer.of_granted steady can aim good
  exact ⟨⟨⟨o.block, o.sink⟩, o.result, o.events⟩, by rw [call?, ho]; rfl, ok, root_eq, here ▸ received⟩

/-- Calls keep the invariant, whether they are granted, refused or failed by a sink. -/
theorem Sound.call {path : List String} {c : Call σ} {r : Reply σ} (h : Sound root p)
    (fresh : Template.Fresh root) (reply : p.call? path c = some r) : Sound root r.page := by
  obtain ⟨d, answer⟩ := answerAt reply
  obtain ⟨d', own⟩ := answer.answer
  have still : r.page.sink = none → p.sink = none := fun unbound =>
    Decidable.byContradiction fun bound => own.sink_ne_none bound unbound
  cases hr : r.result with
  | error e =>
    have same : r.page.root = p.root := answer.refused e hr
    refine ⟨?_, ?_, ?_, fun unbound => ?_⟩
    · rw [same]; exact h.pristine
    · rw [same]; exact h.chained
    · rw [same]; exact h.top
    · rw [same]; exact h.unbound (still unbound)
  | ok =>
    have granted : GrantedAt p.root path c r.page.root := answer.granted hr
    have named := h.named fresh
    refine ⟨granted.pristine.trans h.pristine, (granted.chained named h.chained).1,
      top_of_granted granted (h.isRoot fresh) h.top, fun unbound => ?_⟩
    have other : ∀ s, c ≠ .startWith s := by
      rintro s rfl
      exact own.sink_of_startWith hr unbound
    exact granted.dormant named (.inr other) (h.unbound (still unbound))

end

variable [Sink σ]

/-- What every call keeps, carrying out steps keeps. -/
theorem perform_keeps {P : Page σ → Prop}
    (keep : ∀ p path c r, P p → p.call? path c = some r → P r.page) (plan : List (Action σ))
    {p : Page σ} (h : P p) : P (p.perform plan).page := by
  induction plan generalizing p with
  | nil => exact h
  | cons a rest ih =>
    cases a with
    | warn w given => exact ih h
    | call path label c =>
      rw [perform]
      split
      · exact ih h
      · next r reply =>
        have after := keep p path c r h reply
        split
        · exact after
        · exact ih after

theorem fill_page (p : Page σ) (fields : Fields) (sink : σ) :
    (p.fill fields sink).page = (p.perform (p.root.fillPlan fields sink)).page := by
  rw [fill]
  split <;> rfl

/-- The invariant holds of every page that is reached. -/
theorem Reachable.sound {root : Block} {p : Page σ} (fresh : Template.Fresh root)
    (h : Reachable root p) : Sound root p := by
  induction h with
  | fresh => exact .ofTemplate fresh
  | call _ reply ih => exact ih.call fresh reply
  | fill _ fields sink ih =>
    rw [fill_page]
    exact perform_keeps (fun _ _ _ _ h reply => h.call fresh reply) _ ih
  | touch _ bound t ih => exact ⟨ih.pristine, ih.chained, ih.top, nofun⟩

end Page

/-! ## What the invariant says -/

namespace Block

theorem layOut_eq (s : Store) (b : Block) :
    b.layOut s =
      (let (children, s) := layOutAll s b.children
       let (range, s) := s.append b.gaps.flatten
       (⟨range, Placement.gapSpans range.start b.gaps, children⟩, s)) := by
  cases b
  rw [layOut]

/-- The store and the ranges in it do not depend on states and values. -/
theorem layOut_pristine (b : Block) (s : Store) : b.pristine.layOut s = b.layOut s := by
  induction b using rowInduction (fun cs => ∀ s, layOutAll s (cs.map pristine) = layOutAll s cs) generalizing s with
  | nest b ih => rw [layOut_eq, layOut_eq, children_pristine, gaps_pristine, ih]
  | nil => rfl
  | cons c cs first others =>
    rw [List.map_cons, layOutAll, layOutAll, first]
    simp only [others]

end Block

open Page

/-- **Every page that is reached is in order.** Its root is out, active or used; every block is in
order, with active blocks alone above whatever has been reached; while anything has been reached a
sink is bound, and without one no call but the beginning of a pass can fail on a sink; and the
template, with its segments and their places, is as it was read. -/
theorem reachable_page_in_order [Sink σ] {source : String} {file : Nat} {root : Block} {p : Page σ}
    (parsed : Template.parse source file = .ok root) (reached : Reachable root p) :
    (p.root.state = .out ∨ (∃ k, p.root.state = .active k) ∨ p.root.state = .used) ∧
    (∀ b ∈ p.root.preorder, b.Orderly) ∧
    (∀ front back a b, p.root.descend? front = some a → back ≠ [] → a.descend? back = some b →
      b.state ≠ .out → a.state.isActive = true) ∧
    ((∃ b ∈ p.root.preorder, b.state ≠ .out) → p.sink ≠ none) ∧
    (∀ path c r, p.sink = none → (∀ s, c ≠ .startWith s) → p.call? path c = some r →
      ∀ fault, r.result ≠ .error (.io fault)) ∧
    p.root.pristine = root ∧ p.root.placement = root.placement ∧ p.root.store = root.store := by
  have fresh := Template.fresh_of_parse parsed
  have sound := reached.sound fresh
  have laidOut : p.root.layOut .empty = root.layOut .empty := by
    rw [← layOut_pristine p.root, sound.pristine]
  refine ⟨sound.top_states, sound.chained.orderly, ?_, ?_, ?_, sound.pristine, ?_, ?_⟩
  · intro front back a b above below target
    exact (sound.chained.part (mem_preorder_of_descend? above)).active_above target below
  · rintro ⟨b, part, hb⟩ unbound
    exact hb (sound.unbound unbound b part)
  · intro path c r unbound other reply fault err
    obtain ⟨d, answer⟩ := answerAt reply
    obtain ⟨_, own⟩ := answer.answer
    have out : d.state = .out := sound.unbound unbound d (mem_preorder_of_descend? answer.target)
    obtain ⟨b', k, granted, gap⟩ := own.granted_of_io err
    cases granted with
    | startWith s => exact other s rfl
    | start _ waits => simp [out] at waits
    | next here => simp [out] at here
    | skip | finish | set => cases gap
  · rw [placement, laidOut, placement]
  · rw [store, laidOut, store]

/-- A page in the middle of a pass, with a block that waits inside an active block. -/
theorem reachable_page_in_order_mid_pass :
    ∃ (root : Block) (p : Page Buffer),
      Template.parse "a<!--rep blk=b-->x<!--rep blk=c-->y<!--/rep--><!--/rep-->z" 0 = .ok root ∧
      Reachable root p ∧ p.root.states = [.active 0, .active 0, .ready] ∧
      ∀ b ∈ p.root.preorder, b.Orderly := by
  let root : Block := ⟨none, ⟨[]⟩, [[⟨"a", none⟩], [⟨"z", none⟩]],
    [⟨some "b", ⟨[]⟩, [[⟨"x", none⟩], [⟨"", none⟩]],
      [⟨some "c", ⟨[]⟩, [[⟨"y", none⟩]], [], ⟨18, 46⟩, .out⟩], ⟨1, 57⟩, .out⟩], ⟨0, 58⟩, .out⟩
  have parsed : Template.parse "a<!--rep blk=b-->x<!--rep blk=c-->y<!--/rep--><!--/rep-->z" 0 =
      .ok root := by
    with_unfolding_all rfl
  have calls : (((Page.ofTemplate root).call? [] (.startWith Buffer.empty)).bind fun r =>
      r.page.call? ["b"] .start).map (·.page.root.states) = some [.active 0, .active 0, .ready] := by
    with_unfolding_all rfl
  obtain ⟨r, made, states⟩ := Option.map_eq_some_iff.1 calls
  obtain ⟨first, made_first, made_second⟩ := Option.bind_eq_some_iff.1 made
  have reached := (Reachable.fresh.call made_first).call made_second
  exact ⟨root, r.page, parsed, reached, states, (reachable_page_in_order parsed reached).2.1⟩

end Stencil

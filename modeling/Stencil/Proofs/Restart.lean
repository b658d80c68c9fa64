import Stencil.Proofs.Passes
import Stencil.Proofs.Served
import Stencil.Session

/-!
# Restarts

A pass can be begun at any point of another one. Going back down the chain of active blocks puts the
whole tree out, since beside the chain nothing has been reached (`Chained.reset_eq`); the page behind the
call is the one that a copy of the template with the same values, with nothing reached and no sink, would
come to, and sinks that were bound before are not served again (`restart_like_fresh`).
-/

namespace Stencil

variable {σ : Type}

namespace Block

/-! ## The tree with nothing reached -/

mutual

/-- The tree with every block out. Values are kept. -/
def cleared : Block → Block
  | ⟨name, vs, gaps, cs, span, _⟩ => ⟨name, vs, gaps, clearedAll cs, span, .out⟩

def clearedAll : List Block → List Block
  | [] => []
  | c :: cs => c.cleared :: clearedAll cs

end

theorem clearedAll_eq_map (cs : List Block) : clearedAll cs = cs.map cleared := by
  induction cs with
  | nil => rfl
  | cons c cs ih => rw [clearedAll, ih]; rfl

theorem cleared_eq (b : Block) :
    b.cleared = ⟨b.name, b.vars, b.gaps, b.children.map cleared, b.span, .out⟩ := by
  cases b
  rw [cleared, clearedAll_eq_map]

/-- States do not show in the cleared tree. -/
@[simp] theorem cleared_state (b : Block) (s : State) : cleared { b with state := s } = b.cleared := by
  rw [cleared_eq, cleared_eq]

/-- A tree with nothing reached is cleared. -/
theorem Dormant.cleared_self {b : Block} (h : b.Dormant) : b.cleared = b := by
  induction b using nestInduction with
  | nest b ih =>
    have children : b.children.map cleared = b.children := by
      rw [List.map_congr_left fun c hc => ih c hc (h.child hc), List.map_id']
    rw [cleared_eq, children, ← h.state, mk_fields]

theorem preorder_cleared (b : Block) : b.cleared.preorder = b.preorder.map cleared :=
  preorder_map (fun b => by rw [cleared_eq]) b

@[simp] theorem values_cleared (b : Block) : b.cleared.values = b.values := by
  rw [values, values, preorder_cleared, List.map_map]
  apply List.map_congr_left
  intro a _
  rw [Function.comp, cleared_eq]

theorem cleared_moveOn (b : Block) (k : Nat) : (b.moveOn k).1.cleared = b.cleared := by
  rw [moveOn_eq]
  split
  · have children : (b.children.modify k fun c => { c with state := .ready }).map cleared =
        b.children.map cleared := by
      apply List.ext_getElem?
      intro j
      rw [List.getElem?_map, List.getElem?_map, List.getElem?_modify]
      by_cases e : k = j
      · subst e
        cases b.children[k]? <;> simp
      · simp [e]
    rw [cleared_eq, cleared_eq, children]
  · exact cleared_state b .used

/-- Going back down the chain clears the tree. -/
theorem Chained.reset_eq {b : Block} (h : b.Chained) : b.reset = b.cleared := by
  induction h with
  | resting idle below =>
    rw [reset_idle idle, cleared_eq, List.map_congr_left fun c hc => (below c hc).cleared_self, List.map_id']
  | @writing b c k here child _ _ others ih =>
    have children : b.children.modify k reset = b.children.map cleared := by
      apply List.ext_getElem?
      intro j
      rw [List.getElem?_map, List.getElem?_modify]
      by_cases e : k = j
      · subst e
        simp [child, ih]
      · cases hd : b.children[j]? with
        | none => simp
        | some d => simp [e, (others j d (Ne.symm e) hd).cleared_self]
    rw [reset_active here, cleared_eq, children]

/-- A pass begins on the tree with nothing reached, whatever has been reached. -/
theorem Chained.restarted_eq {b : Block} (h : b.Chained) :
    ((if b.state.isActive then b.reset else b).moveOn 0).1 = (b.cleared.moveOn 0).1 := by
  split
  · rw [h.reset_eq]
  · next idle =>
    have idle : b.state.isActive = false := by simpa using idle
    rw [← h.reset_eq, reset_idle idle, moveOn_eq, moveOn_eq]

variable [Sink σ]

/-- What is written does not depend on states. -/
theorem writeGap_cleared (b : Block) (k : Nat) (s : σ) : b.cleared.writeGap k s = b.writeGap k s := by
  have texts : b.cleared.gapTexts k = b.gapTexts k := by rw [cleared_eq]; rfl
  have root : b.cleared.isRoot = b.isRoot := by rw [cleared_eq]; rfl
  have size : b.cleared.children.length = b.children.length := by rw [cleared_eq, List.length_map]
  rw [writeGap, writeGap, texts, root, size]

end Block

/-- A page on which nothing has been reached is as sound as it was. -/
theorem Page.Sound.cleared {root : Block} {p : Page σ} (h : Page.Sound root p) :
    Page.Sound root (⟨p.root.cleared, none⟩ : Page σ) := by
  have dormant : p.root.cleared.Dormant := h.chained.reset_eq ▸ h.chained.reset_dormant
  refine ⟨?_, dormant.chained, ?_, fun _ => dormant⟩
  · rw [← h.chained.reset_eq, Block.pristine_reset, h.pristine]
  · rw [dormant.state]
    exact ⟨nofun, nofun⟩

/-! ## What sinks see -/

namespace Event

/-- Notes are nothing a sink sees. -/
theorem sights_prepend_notes (notes : List Note) (events : List Event) :
    sights (notes.map .note ++ events) = sights events := by
  induction notes with
  | nil => rfl
  | cons n notes ih => exact ih

/-- What sinks see first does not show in what they see later. -/
theorem sights_append_congr {events others : List Event} (first : List Event) (same : sights events = sights others) :
    sights (first ++ events) = sights (first ++ others) := by
  induction first with
  | nil => exact same
  | cons e first ih =>
    cases e with
    | note n => exact ih
    | wrote bs => rw [List.cons_append, List.cons_append, sights, sights, ih]
    | flushed accepted => rw [List.cons_append, List.cons_append, sights, sights, ih]

theorem sights_append_notes (events : List Event) (notes : List Note) :
    sights (events ++ notes.map .note) = sights events := by
  have quiet := sights_append_congr events (sights_prepend_notes notes [])
  rwa [List.append_nil, List.append_nil] at quiet

end Event

variable [Sink σ]

/-- A call serves the sink it is meant for, or none. -/
theorem Answer.served {b : Block} {bound : Option σ} {c : Call σ} {o : Outcome σ} (h : Answer b bound c o) :
    (Event.sights o.events = [] ∧ o.sink = bound) ∨
    ∃ t t', c.target bound = some t ∧ Sink.Served t o.events t' ∧
      (o.sink = some t' ∨ o.sink = c.kept bound t') := by
  cases h with
  | denied | unbound => exact .inl ⟨rfl, rfl⟩
  | failed _ _ target _ => exact .inr ⟨_, _, target, b.writeGap_served _ _, .inr rfl⟩
  | written _ _ target _ notes =>
    exact .inr ⟨_, _, target, (b.writeGap_served _ _).trans (Sink.served_notes _ notes), .inl rfl⟩
  | silent _ _ notes => exact .inl ⟨Event.sights_append_notes [] notes, rfl⟩

namespace Page

open Block

variable {root : Block} {p : Page σ}

/-- What the caller and the sinks see of a call. -/
def Attempt.outcome? (a : Attempt σ) : Option (Except RenderError Unit × List Sight) :=
  a.reply?.map fun r => (r.result, Event.sights r.events)

section

variable {ι : Type} {ident : σ → ι} (same : Sink.Identifies ident) {known : ι → Prop}

include same

/-- A call whose sinks are among some serves one of these, and leaves one of these bound. -/
theorem Attempt.serves {a : Attempt σ} (bound : ∀ t, a.before.sink = some t → known (ident t))
    (aim : ∀ t, a.call.target a.before.sink = some t → known (ident t)) :
    (∀ t, a.after.sink = some t → known (ident t)) ∧
    ∀ r, a.reply? = some r → Event.sights r.events = [] ∨
      ∃ t t', a.call.target a.before.sink = some t ∧ Sink.Served t r.events t' ∧ known (ident t) := by
  cases hr : a.reply? with
  | none => exact ⟨by rwa [after, hr], nofun⟩
  | some r =>
    have after : a.after = r.page := after_eq hr
    obtain ⟨d, answer⟩ := answerAt hr
    obtain ⟨_, own⟩ := answer.answer
    rw [after]
    rcases own.served with ⟨quiet, sink⟩ | ⟨t, t', target, served, sink⟩
    · refine ⟨fun u hu => bound u (sink.symm.trans hu), fun _ e => ?_⟩
      cases e
      exact .inl quiet
    · have now (u : σ) (hu : t' = u) : known (ident u) := by
        rw [← hu, served.ident same]
        exact aim t target
      refine ⟨fun u hu => ?_, fun _ e => ?_⟩
      · rcases sink with sink | sink
        · exact now u (Option.some.inj (sink.symm.trans hu))
        · cases hc : a.call with
          | startWith =>
            rw [hc] at sink
            exact bound u (sink.symm.trans hu)
          | _ =>
            rw [hc] at sink
            exact now u (Option.some.inj (sink.symm.trans hu))
      · cases e
        exact .inr ⟨t, t', target, served, aim t target⟩

/-- While every sink that is bound or brought is among some, only these are served. -/
theorem attempts_serve {calls : List (List String × Call σ)} (bound : ∀ t, p.sink = some t → known (ident t))
    (brought : ∀ path x, (path, .startWith x) ∈ calls → known (ident x)) :
    ∀ a ∈ p.attempts calls, ∀ r, a.reply? = some r → Event.sights r.events = [] ∨
      ∃ t t', a.call.target a.before.sink = some t ∧ Sink.Served t r.events t' ∧ known (ident t) := by
  induction calls generalizing p with
  | nil => exact nofun
  | cons q calls ih =>
    obtain ⟨path, c⟩ := q
    let first : Attempt σ := ⟨p, path, c⟩
    have aim (t : σ) (target : c.target p.sink = some t) : known (ident t) := by
      cases c with
      | startWith x =>
        cases target
        exact brought path t List.mem_cons_self
      | _ => exact bound t target
    obtain ⟨still, here⟩ := first.serves same bound aim
    have later := ih still fun path x hx => brought path x (List.mem_cons_of_mem _ hx)
    intro a ha
    rcases List.mem_cons.1 ha with rfl | ha
    · exact here
    · exact later a ha

end

/-- A pass begins where its first gap can be written, and then on the tree with nothing reached. -/
theorem Sound.begun {s : σ} (h : Sound root p) (fresh : Template.Fresh root)
    (writable : (p.root.writeGap 0 s).fault = none) :
    ∃ notes : List Note, Attempt.reply? ⟨p, [], .startWith s⟩ =
      some ⟨⟨(p.root.cleared.moveOn 0).1, some (p.root.writeGap 0 s).sink⟩, .ok (),
        (p.root.writeGap 0 s).events ++ notes.map .note⟩ := by
  have can := Granted.startWith s (h.isRoot fresh)
  have answer := p.root.answer_startWith p.sink s
  have reply : Attempt.reply? ⟨p, [], .startWith s⟩ = some ⟨⟨(p.root.startWith p.sink s).block,
    (p.root.startWith p.sink s).sink⟩, (p.root.startWith p.sink s).result,
    (p.root.startWith p.sink s).events⟩ := rfl
  rw [reply]
  generalize p.root.startWith p.sink s = o at answer
  cases answer with
  | denied _ _ never => exact absurd can (never _)
  | unbound _ _ target => cases target
  | failed _ gap target faulty =>
    cases gap
    cases target
    rw [writable] at faulty
    cases faulty
  | written granted gap target _ notes =>
    cases gap
    cases target
    rw [granted.unique can, h.chained.restarted_eq]
    exact ⟨notes, rfl⟩
  | silent _ gap => cases gap

/-- **A restart is as good as a fresh template.** On every page that is reached, and for every sink that
takes the first gap, a pass can be begun; no value changes. To the caller and the sinks this call and all
further calls are those on a copy with the same values, nothing reached and no sink bound, and lead to the
same pages. A sink that was bound before is not served any more, unless it is brought again. -/
theorem restart_like_fresh {source : String} {file : Nat} {s : σ}
    (parsed : Template.parse source file = .ok root) (reached : Reachable root p)
    (writable : (p.root.writeGap 0 s).fault = none) :
    let copy : Page σ := ⟨p.root.cleared, none⟩
    let first : Attempt σ := ⟨p, [], .startWith s⟩
    first.succeeded = true ∧ first.after.root.values = p.root.values ∧
    (∀ calls, p.afterCalls (([], .startWith s) :: calls) = copy.afterCalls (([], .startWith s) :: calls) ∧
      (p.attempts (([], .startWith s) :: calls)).map Attempt.outcome? =
        (copy.attempts (([], .startWith s) :: calls)).map Attempt.outcome?) ∧
    (∀ (ι : Type) (ident : σ → ι), Sink.Identifies ident → ∀ calls,
      ∀ a ∈ p.attempts (([], .startWith s) :: calls), ∀ r, a.reply? = some r →
        Event.sights r.events = [] ∨
        ∃ t t', a.call.target a.before.sink = some t ∧ Sink.Served t r.events t' ∧
          (ident t = ident s ∨ ∃ path x, (path, .startWith x) ∈ calls ∧ ident t = ident x)) := by
  intro copy first
  have fresh := Template.fresh_of_parse parsed
  have sound := reached.sound fresh
  have writable_copy : (copy.root.writeGap 0 s).fault = none := by rwa [writeGap_cleared]
  obtain ⟨notes, reply⟩ := sound.begun fresh writable
  obtain ⟨notes', reply'⟩ := sound.cleared.begun fresh writable_copy
  have dormant : copy.root.cleared = copy.root := (sound.cleared.unbound rfl).cleared_self
  rw [dormant, writeGap_cleared] at reply'
  have after : first.after = ⟨(p.root.cleared.moveOn 0).1, some (p.root.writeGap 0 s).sink⟩ := by
    rw [Attempt.after, reply]; rfl
  have after' : Attempt.after ⟨copy, [], .startWith s⟩ = first.after := by
    rw [after, Attempt.after, reply']; rfl
  have outcome : Attempt.outcome? ⟨copy, [], .startWith s⟩ = first.outcome? := by
    rw [Attempt.outcome?, Attempt.outcome?, reply, reply', Option.map_some, Option.map_some,
      Event.sights_append_notes, Event.sights_append_notes]
  refine ⟨?_, ?_, fun calls => ⟨?_, ?_⟩, fun ι ident same calls => ?_⟩
  · rw [Attempt.succeeded_eq reply]
    rfl
  · rw [after, ← values_cleared, cleared_moveOn, values_cleared, values_cleared]
  · rw [afterCalls, afterCalls, after']
  · rw [attempts, attempts, List.map_cons, List.map_cons, after', outcome]
  · let known (i : ι) : Prop := i = ident s ∨ ∃ path x, (path, .startWith x) ∈ calls ∧ i = ident x
    have served : Sink.Served s (p.root.writeGap 0 s).events (p.root.writeGap 0 s).sink :=
      p.root.writeGap_served 0 s
    have bound : ∀ t, first.after.sink = some t → known (ident t) := by
      rw [after]
      rintro t ⟨⟩
      exact .inl (served.ident same)
    have brought : ∀ path x, (path, .startWith x) ∈ calls → known (ident x) := fun path x hx =>
      .inr ⟨path, x, hx, rfl⟩
    have later := attempts_serve same bound brought
    intro a ha
    rcases List.mem_cons.1 ha with rfl | ha
    · intro r hr
      rw [reply] at hr
      cases hr
      exact .inr ⟨s, _, rfl, served.trans (Sink.served_notes _ notes), .inl rfl⟩
    · exact later a ha

/-- A restart from within two active blocks, and a call behind it that is refused. -/
theorem restart_like_fresh_nested :
    ∃ (root : Block) (p : Page Buffer),
      Template.parse "a<!--rep blk=b-->x<!--rep blk=c-->y<!--/rep--><!--/rep-->z" 0 = .ok root ∧
      Reachable root p ∧ p.root.states = [.active 0, .active 0, .ready] ∧
      (p.root.writeGap 0 Buffer.empty).fault = none ∧
      (p.afterCalls [([], .startWith Buffer.empty), ([], .next)]).root.states = [.active 0, .ready, .out] ∧
      p.afterCalls [([], .startWith Buffer.empty), ([], .next)] =
        (⟨p.root.cleared, none⟩ : Page Buffer).afterCalls [([], .startWith Buffer.empty), ([], .next)] := by
  let root : Block := ⟨none, ⟨[]⟩, [[⟨"a", none⟩], [⟨"z", none⟩]],
    [⟨some "b", ⟨[]⟩, [[⟨"x", none⟩], [⟨"", none⟩]],
      [⟨some "c", ⟨[]⟩, [[⟨"y", none⟩]], [], ⟨18, 46⟩, .out⟩], ⟨1, 57⟩, .out⟩], ⟨0, 58⟩, .out⟩
  have parsed : Template.parse "a<!--rep blk=b-->x<!--rep blk=c-->y<!--/rep--><!--/rep-->z" 0 =
      .ok root := by
    with_unfolding_all rfl
  let p : Page Buffer := (Page.ofTemplate root).afterCalls [([], .startWith Buffer.empty), (["b"], .start)]
  have reached : Reachable root p := Reachable.fresh.afterCalls _
  have writable : (p.root.writeGap 0 Buffer.empty).fault = none := by decide +kernel
  obtain ⟨-, -, same, -⟩ := restart_like_fresh parsed reached writable
  exact ⟨root, p, parsed, reached, by decide +kernel, writable, by decide +kernel, (same [([], .next)]).1⟩

end Page

end Stencil

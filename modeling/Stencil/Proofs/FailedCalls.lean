import Stencil.Proofs.Reachable
import Stencil.Proofs.Served

/-!
# Calls that fail

A call that is out of order touches no sink. One that is granted fails only where its sink gives up,
in the course of the one gap it writes. Either way the tree keeps its states and values, and the same
sink stays bound (`failed_call_keeps_page`).
-/

namespace Stencil

open Block

variable {σ : Type}

/-- Wherever a gap is due, there is a sink for it. -/
theorem Page.Sound.target_ne_none {root : Block} {p : Page σ} {path : List String} {d d' : Block} {c : Call σ}
    {k : Nat} (h : Page.Sound root p) (target : p.root.descend? path = some d)
    (granted : Granted d c d') (gap : d.gapOf? c = some k) : c.target p.sink ≠ none := by
  intro unbound
  have out (other : c.target p.sink = p.sink) : d.state = .out :=
    h.unbound (other.symm.trans unbound) d (mem_preorder_of_descend? target)
  cases granted with
  | startWith => cases unbound
  | start _ waits => simp [out rfl] at waits
  | next here => simp [out rfl] at here
  | skip | finish | set => cases gap

variable [Sink σ]

/-- What a call that fails has done: nothing, for want of a sink nothing either, or a part of what it
had to do to its sink. -/
theorem Answer.of_error {b : Block} {bound : Option σ} {c : Call σ} {o : Outcome σ} {e : RenderError}
    (h : Answer b bound c o) (err : o.result = .error e) :
    ((∀ fault, e ≠ .io fault) ∧ o.sink = bound ∧ o.events = []) ∨
    ∃ b' k fault, Granted b c b' ∧ b.gapOf? c = some k ∧ e = .io fault ∧
      (c.target bound = none ∨ ∃ s s', c.target bound = some s ∧ Sink.Served s o.events s' ∧
        o.sink = c.kept bound s' ∧ b.BrokenOff k o.events) := by
  cases h with
  | denied e' order never =>
    cases err
    exact .inl ⟨order, rfl, rfl⟩
  | unbound granted gap missing =>
    cases err
    exact .inr ⟨_, _, _, granted, gap, rfl, .inl missing⟩
  | @failed b' k s fault granted gap target faulty =>
    cases err
    refine .inr ⟨b', k, fault, granted, gap, rfl, .inr ⟨s, _, target, ?_, rfl, ?_⟩⟩
    · exact b.writeGap_served k s
    · exact writeGap_brokenOff (by rw [faulty]; nofun)
  | written | silent => cases err

namespace Page

variable {root : Block} {p : Page σ}

/-- **A call that fails changes nothing.** All states and values are as before, and the same sink is
bound, if any. If no sink was at fault, none was touched. Otherwise one sink was, the new one of a call
that begins a pass or else the bound one: it took a part of the gap that was due, or the whole of it
where the flush was refused, and it is kept only if it was bound before. -/
theorem failed_call_keeps_page {source : String} {file : Nat} {path : List String} {c : Call σ}
    {r : Reply σ} {e : RenderError} (parsed : Template.parse source file = .ok root)
    (reached : Reachable root p) (reply : p.call? path c = some r) (failed : r.result = .error e) :
    r.page.root = p.root ∧
    (∀ (ι : Type) (ident : σ → ι), Sink.Identifies ident → r.page.sink.map ident = p.sink.map ident) ∧
    ((∀ fault, e ≠ .io fault) → r.page.sink = p.sink ∧ r.events = []) ∧
    (∀ fault, e = .io fault → ∃ d k s s', p.root.descend? path = some d ∧ d.gapOf? c = some k ∧
      c.target p.sink = some s ∧ Sink.Served s r.events s' ∧ r.page.sink = c.kept p.sink s' ∧
      d.BrokenOff k r.events) := by
  have sound := reached.sound (Template.fresh_of_parse parsed)
  obtain ⟨d, answer⟩ := answerAt reply
  obtain ⟨_, own⟩ := answer.answer
  refine ⟨answer.refused e failed, ?_⟩
  rcases own.of_error failed with ⟨order, sink, events⟩ | ⟨b', k, fault, granted, gap, rfl, course⟩
  · exact ⟨fun ι ident _ => by rw [← sink], fun _ => ⟨sink, events⟩, fun fault io => absurd io (order fault)⟩
  · have bound := sound.target_ne_none answer.target granted gap
    obtain ⟨s, s', target, served, sink, broken⟩ := course.resolve_left bound
    refine ⟨fun ι ident same => ?_, fun order => absurd rfl (order fault), fun _ _ => ?_⟩
    · cases c with
      | startWith => exact congrArg _ sink
      | _ =>
        have bound_eq : p.sink = some s := target
        have after_eq : r.page.sink = some s' := sink
        rw [bound_eq, after_eq, Option.map_some, Option.map_some, served.ident same]
    · exact ⟨d, k, s, s', answer.target, gap, target, served, sink, broken⟩

/-- A restart that fails on its new sink in the middle of a pass: the sink has taken one of two bytes. -/
theorem failed_call_keeps_page_restart :
    ∃ (root : Block) (p : Page Quota) (r : Reply Quota),
      Template.parse "ab<!--rep blk=b-->x<!--/rep-->z" 0 = .ok root ∧ Reachable root p ∧
      p.root.states = [.active 0, .ready] ∧
      p.call? [] (.startWith ⟨⟨some 1, false, 0⟩, #[]⟩) = some r ∧ r.result = .error (.io .closed) ∧
      r.page.root = p.root ∧ r.events = [.wrote [97]] ∧
      ∃ d : Block, p.root.descend? [] = some d ∧ d.BrokenOff 0 r.events := by
  let root : Block := ⟨none, ⟨[]⟩, [[⟨"ab", none⟩], [⟨"z", none⟩]],
    [⟨some "b", ⟨[]⟩, [[⟨"x", none⟩]], [], ⟨2, 30⟩, .out⟩], ⟨0, 31⟩, .out⟩
  have parsed : Template.parse "ab<!--rep blk=b-->x<!--/rep-->z" 0 = .ok root := by
    with_unfolding_all rfl
  let roomy : Quota := ⟨⟨none, false, 0⟩, #[]⟩
  let small : Quota := ⟨⟨some 1, false, 0⟩, #[]⟩
  have calls : (((Page.ofTemplate root).call? [] (.startWith roomy)).bind fun r =>
      (r.page.call? [] (.startWith small)).map fun r' => (r.page.root.states, r'.result, r'.events)) =
      some ([.active 0, .ready], .error (.io .closed), [.wrote [97]]) := by
    with_unfolding_all rfl
  obtain ⟨first, begun, again⟩ := Option.bind_eq_some_iff.1 calls
  obtain ⟨r, reply, seen⟩ := Option.map_eq_some_iff.1 again
  obtain ⟨states, result, events⟩ : _ = _ ∧ _ = _ ∧ _ = _ := by simpa only [Prod.mk.injEq] using seen
  have reached := Reachable.fresh.call begun
  obtain ⟨kept, -, -, broken⟩ := failed_call_keeps_page parsed reached reply result
  obtain ⟨d, k, s, s', target, gap, -, -, -, off⟩ := broken .closed rfl
  cases gap
  exact ⟨root, first.page, r, parsed, reached, states, reply, result, kept, events, d, target, off⟩

end Page

end Stencil

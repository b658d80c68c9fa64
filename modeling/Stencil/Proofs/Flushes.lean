import Stencil.Proofs.FailedCalls
import Stencil.Proofs.Frontier
import Stencil.Proofs.Plans

/-!
# Flushes

A sink is asked for a flush where the root has been written whole, and for nothing behind it. Of one call this
is `Answer.flushed`: the flush stands behind all bytes of the last gap of a root, and the root is written
whole exactly if the sink agrees. Of the calls of a whole pass it is `Page.flushed_once_and_last`: what the
sink of the pass goes through has one accepted flush if the root has been written whole and none before.
-/

namespace Stencil

open Block

variable {σ : Type}

/-! ## Granted calls and the root -/

theorem State.ne_used_of_active {state : State} (active : state.isActive = true) : state ≠ .used := by
  rintro rfl
  cases active

/-- A granted call that writes has written its block whole exactly if the gap was the last one. -/
theorem Granted.used_iff {b b' : Block} {c : Call σ} {k : Nat} (h : Granted b c b') (gap : b.gapOf? c = some k) :
    b'.state = .used ↔ k = b.children.length := by
  have moved (a : Block) (k : Nat) (within : k ≤ a.children.length) :
      (a.moveOn k).1.state = .used ↔ k = a.children.length := by
    rw [moveOn_eq]
    split
    · next lt => exact ⟨nofun, fun e => absurd e (Nat.ne_of_lt lt)⟩
    · next ge => exact iff_of_true rfl (by omega)
  cases h with
  | startWith =>
    cases gap
    have size : (if b.state.isActive then b.reset else b).children.length = b.children.length := by
      split
      · simpa using congrArg List.length (children_eq_of_pristine_eq (pristine_reset b))
      · rfl
    rw [← size]
    exact moved _ 0 (Nat.zero_le _)
  | start =>
    cases gap
    exact moved b 0 (Nat.zero_le _)
  | @next _ i here child _ =>
    rw [gapOf?, here] at gap
    cases gap
    have lt := (List.getElem?_eq_some_iff.1 child).1
    have size : (b.modifyChild i fun c => { c with state := .out }).children.length = b.children.length :=
      List.length_modify _ _ _
    rw [← size] at lt ⊢
    exact moved _ (i + 1) lt
  | skip | finish | set => cases gap

/-- A call on a nested block leaves the state of the block around it. -/
theorem GrantedAt.own_or_below {b b' : Block} {path : List String} {c : Call σ} (h : GrantedAt b path c b') :
    (path = [] ∧ Granted b c b') ∨ (path ≠ [] ∧ b'.state = b.state) := by
  cases h with
  | self granted => exact .inl ⟨rfl, granted⟩
  | nested => exact .inr ⟨nofun, rfl⟩

namespace Page

variable {root : Block} {p : Page σ}

/-- A gap is due to the bound sink only while the root is being written. -/
theorem Sound.active_of_due {path : List String} {c : Call σ} {d d' : Block} {k : Nat} (h : Sound root p)
    (fresh : Template.Fresh root) (target : p.root.descend? path = some d) (granted : Granted d c d')
    (gap : d.gapOf? c = some k) (other : ∀ s, c ≠ .startWith s) : p.root.state.isActive = true := by
  have above (reached : d.state ≠ .out) (below : path ≠ []) : p.root.state.isActive = true :=
    h.chained.active_above target below reached
  cases granted with
  | startWith s => exact absurd rfl (other s)
  | start nested waits =>
    refine above (by rcases waits with e | e <;> simp [e]) ?_
    rintro rfl
    cases target
    rw [h.isRoot fresh] at nested
    cases nested
  | next here =>
    cases path with
    | nil =>
      cases target
      rw [here]
      rfl
    | cons => exact above (by simp [here]) (by simp)
  | skip | finish | set => cases gap

/-- A call that writes nothing leaves the state of the root. -/
theorem state_of_silent {b b' d : Block} {path : List String} {c : Call σ} (h : GrantedAt b path c b')
    (target : b.descend? path = some d) (root : b.isRoot = true) (gap : d.gapOf? c = none) :
    b'.state = b.state := by
  rcases h.own_or_below with ⟨rfl, granted⟩ | ⟨-, below⟩
  · cases target
    cases granted with
    | startWith | start => cases gap
    | skip nested => simp [nested] at root
    | next here => simp [gapOf?, here] at gap
    | finish | set => rfl
  · exact below

end Page

/-! ## How a pass ends -/

namespace Event

/-- How many flushes were accepted. -/
def flushes (events : List Event) : Nat :=
  events.countP fun e => match e with | flushed true => true | _ => false

theorem flushes_append (events more : List Event) : flushes (events ++ more) = flushes events + flushes more :=
  List.countP_append

theorem flushes_eq_zero {events : List Event} (unasked : flushed true ∉ events) : flushes events = 0 := by
  refine List.countP_eq_zero.2 fun e he => ?_
  match e with
  | flushed true => exact absurd he unasked
  | flushed false | wrote _ | note _ => exact Bool.false_ne_true

theorem flushes_notes (notes : List Note) : flushes (notes.map note) = 0 :=
  flushes_eq_zero (by simp)

theorem flushes_last (pieces : List (List UInt8)) (notes : List Note) :
    flushes (pieces.map wrote ++ flushed true :: notes.map note) = 1 := by
  have written : flushes (pieces.map wrote) = 0 := flushes_eq_zero (by simp)
  have noted : flushes (flushed true :: notes.map note) = flushes (notes.map note) + 1 :=
    List.countP_cons_of_pos rfl
  rw [flushes_append, written, noted, flushes_notes]

end Event

namespace Page

/-- What a call that begins no pass has to do with the end of the pass: it leaves the bound sink alone; or
the root was being written, and then it is not written whole by the call or it is, and is flushed. -/
inductive Turn (p q : Page σ) (events : List Event) : Prop where
  | quiet (notes : List Note) (told : events = notes.map .note)
      (root : q.root.state = .used ↔ p.root.state = .used) (sink : q.sink = p.sink)
  | inner (active : p.root.state.isActive = true) (unfinished : q.root.state ≠ .used)
      (unasked : .flushed true ∉ events)
  | last (active : p.root.state.isActive = true) (used : q.root.state = .used) (pieces : List (List UInt8))
      (notes : List Note) (told : events = pieces.map .wrote ++ .flushed true :: notes.map .note)

/-- How the log of a pass ends: with the one accepted flush if the root has been written whole, and before
that there is none. -/
structure Ends (log : List Event) (root : Block) : Prop where
  count : Event.flushes log = if root.state = .used then 1 else 0
  last : root.state = .used → ∃ (front : List Event) (notes : List Note),
    log = front ++ .flushed true :: notes.map .note

theorem Ends.turn {p q : Page σ} {log events : List Event} (h : Ends log p.root) (turn : Turn p q events) :
    Ends (log ++ events) q.root := by
  cases turn with
  | quiet notes told root =>
    subst told
    refine ⟨?_, fun used => ?_⟩
    · rw [Event.flushes_append, h.count, Event.flushes_notes, Nat.add_zero]
      simp only [root]
    · obtain ⟨front, more, log_eq⟩ := h.last (root.1 used)
      exact ⟨front, more ++ notes, by rw [log_eq, List.append_assoc, List.cons_append, List.map_append]⟩
  | inner active unfinished unasked =>
    have unused := State.ne_used_of_active active
    refine ⟨?_, fun used => absurd used unfinished⟩
    rw [Event.flushes_append, h.count, if_neg unused, if_neg unfinished, Event.flushes_eq_zero unasked]
  | last active used pieces notes told =>
    have unused := State.ne_used_of_active active
    subst told
    refine ⟨?_, fun _ => ⟨log ++ pieces.map .wrote, notes, by rw [List.append_assoc]⟩⟩
    rw [Event.flushes_append, h.count, if_neg unused, if_pos used, Event.flushes_last]

end Page

/-! ## The answer to a call -/

variable [Sink σ]

namespace Answer

variable {b : Block} {bound : Option σ} {c : Call σ} {o : Outcome σ}

/-- What a call that writes and goes through tells of its gap. -/
theorem of_gap {k : Nat} (h : Answer b bound c o) (ok : o.result = .ok ()) (gap : b.gapOf? c = some k) :
    ∃ (pieces : List (List UInt8)) (notes : List Note), pieces.flatten = b.gapBytes k ∧
      o.events = pieces.map .wrote ++ (if b.isRoot = true ∧ k = b.children.length then [.flushed true] else []) ++
        notes.map .note := by
  cases h with
  | written _ due _ faultless notes =>
    cases due.symm.trans gap
    obtain ⟨pieces, whole, events⟩ := writeGap_whole faultless
    exact ⟨pieces, notes, whole, by rw [events]⟩
  | silent _ none_ => cases none_.symm.trans gap
  | _ => cases ok

/-- **A flush is the end of a root.** A sink is asked for it only by a call on a root that writes the last
gap, behind all of its bytes, and only notes follow. The call succeeds if the sink agrees and fails if not. -/
theorem flushed {accepted : Bool} (h : Answer b bound c o) (asked : .flushed accepted ∈ o.events) :
    b.isRoot = true ∧ b.gapOf? c = some b.children.length ∧
      (∃ (pieces : List (List UInt8)) (notes : List Note), pieces.flatten = b.gapBytes b.children.length ∧
        o.events = pieces.map .wrote ++ .flushed accepted :: notes.map .note) ∧
      o.result.isOk = accepted := by
  have unasked (notes : List Note) : .flushed accepted ∉ notes.map Event.note := by simp
  have unasked_pieces (pieces : List (List UInt8)) : .flushed accepted ∉ pieces.map Event.wrote := by simp
  cases h with
  | denied | unbound => cases asked
  | @failed _ k s _ _ gap _ faulty =>
    have broken : b.BrokenOff k (b.writeGap k s).events := writeGap_brokenOff (by rw [faulty]; nofun)
    simp only at asked ⊢
    generalize (b.writeGap k s).events = events at broken asked
    cases broken with
    | writing pieces => exact absurd asked (unasked_pieces pieces)
    | flushing pieces whole root last =>
      subst last
      have refused : accepted = false := by simpa using asked
      subst refused
      exact ⟨root, gap, ⟨pieces, [], whole, rfl⟩, rfl⟩
  | @written _ k _ _ gap _ faultless notes =>
    obtain ⟨pieces, whole, events⟩ := writeGap_whole faultless
    simp only [events] at asked ⊢
    split at asked
    · next last =>
      obtain ⟨root, last⟩ := last
      subst last
      have agreed : accepted = true := by simpa using asked
      subst agreed
      exact ⟨root, gap, ⟨pieces, notes, whole, by simp [root]⟩, rfl⟩
    · simp at asked
  | silent _ _ notes => exact absurd asked (unasked notes)

/-- A call touches no sink, and if it succeeds it had no gap to write, or it was granted to write one. -/
theorem quiet_or_due (h : Answer b bound c o) :
    (∃ notes : List Note, o.events = notes.map .note ∧ o.sink = bound ∧ (o.result = .ok () → b.gapOf? c = none)) ∨
      ∃ b' k, Granted b c b' ∧ b.gapOf? c = some k := by
  cases h with
  | denied | unbound => exact .inl ⟨[], rfl, rfl, nofun⟩
  | failed granted gap | written granted gap => exact .inr ⟨_, _, granted, gap⟩
  | silent _ gap notes => exact .inl ⟨notes, rfl, rfl, fun _ => gap⟩

/-- A call that brings no sink serves the bound one. -/
theorem served_bound {t : σ} (h : Answer b bound c o) (other : ∀ s, c ≠ .startWith s) (here : bound = some t) :
    ∃ t', o.sink = some t' ∧ Sink.Served t o.events t' := by
  have aim : c.target bound = some t := (Call.target_of_other other bound).trans here
  cases h with
  | denied | unbound => exact ⟨t, here, .done⟩
  | @failed _ k s _ _ _ target =>
    cases target.symm.trans aim
    refine ⟨_, ?_, b.writeGap_served k t⟩
    cases c with
    | startWith x => exact absurd rfl (other x)
    | _ => rfl
  | @written _ k s _ _ target _ notes =>
    cases target.symm.trans aim
    exact ⟨_, rfl, (b.writeGap_served k t).trans (Sink.served_notes _ notes)⟩
  | silent _ _ notes => exact ⟨t, here, Sink.served_notes t notes⟩

/-- A pass that cannot be begun leaves the bound sink. -/
theorem sink_of_unbegun {s : σ} {e : RenderError} (h : Answer b bound (.startWith s) o)
    (err : o.result = .error e) : o.sink = bound := by
  cases h with
  | denied | unbound | failed => rfl
  | written | silent => cases err

end Answer

/-! ## The calls of a pass -/

namespace Page

variable {root : Block}

/-- What a call does: the block it is made on answers it, and the tree is left as it was unless it goes
through. -/
theorem answered {p : Page σ} {path : List String} {c : Call σ} {r : Reply σ} (reply : p.call? path c = some r) :
    ∃ d d', p.root.descend? path = some d ∧ Answer d p.sink c ⟨d', r.page.sink, r.result, r.events⟩ ∧
      (r.result = .ok () → GrantedAt p.root path c r.page.root) ∧
      ∀ e, r.result = .error e → r.page.root = p.root := by
  obtain ⟨d, answer⟩ := answerAt reply
  obtain ⟨d', own⟩ := answer.answer
  exact ⟨d, d', answer.target, own, answer.granted, answer.refused⟩

/-- Where a flush is asked for, the call is one on the root. -/
theorem Sound.top_of_flushed {p : Page σ} {path : List String} {c : Call σ} {d : Block} {o : Outcome σ}
    {accepted : Bool} (h : Sound root p) (fresh : Template.Fresh root) (target : p.root.descend? path = some d)
    (own : Answer d p.sink c o) (asked : .flushed accepted ∈ o.events) : path = [] ∧ d = p.root := by
  cases path with
  | nil => exact ⟨rfl, (Option.some.inj target).symm⟩
  | cons name path =>
    obtain ⟨isRoot, -⟩ := own.flushed asked
    rw [(h.named fresh).isRoot_below target] at isRoot
    cases isRoot

theorem Sound.turn {p : Page σ} {path : List String} {c : Call σ} {r : Reply σ} (h : Sound root p)
    (fresh : Template.Fresh root) (reply : p.call? path c = some r) (other : ∀ s, c ≠ .startWith s) :
    Turn p r.page r.events := by
  obtain ⟨d, _, target, own, goes, stays⟩ := answered reply
  rcases own.quiet_or_due with ⟨notes, told, kept, silent⟩ | ⟨_, k, granted, gap⟩
  · refine .quiet notes told ?_ kept
    cases verdict : r.result with
    | ok => rw [state_of_silent (goes verdict) target (h.isRoot fresh) (silent verdict)]
    | error e => rw [stays e verdict]
  · have active := h.active_of_due fresh target granted gap other
    have unused := State.ne_used_of_active active
    cases verdict : r.result with
    | error e =>
      refine .inner active (by rwa [stays e verdict]) fun asked => ?_
      obtain ⟨-, -, -, agreed⟩ := own.flushed asked
      simp [verdict, Except.isOk, Except.toBool] at agreed
    | ok =>
      by_cases used : r.page.root.state = .used
      · rcases (goes verdict).own_or_below with ⟨rfl, went⟩ | ⟨-, below⟩
        · cases target
          obtain ⟨pieces, notes, -, told⟩ := own.of_gap verdict gap
          rw [if_pos ⟨h.isRoot fresh, (went.used_iff gap).1 used⟩, List.append_assoc] at told
          exact .last active used pieces notes told
        · exact absurd (below.symm.trans used) unused
      · refine .inner active used fun asked => ?_
        obtain ⟨rfl, rfl⟩ := h.top_of_flushed fresh target own asked
        obtain ⟨-, last, -⟩ := own.flushed asked
        cases goes verdict with
        | self went => exact used ((went.used_iff last).2 rfl)

namespace Attempt

/-- What happened in the call. -/
def events (a : Attempt σ) : List Event := (a.reply?.map (·.events)).getD []

/-- What happened to the bound sink. A call that would begin a pass brings a sink of its own. -/
def boundEvents (a : Attempt σ) : List Event :=
  match a.call with
  | .startWith _ => []
  | _ => a.events

variable {a : Attempt σ}

theorem events_eq {r : Reply σ} (hr : a.reply? = some r) : a.events = r.events := by
  rw [events, hr]
  rfl

/-- A call that begins no pass either leaves the page and the bound sink alone, or it is for the bound sink. -/
theorem left_or_bound (other : a.begins = false) :
    (a.after = a.before ∧ a.boundEvents = []) ∨
      ∃ r, a.before.call? a.path a.call = some r ∧ (∀ s, a.call ≠ .startWith s) ∧ a.after = r.page ∧
        a.boundEvents = r.events := by
  obtain ⟨p, path, c⟩ := a
  cases reply : Attempt.reply? ⟨p, path, c⟩ with
  | none =>
    refine .inl ⟨by rw [after, reply]; rfl, ?_⟩
    rw [boundEvents, events, reply]
    split <;> rfl
  | some r =>
    rw [after_eq reply]
    cases c with
    | startWith s =>
      obtain ⟨_, _, _, own, -, stays⟩ := answered reply
      cases verdict : r.result with
      | ok => simp [begins, succeeded_eq reply, verdict, Except.isOk, Except.toBool] at other
      | error e => exact .inl ⟨congrArg₂ Page.mk (stays e verdict) (own.sink_of_unbegun verdict), rfl⟩
    | _ =>
      refine .inr ⟨r, reply, fun s begins => ?_, rfl, events_eq reply⟩
      cases begins

theorem turn (sound : Sound root a.before) (fresh : Template.Fresh root) (other : a.begins = false) :
    Turn a.before a.after a.boundEvents := by
  rcases left_or_bound other with ⟨same, nothing⟩ | ⟨r, reply, other, next, told⟩
  · rw [same, nothing]
    exact .quiet [] rfl Iff.rfl rfl
  · rw [next, told]
    exact sound.turn fresh reply other

/-- The bound sink goes through what is told of it, and stays bound. -/
theorem serves_bound {t : σ} (other : a.begins = false) (bound : a.before.sink = some t) :
    ∃ t', a.after.sink = some t' ∧ Sink.Served t a.boundEvents t' := by
  rcases left_or_bound other with ⟨same, nothing⟩ | ⟨r, reply, other, next, told⟩
  · rw [same, nothing]
    exact ⟨t, bound, .done⟩
  · obtain ⟨_, _, _, own, -, -⟩ := answered reply
    rw [next, told]
    exact own.served_bound other bound

end Attempt

/-- From the beginning of a pass on, the sink that was brought is bound, and its log ends as it should. -/
theorem Sound.begins {p : Page σ} {s : σ} (h : Sound root p) (fresh : Template.Fresh root)
    (begun : Attempt.succeeded ⟨p, [], .startWith s⟩ = true) :
    let first : Attempt σ := ⟨p, [], .startWith s⟩
    ∃ t, first.after.sink = some t ∧ Sink.Served s first.events t ∧ Ends first.events first.after.root := by
  intro first
  cases reply : first.reply? with
  | none =>
    rw [Attempt.succeeded, reply] at begun
    cases begun
  | some r =>
    obtain ⟨d, _, target, own, goes, -⟩ := answered reply
    cases target
    cases verdict : r.result with
    | error e =>
      rw [Attempt.succeeded_eq reply, verdict] at begun
      cases begun
    | ok =>
      rw [Attempt.after_eq reply, Attempt.events_eq reply]
      obtain ⟨t, bound, served⟩ := own.served_of_ok verdict rfl
      obtain ⟨pieces, notes, -, log⟩ := own.of_gap verdict rfl
      refine ⟨t, bound, served, ?_⟩
      simp only at log
      cases goes verdict with
      | self granted =>
        have used := granted.used_iff rfl
        by_cases last : 0 = p.root.children.length
        · rw [if_pos ⟨h.isRoot fresh, last⟩, List.append_assoc] at log
          exact ⟨by rw [log, if_pos (used.2 last)]; exact Event.flushes_last pieces notes,
            fun _ => ⟨pieces.map .wrote, notes, log⟩⟩
        · rw [if_neg fun whole => last whole.2, List.append_nil] at log
          refine ⟨?_, fun whole => absurd (used.1 whole) last⟩
          rw [log, if_neg fun whole => last (used.1 whole)]
          exact Event.flushes_eq_zero (by simp)

/-- What holds of the sink of a pass goes on to hold while no other pass is begun. -/
theorem Sound.pass_ends {p : Page σ} {s t : σ} {log : List Event} {calls : List (List String × Call σ)}
    (h : Sound root p) (fresh : Template.Fresh root) (bound : p.sink = some t) (served : Sink.Served s log t)
    (ends : Ends log p.root) (others : ∀ a ∈ p.attempts calls, a.begins = false) :
    let all := log ++ (p.attempts calls).flatMap Attempt.boundEvents
    (∃ t', (p.afterCalls calls).sink = some t' ∧ Sink.Served s all t') ∧ Ends all (p.afterCalls calls).root ∧
    ∀ a ∈ p.attempts calls, a.before.root.state = .used →
      a.after.root.state = .used ∧ a.after.sink = a.before.sink ∧
      ∃ notes : List Note, a.boundEvents = notes.map .note := by
  -- By induction on the calls: the log grows by what each of them tells of the bound sink.
  induction calls generalizing p t log with
  | nil =>
    simp only [attempts, List.flatMap_nil, List.append_nil]
    exact ⟨⟨t, bound, served⟩, ends, fun _ none_ => absurd none_ List.not_mem_nil⟩
  | cons call calls ih =>
    obtain ⟨path, c⟩ := call
    let a : Attempt σ := ⟨p, path, c⟩
    have other : a.begins = false := others a List.mem_cons_self
    have turn := Attempt.turn (a := a) h fresh other
    obtain ⟨t₁, bound₁, served₁⟩ := Attempt.serves_bound (a := a) other bound
    obtain ⟨later, ends', quiet⟩ := ih (Attempt.sound (a := a) h fresh) bound₁ (served.trans served₁)
      (ends.turn turn) fun b hb => others b (List.mem_cons_of_mem _ hb)
    rw [List.append_assoc] at later ends'
    refine ⟨later, ends', fun b hb used => ?_⟩
    rcases List.mem_cons.1 hb with rfl | hb
    · cases turn with
      | quiet notes told root sink => exact ⟨root.2 used, sink, notes, told⟩
      | inner active | last active => exact absurd used (State.ne_used_of_active active)
    · exact quiet b hb used

/-- **A sink is flushed once, at the end.** On every page that is reached, whatever its sinks do: a call asks
for a flush only if it is one on the root that has just written the whole of its last gap, as its last bytes;
it succeeds and the root is written whole if the sink agrees, and fails and leaves all blocks if not. From a
call that begins a pass on until the next one that does, the sink it brought stays bound and goes through
exactly what is told of it, with one accepted flush if the root has been written whole by then and none before.
This flush is the last of all that the sink is told: once the root has been written whole it stays so, and no
call reaches the sink. -/
theorem flushed_once_and_last {source : String} {file : Nat} {p : Page σ}
    (parsed : Template.parse source file = .ok root) (reached : Reachable root p) :
    (∀ path c r accepted, p.call? path c = some r → .flushed accepted ∈ r.events →
      path = [] ∧ p.root.gapOf? c = some p.root.children.length ∧
      (∃ (pieces : List (List UInt8)) (notes : List Note),
        pieces.flatten = p.root.gapBytes p.root.children.length ∧
        r.events = pieces.map .wrote ++ .flushed accepted :: notes.map .note) ∧
      (accepted = true → r.result = .ok () ∧ r.page.root.state = .used) ∧
      (accepted = false → r.result.isOk = false ∧ r.page.root = p.root)) ∧
    (∀ s calls,
      let first : Attempt σ := ⟨p, [], .startWith s⟩
      let later := first.after.attempts calls
      let last := first.after.afterCalls calls
      let log := first.events ++ later.flatMap Attempt.boundEvents
      first.succeeded = true → (∀ a ∈ later, a.begins = false) →
        (∃ t, last.sink = some t ∧ Sink.Served s log t) ∧
        Event.flushes log = (if last.root.state = .used then 1 else 0) ∧
        (last.root.state = .used → ∃ (front : List Event) (notes : List Note),
          log = front ++ .flushed true :: notes.map .note) ∧
        ∀ a ∈ later, a.before.root.state = .used →
          a.after.root.state = .used ∧ a.after.sink = a.before.sink ∧
          ∃ notes : List Note, a.boundEvents = notes.map .note) := by
  have fresh := Template.fresh_of_parse parsed
  have sound := reached.sound fresh
  refine ⟨fun path c r accepted reply asked => ?_, fun s calls => ?_⟩
  · obtain ⟨d, _, target, own, goes, stays⟩ := answered reply
    obtain ⟨rfl, rfl⟩ := sound.top_of_flushed fresh target own asked
    obtain ⟨-, gap, log, agreed⟩ := own.flushed asked
    refine ⟨rfl, gap, log, ?_, ?_⟩
    · rintro rfl
      cases verdict : r.result with
      | ok =>
        cases goes verdict with
        | self granted => exact ⟨rfl, (granted.used_iff gap).2 rfl⟩
      | error e => simp [verdict, Except.isOk, Except.toBool] at agreed
    · rintro rfl
      cases verdict : r.result with
      | ok => simp [verdict, Except.isOk, Except.toBool] at agreed
      | error e => exact ⟨rfl, stays e verdict⟩
  · intro first later last log begun others
    obtain ⟨t, bound, served, ends⟩ := sound.begins fresh begun
    obtain ⟨bound', ends', quiet⟩ :=
      Sound.pass_ends (Attempt.sound (a := first) sound fresh) fresh bound served ends others
    exact ⟨bound', ends'.count, ends'.last, quiet⟩

/-- A flush that is refused and asked for again, and a call behind it that reaches no sink any more. -/
theorem flushed_once_and_last_retried :
    ∃ (root : Block) (p : Page Quota) (s : Quota) (calls : List (List String × Call Quota)),
      Template.parse "a<!--rep blk=b-->x<!--/rep-->z" 0 = .ok root ∧ Reachable root p ∧
      let first : Attempt Quota := ⟨p, [], .startWith s⟩
      let later := first.after.attempts calls
      let log := first.events ++ later.flatMap Attempt.boundEvents
      first.succeeded = true ∧ later.map Attempt.succeeded = [true, false, true, false] ∧
      log.any (· == .flushed false) = true ∧ Event.flushes log = 1 ∧
      ∃ (front : List Event) (notes : List Note), log = front ++ .flushed true :: notes.map .note := by
  let root : Block := ⟨none, ⟨[]⟩, [[⟨"a", none⟩], [⟨"z", none⟩]],
    [⟨some "b", ⟨[]⟩, [[⟨"x", none⟩]], [], ⟨1, 29⟩, .out⟩], ⟨0, 30⟩, .out⟩
  let p : Page Quota := .ofTemplate root
  let s : Quota := ⟨⟨none, false, 1⟩, #[]⟩
  let calls : List (List String × Call Quota) := [(["b"], .skip), ([], .next), ([], .next), ([], .next)]
  have parsed : Template.parse "a<!--rep blk=b-->x<!--/rep-->z" 0 = .ok root := by with_unfolding_all rfl
  have begun : Attempt.succeeded ⟨p, [], .startWith s⟩ = true := by decide +kernel
  have others : ∀ a ∈ (Attempt.after ⟨p, [], .startWith s⟩).attempts calls, a.begins = false := by decide +kernel
  have used : ((Attempt.after ⟨p, [], .startWith s⟩).afterCalls calls).root.state = .used := by decide +kernel
  obtain ⟨-, pass⟩ := flushed_once_and_last parsed (p := p) .fresh
  obtain ⟨-, count, last, -⟩ := pass s calls begun others
  rw [if_pos used] at count
  exact ⟨root, p, s, calls, parsed, .fresh, begun, by decide +kernel, by decide +kernel, count, last used⟩

end Page

end Stencil

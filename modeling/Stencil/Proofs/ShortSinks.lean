import Stencil.Proofs.Filling
import Stencil.Proofs.Misfits
import Stencil.Proofs.Rationed

/-!
# Filling when sinks fail

A plan is made of calls that are granted, so whatever goes wrong when it is carried out goes wrong on a
sink (`Page.perform_io`). On a sink that has room for so many bytes and no more, carrying it out is one
long writing (`Page.perform_spent`): the sink gets the beginning of what a sink that never fails would
get, and the filling succeeds exactly when this is all of it (`Page.fill_short_sink`).
-/

namespace Stencil

open Text Block

variable {σ : Type}

theorem output_of_gap {b : Block} {c : Call σ} {k : Nat} (gap : b.gapOf? c = some k) :
    b.output c = b.gapBytes k := by
  rw [Block.output, gap]
  rfl

/-- The bound sink is no matter for what a page can come to. -/
theorem Page.Sound.onto {τ : Type} {p : Page σ} {root : Block} (h : p.Sound root) (t : τ) :
    (⟨p.root, some t⟩ : Page τ).Sound root :=
  ⟨h.pristine, h.chained, h.top, nofun⟩

variable [Sink σ]

/-! ## One call -/

section Calls

variable {b b' : Block} {bound : Option σ} {c : Call σ} {o : Outcome σ} {s : σ}

/-- A granted call that has a sink fails on this sink or not at all. -/
theorem Answer.io_of_error (h : Answer b bound c o) (can : Granted b c b') (target : c.target bound = some s)
    {e : RenderError} (err : o.result = .error e) : ∃ fault, e = .io fault := by
  cases h with
  | denied _ _ never => exact absurd can (never b')
  | unbound _ _ missing => rw [missing] at target; cases target
  | failed _ _ _ faulty =>
    cases err
    exact ⟨_, rfl⟩
  | written | silent => cases err

/-- A granted call spends on its sink what it writes. -/
theorem Answer.spent {fine : σ → Prop} {room : σ → Nat} {seen : σ → List UInt8}
    (ration : Sink.Rationed fine room seen) (h : Answer b bound c o) (can : Granted b c b')
    (target : c.target bound = some s) (hs : fine s) :
    Spent fine room seen s (b.output c) (o.result ≠ .ok ()) o.sink o.events := by
  cases h with
  | denied _ _ never => exact absurd can (never b')
  | unbound _ _ missing => rw [missing] at target; cases target
  | @failed _ k _ _ _ gap aim faulty =>
    rw [aim] at target
    cases target
    have spent := ration.writeGap hs b k
    rw [← output_of_gap gap] at spent
    have broken : (b.writeGap k s).fault ≠ none := by
      rw [faulty]
      nofun
    exact spent.congr (iff_of_true nofun broken) fun whole => absurd nofun whole
  | @written _ k _ _ gap aim faultless notes =>
    rw [aim] at target
    cases target
    have spent := ration.writeGap hs b k
    rw [← output_of_gap gap] at spent
    exact (spent.congr (iff_of_false (fun failed => failed rfl) fun fault => fault faultless) fun _ => rfl).append_notes
      notes
  | silent _ gap notes =>
    have bound_eq : bound = some s := by
      cases c with
      | startWith _ => cases gap
      | _ => exact target
    have output : b.output c = [] := by rw [Block.output, gap]; rfl
    rw [output, bound_eq]
    have quiet : Spent fine room seen s [] ((.ok () : Except RenderError Unit) ≠ .ok ()) (some s) [] :=
      .nothing hs fun failed => failed rfl
    exact quiet.append_notes notes

end Calls

namespace Page

variable {p : Page σ} {path : List String} {c : Call σ} {b' d : Block} {s : σ}

/-- A call on a page is answered by its block. If the call is granted and succeeds, the page is as it
was granted. -/
theorem exists_answer (can : GrantedAt p.root path c b') (target : p.root.descend? path = some d) :
    ∃ r d' after, p.call? path c = some r ∧ Granted d c d' ∧
      Answer d p.sink c ⟨after, r.page.sink, r.result, r.events⟩ ∧ (r.result = .ok () → r.page.root = b') := by
  obtain ⟨o, ho⟩ := exists_callAt target p.sink c
  obtain ⟨e, answer⟩ := Block.answerAt ho
  obtain rfl : e = d := Option.some.inj (answer.target.symm.trans target)
  obtain ⟨after, own⟩ := answer.answer
  obtain ⟨d', granted⟩ := can.at_target target
  exact ⟨⟨⟨o.block, o.sink⟩, o.result, o.events⟩, d', after, by rw [call?, ho]; rfl, granted, own, fun ok =>
    (answer.granted ok).unique can⟩

/-! ## Plans -/

/-- While a sink is bound, the steps of a plan fail on a sink or not at all. -/
theorem perform_io {plan : List (Action σ)} {b last : Block} {out all : List UInt8}
    (h : Performs [] plan b out last all) (root : p.root = b) (bound : p.sink = some s) {e : FillError}
    (failed : (p.perform plan).failure = some e) : ∃ fault, e.cause = .io fault := by
  induction h generalizing p s with
  | done => cases failed
  | warn w given _ ih => exact ih root bound failed
  | @call below label c plan b b' d last out all granted target other _ ih =>
    subst root
    have aim : c.target p.sink = some s := (Call.target_of_other other p.sink).trans bound
    obtain ⟨r, d', after, reply, can, answer, root'⟩ := exists_answer granted target
    rw [List.nil_append] at failed
    cases hr : r.result with
    | error cause =>
      rw [perform_refused label plan reply hr] at failed
      cases failed
      exact answer.io_of_error can aim hr
    | ok =>
      obtain ⟨t, sink, -⟩ := answer.served_of_ok hr aim
      rw [perform_call label plan reply hr] at failed
      exact ih (root' hr) sink failed

/-- A call that begins a pass on a root which is not being written, with what follows it. -/
theorem exists_pass_answer (root : p.root.isRoot = true) (idle : p.root.state.isActive = false) (s : σ) :
    ∃ r d' after, p.call? [] (.startWith s) = some r ∧ Granted p.root (.startWith s) d' ∧
      Answer p.root p.sink (.startWith s) ⟨after, r.page.sink, r.result, r.events⟩ ∧
      (r.result = .ok () → r.page.root = (p.root.moveOn 0).1) := by
  have granted := Granted.startWith s root
  rw [idle] at granted
  exact exists_answer (.self granted) rfl

/-- A pass that is begun so fails on its sink or not at all. -/
theorem pass_io {later : List (Action σ)} {last : Block} {all : List UInt8} (label : String)
    (root : p.root.isRoot = true) (idle : p.root.state.isActive = false)
    (h : Performs [] later (p.root.moveOn 0).1 (p.root.gapBytes 0) last all) {e : FillError}
    (failed : (p.perform (.call [] label (.startWith s) :: later)).failure = some e) :
    ∃ fault, e.cause = .io fault := by
  obtain ⟨r, d', after, reply, can, answer, root'⟩ := exists_pass_answer root idle s
  cases hr : r.result with
  | error cause =>
    rw [perform_refused label later reply hr] at failed
    cases failed
    exact answer.io_of_error can rfl hr
  | ok =>
    obtain ⟨t, sink, -⟩ := answer.served_of_ok hr rfl
    rw [perform_call label later reply hr] at failed
    exact perform_io h (root' hr) sink failed

section

variable {fine : σ → Prop} {room : σ → Nat} {seen : σ → List UInt8}

/-- A call spends what it writes, and what follows it spends the rest. -/
theorem perform_call_spent {r : Reply σ} {bs rest : List UInt8} (label : String) (plan : List (Action σ))
    (reply : p.call? path c = some r)
    (first : Spent fine room seen s bs (r.result ≠ .ok ()) r.page.sink r.events)
    (behind : r.result = .ok () → ∀ t, r.page.sink = some t → fine t →
      Spent fine room seen t rest ((r.page.perform plan).failure ≠ none) (r.page.perform plan).page.sink
        (r.page.perform plan).events) :
    Spent fine room seen s (bs ++ rest) ((p.perform (.call path label c :: plan)).failure ≠ none)
      (p.perform (.call path label c :: plan)).page.sink (p.perform (.call path label c :: plan)).events := by
  cases hr : r.result with
  | error cause =>
    rw [perform_refused label plan reply hr]
    exact first.stop (by rw [hr]; nofun) nofun
  | ok =>
    obtain ⟨t, sink, good, join⟩ := first.trans fun failed => failed hr
    rw [perform_call label plan reply hr]
    exact join (behind hr t sink good)

variable (ration : Sink.Rationed fine room seen)

include ration

/-- What the steps of a plan write is spent on the bound sink. -/
theorem perform_spent {plan : List (Action σ)} {b last : Block} {out all rest : List UInt8}
    (h : Performs [] plan b out last all) (split_ : all = out ++ rest) (root : p.root = b) (bound : p.sink = some s)
    (good : fine s) : Spent fine room seen s rest ((p.perform plan).failure ≠ none) (p.perform plan).page.sink
      (p.perform plan).events := by
  induction h generalizing p s rest with
  | done =>
    obtain rfl : rest = [] := List.self_eq_append_right.1 split_
    exact bound ▸ .nothing good fun failed => failed rfl
  | warn w given _ ih => exact (ih split_ root bound good).prepend_notes [_]
  | @call below label c plan b b' d last out all granted target other later ih =>
    subst root
    have aim : c.target p.sink = some s := (Call.target_of_other other p.sink).trans bound
    obtain ⟨r, d', after, reply, can, answer, root'⟩ := exists_answer granted target
    obtain ⟨further, e⟩ := later.exists_rest
    obtain rfl : rest = d.output c ++ further := by
      rw [split_, List.append_assoc] at e
      exact List.append_cancel_left e
    exact perform_call_spent label plan reply (answer.spent ration can aim good) fun ok t sink good' =>
      ih e (root' ok) sink good'

/-- What a pass writes is spent on its sink. -/
theorem pass_spent {later : List (Action σ)} {last : Block} {all : List UInt8} (label : String)
    (root : p.root.isRoot = true) (idle : p.root.state.isActive = false)
    (h : Performs [] later (p.root.moveOn 0).1 (p.root.gapBytes 0) last all) (good : fine s) :
    let done := p.perform (.call [] label (.startWith s) :: later)
    Spent fine room seen s all (done.failure ≠ none) done.page.sink done.events := by
  obtain ⟨r, d', after, reply, can, answer, root'⟩ := exists_pass_answer root idle s
  obtain ⟨rest, rfl⟩ := h.exists_rest
  exact perform_call_spent label later reply (answer.spent ration can rfl good) fun ok t sink good' =>
    perform_spent ration h rfl (root' ok) sink good'

end

/-! ## Whole templates -/

section

variable {fields : Fields}

theorem failure_of_fill {e : FillError} (failed : (p.fill fields s).result = .error e) :
    (p.perform (p.root.fillPlan fields s)).failure = some e := by
  cases h : (p.perform (p.root.fillPlan fields s)).failure with
  | none =>
    rw [fill_of_done h] at failed
    cases failed
  | some cause =>
    rw [fill_of_failed h] at failed
    cases failed
    rfl

/-- A filling that succeeds gives the warnings of its plan. -/
theorem warnings_of_fill {ws : List Warning} (ok : (p.fill fields s).result = .ok ws) :
    ws = p.root.passWarnings rootLabel fields := by
  cases h : (p.perform (p.root.fillPlan fields s)).failure with
  | none =>
    rw [fill_of_done h, warnings_fillPlan] at ok
    cases ok
    rfl
  | some cause =>
    rw [fill_of_failed h] at ok
    cases ok

variable {root : Block}

/-- Whatever goes wrong when a page which is not being written is filled goes wrong on the sink. -/
theorem Sound.fill_io (sound : Sound root p) (fresh : Template.Fresh root) (declared : root.WellDeclared)
    (idle : p.root.state.isActive = false) {e : FillError} (failed : (p.fill fields s).result = .error e) :
    ∃ fault, e.cause = .io fault := by
  obtain ⟨b, last, assigned, idle', written, -, used⟩ := sound.renders fresh declared idle fields
  have root_b : b.isRoot = true := (isRoot_of_pristine_eq assigned.pristine).trans (sound.isRoot fresh)
  obtain ⟨notes, performed⟩ := perform_fillPlan assigned s
  have failed := failure_of_fill failed
  rw [performed] at failed
  exact pass_io (p := ⟨b, p.sink⟩) rootLabel root_b idle' (written.checked rootLabel root_b used) failed

/-- The filling of a page which is not being written spends on its sink what the data renders to. -/
theorem Sound.fill_spent {fine : σ → Prop} {room : σ → Nat} {seen : σ → List UInt8}
    (ration : Sink.Rationed fine room seen) (sound : Sound root p) (fresh : Template.Fresh root)
    (declared : root.WellDeclared) (idle : p.root.state.isActive = false) (good : fine s) (fields : Fields) :
    Spent fine room seen s (p.root.pass [] fields ⟨[], p.root.valuation⟩).out
      ((p.fill fields s).result ≠ .ok (p.root.passWarnings rootLabel fields)) (p.fill fields s).page.sink
      (p.fill fields s).events := by
  obtain ⟨b, last, assigned, idle', written, -, used⟩ := sound.renders fresh declared idle fields
  have root_b : b.isRoot = true := (isRoot_of_pristine_eq assigned.pristine).trans (sound.isRoot fresh)
  obtain ⟨notes, performed⟩ := perform_fillPlan assigned s
  have pass := pass_spent (p := ⟨b, p.sink⟩) ration rootLabel root_b idle' (written.checked rootLabel root_b used) good
  have spent := pass.prepend_notes notes
  cases h : (p.perform (p.root.fillPlan fields s)).failure with
  | none =>
    rw [fill_of_done h, warnings_fillPlan]
    rw [performed] at h ⊢
    have succeeded := spent.append_notes [.filled (p.root.passWarnings rootLabel fields).length]
    exact succeeded.congr (iff_of_false (fun failed => failed rfl) fun failed => failed h) fun _ => rfl
  | some e =>
    rw [fill_of_failed h]
    rw [performed] at h ⊢
    have broken := h.trans_ne (Option.some_ne_none e)
    exact spent.congr (iff_of_true nofun broken) fun whole => absurd nofun whole

end

/-- **Filling fails on sinks only, and a short sink gets the beginning.** On every page that is reached and
is not being written, for every data and every sink: if filling fails, it fails on the sink. All sinks that
never fail receive the same bytes and give the same warnings; a sink that has room for so many bytes and no
more, and refuses no flush, takes exactly as many of these bytes from the front as it has room for, and the
filling succeeds exactly if these are all of them, with the same warnings. -/
theorem fill_short_sink {source : String} {file : Nat} {root : Block} (parsed : Template.parse source file = .ok root)
    (reached : Reachable root p) (idle : p.root.state.isActive = false) (fields : Fields) :
    (∀ s e, (p.fill fields s).result = .error e → ∃ fault, e.cause = .io fault) ∧
    ∃ (all : List UInt8) (ws : List Warning),
      (∀ (τ : Type) [Sink τ] (fine : τ → Prop) (seen : τ → List UInt8), Sink.Steady fine seen →
        ∀ (q : Page τ) (t : τ), q.root = p.root → fine t → (q.fill fields t).result = .ok ws ∧
          ∃ t', (q.fill fields t).page.sink = some t' ∧ seen t' = seen t ++ all) ∧
      ∀ (fine : σ → Prop) (room : σ → Nat) (seen : σ → List UInt8), Sink.Rationed fine room seen →
        ∀ s, fine s → Event.written (p.fill fields s).events = all.take (room s) ∧
          (∃ t, Sink.Served s (p.fill fields s).events t ∧ seen t = seen s ++ all.take (room s)) ∧
          ((∃ ws', (p.fill fields s).result = .ok ws') ↔ all.length ≤ room s) ∧
          ∀ ws', (p.fill fields s).result = .ok ws' → ws' = ws := by
  have fresh := Template.fresh_of_parse parsed
  have declared := Template.wellDeclared_of_parse parsed
  have sound := reached.sound fresh
  refine ⟨fun s e failed => sound.fill_io fresh declared idle failed,
    (p.root.pass [] fields ⟨[], p.root.valuation⟩).out, p.root.passWarnings rootLabel fields, ?_, ?_⟩
  · intro τ _ fine seen steady q t same good
    have onto := sound.onto t
    obtain ⟨b, last, assigned, idle', written, -, used⟩ := onto.renders fresh declared idle fields
    obtain ⟨root_q, sink⟩ := q
    obtain rfl : root_q = p.root := same
    obtain ⟨⟨ws, ok⟩, -, t', bound, -, received⟩ :=
      fill_of_performs (p := ⟨p.root, sink⟩) steady (onto.isRoot fresh) assigned idle' good written used
    obtain rfl := warnings_of_fill ok
    exact ⟨ok, t', bound, received⟩
  · intro fine room seen ration s good
    have spent := sound.fill_spent ration fresh declared idle good fields
    obtain ⟨t, served, -, -, taken, -⟩ := spent.served
    refine ⟨spent.written, ⟨t, served, taken⟩, ⟨?_, fun enough => ?_⟩, fun ws' => warnings_of_fill⟩
    · rintro ⟨ws, ok⟩
      rw [warnings_of_fill ok] at ok
      exact Nat.le_of_not_lt fun short => spent.failed_iff.2 short ok
    · exact ⟨_, not_not.1 (mt spent.failed_iff.1 (Nat.not_lt.2 enough))⟩

/-- A template that has been filled before, filled again with a sink that takes three of five bytes: it
breaks off in the second of two rounds. -/
theorem fill_short_sink_second_round :
    ∃ (root : Block) (p : Page Quota) (e : FillError),
      Template.parse "a<!--rep var=x place=X-->X<!--rep blk=b-->y<!--/rep-->z" 0 = .ok root ∧ Reachable root p ∧
      p.root.states = [.used, .out] ∧
      (p.fill [("x", .text "v"), ("b", .repeated [[], []])] ⟨⟨some 3, false, 0⟩, #[]⟩).result = .error e ∧
      e = ⟨"b", .io .closed⟩ ∧ (∃ fault, e.cause = .io fault) ∧
      Event.written (p.fill [("x", .text "v"), ("b", .repeated [[], []])] ⟨⟨some 3, false, 0⟩, #[]⟩).events =
        bytes "avy" := by
  let root : Block := ⟨none, ⟨[⟨"x", "X", "X", ⟨1, 25⟩⟩]⟩,
    [[⟨"a", none⟩, ⟨"", some 0⟩, ⟨"", none⟩], [⟨"z", none⟩]],
    [⟨some "b", ⟨[]⟩, [[⟨"y", none⟩]], [], ⟨26, 54⟩, .out⟩], ⟨0, 55⟩, .out⟩
  have parsed : Template.parse "a<!--rep var=x place=X-->X<!--rep blk=b-->y<!--/rep-->z" 0 = .ok root := by
    with_unfolding_all rfl
  let roomy : Quota := ⟨⟨none, false, 0⟩, #[]⟩
  let small : Quota := ⟨⟨some 3, false, 0⟩, #[]⟩
  let data : Fields := [("x", .text "v"), ("b", .repeated [[], []])]
  let p : Page Quota := ((Page.ofTemplate root).fill [] roomy).page
  have reached : Reachable root p := Reachable.fresh.fill _ _
  have idle : p.root.state.isActive = false := by decide +kernel
  have failed : (p.fill data small).result = .error ⟨"b", .io .closed⟩ := by decide +kernel
  have whole : ((⟨p.root, none⟩ : Page Buffer).fill data Buffer.empty).page.sink.map (·.taken.toList) =
      some (bytes "avyyz") := by
    decide +kernel
  obtain ⟨io, all, ws, every, short⟩ := fill_short_sink parsed reached idle data
  obtain ⟨-, t, bound, received⟩ := every Buffer _ _ Buffer.steady ⟨p.root, none⟩ Buffer.empty rfl trivial
  obtain ⟨written, -⟩ := short _ _ _ (Quota.rationed 3) small ⟨rfl, rfl⟩
  have all_eq : all = bytes "avyyz" := by
    rw [bound] at whole
    exact received.symm.trans (Option.some.inj whole)
  refine ⟨root, p, _, parsed, reached, by decide +kernel, failed, rfl, io small _ failed, written.trans ?_⟩
  rw [all_eq]
  decide +kernel

end Page

end Stencil

import Stencil.Proofs.Reachable
import Stencil.Proofs.Served

/-!
# Carrying out a plan

`Performs` tells on the tree alone what the steps of a plan lead to and what they write, as if nothing
could go wrong with a sink. Carried out on a page whose sink never fails they lead there
(`perform_of_performs`); steps that only assign lead there without any sink (`perform_quiet`).
-/

namespace Stencil

open Block

variable {σ : Type}

/-- The steps of a plan are granted one after the other to the block at `path` and in it. Behind `out`,
which has been written before, they write up to `all`. None of them begins a pass. -/
inductive Performs (path : List String) :
    List (Action σ) → Block → List UInt8 → Block → List UInt8 → Prop where
  | done {b : Block} {out : List UInt8} : Performs path [] b out b out
  | warn {plan : List (Action σ)} {b last : Block} {out all : List UInt8} (w : Warning) (given : String)
      (rest : Performs path plan b out last all) : Performs path (.warn w given :: plan) b out last all
  | call {below : List String} {label : String} {c : Call σ} {plan : List (Action σ)} {b b' d last : Block}
      {out all : List UInt8} (granted : GrantedAt b below c b') (target : b.descend? below = some d)
      (bound : ∀ s, c ≠ .startWith s) (rest : Performs path plan b' (out ++ d.output c) last all) :
      Performs path (.call (path ++ below) label c :: plan) b out last all

namespace Performs

variable {path : List String} {plan more : List (Action σ)} {a b c : Block} {out mid all : List UInt8}

theorem trans (first : Performs path plan a out b mid) (second : Performs path more b mid c all) :
    Performs path (plan ++ more) a out c all := by
  induction first with
  | done => exact second
  | warn w given _ ih => exact .warn w given (ih second)
  | call granted target bound _ ih => exact .call granted target bound (ih second)

/-- One call on the block itself. -/
theorem single {label : String} {call : Call σ} (granted : Granted a call b) (bound : ∀ s, call ≠ .startWith s) :
    Performs path [.call path label call] a out b (out ++ a.output call) := by
  have step : Performs path [.call (path ++ []) label call] a out b (out ++ a.output call) :=
    .call (.self granted) rfl bound .done
  rwa [List.append_nil] at step

/-- A call on the block itself that writes nothing. -/
theorem quiet {label : String} {call : Call σ} (granted : Granted a call b) (gap : a.gapOf? call = none) :
    Performs path [.call path label call] a out b out := by
  have bound : ∀ s, call ≠ .startWith s := by
    rintro s rfl
    cases gap
  have step : Performs path [.call path label call] a out b (out ++ a.output call) := single granted bound
  rw [Block.output, gap, Option.map_none, Option.getD_none, List.append_nil] at step
  exact step

theorem pristine (h : Performs path plan a out b all) : b.pristine = a.pristine := by
  induction h with
  | done => rfl
  | warn _ _ _ ih => exact ih
  | call granted _ _ _ ih => exact ih.trans granted.pristine

/-- What is written comes behind what has been written before. -/
theorem exists_rest (h : Performs path plan a out b all) : ∃ rest, all = out ++ rest := by
  induction h with
  | done => exact ⟨[], (List.append_nil _).symm⟩
  | warn _ _ _ ih => exact ih
  | call _ _ _ _ ih =>
    obtain ⟨rest, e⟩ := ih
    exact ⟨_, by rw [e, List.append_assoc]⟩

/-- A root that was written passes the check behind it. -/
theorem checked (h : Performs path plan (a.moveOn 0).1 out b all) (label : String) (root : a.isRoot = true)
    (used : b.state = .used) :
    Performs path (plan ++ [.call path label (.finish : Call σ)]) (a.moveOn 0).1 out b all := by
  have last_root : b.isRoot = true := by
    rw [isRoot_of_pristine_eq h.pristine, isRoot_of_pristine_eq (pristine_moveOn a 0), root]
  exact h.trans (.quiet (.finish last_root used) rfl)

/-- Steps in a nested block are steps in the block around. -/
theorem nested {d d' : Block} {k : Nat} {name : String} (h : Performs (path ++ [name]) plan d out d' all)
    (index : b.childIndex? name = some k) (child : b.children[k]? = some d) :
    Performs path plan b out (b.modifyChild k fun _ => d') all := by
  induction h generalizing b with
  | done =>
    rw [modifyChild_self child]
    exact .done
  | warn w given _ ih => exact .warn w given (ih index child)
  | @call below label c plan d d₁ e last out all granted target bound _ ih =>
    have changed : (b.modifyChild k fun _ => d₁).children[k]? = some d₁ := getElem?_modifyChild child _
    have index₁ : (b.modifyChild k fun _ => d₁).childIndex? name = some k :=
      (childIndex?_modifyChild child (name_eq_of_pristine_eq granted.pristine) name).trans index
    have rest := ih index₁ changed
    rw [modifyChild_twice] at rest
    rw [List.append_assoc]
    exact .call (.nested index child granted) (by rw [List.singleton_append, descend?_child index child, target])
      bound rest

end Performs

/-! ## What filling asks for -/

namespace Block

variable {path : List String} {label : String} {fields : Fields}

theorem passPlan_eq (t : Block) (enter : Call σ) :
    t.passPlan path label enter fields =
      t.assignments path label fields ++ .call path label enter :: childrenPlan path label fields t.children := by
  cases t
  rw [passPlan]

theorem fillPlan_eq (t : Block) (s : σ) :
    t.fillPlan fields s = t.assignments [] rootLabel fields ++ .call [] rootLabel (.startWith s) ::
      (childrenPlan [] rootLabel fields t.children ++ [.call [] rootLabel .finish]) := by
  rw [fillPlan, passPlan_eq, List.append_assoc, List.cons_append]

/-- The fields are only assigned, whatever they are. -/
theorem call_of_mem_assignments {t : Block} {p : List String} {name : String} {c : Call σ}
    (h : .call p name c ∈ (t.assignments path label fields : List (Action σ))) :
    ∃ var value, c = .set var value := by
  obtain ⟨⟨var, entry⟩, -, step⟩ := List.mem_flatMap.1 h
  simp only [assignment] at step
  split at step
  · next value known _ =>
    cases List.mem_singleton.1 step
    exact ⟨var, value, rfl⟩
  · simp at step

end Block

/-! ## Calls that succeed -/

/-- A call that begins no pass writes to the bound sink. -/
theorem Call.target_of_other {c : Call σ} (other : ∀ s, c ≠ .startWith s) (bound : Option σ) :
    c.target bound = bound := by
  cases c with
  | startWith s => exact absurd rfl (other s)
  | _ => rfl

variable [Sink σ]

section

variable {b : Block} {bound : Option σ} {c : Call σ} {o : Outcome σ}

/-- A call that succeeds serves its sink and leaves it bound. -/
theorem Answer.served_of_ok {s : σ} (h : Answer b bound c o) (ok : o.result = .ok ())
    (target : c.target bound = some s) : ∃ t, o.sink = some t ∧ Sink.Served s o.events t := by
  cases h with
  | written _ _ aim _ notes =>
    rw [aim] at target
    cases target
    exact ⟨_, rfl, (b.writeGap_served _ _).trans (Sink.served_notes _ notes)⟩
  | silent _ gap notes =>
    refine ⟨s, ?_, Sink.served_notes s notes⟩
    cases c with
    | startWith => cases gap
    | _ => exact target
  | _ => cases ok

/-- What is granted and writes nothing succeeds without any sink. -/
theorem Answer.of_quiet {b' : Block} (h : Answer b bound c o) (granted : Granted b c b')
    (gap : b.gapOf? c = none) :
    o.result = .ok () ∧ o.sink = bound ∧ ∃ notes : List Note, o.events = notes.map .note := by
  cases h with
  | denied _ _ never => exact absurd granted (never b')
  | unbound _ due | failed _ due | written _ due => simp [gap] at due
  | silent _ _ notes => exact ⟨rfl, rfl, notes, rfl⟩

end

namespace Page

/-! ## Plans on a page -/

/-- Behind a call that succeeds the others are carried out. -/
theorem perform_call {p : Page σ} {path : List String} {c : Call σ} {r : Reply σ} (label : String)
    (plan : List (Action σ)) (reply : p.call? path c = some r) (ok : r.result = .ok ()) :
    p.perform (.call path label c :: plan) =
      { r.page.perform plan with events := r.events ++ (r.page.perform plan).events } := by
  rw [perform, reply]
  simp only [ok]

/-- Behind a call that is refused nothing is carried out. -/
theorem perform_refused {p : Page σ} {path : List String} {c : Call σ} {r : Reply σ} {cause : RenderError}
    (label : String) (plan : List (Action σ)) (reply : p.call? path c = some r) (err : r.result = .error cause) :
    p.perform (.call path label c :: plan) = ⟨r.page, some ⟨label, cause⟩, r.events⟩ := by
  rw [perform, reply]
  simp only [err]

/-- Behind steps that were all carried out come the others. -/
theorem perform_append {p : Page σ} {plan : List (Action σ)} (done : (p.perform plan).failure = none)
    (more : List (Action σ)) :
    p.perform (plan ++ more) =
      { (p.perform plan).page.perform more with
        events := (p.perform plan).events ++ ((p.perform plan).page.perform more).events } := by
  induction plan generalizing p with
  | nil => rfl
  | cons step plan ih =>
    cases step with
    | warn w given =>
      rw [List.cons_append, perform, perform]
      simp only [perform] at done
      simp only [ih done, List.cons_append]
    | call path label c =>
      rw [List.cons_append, perform, perform]
      rw [perform] at done
      split
      · next h =>
        simp only [h] at done
        exact ih done
      · next r h =>
        simp only [h] at done
        split
        · next e => simp [e] at done
        · next e =>
          simp only [e] at done
          simp only [ih done, List.append_assoc]

/-- Steps that only assign and warn come to what they lead to, and no sink is asked for anything. -/
theorem perform_quiet {plan : List (Action σ)} {p : Page σ} {b last : Block} {out all : List UInt8}
    (h : Performs [] plan b out last all) (root : p.root = b)
    (quiet : ∀ path label c, .call path label c ∈ plan → ∃ name value, c = .set name value) :
    (p.perform plan).failure = none ∧ (p.perform plan).page = ⟨last, p.sink⟩ ∧
      ∃ notes : List Note, (p.perform plan).events = notes.map .note := by
  induction h generalizing p with
  | done =>
    subst root
    exact ⟨rfl, rfl, [], rfl⟩
  | warn w given _ ih =>
    obtain ⟨done, page, notes, events⟩ := ih root fun path label c h =>
      quiet path label c (List.mem_cons_of_mem _ h)
    refine ⟨done, page, .misfit w given :: notes, ?_⟩
    rw [perform, List.map_cons, events]
  | @call below label c plan b b' d last out all granted target _ _ ih =>
    subst root
    obtain ⟨name, value, rfl⟩ := quiet _ _ _ List.mem_cons_self
    obtain ⟨o, ho⟩ := exists_callAt target p.sink (.set name value)
    obtain ⟨e, answer⟩ := Block.answerAt ho
    obtain ⟨_, own⟩ := answer.answer
    obtain ⟨_, can⟩ := granted.at_target answer.target
    obtain ⟨ok, sink, first, events⟩ := own.of_quiet can rfl
    have reply : p.call? ([] ++ below) (.set name value) = some ⟨⟨o.block, o.sink⟩, o.result, o.events⟩ := by
      rw [List.nil_append, call?, ho]
      rfl
    have after : o.block = b' := (answer.granted ok).unique granted
    obtain ⟨done, page, notes, more⟩ := ih (p := ⟨o.block, o.sink⟩) after fun path label c h =>
      quiet path label c (List.mem_cons_of_mem _ h)
    rw [perform_call label plan reply ok]
    simp only at sink events
    refine ⟨done, by rw [page, sink], first ++ notes, ?_⟩
    rw [events, more, List.map_append]

/-- Over a sink that never fails, a granted call succeeds and serves its sink, which receives what is
written. -/
theorem serve_granted {fine : σ → Prop} {seen : σ → List UInt8} (steady : Sink.Steady fine seen) {p : Page σ}
    {path : List String} {c : Call σ} {d b' : Block} {s : σ} (can : GrantedAt p.root path c b')
    (target : p.root.descend? path = some d) (aim : c.target p.sink = some s) (good : fine s) :
    ∃ r t, p.call? path c = some r ∧ r.result = .ok () ∧ r.page.root = b' ∧ r.page.sink = some t ∧ fine t ∧
      Sink.Served s r.events t ∧ seen t = seen s ++ d.output c := by
  obtain ⟨r, reply, ok, root, t, bound, good', received⟩ := call_of_granted steady can target aim good
  obtain ⟨_, answer⟩ := answerAt reply
  obtain ⟨_, own⟩ := answer.answer
  obtain ⟨u, sink, served⟩ := own.served_of_ok ok aim
  have same : u = t := Option.some.inj (sink.symm.trans bound)
  exact ⟨r, t, reply, ok, root, bound, good', same ▸ served, received⟩

/-- Over a sink that never fails, the steps of a plan come to what they lead to, the bound sink is
served and no other, and receives what they write. -/
theorem perform_of_performs {fine : σ → Prop} {seen : σ → List UInt8} (steady : Sink.Steady fine seen)
    {plan : List (Action σ)} {p : Page σ} {t : σ} {b last : Block} {front out all : List UInt8}
    (h : Performs [] plan b out last all) (root : p.root = b) (bound : p.sink = some t) (good : fine t)
    (so_far : seen t = front ++ out) :
    (p.perform plan).failure = none ∧ (p.perform plan).page.root = last ∧
      ∃ t', (p.perform plan).page.sink = some t' ∧ fine t' ∧ Sink.Served t (p.perform plan).events t' ∧
        seen t' = front ++ all := by
  induction h generalizing p t with
  | done => exact ⟨rfl, root, t, bound, good, .done, so_far⟩
  | warn w given _ ih =>
    obtain ⟨done, root', t', bound', good', served, seen'⟩ := ih root bound good so_far
    exact ⟨done, root', t', bound', good', .note _ served, seen'⟩
  | @call below label c plan b b' d last out all granted target other _ ih =>
    subst root
    have aim : c.target p.sink = some t := (Call.target_of_other other p.sink).trans bound
    obtain ⟨r, t₁, reply, ok, root', bound₁, good₁, served, seen₁⟩ := serve_granted steady granted target aim good
    rw [so_far, List.append_assoc] at seen₁
    obtain ⟨done, root'', t', bound', good', rest, seen'⟩ := ih root' bound₁ good₁ seen₁
    rw [List.nil_append, perform_call label plan reply ok]
    exact ⟨done, root'', t', bound', good', served.trans rest, seen'⟩

/-- A plan that begins a pass on a root that is not being written serves the new sink. -/
theorem perform_pass {fine : σ → Prop} {seen : σ → List UInt8} (steady : Sink.Steady fine seen)
    {plan : List (Action σ)} {p : Page σ} {s : σ} {last : Block} {all : List UInt8} (label : String)
    (root : p.root.isRoot = true) (idle : p.root.state.isActive = false) (good : fine s)
    (h : Performs [] plan (p.root.moveOn 0).1 (p.root.gapBytes 0) last all) :
    let done := p.perform (.call [] label (.startWith s) :: plan)
    done.failure = none ∧ done.page.root = last ∧
      ∃ t, done.page.sink = some t ∧ Sink.Served s done.events t ∧ seen t = seen s ++ all := by
  have granted := Granted.startWith s root
  rw [idle] at granted
  obtain ⟨r, t₁, reply, ok, root_eq, bound₁, good₁, served, seen₁⟩ :=
    serve_granted steady (.self granted) rfl rfl good
  obtain ⟨done, last_eq, t, bound, -, rest, seen_t⟩ := perform_of_performs steady h root_eq bound₁ good₁ seen₁
  rw [perform_call label plan reply ok]
  exact ⟨done, last_eq, t, bound, served.trans rest, seen_t⟩

/-- A plan that is carried out whole fills the page. -/
theorem fill_of_done {p : Page σ} {fields : Fields} {s : σ}
    (done : (p.perform (p.root.fillPlan fields s)).failure = none) :
    p.fill fields s =
      ⟨(p.perform (p.root.fillPlan fields s)).page, .ok (warnings (p.root.fillPlan fields s)),
        (p.perform (p.root.fillPlan fields s)).events ++
          [.note (.filled (warnings (p.root.fillPlan fields s)).length)]⟩ := by
  rw [fill]
  simp only [done]

/-- A filling fails where the carrying out of its plan does. -/
theorem fill_of_failed {p : Page σ} {fields : Fields} {s : σ} {e : FillError}
    (failed : (p.perform (p.root.fillPlan fields s)).failure = some e) :
    p.fill fields s = ⟨(p.perform (p.root.fillPlan fields s)).page, .error e,
      (p.perform (p.root.fillPlan fields s)).events⟩ := by
  rw [fill]
  simp only [failed]

/-- The fields are assigned while no sink is looked at; then the root is written to the new sink. -/
theorem perform_fillPlan {p : Page σ} {fields : Fields} {t b : Block}
    (assigned : Performs [] (t.assignments [] rootLabel fields : List (Action σ)) p.root [] b []) (s : σ) :
    ∃ notes : List Note,
      let rest := (⟨b, p.sink⟩ : Page σ).perform (.call [] rootLabel (.startWith s) ::
        (childrenPlan [] rootLabel fields t.children ++ [.call [] rootLabel .finish]))
      p.perform (t.fillPlan fields s) = { rest with events := notes.map .note ++ rest.events } := by
  obtain ⟨quiet, page, notes, events⟩ := perform_quiet assigned rfl fun _ _ _ => call_of_mem_assignments
  have performed := perform_append quiet (.call [] rootLabel (.startWith s) ::
    (childrenPlan [] rootLabel fields t.children ++ [.call [] rootLabel .finish]))
  rw [← fillPlan_eq, page, events] at performed
  exact ⟨notes, performed⟩

/-- A root that is not being written is filled by what its fields assign and what is then written. -/
theorem fill_of_performs {fine : σ → Prop} {seen : σ → List UInt8} (steady : Sink.Steady fine seen)
    {p : Page σ} {fields : Fields} {s : σ} {b last : Block} {all : List UInt8} (root : p.root.isRoot = true)
    (assigned : Performs [] (p.root.assignments [] rootLabel fields : List (Action σ)) p.root [] b [])
    (idle : b.state.isActive = false) (good : fine s)
    (written : Performs [] (childrenPlan [] rootLabel fields p.root.children : List (Action σ))
      (b.moveOn 0).1 (b.gapBytes 0) last all)
    (used : last.state = .used) :
    (∃ ws, (p.fill fields s).result = .ok ws) ∧ (p.fill fields s).page.root = last ∧
      ∃ t, (p.fill fields s).page.sink = some t ∧ Sink.Served s (p.fill fields s).events t ∧
        seen t = seen s ++ all := by
  have begun_root : b.isRoot = true := (isRoot_of_pristine_eq assigned.pristine).trans root
  obtain ⟨done, root_eq, t, bound, served, seen_t⟩ :=
    perform_pass (p := ⟨b, p.sink⟩) steady rootLabel begun_root idle good (written.checked rootLabel begun_root used)
  obtain ⟨notes, performed⟩ := perform_fillPlan assigned s
  have filled := fill_of_done (by rw [performed]; exact done)
  rw [performed] at filled
  rw [filled]
  exact ⟨⟨_, rfl⟩, root_eq, t, bound,
    ((Sink.served_notes s notes).trans served).trans (Sink.served_notes t [_]), seen_t⟩

end Page

end Stencil

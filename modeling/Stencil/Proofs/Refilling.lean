import Stencil.Proofs.Filling
import Stencil.Proofs.Misfits
import Stencil.Proofs.Restart

/-!
# Filling a template again

To fill a template is to assign the fields of its root and then to begin a pass, and a pass can be begun
at any point of another one. From then on the filling is that of a copy with nothing reached
(`Page.pass_like_fresh`). But no variable of a root that is being written can be assigned, so in the middle
of a pass a filling stops at the first such field, before the pass could be given up
(`Page.refused_fill`). Both together are `Page.refill_like_fresh`.
-/

namespace Stencil

open Text Block

variable {σ : Type}

/-- Some field is assigned: it has a text and names a variable of the block. -/
def Block.Assigns (b : Block) (fields : Fields) : Prop :=
  ∃ field ∈ fields, field.2.text? ≠ none ∧ b.vars.declares field.1 = true

instance (b : Block) (fields : Fields) : Decidable (b.Assigns fields) :=
  inferInstanceAs (Decidable (∃ field ∈ fields, field.2.text? ≠ none ∧ b.vars.declares field.1 = true))

/-! ## Assigning fields -/

namespace Block

variable {t a : Block} {label : String} {fields : Fields}

/-- The step for a field is an assignment where the field is assigned, and else at most a warning. -/
theorem assignment_cases (t : Block) (label name : String) (entry : Entry) :
    (∃ value, entry.text? = some value ∧ t.vars.declares name = true ∧
      (t.assignment [] label name entry : List (Action σ)) = [.call [] label (.set name value)]) ∨
    (¬ (entry.text? ≠ none ∧ t.vars.declares name = true) ∧
      ((t.assignment [] label name entry : List (Action σ)) = [] ∨
        ∃ w given, (t.assignment [] label name entry : List (Action σ)) = [.warn w given])) := by
  rw [assignment]
  split
  · next value text known => exact .inl ⟨value, text, known, rfl⟩
  · next other =>
    refine .inr ⟨fun assigned => ?_, ?_⟩
    · obtain ⟨text, known⟩ := assigned
      obtain ⟨value, text⟩ := Option.ne_none_iff_exists'.1 text
      exact other value text known
    · cases t.misfit? name entry with
      | none => exact .inl rfl
      | some m => exact .inr ⟨_, _, rfl⟩

theorem assigns_cons {name : String} {entry : Entry} :
    t.Assigns ((name, entry) :: fields) ↔
      (entry.text? ≠ none ∧ t.vars.declares name = true) ∨ t.Assigns fields := by
  simp only [Assigns, List.exists_mem_cons_iff]

theorem assignments_cons (t : Block) (path : List String) (label name : String) (entry : Entry) (fields : Fields) :
    (t.assignments path label ((name, entry) :: fields) : List (Action σ)) =
      t.assignment path label name entry ++ t.assignments path label fields := rfl

/-- Where they can be, the fields are assigned alike whatever has been reached. -/
theorem performs_assignments (t : Block) (label : String) (fields : Fields) {a : Block}
    (free : a.state.isActive = false ∨ ¬ t.Assigns fields) :
    ∃ b, Performs [] (t.assignments [] label fields : List (Action σ)) a [] b [] ∧
      Performs [] (t.assignments [] label fields : List (Action σ)) a.cleared [] b.cleared [] := by
  induction fields generalizing a with
  | nil => exact ⟨a, .done, .done⟩
  | cons field fields ih =>
    obtain ⟨name, entry⟩ := field
    rw [assigns_cons] at free
    rw [assignments_cons]
    rcases t.assignment_cases (σ := σ) label name entry with ⟨value, text, known, step⟩ | ⟨-, step⟩
    · have assigned : entry.text? ≠ none ∧ t.vars.declares name = true := ⟨by rw [text]; nofun, known⟩
      have idle : a.state.isActive = false := free.resolve_right fun none_ => none_ (.inl assigned)
      obtain ⟨b, here, there⟩ := ih (a := { a with vars := (a.vars.assign? name value).getD a.vars }) (.inl idle)
      have idle' : a.cleared.state.isActive = false := by rw [cleared_eq]; rfl
      have granted := Granted.set (σ := σ) name value idle'
      have same : { a.cleared with vars := (a.cleared.vars.assign? name value).getD a.cleared.vars } =
          cleared { a with vars := (a.vars.assign? name value).getD a.vars } := by
        rw [cleared_eq, cleared_eq]
      rw [same] at granted
      rw [step]
      exact ⟨b, (Performs.quiet (.set name value idle) rfl).trans here, (Performs.quiet granted rfl).trans there⟩
    · obtain ⟨b, here, there⟩ := ih (a := a) (free.imp_right fun none_ more => none_ (.inr more))
      rcases step with step | ⟨w, given, step⟩
      · rw [step]
        exact ⟨b, here, there⟩
      · rw [step]
        exact ⟨b, .warn w given here, .warn w given there⟩

end Block

namespace Page

variable [Sink σ] {root : Block} {p : Page σ} {fields : Fields} {s : σ}

/-- In the middle of a pass no field can be assigned, and with the first one everything ends. -/
theorem perform_assigned (active : p.root.state.isActive = true) {t : Block} (assigned : t.Assigns fields)
    (label : String) (more : List (Action σ)) :
    ∃ notes : List Note, p.perform (t.assignments [] label fields ++ more) =
      ⟨p, some ⟨label, .invalidState p.root.state⟩, notes.map .note⟩ := by
  induction fields with
  | nil =>
    obtain ⟨_, none_, _⟩ := assigned
    cases none_
  | cons field fields ih =>
    obtain ⟨name, entry⟩ := field
    rw [assigns_cons] at assigned
    rw [assignments_cons]
    rcases t.assignment_cases (σ := σ) label name entry with ⟨value, -, -, step⟩ | ⟨other, step⟩
    · have reply : p.call? [] (.set name value) = some ⟨p, .error (.invalidState p.root.state), []⟩ := by
        rw [call?, callAt, Block.call, setVariable, if_pos active]
        rfl
      rw [step]
      exact ⟨[], perform_refused label _ reply rfl⟩
    · obtain ⟨notes, later⟩ := ih (assigned.resolve_left other)
      rcases step with step | ⟨w, given, step⟩
      · rw [step]
        exact ⟨notes, later⟩
      · refine ⟨.misfit w given :: notes, ?_⟩
        rw [step, List.append_assoc, List.singleton_append, perform, later]
        rfl

/-- A pass over a sink that takes the first gap is that of a copy with nothing reached. -/
theorem pass_like_fresh (sound : Sound root p) (fresh : Template.Fresh root)
    (writable : (p.root.writeGap 0 s).fault = none) (label : String) (later : List (Action σ)) :
    let pass := p.perform (.call [] label (.startWith s) :: later)
    let other := (⟨p.root.cleared, none⟩ : Page σ).perform (.call [] label (.startWith s) :: later)
    pass.page = other.page ∧ pass.failure = other.failure ∧ Event.sights pass.events = Event.sights other.events := by
  have dormant : p.root.cleared.cleared = p.root.cleared := (sound.cleared.unbound rfl).cleared_self
  obtain ⟨notes, reply⟩ := sound.begun fresh writable
  obtain ⟨notes', reply'⟩ := sound.cleared.begun fresh (s := s) (by rwa [writeGap_cleared])
  rw [dormant, writeGap_cleared] at reply'
  rw [perform_call label later reply rfl, perform_call label later reply' rfl]
  refine ⟨rfl, rfl, ?_⟩
  rw [List.append_assoc, List.append_assoc]
  refine Event.sights_append_congr _ ?_
  rw [Event.sights_prepend_notes, Event.sights_prepend_notes]

/-- Two pages are filled alike where plans that warn of the same are carried out alike. -/
theorem fill_congr {q : Page σ} {more : Fields}
    (warned : warnings (p.root.fillPlan fields s) = warnings (q.root.fillPlan more s))
    (page : (p.perform (p.root.fillPlan fields s)).page = (q.perform (q.root.fillPlan more s)).page)
    (failure : (p.perform (p.root.fillPlan fields s)).failure = (q.perform (q.root.fillPlan more s)).failure)
    (seen : Event.sights (p.perform (p.root.fillPlan fields s)).events =
      Event.sights (q.perform (q.root.fillPlan more s)).events) :
    (p.fill fields s).result = (q.fill more s).result ∧ (p.fill fields s).page = (q.fill more s).page ∧
      Event.sights (p.fill fields s).events = Event.sights (q.fill more s).events := by
  cases h : (p.perform (p.root.fillPlan fields s)).failure with
  | none =>
    rw [fill_of_done h, fill_of_done (failure.symm.trans h), warned]
    refine ⟨rfl, page, ?_⟩
    have note (events : List Event) (n : Note) : Event.sights (events ++ [.note n]) = Event.sights events :=
      Event.sights_append_notes events [n]
    rw [note, note, seen]
  | some e =>
    rw [fill_of_failed h, fill_of_failed (failure.symm.trans h)]
    exact ⟨rfl, page, seen⟩

/-- A page whose fields can be assigned is filled as a copy with nothing reached is. -/
theorem Sound.fill_like_fresh {fine : σ → Prop} {seen : σ → List UInt8} (steady : Sink.Steady fine seen)
    (sound : Sound root p) (fresh : Template.Fresh root) (good : fine s)
    (free : p.root.state.isActive = false ∨ ¬ p.root.Assigns fields) :
    let copy : Page σ := ⟨p.root.cleared, none⟩
    (p.fill fields s).result = (copy.fill fields s).result ∧ (p.fill fields s).page = (copy.fill fields s).page ∧
      Event.sights (p.fill fields s).events = Event.sights (copy.fill fields s).events := by
  intro copy
  have plan : copy.root.fillPlan fields s = p.root.fillPlan fields s :=
    fillPlan_congr (sound.cleared.pristine.trans sound.pristine.symm) fields s
  obtain ⟨b, here, there⟩ := p.root.performs_assignments (σ := σ) rootLabel fields free
  have assigned : Sound root (⟨b, p.sink⟩ : Page σ) := by
    obtain ⟨-, page, -⟩ := perform_quiet here rfl fun _ _ _ => call_of_mem_assignments
    rw [← page]
    exact perform_keeps (fun _ _ _ _ h reply => h.call fresh reply) _ sound
  obtain ⟨notes, performed⟩ := perform_fillPlan here s
  obtain ⟨notes', performed'⟩ := perform_fillPlan (p := copy) there s
  obtain ⟨page, failure, same⟩ := pass_like_fresh assigned fresh (steady.writeGap good b 0).fault rootLabel
    (childrenPlan [] rootLabel fields p.root.children ++ [.call [] rootLabel .finish])
  refine fill_congr (congrArg warnings plan.symm) ?_ ?_ ?_
  · rw [plan, performed, performed']
    exact page
  · rw [plan, performed, performed']
    exact failure
  · rw [plan, performed, performed', Event.sights_prepend_notes, Event.sights_prepend_notes]
    exact same

/-- In the middle of a pass a filling with an assigned field is refused, and changes nothing. -/
theorem refused_fill (active : p.root.state.isActive = true) (assigned : p.root.Assigns fields) :
    (p.fill fields s).result = .error ⟨rootLabel, .invalidState p.root.state⟩ ∧ (p.fill fields s).page = p ∧
      Event.sights (p.fill fields s).events = [] := by
  obtain ⟨notes, performed⟩ := perform_assigned active assigned rootLabel (.call [] rootLabel (.startWith s) ::
    (childrenPlan [] rootLabel fields p.root.children ++ [.call [] rootLabel .finish]))
  rw [← fillPlan_eq] at performed
  rw [fill_of_failed (by rw [performed]), performed]
  exact ⟨rfl, rfl, Event.sights_append_notes [] notes⟩

/-- **A template can be filled again, unless a field is assigned in the middle of a pass.** On every page
that is reached, for every data and every sink that never fails: a copy with the same values and nothing
reached can be filled, and its sink receives what the data renders to. If the root is not being written, or no
field of the data is assigned to it, then the page is filled like the copy, with the same warnings, the same
final page and the same for sinks to see. Otherwise the filling is refused before the pass in progress could
be given up; nothing changes, and no sink is served. -/
theorem refill_like_fresh {fine : σ → Prop} {seen : σ → List UInt8} (steady : Sink.Steady fine seen)
    {source : String} {file : Nat} (parsed : Template.parse source file = .ok root) (reached : Reachable root p)
    (good : fine s) (fields : Fields) :
    let copy : Page σ := ⟨p.root.cleared, none⟩
    let filled := p.fill fields s
    let whole := copy.fill fields s
    (copy.root.pristine = root ∧ copy.root.values = p.root.values ∧ ∀ b ∈ copy.root.preorder, b.state = .out) ∧
    ((∃ ws, whole.result = .ok ws) ∧ ∃ t, whole.page.sink = some t ∧ Sink.Served s whole.events t ∧
      seen t = seen s ++ (copy.root.pass [] fields ⟨[], copy.root.valuation⟩).out) ∧
    (p.root.state.isActive = false ∨ ¬ p.root.Assigns fields →
      filled.result = whole.result ∧ filled.page = whole.page ∧
      Event.sights filled.events = Event.sights whole.events) ∧
    (p.root.state.isActive = true → p.root.Assigns fields →
      filled.result = .error ⟨rootLabel, .invalidState p.root.state⟩ ∧ filled.page = p ∧
      Event.sights filled.events = []) := by
  intro copy filled whole
  have fresh := Template.fresh_of_parse parsed
  have sound := reached.sound fresh
  have dormant := sound.cleared.unbound rfl
  have idle : copy.root.state.isActive = false := by rw [dormant.state]; rfl
  obtain ⟨b, last, assigned, idle', written, -, used⟩ :=
    sound.cleared.renders fresh (Template.wellDeclared_of_parse parsed) idle fields
  obtain ⟨ok, -, received⟩ :=
    fill_of_performs steady (sound.cleared.isRoot fresh) assigned idle' good written used
  exact ⟨⟨sound.cleared.pristine, values_cleared p.root, dormant⟩, ⟨ok, received⟩,
    fun free => sound.fill_like_fresh steady fresh good free, refused_fill⟩

/-- A filling that failed in the middle, and a second one that assigns nothing to the root: the value that
was assigned before is written, and the block that was missing. -/
theorem refill_like_fresh_after_failure :
    ∃ (root : Block) (p : Page Quota),
      Template.parse "<!--rep var=x place=X-->X<!--rep blk=b-->y<!--/rep-->" 0 = .ok root ∧ Reachable root p ∧
      p.root.states = [.active 0, .ready] ∧ p.root.values = [[("x", "u")], []] ∧
      (p.fill [("b", .bool true)] ⟨⟨none, false, 0⟩, #[]⟩).result = .ok [] ∧
      ∃ t, (p.fill [("b", .bool true)] ⟨⟨none, false, 0⟩, #[]⟩).page.sink = some t ∧ t.taken.toList = bytes "uy" := by
  let root : Block := ⟨none, ⟨[⟨"x", "X", "X", ⟨0, 24⟩⟩]⟩, [[⟨"", none⟩, ⟨"", some 0⟩, ⟨"", none⟩], [⟨"", none⟩]],
    [⟨some "b", ⟨[]⟩, [[⟨"y", none⟩]], [], ⟨25, 53⟩, .out⟩], ⟨0, 53⟩, .out⟩
  have parsed : Template.parse "<!--rep var=x place=X-->X<!--rep blk=b-->y<!--/rep-->" 0 = .ok root := by
    with_unfolding_all rfl
  let roomy : Quota := ⟨⟨none, false, 0⟩, #[]⟩
  let small : Quota := ⟨⟨some 1, false, 0⟩, #[]⟩
  let p : Page Quota := ((Page.ofTemplate root).fill [("b", .bool true), ("x", .text "u")] small).page
  have reached : Reachable root p := Reachable.fresh.fill _ _
  have free : ¬ p.root.Assigns [("b", .bool true)] := by decide +kernel
  obtain ⟨-, ⟨⟨ws, ok⟩, t, bound, -, received⟩, same, -⟩ :=
    refill_like_fresh Quota.steady parsed reached (s := roomy) ⟨rfl, rfl⟩ [("b", .bool true)]
  obtain ⟨result, page, -⟩ := same (.inr free)
  refine ⟨root, p, parsed, reached, by decide +kernel, by decide +kernel, result.trans ?_, t,
    (congrArg Page.sink page).trans bound, received.trans ?_⟩
  · decide +kernel
  · decide +kernel

/-- A filling that failed in the middle, and a second one that assigns a field to the root: it is refused,
although a copy with the same values and nothing reached is filled. -/
theorem refill_refused_after_failure :
    ∃ (root : Block) (p : Page Quota),
      Template.parse "<!--rep var=x place=X-->X<!--rep blk=b-->y<!--/rep-->" 0 = .ok root ∧ Reachable root p ∧
      (p.fill [("x", .text "v")] ⟨⟨none, false, 0⟩, #[]⟩).result = .error ⟨"root", .invalidState (.active 0)⟩ ∧
      ((⟨p.root.cleared, none⟩ : Page Quota).fill [("x", .text "v")] ⟨⟨none, false, 0⟩, #[]⟩).result = .ok [] := by
  let root : Block := ⟨none, ⟨[⟨"x", "X", "X", ⟨0, 24⟩⟩]⟩, [[⟨"", none⟩, ⟨"", some 0⟩, ⟨"", none⟩], [⟨"", none⟩]],
    [⟨some "b", ⟨[]⟩, [[⟨"y", none⟩]], [], ⟨25, 53⟩, .out⟩], ⟨0, 53⟩, .out⟩
  have parsed : Template.parse "<!--rep var=x place=X-->X<!--rep blk=b-->y<!--/rep-->" 0 = .ok root := by
    with_unfolding_all rfl
  let small : Quota := ⟨⟨some 1, false, 0⟩, #[]⟩
  let p : Page Quota := ((Page.ofTemplate root).fill [("b", .bool true), ("x", .text "u")] small).page
  exact ⟨root, p, parsed, Reachable.fresh.fill _ _, by decide +kernel, by decide +kernel⟩

end Page

end Stencil

import Stencil.Proofs.Labels
import Stencil.Proofs.ShortSinks

/-!
# The passes of a filling

Which passes a filling makes is a matter of the template and the data: `Block.visits` lists them in the
order in which they are begun, a block as often as its entry asks for. Every pass is over the block at
its path (`descend?_of_mem_visits`); what is reported of it, and of any call of the plan, names the block
by the label of this path (`passWarnings_label`, `label_of_mem_fillPlan`).
-/

namespace Stencil

open Block
open Page (warnings)

/-- A pass over the block at a path. -/
structure Visit where
  path : List String
  block : Block
  fields : Fields

/-- The warnings for the fields of the pass itself. -/
def Visit.warnings (v : Visit) : List Warning := v.block.misfits (label v.path) v.fields

namespace Block

mutual

/-- A pass over the block at `path`, and the passes over everything nested in it, in the order in which
they are begun. -/
def visits (path : List String) (fields : Fields) : Block → List Visit
  | ⟨name, vs, gaps, cs, span, state⟩ =>
    ⟨path, ⟨name, vs, gaps, cs, span, state⟩, fields⟩ :: visitsAll path fields cs

/-- The passes over nested blocks, as many for each as its entry asks for. -/
def visitsAll (path : List String) (fields : Fields) : List Block → List Visit
  | [] => []
  | c :: cs =>
    let name := c.name.getD ""
    ((fields.rounds name).flatMap fun inner => c.visits (path ++ [name]) inner) ++ visitsAll path fields cs

end

theorem visits_eq (b : Block) (path : List String) (fields : Fields) :
    b.visits path fields = ⟨path, b, fields⟩ :: visitsAll path fields b.children := by
  cases b
  rw [visits]

theorem mem_visitsAll {path : List String} {fields : Fields} {cs : List Block} {v : Visit} :
    v ∈ visitsAll path fields cs ↔
      ∃ c ∈ cs, ∃ inner ∈ fields.rounds (c.name.getD ""), v ∈ c.visits (path ++ [c.name.getD ""]) inner := by
  induction cs with
  | nil => simp [visitsAll]
  | cons c cs ih => simp [visitsAll, ih]

/-- Every pass is over the block that its path leads to. -/
theorem descend?_of_mem_visits {b : Block} (named : b.WellNamed) {path : List String} {fields : Fields} {v : Visit}
    (h : v ∈ b.visits path fields) : ∃ below, v.path = path ++ below ∧ b.descend? below = some v.block := by
  induction b using nestInduction generalizing path fields with
  | nest b ih =>
    rw [visits_eq, List.mem_cons, mem_visitsAll] at h
    rcases h with rfl | ⟨c, hc, inner, -, deeper⟩
    · exact ⟨[], (List.append_nil path).symm, rfl⟩
    · obtain ⟨below, e, target⟩ := ih c hc (named.child hc) deeper
      obtain ⟨k, child⟩ := List.getElem?_of_mem hc
      refine ⟨c.name.getD "" :: below, ?_, ?_⟩
      · rw [e, List.append_assoc, List.singleton_append]
      · rw [descend?_child (named.childIndex? child) child, target]

/-! ## Names in warnings and calls -/

/-- The warnings of a pass and of what is nested in it are those of each pass, under the label of its path. -/
theorem passWarnings_label (b : Block) (path : List String) (fields : Fields) :
    b.passWarnings (label path) fields = (b.visits path fields).flatMap Visit.warnings := by
  induction b using rowInduction (fun cs => ∀ path fields,
    childrenWarnings (label path) fields cs = (visitsAll path fields cs).flatMap Visit.warnings)
    generalizing path fields with
  | nest b ih =>
    rw [passWarnings_eq, visits_eq, List.flatMap_cons, ih]
    rfl
  | nil => rfl
  | cons c cs first others =>
    rw [childrenWarnings, visitsAll, List.flatMap_append, List.flatMap_assoc, childLabel_label, others]
    simp only [first]

section

variable {σ : Type}

/-- A call of a plan is made on a block of the template, which it names by the label of its path. -/
theorem label_of_mem_passPlan {b : Block} (named : b.WellNamed) {path p : List String} {enter c : Call σ}
    {name : String} {fields : Fields} (h : .call p name c ∈ b.passPlan path (label path) enter fields) :
    name = label p ∧ ∃ below d, p = path ++ below ∧ b.descend? below = some d := by
  induction b using nestInduction generalizing path enter fields with
  | nest b ih =>
    have own : label path = label path ∧ ∃ below d, path = path ++ below ∧ b.descend? below = some d :=
      ⟨rfl, [], b, (List.append_nil path).symm, rfl⟩
    have all : ∀ cs : List Block, (∀ x ∈ cs, x ∈ b.children) →
        .call p name c ∈ (childrenPlan path (label path) fields cs : List (Action σ)) →
        name = label p ∧ ∃ below d, p = path ++ below ∧ b.descend? below = some d := by
      intro cs part h
      induction cs with
      | nil => cases h
      | cons child cs more =>
        have mem := part child List.mem_cons_self
        obtain ⟨k, here⟩ := List.getElem?_of_mem mem
        have down := descend?_child (named.childIndex? here) here
        rw [childrenPlan_cons, List.mem_append, List.mem_cons, turnPlan, childLabel_label] at h
        rcases h with turn | same | later
        · split at turn
          · cases List.mem_singleton.1 turn
            exact ⟨rfl, [child.name.getD ""], child, rfl, by rw [down]; rfl⟩
          · obtain ⟨inner, -, deeper⟩ := List.mem_flatMap.1 turn
            obtain ⟨e, below, d, rfl, target⟩ := ih child mem (named.child mem) deeper
            refine ⟨e, child.name.getD "" :: below, d, ?_, by rw [down, target]⟩
            rw [List.append_assoc, List.singleton_append]
        · cases same
          exact own
        · exact more (fun x hx => part x (List.mem_cons_of_mem _ hx)) later
    rw [passPlan_eq, List.mem_append, List.mem_cons] at h
    rcases h with assigned | same | nested
    · obtain ⟨⟨var, entry⟩, -, step⟩ := List.mem_flatMap.1 assigned
      simp only [assignment] at step
      split at step
      · cases List.mem_singleton.1 step
        exact own
      · simp at step
    · cases same
      exact own
    · exact all b.children (fun _ hx => hx) nested

theorem label_of_mem_fillPlan {b : Block} (named : b.WellNamed) {p : List String} {name : String} {c : Call σ}
    {fields : Fields} {s : σ} (h : .call p name c ∈ b.fillPlan fields s) :
    name = label p ∧ ∃ d, b.descend? p = some d := by
  unfold fillPlan at h
  rcases List.mem_append.1 h with passed | finished
  · have passed : .call p name c ∈ b.passPlan [] (label []) (.startWith s) fields := passed
    obtain ⟨e, below, d, rfl, target⟩ := label_of_mem_passPlan named passed
    exact ⟨e, d, target⟩
  · cases List.mem_singleton.1 finished
    exact ⟨rfl, b, rfl⟩

end

end Block

/-! ## What is noted on the way -/

/-- The warnings among some events. -/
def Event.misfits (events : List Event) : List Warning :=
  events.filterMap fun e => match e with | note (.misfit w _) => some w | _ => none

namespace Event

theorem misfits_append (xs ys : List Event) : misfits (xs ++ ys) = misfits xs ++ misfits ys :=
  List.filterMap_append

end Event

variable {σ : Type} [Sink σ]

theorem Sink.misfits_writeAll (s : σ) (bs : List UInt8) : Event.misfits (writeAll s bs).events = [] := by
  fun_induction writeAll s bs with
  | case4 s bs some_ n t offered w ih => exact ih
  | _ => rfl

theorem Sink.misfits_writeEach (s : σ) (texts : List (List UInt8)) :
    Event.misfits (writeEach s texts).events = [] := by
  induction texts generalizing s with
  | nil => rfl
  | cons bs rest ih =>
    unfold writeEach
    dsimp only
    split
    · exact misfits_writeAll s bs
    · rw [Event.misfits_append, misfits_writeAll, ih, List.nil_append]

namespace Block

theorem misfits_writeGap (b : Block) (k : Nat) (s : σ) : Event.misfits (b.writeGap k s).events = [] := by
  unfold writeGap
  dsimp only
  split
  · have flushed (t : σ) : Event.misfits (Sink.flushNow t).events = [] := by
      unfold Sink.flushNow
      split <;> rfl
    rw [Event.misfits_append, Sink.misfits_writeEach, flushed, List.nil_append]
  · exact Sink.misfits_writeEach _ _

theorem misfits_moveOn (b : Block) (k : Nat) : Event.misfits (b.moveOn k).2 = [] := by
  unfold moveOn
  split <;> rfl

theorem misfits_writeThen (b after : Block) (k : Nat) (bound : Option σ) :
    Event.misfits (b.writeThen after k bound).events = [] := by
  unfold writeThen
  split
  · rfl
  · dsimp only
    split
    · exact misfits_writeGap _ _ _
    · rw [Event.misfits_append, misfits_writeGap, misfits_moveOn, List.nil_append]

/-- No call notes a misfit. -/
theorem misfits_call (b : Block) (bound : Option σ) (c : Call σ) : Event.misfits (b.call bound c).events = [] := by
  cases c with
  | startWith s =>
    show Event.misfits (b.startWith bound s).events = []
    unfold startWith
    split
    · dsimp only
      split
      · exact misfits_writeGap _ _ _
      · rw [Event.misfits_append, Event.misfits_append, misfits_writeGap, misfits_moveOn]
        split <;> rfl
    · rfl
  | start =>
    show Event.misfits (b.start bound).events = []
    unfold start
    split
    · rfl
    · split
      · exact misfits_writeThen _ _ _ _
      · rfl
  | skip =>
    show Event.misfits (b.skip bound).events = []
    unfold skip
    split
    · rfl
    · split <;> rfl
  | next =>
    show Event.misfits (b.next bound).events = []
    unfold next
    split
    · split
      · rfl
      · split
        · exact misfits_writeThen _ _ _ _
        · rfl
    · rfl
  | finish =>
    show Event.misfits (b.finish bound).events = []
    unfold finish
    split
    · split <;> rfl
    · rfl
  | set name value =>
    show Event.misfits (b.setVariable bound name value).events = []
    unfold setVariable
    split
    · rfl
    · split <;> rfl

theorem misfits_callAt {b : Block} {bound : Option σ} {c : Call σ} {path : List String} {o : Outcome σ}
    (made : b.callAt bound c path = some o) : Event.misfits o.events = [] := by
  obtain ⟨d, target⟩ := Option.ne_none_iff_exists'.1 (mt (callAt_eq_none_iff bound c).2 (made.trans_ne nofun))
  obtain ⟨after, made', -⟩ := callAt_descend target bound c
  rw [made] at made'
  cases made'
  exact misfits_call d bound c

end Block

namespace Page

/-- Carrying out steps notes the misfits that the steps warn of, from the first one on; all of them if no
call is refused. -/
theorem misfits_perform (plan : List (Action σ)) (p : Page σ) :
    ∃ later, warnings plan = Event.misfits (p.perform plan).events ++ later ∧
      ((p.perform plan).failure = none → later = []) := by
  induction plan generalizing p with
  | nil => exact ⟨[], rfl, fun _ => rfl⟩
  | cons step plan ih =>
    cases step with
    | warn w given =>
      obtain ⟨later, e, none_left⟩ := ih p
      exact ⟨later, congrArg (w :: ·) e, none_left⟩
    | call path name c =>
      rw [warnings_call]
      cases reply : p.call? path c with
      | none =>
        unfold perform
        rw [reply]
        exact ih p
      | some r =>
        obtain ⟨o, made, rfl⟩ := Option.map_eq_some_iff.1 reply
        have silent := misfits_callAt made
        cases verdict : o.result with
        | error cause =>
          rw [perform_refused name plan reply verdict]
          exact ⟨warnings plan, by rw [silent, List.nil_append], fun done => absurd done (Option.some_ne_none _)⟩
        | ok =>
          obtain ⟨later, e, none_left⟩ := ih ⟨o.block, o.sink⟩
          rw [perform_call name plan reply verdict]
          exact ⟨later, by rw [Event.misfits_append, silent, List.nil_append, e], none_left⟩

/-- Carrying out the steps of a plan ends at a call on the block at `path`, which is refused as `e` says,
behind steps that were all carried out. -/
def RefusedAt (p : Page σ) (plan : List (Action σ)) (path : List String) (e : FillError) : Prop :=
  ∃ front c back r, plan = front ++ .call path e.block c :: back ∧ (p.perform front).failure = none ∧
    (p.perform front).page.call? path c = some r ∧ r.result = .error e.cause

/-- Steps that are not all carried out end at a call that is refused. -/
theorem perform_failed {plan : List (Action σ)} {p : Page σ} {e : FillError}
    (failed : (p.perform plan).failure = some e) : ∃ path, p.RefusedAt plan path e := by
  induction plan generalizing p with
  | nil => cases failed
  | cons step plan ih =>
    cases step with
    | warn w given =>
      obtain ⟨path, front, c, back, r, rfl, done, reply, refused⟩ := ih failed
      exact ⟨path, .warn w given :: front, c, back, r, rfl, done, reply, refused⟩
    | call path name c =>
      cases reply : p.call? path c with
      | none =>
        have passed (rest : List (Action σ)) : p.perform (.call path name c :: rest) = p.perform rest := by
          rw [perform, reply]
        rw [passed] at failed
        obtain ⟨path', front, c', back, r, rfl, done, reply', refused⟩ := ih failed
        refine ⟨path', .call path name c :: front, c', back, r, rfl, ?_, ?_, refused⟩
        · rw [passed, done]
        · rw [passed, reply']
      | some r =>
        cases verdict : r.result with
        | error cause =>
          rw [perform_refused name plan reply verdict] at failed
          cases failed
          exact ⟨path, [], c, plan, r, rfl, rfl, reply, verdict⟩
        | ok =>
          have passed (rest : List (Action σ)) := perform_call name rest reply verdict
          rw [passed] at failed
          obtain ⟨path', front, c', back, r', rfl, done, reply', refused⟩ := ih failed
          refine ⟨path', .call path name c :: front, c', back, r', rfl, ?_, ?_, refused⟩
          · rw [passed]
            exact done
          · rw [passed]
            exact reply'

/-- A filling notes the misfits that its plan warns of, from the first one on. -/
theorem misfits_fill (p : Page σ) (fields : Fields) (s : σ) :
    ∃ later, warnings (p.root.fillPlan fields s) = Event.misfits (p.fill fields s).events ++ later := by
  obtain ⟨later, e, none_left⟩ := misfits_perform (p.root.fillPlan fields s) p
  cases h : (p.perform (p.root.fillPlan fields s)).failure with
  | some cause =>
    rw [fill_of_failed h]
    exact ⟨later, e⟩
  | none =>
    have silent (n : Nat) : Event.misfits [.note (.filled n)] = [] := rfl
    refine ⟨[], ?_⟩
    rw [fill_of_done h, Event.misfits_append, silent, e, none_left h, List.append_nil, List.append_nil]

/-- **Reports name blocks by the labels of their paths.** On every page that is reached, for every data and
every sink: the passes of a filling are over the blocks at their paths; the warnings it gives are those of the
passes, and what it notes before a call is refused is the beginning of them, each under the label of the path;
an error names the label of the path of the block whose call was refused. The label of the root is `root`. For
every other block it is the dotted path, which the listing of the template has for the block, unless the path
begins with a block `root` and goes on: then the label lacks this name. -/
theorem reports_name_blocks {source : String} {file : Nat} {root : Block} {p : Page σ}
    (parsed : Template.parse source file = .ok root) (reached : Reachable root p) (fields : Fields) (s : σ) :
    let passes := p.root.visits [] fields
    (∀ v ∈ passes, p.root.descend? v.path = some v.block ∧ ∀ w ∈ v.warnings, w.block = label v.path) ∧
    (∀ ws, (p.fill fields s).result = .ok ws → ws = passes.flatMap Visit.warnings) ∧
    (∃ later, passes.flatMap Visit.warnings = Event.misfits (p.fill fields s).events ++ later) ∧
    (∀ e, (p.fill fields s).result = .error e → ∃ path d, p.RefusedAt (p.root.fillPlan fields s) path e ∧
      p.root.descend? path = some d ∧ e.block = label path) ∧
    label [] = "root" ∧
    Command.blockPathsAll "" p.root.children = (locatedAll [] p.root.children).map (fun x => dotted x.1) ∧
    (∀ path d, path ≠ [] → (p.root.descend? path = some d ↔ (path, d) ∈ locatedAll [] p.root.children)) ∧
    ∀ path, path ≠ [] → (label path = dotted path ↔ ¬ ∃ next rest, path = "root" :: next :: rest) := by
  intro passes
  have fresh := Template.fresh_of_parse parsed
  have named := (reached.sound fresh).named fresh
  have whole : warnings (p.root.fillPlan fields s) = passes.flatMap Visit.warnings := by
    rw [warnings_fillPlan]
    exact passWarnings_label p.root [] fields
  refine ⟨?_, ?_, ?_, ?_, rfl, blockPathsAll_eq p.root, ?_, fun path => label_eq_dotted_iff⟩
  · intro v hv
    obtain ⟨below, e, target⟩ := descend?_of_mem_visits named hv
    obtain rfl : v.path = below := e
    refine ⟨target, fun w hw => ?_⟩
    obtain ⟨field, -, made⟩ := List.mem_filterMap.1 hw
    obtain ⟨m, -, rfl⟩ := Option.map_eq_some_iff.1 made
    rfl
  · intro ws ok
    rw [warnings_of_fill ok, ← whole, warnings_fillPlan]
  · exact whole ▸ misfits_fill p fields s
  · intro e failed
    obtain ⟨path, refused⟩ := perform_failed (failure_of_fill failed)
    obtain ⟨front, c, back, r, plan, -⟩ := id refused
    have made : .call path e.block c ∈ p.root.fillPlan fields s := by
      rw [plan]
      exact List.mem_append_right _ List.mem_cons_self
    obtain ⟨name, d, target⟩ := label_of_mem_fillPlan named made
    exact ⟨path, d, refused, target, name⟩
  · intro path d nested
    have listed : (path, d) ∈ p.root.located [] ↔ ∃ below, path = [] ++ below ∧ p.root.descend? below = some d :=
      mem_located named
    rw [located_eq, List.mem_cons] at listed
    constructor
    · intro target
      rcases listed.2 ⟨path, rfl, target⟩ with own | deeper
      · cases own
        exact absurd rfl nested
      · exact deeper
    · intro deeper
      obtain ⟨below, rfl, target⟩ := listed.1 (.inr deeper)
      exact target

/-- A second filling: a block below `b` is reported by its dotted path, and so is a refusal. -/
theorem reports_name_blocks_nested :
    ∃ (root : Block) (p : Page Quota) (e : FillError),
      Template.parse "<!--rep blk=b--><!--rep blk=root-->x<!--/rep--><!--/rep-->" 0 = .ok root ∧
      Reachable root p ∧ p.root.states = [.used, .out, .out] ∧
      (p.fill [("b", .once [("root", .once [("z", .int 1)])])] ⟨⟨none, false, 0⟩, #[]⟩).result =
        .ok [⟨"b.root", "z", .unknownField⟩] ∧
      (p.fill [("b", .once [("root", .once [("z", .int 1)])])] ⟨⟨some 0, false, 0⟩, #[]⟩).result = .error e ∧
      e.block = "b.root" ∧ dotted ["b", "root"] = "b.root" ∧
      Command.blockPathsAll "" p.root.children = ["b", "b.root"] ∧
      ∃ path d, p.root.descend? path = some d ∧ e.block = label path := by
  let root : Block := ⟨none, ⟨[]⟩, [[⟨"", none⟩], [⟨"", none⟩]],
    [⟨some "b", ⟨[]⟩, [[⟨"", none⟩], [⟨"", none⟩]],
      [⟨some "root", ⟨[]⟩, [[⟨"x", none⟩]], [], ⟨16, 47⟩, .out⟩], ⟨0, 58⟩, .out⟩], ⟨0, 58⟩, .out⟩
  have parsed : Template.parse "<!--rep blk=b--><!--rep blk=root-->x<!--/rep--><!--/rep-->" 0 = .ok root := by
    with_unfolding_all rfl
  let roomy : Quota := ⟨⟨none, false, 0⟩, #[]⟩
  let full : Quota := ⟨⟨some 0, false, 0⟩, #[]⟩
  let data : Fields := [("b", .once [("root", .once [("z", .int 1)])])]
  let p : Page Quota := ((Page.ofTemplate root).fill [] roomy).page
  have reached : Reachable root p := Reachable.fresh.fill _ _
  have failed : (p.fill data full).result = .error ⟨"b.root", .io .closed⟩ := by decide +kernel
  obtain ⟨-, -, -, refused, -⟩ := reports_name_blocks parsed reached data full
  obtain ⟨path, d, -, target, name⟩ := refused _ failed
  refine ⟨root, p, _, parsed, reached, by decide +kernel, by decide +kernel, failed, rfl, by decide +kernel,
    by decide +kernel, path, d, target, name⟩

/-- A block `root` below the root is missing from the names of what is nested in it: the block which the
listing gives as `root.a` is reported as `a`. -/
theorem report_hides_block_root :
    ∃ (root : Block) (d : Block),
      Template.parse "<!--rep blk=root--><!--rep blk=a-->x<!--/rep--><!--/rep-->" 0 = .ok root ∧
      root.descend? ["root", "a"] = some d ∧
      ((Page.ofTemplate root).fill [("root", .once [("a", .once [("zz", .text "1")])])] Buffer.empty).result =
        .ok [⟨"a", "zz", .unknownField⟩] ∧
      dotted ["root", "a"] = "root.a" ∧
      Command.blockPathsAll "" root.children = ["root", "root.a"] := by
  let root : Block := ⟨none, ⟨[]⟩, [[⟨"", none⟩], [⟨"", none⟩]],
    [⟨some "root", ⟨[]⟩, [[⟨"", none⟩], [⟨"", none⟩]],
      [⟨some "a", ⟨[]⟩, [[⟨"x", none⟩]], [], ⟨19, 47⟩, .out⟩], ⟨0, 58⟩, .out⟩], ⟨0, 58⟩, .out⟩
  have parsed : Template.parse "<!--rep blk=root--><!--rep blk=a-->x<!--/rep--><!--/rep-->" 0 = .ok root := by
    with_unfolding_all rfl
  exact ⟨root, _, parsed, rfl, by decide +kernel, by decide +kernel, by decide +kernel⟩

end Page

end Stencil

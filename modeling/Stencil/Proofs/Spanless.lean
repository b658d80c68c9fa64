import Stencil.Proofs.Misfits
import Stencil.Proofs.Recast

/-!
# Templates without places

Where a template stands in its source is nothing to those who write it. `Block.spanless` forgets all places
of a tree; its calls, plans and fillings are those of the tree itself (`Page.call?_spanless`,
`Page.fill_spanless`), so two templates that differ in places alone answer every request alike
(`Page.responses_congr`).
-/

namespace Stencil

open Block

/-- The variable without the place of its declaration. -/
def Variable.spanless (v : Variable) : Variable := { v with span := ⟨0, 0⟩ }

namespace Variables

/-- The table without the places of the declarations. -/
def spanless (vs : Variables) : Variables := ⟨vs.entries.map Variable.spanless⟩

variable (vs : Variables)

theorem indexOf?_spanless (name : String) : vs.spanless.indexOf? name = vs.indexOf? name := by
  rw [indexOf?, indexOf?, spanless, List.findIdx?_map]
  rfl

theorem declares_spanless (name : String) : vs.spanless.declares name = vs.declares name := by
  rw [declares, declares, indexOf?_spanless]

theorem value_spanless (i : Nat) : vs.spanless.value i = vs.value i := by
  rw [value, value, spanless, List.getElem?_map, Option.map_map]
  rfl

theorem assign?_spanless (name value : String) :
    vs.spanless.assign? name value = (vs.assign? name value).map spanless := by
  rw [assign?, assign?, indexOf?_spanless, Option.map_map]
  refine Option.map_congr fun i _ => ?_
  simp only [Function.comp, spanless, Variables.mk.injEq]
  apply List.ext_getElem?
  intro j
  simp only [List.getElem?_modify, List.getElem?_map]
  cases vs.entries[j]? with
  | none => rfl
  | some v => by_cases e : i = j <;> simp [e, Variable.spanless]

end Variables

/-- The change that forgets all places. -/
def Recast.spanless : Recast := ⟨fun _ => Variables.spanless, fun _ => ⟨0, 0⟩⟩

namespace Block

/-- The tree without the places of its blocks and declarations. -/
def spanless (b : Block) : Block := b.recast .spanless

variable {σ : Type} (b : Block)

theorem recastIn_spanless (c : Block) : recastIn .spanless c = c.spanless := rfl

theorem spanless_eq :
    b.spanless = ⟨b.name, b.vars.spanless, b.gaps, b.children.map spanless, ⟨0, 0⟩, b.state⟩ :=
  recast_eq _ b

@[simp] theorem name_spanless : b.spanless.name = b.name := name_recast _ b

theorem children_spanless : b.spanless.children = b.children.map spanless := children_recast _ b

theorem preorder_spanless : b.spanless.preorder = b.preorder.map spanless :=
  preorder_map children_spanless b

theorem states_spanless : b.spanless.states = b.states := states_recast _ b

theorem values_spanless : b.spanless.values = b.values := by
  rw [values, values, preorder_spanless, List.map_map]
  refine List.map_congr_left fun c _ => ?_
  simp only [Function.comp, spanless, vars_recast, Recast.spanless, Variables.spanless, List.map_map]
  rfl

theorem layOut_spanless (s : Store) : b.spanless.layOut s = b.layOut s := by
  induction b using rowInduction (fun cs => ∀ s, layOutAll s (cs.map spanless) = layOutAll s cs) generalizing s with
  | nest b ih => rw [layOut_eq, layOut_eq, spanless, gaps_recast, ← spanless, children_spanless, ih]
  | nil => rfl
  | cons c cs first others =>
    rw [List.map_cons, layOutAll, layOutAll, first]
    simp only [others]

/-! ## Calls and plans -/

theorem decision_spanless (c : Call σ) : b.spanless.decision c = (b.decision c).map spanless :=
  decision_recast .spanless b c fun name value _ => b.vars.assign?_spanless name value

theorem gapTexts_spanless (k : Nat) : b.spanless.gapTexts k = b.gapTexts k := by
  have value : b.spanless.vars.value = b.vars.value := by
    funext i
    rw [spanless, vars_recast]
    exact b.vars.value_spanless i
  rw [gapTexts, gapTexts, value, gap, gap, spanless, gaps_recast]

theorem fillPlan_spanless (fields : Fields) (s : σ) :
    b.spanless.fillPlan fields s = b.fillPlan fields s := by
  have declared (b : Block) (name : String) : b.spanless.vars.declares name = b.vars.declares name := by
    rw [spanless, vars_recast]
    exact b.vars.declares_spanless name
  rw [fillPlan, fillPlan, passPlan_map name_spanless children_spanless declared]

variable [Sink σ]

theorem writeGap_spanless (k : Nat) (s : σ) : b.spanless.writeGap k s = b.writeGap k s := by
  rw [writeGap, writeGap, gapTexts_spanless, spanless, isRoot_recast, length_children_recast]

end Block

/-- The outcome with the tree without places. -/
def Outcome.spanless {σ : Type} (o : Outcome σ) : Outcome σ := { o with block := o.block.spanless }

variable {σ : Type} [Sink σ]

theorem Decision.carryOut_spanless (d : Decision) (b : Block) (bound : Option σ) (c : Call σ) :
    (d.map spanless).carryOut b.spanless bound c = (d.carryOut b bound c).spanless := by
  cases d with
  | write k after notes =>
    rw [map, carryOut, carryOut]
    cases c.target bound with
    | none => rfl
    | some s =>
      simp only [writeGap_spanless]
      cases (b.writeGap k s).fault <;> rfl
  | _ => rfl

theorem Block.callAt_spanless (b : Block) (bound : Option σ) (c : Call σ) (path : List String) :
    b.spanless.callAt bound c path = (b.callAt bound c path).map Outcome.spanless := by
  induction path generalizing b with
  | nil =>
    rw [callAt, callAt, call_eq_carryOut, call_eq_carryOut, decision_spanless, Decision.carryOut_spanless]
    rfl
  | cons name path ih =>
    cases index : b.childIndex? name with
    | none =>
      have missing : b.spanless.childIndex? name = none := by rw [spanless, childIndex?_recast, index]
      rw [callAt, callAt, index, missing]
      rfl
    | some k =>
      obtain ⟨d, child⟩ := exists_child_of_childIndex? index
      have index' : b.spanless.childIndex? name = some k := by rw [spanless, childIndex?_recast, index]
      have child' : b.spanless.children[k]? = some d.spanless := by
        rw [children_spanless, List.getElem?_map, child, Option.map_some]
      rw [callAt_child index child, callAt_child index' child', ih, Option.map_map, Option.map_map]
      refine Option.map_congr fun o _ => ?_
      have put := recast_put (f := .spanless) (b := b) k o.block
      rw [recastIn_spanless, ← spanless, ← spanless] at put
      simp only [Function.comp, Outcome.spanless, put]

namespace Page

/-- The page with the tree without places. -/
def spanless (p : Page σ) : Page σ := ⟨p.root.spanless, p.sink⟩

/-- A call is answered alike, and leaves the page without places. -/
theorem call?_spanless (p : Page σ) (path : List String) (c : Call σ) :
    p.spanless.call? path c = (p.call? path c).map fun r => { r with page := r.page.spanless } := by
  rw [call?, call?, spanless, callAt_spanless, Option.map_map, Option.map_map]
  rfl

end Page

/-! ## Fillings -/

namespace Page

theorem perform_spanless (p : Page σ) (plan : List (Action σ)) :
    p.spanless.perform plan = { p.perform plan with page := (p.perform plan).page.spanless } := by
  induction plan generalizing p with
  | nil => rfl
  | cons step plan ih =>
    cases step with
    | warn w given =>
      rw [perform, perform, ih]
    | call path label c =>
      have reply' := p.call?_spanless path c
      cases reply : p.call? path c with
      | none =>
        rw [reply] at reply'
        rw [perform, perform, reply, reply']
        exact ih p
      | some r =>
        rw [reply] at reply'
        cases verdict : r.result with
        | error cause => rw [perform_refused label plan reply verdict, perform_refused label plan reply' verdict]
        | ok => rw [perform_call label plan reply verdict, perform_call label plan reply' verdict, ih]

/-- A filling comes to the same, and leaves the page without places. -/
theorem fill_spanless (p : Page σ) (fields : Fields) (s : σ) :
    p.spanless.fill fields s = { p.fill fields s with page := (p.fill fields s).page.spanless } := by
  have plan : p.spanless.root.fillPlan fields s = p.root.fillPlan fields s := p.root.fillPlan_spanless fields s
  rw [fill, fill, plan, perform_spanless]
  cases (p.perform (p.root.fillPlan fields s)).failure <;> rfl

/-! ## Requests -/

/-- What can be asked of a page: a call on the block that a path of names leads to, or a filling. -/
inductive Request (σ : Type) where
  | call (path : List String) (c : Call σ)
  | fill (fields : Fields) (sink : σ)

/-- The verdict on a request. There is none where the path leads nowhere. -/
inductive Verdict where
  | missing
  | called (result : Except RenderError Unit)
  | filled (result : Except FillError (List Warning))

/-- What is seen of a request: the verdict and what happened, and the states, the values and the bound sink
behind it. -/
structure Response (σ : Type) where
  verdict : Verdict
  events : List Event
  states : List State
  values : List (List (String × String))
  sink : Option σ

/-- What is seen, with the page behind it. -/
def respond (verdict : Verdict) (events : List Event) (p : Page σ) : Response σ × Page σ :=
  (⟨verdict, events, p.root.states, p.root.values, p.sink⟩, p)

/-- Serves a request. -/
def serve (p : Page σ) : Request σ → Response σ × Page σ
  | .call path c =>
    match p.call? path c with
    | none => respond .missing [] p
    | some r => respond (.called r.result) r.events r.page
  | .fill fields sink =>
    let done := p.fill fields sink
    respond (.filled done.result) done.events done.page

/-- Serves requests one after the other. -/
def responses (p : Page σ) : List (Request σ) → List (Response σ)
  | [] => []
  | request :: requests => (p.serve request).1 :: (p.serve request).2.responses requests

theorem serve_spanless (p : Page σ) (request : Request σ) :
    (p.spanless.serve request).1 = (p.serve request).1 ∧
      (p.spanless.serve request).2 = (p.serve request).2.spanless := by
  have responded (verdict : Verdict) (events : List Event) (q : Page σ) :
      (respond verdict events q.spanless).1 = (respond verdict events q).1 := by
    simp only [respond, spanless, states_spanless, values_spanless]
  cases request with
  | call path c =>
    rw [serve, serve, call?_spanless]
    cases p.call? path c with
    | none => exact ⟨responded _ _ p, rfl⟩
    | some r => exact ⟨responded _ _ r.page, rfl⟩
  | fill fields s =>
    rw [serve, serve, fill_spanless]
    exact ⟨responded _ _ _, rfl⟩

theorem responses_spanless (p : Page σ) (requests : List (Request σ)) :
    p.spanless.responses requests = p.responses requests := by
  induction requests generalizing p with
  | nil => rfl
  | cons request requests ih =>
    obtain ⟨seen, left⟩ := p.serve_spanless request
    rw [responses, responses, seen, left, ih]

/-- Templates that differ in places alone answer all requests alike. -/
theorem responses_congr {a b : Block} (same : a.spanless = b.spanless) (requests : List (Request σ)) :
    (ofTemplate a).responses requests = (ofTemplate b).responses requests := by
  rw [← responses_spanless (ofTemplate a), ← responses_spanless (ofTemplate b), spanless, spanless, ofTemplate,
    ofTemplate, same]

end Page

end Stencil

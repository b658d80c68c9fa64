import Stencil.Proofs.Passes

/-!
# Writing everything once

The shortest pass that leaves nothing out: every block is entered once, in document order, and the
block around goes on behind it. `Block.once` lists its moves and `Block.onceText` what is written;
over a sink that never fails all its calls succeed (`once_received`).
-/

namespace Stencil

/-- The call of a move. -/
def Letter.request {σ : Type} (l : Letter) : List String × Call σ := (l.1, l.2.call)

namespace Block

mutual

/-- The moves that write each nested block of an entered block once. -/
def once : Block → List Letter
  | ⟨_, _, _, cs, _, _⟩ => onceEach cs

def onceEach : List Block → List Letter
  | [] => []
  | c :: cs => (([], .enter) :: c.once).map (Letter.below (c.name.getD "")) ++ ([], .next) :: onceEach cs

end

/-- The texts of nested blocks from `k` on, with the gap of the block itself behind each. -/
def behind (b : Block) : (k : Nat) → List (List UInt8) → List UInt8
  | _, [] => []
  | k, text :: texts => text ++ b.gapBytes (k + 1) ++ b.behind (k + 1) texts

mutual

/-- What is written when everything in a block is written once. -/
def onceText : Block → List UInt8
  | ⟨name, vs, gaps, cs, span, state⟩ =>
    gapBytes ⟨name, vs, gaps, cs, span, state⟩ 0 ++ behind ⟨name, vs, gaps, cs, span, state⟩ 0 (onceTexts cs)

def onceTexts : List Block → List (List UInt8)
  | [] => []
  | c :: cs => c.onceText :: onceTexts cs

end

theorem once_eq (b : Block) : b.once = onceEach b.children := by
  cases b
  rw [once]

theorem onceText_eq (b : Block) : b.onceText = b.gapBytes 0 ++ b.behind 0 (onceTexts b.children) := by
  cases b
  rw [onceText]

theorem gapBytes_congr {a b : Block} (vars : a.vars = b.vars) (gaps : a.gaps = b.gaps) (k : Nat) :
    a.gapBytes k = b.gapBytes k := by
  rw [gapBytes, gapBytes, gapTexts, gapTexts, gap, gap, vars, gaps]

theorem behind_congr {a b : Block} (vars : a.vars = b.vars) (gaps : a.gaps = b.gaps) (k : Nat)
    (texts : List (List UInt8)) : a.behind k texts = b.behind k texts := by
  induction texts generalizing k with
  | nil => rfl
  | cons text texts ih => rw [behind, behind, gapBytes_congr vars gaps, ih]

/-! ## Granted moves one after the other -/

variable {σ : Type}

/-- Moves that are granted one after the other, and what they write. -/
inductive Runs (σ : Type) : Block → List Letter → List UInt8 → Block → Prop where
  | done {b : Block} : Runs σ b [] [] b
  | move {b b' last d : Block} {path : List String} {m : Move} {w : List Letter} {out : List UInt8}
      (granted : GrantedAt b path (m.call : Call σ) b') (target : b.descend? path = some d)
      (rest : Runs σ b' w out last) :
      Runs σ b ((path, m) :: w) (d.output (m.call : Call σ) ++ out) last

theorem Runs.append {a b c : Block} {v w : List Letter} {out out' : List UInt8} (first : Runs σ a v out b)
    (second : Runs σ b w out' c) : Runs σ a (v ++ w) (out ++ out') c := by
  induction first with
  | done => exact second
  | move granted target _ ih =>
    rw [List.cons_append, List.append_assoc]
    exact .move granted target (ih second)

theorem Runs.pristine {a b : Block} {w : List Letter} {out : List UInt8} (h : Runs σ a w out b) :
    b.pristine = a.pristine := by
  induction h with
  | done => rfl
  | move granted _ _ ih => exact ih.trans granted.pristine

/-- What is granted in a nested block is granted from the block around. -/
theorem Runs.nested {b d d' : Block} {k : Nat} {name : String} {w : List Letter} {out : List UInt8}
    (h : Runs σ d w out d') (index : b.childIndex? name = some k) (child : b.children[k]? = some d) :
    Runs σ b (w.map (Letter.below name)) out (b.modifyChild k fun _ => d') := by
  induction h generalizing b with
  | done =>
    rw [modifyChild_self child]
    exact .done
  | @move d d₁ last e path m w out granted target rest ih =>
    have changed : (b.modifyChild k fun _ => d₁).children[k]? = some d₁ := getElem?_modifyChild child _
    have index₁ : (b.modifyChild k fun _ => d₁).childIndex? name = some k :=
      (childIndex?_modifyChild child (name_eq_of_pristine_eq granted.pristine) name).trans index
    have rest_nested := ih index₁ changed
    rw [modifyChild_twice] at rest_nested
    exact .move (.nested index child granted) (by rw [descend?_child index child, target]) rest_nested

/-! ## Everything once -/

/-- A block that is waited for can be written once with everything in it. -/
def Writable (σ : Type) (c : Block) : Prop :=
  ∃ c', Runs σ { c with state := .ready } (([], .enter) :: c.once) c.onceText c' ∧ c'.state = .used

/-- Behind gap `k`, nested block `k` can be written once and the block can go on behind it. It has
then changed in nested block `k` only. -/
theorem runs_one {b c : Block} {k : Nat} (named : b.WellNamed) (here : b.children[k]? = some c)
    (writable : c.Writable σ) :
    ∃ after : Block, Runs σ (b.moveOn k).1
        ((([], .enter) :: c.once).map (Letter.below (c.name.getD "")) ++ [([], .next)])
        (c.onceText ++ b.gapBytes (k + 1)) (after.moveOn (k + 1)).1 ∧
      after.pristine = b.pristine ∧ after.vars = b.vars ∧ after.gaps = b.gaps ∧
      ∀ j, k < j → after.children[j]? = b.children[j]? := by
  obtain ⟨c', written, used⟩ := writable
  have index : (b.moveOn k).1.childIndex? (c.name.getD "") = some k :=
    (childIndex?_moveOn b k _).trans (named.childIndex? here)
  have first := written.nested index (getElem?_moveOn here)
  -- The nested block is written, and the block goes on behind it.
  let after := b.modifyChild k fun _ => { c' with state := .out }
  have next : GrantedAt _ [] (Move.next.call : Call σ) (after.moveOn (k + 1)).1 :=
    .self (.next_behind here (.inl used))
  have all := Runs.append first (.move next rfl .done)
  have pristine := all.pristine
  rw [Move.call, output_behind here, List.append_nil] at all
  rw [pristine_moveOn, pristine_moveOn] at pristine
  refine ⟨after, all, pristine, rfl, rfl, ?_⟩
  intro j later
  show (b.children.modify k _)[j]? = _
  rw [List.getElem?_modify_ne _ _ (by omega)]

/-- Behind gap `k`, the nested blocks from `k` on can be written once each. -/
theorem runs_each {b : Block} {k : Nat} (named : b.WellNamed)
    (each : ∀ j c, k ≤ j → b.children[j]? = some c → c.Writable σ) :
    ∃ b', Runs σ (b.moveOn k).1 (onceEach (b.children.drop k)) (b.behind k (onceTexts (b.children.drop k))) b' ∧
      b'.state = .used := by
  induction left : b.children.length - k generalizing b k with
  | zero =>
    have beyond : b.children.length ≤ k := by omega
    have used : (b.moveOn k).1.state = .used := by
      rw [moveOn_eq, if_neg (by omega)]
    rw [List.drop_eq_nil_of_le beyond]
    exact ⟨_, .done, used⟩
  | succ n ih =>
    have lt : k < b.children.length := by omega
    have here : b.children[k]? = some b.children[k] := List.getElem?_eq_getElem lt
    obtain ⟨after, one, pristine, vars, gaps, later⟩ := runs_one named here (each k _ (Nat.le_refl k) here)
    have drop_eq : after.children.drop (k + 1) = b.children.drop (k + 1) := by
      apply List.ext_getElem?
      intro j
      rw [List.getElem?_drop, List.getElem?_drop, later _ (by omega)]
    have size : after.children.length = b.children.length := by
      have := congrArg List.length (children_eq_of_pristine_eq pristine)
      rwa [List.length_map, List.length_map] at this
    have others : ∀ j d, k + 1 ≤ j → after.children[j]? = some d → d.Writable σ := fun j d le hd =>
      each j d (by omega) (later j (by omega) ▸ hd)
    obtain ⟨b', rest, used⟩ := ih (wellNamed_of_pristine_eq pristine named) others (by omega)
    rw [drop_eq, behind_congr vars gaps] at rest
    refine ⟨b', ?_, used⟩
    have all := Runs.append one rest
    rw [List.append_assoc] at all
    rw [List.drop_eq_getElem_cons lt, onceEach, onceTexts, behind]
    exact all

/-- Everything in a block that is waited for can be written once. -/
theorem writable {c : Block} (named : c.WellNamed) (nested : c.isRoot = false) : c.Writable σ := by
  induction c using nestInduction with
  | nest c ih =>
    have each : ∀ j d, 0 ≤ j → c.children[j]? = some d → d.Writable σ := by
      intro j d _ hd
      have mem := List.mem_of_getElem? hd
      exact ih d mem (named.child mem) ((named c c.self_mem_preorder).2 d mem)
    obtain ⟨c', rest, used⟩ := runs_each named each
    let ready : Block := { c with state := .ready }
    have moved : (ready.moveOn 0).1 = (c.moveOn 0).1 := by
      rw [moveOn_eq, moveOn_eq]
    have start : GrantedAt ready [] (Move.enter.call : Call σ) (c.moveOn 0).1 :=
      .self (moved ▸ .start nested (.inl rfl))
    have output : ready.output (Move.enter.call : Call σ) = c.gapBytes 0 := gapBytes_congr rfl rfl 0
    rw [List.drop_zero] at rest
    have all := Runs.move start rfl rest
    rw [output] at all
    refine ⟨c', ?_, used⟩
    rw [once_eq, onceText_eq]
    exact all

/-- The calls of a pass that writes everything once to sink `s`. -/
def writeOnce (root : Block) (s : σ) : List (List String × Call σ) :=
  ([], .startWith s) :: root.once.map Letter.request

end Block

namespace Page

open Block

variable {σ : Type} [Sink σ] {fine : σ → Prop} {seen : σ → List UInt8} (steady : Sink.Steady fine seen)

include steady

/-- Moves that can be made one after the other succeed and lead where they should, and what they write
is received. -/
theorem runs_received {p : Page σ} {t : σ} {w : List Letter} {out : List UInt8} {last : Block}
    (runs : Runs σ p.root w out last) (bound : p.sink = some t) (good : fine t) :
    (∀ a ∈ p.attempts (w.map Letter.request), a.succeeded = true) ∧
      (p.afterCalls (w.map Letter.request)).root = last ∧
      ∃ t', (p.afterCalls (w.map Letter.request)).sink = some t' ∧ fine t' ∧ seen t' = seen t ++ out := by
  induction w generalizing p t out with
  | nil =>
    cases runs
    exact ⟨nofun, rfl, t, bound, good, (List.append_nil _).symm⟩
  | cons l w ih =>
    cases runs with
    | @move _ b' _ d path m _ out granted target rest =>
      let a : Attempt σ := ⟨p, path, m.call⟩
      have aim : (m.call : Call σ).target p.sink = some t := by cases m <;> exact bound
      obtain ⟨ok, root_eq, t₁, bound₁, good₁, seen₁⟩ := a.of_granted steady granted aim good
      have block : a.block = d := by rw [Attempt.block, target]; rfl
      rw [← root_eq] at rest
      obtain ⟨others, root_eq', t', bound', good', seen'⟩ := ih rest bound₁ good₁
      refine ⟨?_, root_eq', t', bound', good', ?_⟩
      · intro x hx
        rcases List.mem_cons.1 hx with rfl | hx
        · exact ok
        · exact others x hx
      · rw [seen', seen₁, block, List.append_assoc]

/-- A template that was read can be written once with everything in it. -/
theorem once_received {root : Block} {s : σ} (fresh : Template.Fresh root) (good : fine s) :
    (∀ a ∈ (Page.ofTemplate root).attempts (root.writeOnce s), a.succeeded = true) ∧
      ∃ t, ((Page.ofTemplate root).afterCalls (root.writeOnce s)).sink = some t ∧
        seen t = seen s ++ root.onceText := by
  have dormant : root.Dormant := fresh.pristine ▸ root.pristine_dormant
  have isRoot : root.isRoot = true := by rw [isRoot, fresh.unnamed]; rfl
  let first : Attempt σ := ⟨.ofTemplate root, [], .startWith s⟩
  have granted : GrantedAt first.before.root first.path first.call (root.moveOn 0).1 := by
    have start := Granted.startWith s isRoot
    rw [dormant.state] at start
    exact .self start
  obtain ⟨ok, root_eq, t₁, bound₁, good₁, seen₁⟩ := first.of_granted steady granted rfl good
  obtain ⟨last, runs, -⟩ := runs_each (σ := σ) (k := 0) fresh.named fun j c _ hc => by
    have mem := List.mem_of_getElem? hc
    exact writable (fresh.named.child mem) ((fresh.named root root.self_mem_preorder).2 c mem)
  rw [← root_eq, List.drop_zero, ← once_eq] at runs
  obtain ⟨others, -, t, bound, -, seen_t⟩ := runs_received steady runs bound₁ good₁
  refine ⟨?_, t, bound, ?_⟩
  · intro x hx
    rcases List.mem_cons.1 hx with rfl | hx
    · exact ok
    · exact others x hx
  · rw [seen_t, seen₁, onceText_eq, List.append_assoc]
    rfl

end Page

end Stencil

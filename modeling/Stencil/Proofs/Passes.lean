import Stencil.Proofs.Language
import Stencil.Proofs.Ledger
import Stencil.Proofs.Reachable

/-!
# Passes

Calls are made on a page in any order, and some succeed. The ones that succeed from the beginning
of a pass on spell a word of the root's language, as far as they go, and every word of it can be
spelled from every page that is reached; the sink of the pass receives the gaps of the blocks that
were entered, with the values they were entered with (`passes_spell_words`).
-/

namespace Stencil

open Block

variable {σ : Type} [Sink σ]

namespace Page

/-! ## Attempts -/

/-- A call made on a page, whatever the answer. -/
structure Attempt (σ : Type) where
  before : Page σ
  path : List String
  call : Call σ

namespace Attempt

def reply? (a : Attempt σ) : Option (Reply σ) := a.before.call? a.path a.call

/-- The page behind the call. Where the path leads nowhere there is no block to call. -/
def after (a : Attempt σ) : Page σ := (a.reply?.map (·.page)).getD a.before

def succeeded (a : Attempt σ) : Bool := a.reply?.any (·.result.isOk)

/-- Whether a pass was begun. -/
def begins (a : Attempt σ) : Bool :=
  match a.call with
  | .startWith _ => a.succeeded
  | _ => false

/-- The move that was made, if the call is one of those that move and it succeeded. -/
def move? (a : Attempt σ) : Option Letter :=
  if a.succeeded then
    match a.call with
    | .startWith _ | .start => some (a.path, .enter)
    | .skip => some (a.path, .skip)
    | .next => some (a.path, .next)
    | .finish | .set .. => none
  else none

/-- The block the call was made on, as it was in front of the call. -/
def block (a : Attempt σ) : Block := (a.before.root.descend? a.path).getD a.before.root

/-- What the sink receives: gap 0 of a block that is entered, with the values it has now; the next
gap of a block that goes on, with the values it was entered with. -/
def bytes (l : Ledger) (a : Attempt σ) : List UInt8 :=
  match a.move? with
  | some (_, .enter) => a.block.gapBytes 0
  | some (path, .next) => (l path).1.gapBytes ((l path).2 + 1)
  | _ => []

/-- The ledger with what was entered or went on. -/
def record (l : Ledger) (a : Attempt σ) : Ledger :=
  match a.move? with
  | some (path, .enter) => l.enter path a.block
  | some (path, .next) => l.goOn path
  | _ => l

end Attempt

/-- Calls made one after the other. -/
def attempts (p : Page σ) : List (List String × Call σ) → List (Attempt σ)
  | [] => []
  | (path, c) :: calls => ⟨p, path, c⟩ :: (Attempt.after ⟨p, path, c⟩).attempts calls

/-- The page behind them. -/
def afterCalls (p : Page σ) : List (List String × Call σ) → Page σ
  | [] => p
  | (path, c) :: calls => (Attempt.after ⟨p, path, c⟩).afterCalls calls

/-- The moves that were made. -/
def moves (log : List (Attempt σ)) : List Letter := log.filterMap (·.move?)

/-- The bytes of some calls in the order of the calls. -/
def transcript (l : Ledger) : List (Attempt σ) → List UInt8
  | [] => []
  | a :: log => a.bytes l ++ transcript (a.record l) log

/-- The call that makes a move: the root is entered with a sink. -/
inductive Makes (fine : σ → Prop) : Letter → Call σ → Prop where
  | begin_ {s : σ} (good : fine s) : Makes fine ([], .enter) (.startWith s)
  | move {path : List String} {m : Move} (nested : m = .enter → path ≠ []) : Makes fine (path, m) m.call

/-- The calls of a word in their order, with others in between that make no move: they fail, they
check, or they assign a variable. -/
inductive Woven (fine : σ → Prop) : List Letter → List (Attempt σ) → Prop where
  | done : Woven fine [] []
  | call {l : Letter} {w : List Letter} {a : Attempt σ} {log : List (Attempt σ)} (path : a.path = l.1)
      (makes : Makes fine l a.call) (rest : Woven fine w log) : Woven fine (l :: w) (a :: log)
  | between {w : List Letter} {a : Attempt σ} {log : List (Attempt σ)} (no_move : a.move? = none)
      (rest : Woven fine w log) : Woven fine w (a :: log)

/-! ## One attempt -/

namespace Attempt

variable {root : Block} {a : Attempt σ}

theorem reachable (h : Reachable root a.before) : Reachable root a.after := by
  rw [after]
  cases hr : a.reply? with
  | none => exact h
  | some r => exact h.call hr

theorem sound (h : Sound root a.before) (fresh : Template.Fresh root) : Sound root a.after := by
  rw [after]
  cases hr : a.reply? with
  | none => exact h
  | some r => exact h.call fresh hr

theorem after_eq {r : Reply σ} (hr : a.reply? = some r) : a.after = r.page := by
  rw [after, hr]
  rfl

theorem succeeded_eq {r : Reply σ} (hr : a.reply? = some r) : a.succeeded = r.result.isOk := by
  rw [succeeded, hr]
  rfl

/-- A call that makes no move begins no pass. -/
theorem begins_of_move_none (no_move : a.move? = none) : a.begins = false := by
  cases hb : a.begins with
  | false => rfl
  | true =>
    obtain ⟨p, path, c⟩ := a
    cases c with
    | startWith s =>
      have ok : Attempt.succeeded ⟨p, path, .startWith s⟩ = true := hb
      rw [move?, if_pos ok] at no_move
      cases no_move
    | _ => cases hb

/-- A call that succeeds was granted; one that does not leaves the tree. -/
theorem granted_or_same (a : Attempt σ) :
    (a.succeeded = true ∧ GrantedAt a.before.root a.path a.call a.after.root) ∨
      a.succeeded = false ∧ a.after.root = a.before.root := by
  cases hr : a.reply? with
  | none => exact .inr ⟨by rw [succeeded, hr]; rfl, by rw [after, hr]; rfl⟩
  | some r =>
    obtain ⟨d, answer⟩ := answerAt hr
    have page : a.after = r.page := after_eq hr
    cases ok : r.result with
    | ok u => exact .inl ⟨by rw [succeeded_eq hr, ok]; rfl, page ▸ answer.granted ok⟩
    | error e => exact .inr ⟨by rw [succeeded_eq hr, ok]; rfl, page ▸ answer.refused e ok⟩

/-- No attempt takes the root out of the pass. -/
theorem reached (h : Sound root a.before) (fresh : Template.Fresh root)
    (reached : a.before.root.state ≠ .out) : a.after.root.state ≠ .out := by
  rcases a.granted_or_same with ⟨-, granted⟩ | ⟨-, same⟩
  · exact (granted.chained (h.named fresh) h.chained).2 reached
  · rwa [same]

/-- A granted move writes what the ledger says, and the ledger stays right. -/
theorem tells_move {m : Move} {l : Ledger} (h : Sound root a.before) (fresh : Template.Fresh root)
    (move : a.move? = some (a.path, m))
    (granted : GrantedAt a.before.root a.path (m.call : Call σ) a.after.root) (tells : l.Tells a.before.root) :
    a.block.output (m.call : Call σ) = a.bytes l ∧ (a.record l).Tells a.after.root := by
  have named := h.named fresh
  obtain ⟨d, target⟩ := granted.exists_target
  have block : a.block = d := by rw [Attempt.block, target]; rfl
  rw [record, bytes, move, block]
  cases m with
  | enter => exact ⟨rfl, tells.start granted named h.chained target⟩
  | skip =>
    refine ⟨rfl, tells.keep granted named h.chained ?_⟩
    intro _ _ grant
    cases grant
    rfl
  | next =>
    obtain ⟨d', grant⟩ := granted.at_target target
    cases grant with
    | @next _ k here child done =>
      obtain ⟨-, -, count⟩ := tells a.path d k target here
      have output : d.output (Move.next.call : Call σ) = d.gapBytes (k + 1) := by
        simp [Block.output, gapOf?, Move.call, here]
      refine ⟨?_, tells.next granted named h.chained⟩
      rw [output, ← tells.gapBytes target here, ← count]

/-- A call that assigns or checks changes nothing the ledger tells. -/
theorem tells_other {l : Ledger} (h : Sound root a.before) (fresh : Template.Fresh root)
    (other : a.call = .finish ∨ ∃ name value, a.call = .set name value)
    (granted : GrantedAt a.before.root a.path a.call a.after.root) (tells : l.Tells a.before.root) :
    l.Tells a.after.root := by
  refine tells.keep granted (h.named fresh) h.chained ?_
  intro x x' grant
  rcases other with e | ⟨name, value, e⟩
  · rw [e] at grant
    cases grant with
    | finish _ used => rw [used]; rfl
  · rw [e] at grant
    cases grant with
    | set _ _ idle => exact idle

section Steady

variable {fine : σ → Prop} {seen : σ → List UInt8} (steady : Sink.Steady fine seen) {t : σ}

include steady

/-- Over sinks that never fail, what is granted succeeds and is received. -/
theorem of_granted {b' : Block} (can : GrantedAt a.before.root a.path a.call b')
    (target : a.call.target a.before.sink = some t) (good : fine t) :
    a.succeeded = true ∧ a.after.root = b' ∧
      ∃ t', a.after.sink = some t' ∧ fine t' ∧ seen t' = seen t ++ a.block.output a.call := by
  obtain ⟨d, hd⟩ := can.exists_target
  obtain ⟨r, reply, ok, root_eq, received⟩ := call_of_granted steady can hd target good
  have block : a.block = d := by rw [Attempt.block, hd]; rfl
  have after : a.after = r.page := after_eq reply
  refine ⟨?_, ?_, ?_⟩
  · rw [succeeded_eq reply, ok]
    rfl
  · rw [after, root_eq]
  · rw [after, block]
    exact received

/-- A call that fails leaves the sink of the pass. -/
theorem sink_of_failed (failed : a.succeeded = false) (bound : a.before.sink = some t) (good : fine t) :
    a.after.sink = some t := by
  rw [after]
  cases hr : a.reply? with
  | none => exact bound
  | some r =>
    obtain ⟨d, answer⟩ := answerAt hr
    obtain ⟨_, own⟩ := answer.answer
    cases ok : r.result with
    | ok u =>
      rw [succeeded_eq hr, ok] at failed
      cases failed
    | error e =>
      have kept := own.sink_eq steady ok fun s hs => by
        rw [bound] at hs
        cases hs
        exact good
      exact kept.trans bound

/-- What becomes of a call in the course of a pass: a move is made and its gap received, or
nothing that counts for the pass. -/
theorem course (bound : a.before.sink = some t) (good : fine t) (other : a.begins = false) :
    ∃ t', a.after.sink = some t' ∧ fine t' ∧
      ((∃ m, a.move? = some (a.path, m) ∧ a.call = m.call ∧
          GrantedAt a.before.root a.path a.call a.after.root ∧ seen t' = seen t ++ a.block.output a.call) ∨
        (a.move? = none ∧ seen t' = seen t ∧
          (a.after.root = a.before.root ∨ (a.call = .finish ∨ ∃ name value, a.call = .set name value) ∧
            GrantedAt a.before.root a.path a.call a.after.root))) := by
  rcases a.granted_or_same with ⟨ok, granted⟩ | ⟨failed, same⟩
  · have aim : a.call.target a.before.sink = some t := by
      cases hc : a.call with
      | startWith s => simp [begins, hc, ok] at other
      | _ => exact bound
    obtain ⟨-, -, t', sink, good', received⟩ := of_granted steady granted aim good
    refine ⟨t', sink, good', ?_⟩
    cases hc : a.call with
    | startWith s => simp [begins, hc, ok] at other
    | start => exact .inl ⟨.enter, by simp [move?, ok, hc], rfl, hc ▸ granted, hc ▸ received⟩
    | skip => exact .inl ⟨.skip, by simp [move?, ok, hc], rfl, hc ▸ granted, hc ▸ received⟩
    | next => exact .inl ⟨.next, by simp [move?, ok, hc], rfl, hc ▸ granted, hc ▸ received⟩
    | finish =>
      refine .inr ⟨by simp [move?, hc], ?_, .inr ⟨.inl rfl, hc ▸ granted⟩⟩
      rw [received, hc]
      exact List.append_nil _
    | set name value =>
      refine .inr ⟨by simp [move?, hc], ?_, .inr ⟨.inr ⟨name, value, rfl⟩, hc ▸ granted⟩⟩
      rw [received, hc]
      exact List.append_nil _
  · exact ⟨t, sink_of_failed steady failed bound good, good, .inr ⟨by simp [move?, failed], rfl, .inl same⟩⟩

/-- The move of a call, if it makes one, is the next letter of the pass. -/
theorem spells (h : Sound root a.before) (fresh : Template.Fresh root) (bound : a.before.sink = some t)
    (good : fine t) (other : a.begins = false) (w : List Letter) :
    a.move?.toList ++ w ∈ a.before.root.rest ↔ w ∈ a.after.root.rest := by
  obtain ⟨_, -, -, course⟩ := course steady bound good other
  rcases course with ⟨m, move, made, granted, -⟩ | ⟨none_, -, same | ⟨other, granted⟩⟩
  · rw [move]
    refine (cons_mem_rest (σ := σ) (h.isRoot fresh) (h.named fresh) h.chained a.path m w).trans ?_
    rw [made] at granted
    constructor
    · rintro ⟨b', granted', hw⟩
      rwa [granted.unique granted']
    · exact fun hw => ⟨_, granted, hw⟩
  · rw [none_, same]
    exact Iff.rfl
  · rw [none_, (granted.rest_eq other).1]
    exact Iff.rfl

/-- What is received is what the ledger says, and the ledger stays right. -/
theorem receives (h : Sound root a.before) (fresh : Template.Fresh root) (bound : a.before.sink = some t)
    (good : fine t) (other : a.begins = false) :
    ∃ t', a.after.sink = some t' ∧ fine t' ∧ ∀ l : Ledger, l.Tells a.before.root →
      seen t' = seen t ++ a.bytes l ∧ (a.record l).Tells a.after.root := by
  obtain ⟨t', sink, good', course⟩ := course steady bound good other
  refine ⟨t', sink, good', ?_⟩
  intro l tells
  rcases course with ⟨m, move, made, granted, received⟩ | ⟨none_, quiet, same⟩
  · rw [made] at granted received
    obtain ⟨output, tells'⟩ := a.tells_move h fresh move granted tells
    exact ⟨output ▸ received, tells'⟩
  · have no_bytes : a.bytes l = [] := by rw [bytes, none_]
    have no_entry : a.record l = l := by rw [record, none_]
    refine ⟨by rw [quiet, no_bytes, List.append_nil], ?_⟩
    rw [no_entry]
    rcases same with same | ⟨other, granted⟩
    · rwa [same]
    · exact tells_other h fresh other granted tells

end Steady

end Attempt

/-! ## A pass -/

theorem Reachable.afterCalls {root : Block} {p : Page σ} (h : Reachable root p)
    (calls : List (List String × Call σ)) : Reachable root (p.afterCalls calls) := by
  induction calls generalizing p with
  | nil => exact h
  | cons q calls ih =>
    obtain ⟨path, c⟩ := q
    have first : Reachable root (Attempt.mk p path c).before := h
    exact ih (Attempt.reachable first)

/-- A page in the course of a pass: it is bound to a sink that does not fail. -/
structure InPass (fine : σ → Prop) (root : Block) (p : Page σ) (t : σ) : Prop where
  sound : Sound root p
  bound : p.sink = some t
  good : fine t

section Steady

variable {fine : σ → Prop} {seen : σ → List UInt8} {root : Block} {p : Page σ} {s t : σ}
variable {calls : List (List String × Call σ)}

theorem moves_cons (a : Attempt σ) (log : List (Attempt σ)) :
    moves (a :: log) = a.move?.toList ++ moves log := by
  rw [moves, moves, List.filterMap_cons]
  cases a.move? <;> rfl

/-- The calls of a pass keep the root within it. -/
theorem afterCalls_reached (h : Sound root p) (fresh : Template.Fresh root)
    (reached : p.root.state ≠ .out) : (p.afterCalls calls).root.state ≠ .out := by
  induction calls generalizing p with
  | nil => exact reached
  | cons q calls ih =>
    obtain ⟨path, c⟩ := q
    have first : Sound root (Attempt.mk p path c).before := h
    exact ih (Attempt.sound first fresh) (Attempt.reached first fresh reached)

variable (steady : Sink.Steady fine seen)

include steady

/-- As long as no other pass is begun, the moves of the calls lead from what is left of the pass in
front of them to what is left behind them, and the sink receives their transcript. -/
theorem pass_course (h : InPass fine root p t) (fresh : Template.Fresh root)
    (others : ∀ a ∈ p.attempts calls, a.begins = false) :
    (∀ w, moves (p.attempts calls) ++ w ∈ p.root.rest ↔ w ∈ (p.afterCalls calls).root.rest) ∧
    ∃ t', InPass fine root (p.afterCalls calls) t' ∧
      ∀ l : Ledger, l.Tells p.root → seen t' = seen t ++ transcript l (p.attempts calls) := by
  induction calls generalizing p t with
  | nil => exact ⟨fun _ => Iff.rfl, t, h, fun _ _ => (List.append_nil _).symm⟩
  | cons q calls ih =>
    obtain ⟨path, c⟩ := q
    let a : Attempt σ := ⟨p, path, c⟩
    have other : a.begins = false := others a List.mem_cons_self
    obtain ⟨t₁, bound₁, good₁, received₁⟩ := a.receives steady h.sound fresh h.bound h.good other
    have after : InPass fine root a.after t₁ := ⟨Attempt.sound h.sound fresh, bound₁, good₁⟩
    obtain ⟨spelled, t', last, received⟩ := ih after fun b hb => others b (List.mem_cons_of_mem _ hb)
    refine ⟨fun w => ?_, t', last, fun l tells => ?_⟩
    · have first := a.spells steady h.sound fresh h.bound h.good other (moves (a.after.attempts calls) ++ w)
      rw [attempts, moves_cons, List.append_assoc]
      exact first.trans (spelled w)
    · obtain ⟨seen₁, tells₁⟩ := received₁ l tells
      rw [attempts, transcript, received _ tells₁, seen₁, List.append_assoc]

/-- The calls of a word that completes the pass succeed, whatever fails in between. -/
theorem InPass.moves_eq {w : List Letter} (h : InPass fine root p t) (fresh : Template.Fresh root)
    (woven : Woven fine w (p.attempts calls)) (hw : w ∈ p.root.rest) : moves (p.attempts calls) = w := by
  induction calls generalizing p t w with
  | nil =>
    cases woven
    rfl
  | cons q calls ih =>
    obtain ⟨path, c⟩ := q
    let a : Attempt σ := ⟨p, path, c⟩
    -- A step that begins no pass keeps what has to be known for the rest of the calls.
    have go_on (other : a.begins = false) {w' : List Letter} (rest : Woven fine w' (a.after.attempts calls))
        (left : w' ∈ a.after.root.rest) : moves (a.after.attempts calls) = w' := by
      obtain ⟨t₁, bound₁, good₁, -⟩ := a.receives steady h.sound fresh h.bound h.good other
      exact ih ⟨Attempt.sound h.sound fresh, bound₁, good₁⟩ rest left
    rw [attempts, moves_cons]
    cases woven with
    | @call l w' _ _ path_eq makes rest =>
      obtain ⟨path', m⟩ := l
      cases path_eq
      obtain ⟨b', granted, left⟩ :=
        (cons_mem_rest (σ := σ) (h.sound.isRoot fresh) (h.sound.named fresh) h.sound.chained path m w').1 hw
      have made : c = m.call := by
        cases makes with
        | begin_ =>
          obtain ⟨_, _, e, -⟩ := self_mem_rest.1 hw
          cases e
        | move => rfl
      subst made
      have aim : (m.call : Call σ).target p.sink = some t := by cases m <;> exact h.bound
      obtain ⟨ok, root_eq, -⟩ := Attempt.of_granted (a := a) steady granted aim h.good
      have move : a.move? = some (path, m) := by
        rw [Attempt.move?, if_pos ok]
        cases m <;> rfl
      have other : a.begins = false := by cases m <;> rfl
      rw [move, go_on other rest (root_eq ▸ left)]
      rfl
    | between no_move rest =>
      have other : a.begins = false := Attempt.begins_of_move_none no_move
      have left := (a.spells steady h.sound fresh h.bound h.good other w).1 (by rw [no_move]; exact hw)
      rw [no_move, go_on other rest left]
      rfl

/-- A pass can be begun on every page that is reached, and then the nested blocks are left. -/
theorem begin_pass (h : Sound root p) (fresh : Template.Fresh root) (good : fine s) :
    (Attempt.mk p [] (.startWith s)).succeeded = true ∧
    (Attempt.mk p [] (.startWith s)).after.root.rest = row root.children ∧
    (Attempt.mk p [] (.startWith s)).after.root.state ≠ .out ∧
    ∃ t, InPass fine root (Attempt.mk p [] (.startWith s)).after t ∧ ∀ l : Ledger,
      seen t = seen s ++ (Attempt.mk p [] (.startWith s)).bytes l ∧
      ((Attempt.mk p [] (.startWith s)).record l).Tells (Attempt.mk p [] (.startWith s)).after.root := by
  generalize ha : Attempt.mk p [] (.startWith s) = a
  have granted := Granted.startWith s (h.isRoot fresh)
  have at_root : GrantedAt a.before.root a.path a.call
      ((if p.root.state.isActive then p.root.reset else p.root).moveOn 0).1 := by
    rw [← ha]; exact .self granted
  have aim : a.call.target a.before.sink = some s := by rw [← ha]; rfl
  obtain ⟨ok, root_eq, t, bound, good', received⟩ := Attempt.of_granted steady at_root aim good
  have block : a.block = p.root := by rw [← ha]; rfl
  have move : a.move? = some ([], .enter) := by
    rw [Attempt.move?, if_pos ok, ← ha]
  have sound : Sound root a.after := Attempt.sound (by rw [← ha]; exact h) fresh
  refine ⟨ok, ?_, ?_, t, ⟨sound, bound, good'⟩, fun l => ⟨?_, ?_⟩⟩
  · rw [root_eq, rest_moveOn, List.drop_zero]
    apply row_congr
    have same : (if p.root.state.isActive then p.root.reset else p.root).pristine = root.pristine := by
      rw [fresh.pristine, ← h.pristine]
      split
      · exact pristine_reset _
      · rfl
    exact children_eq_of_pristine_eq same
  · rw [root_eq]
    rcases state_moveOn (if p.root.state.isActive then p.root.reset else p.root) 0 with e | e <;> simp [e]
  · rw [received, Attempt.bytes, move, block, ← ha]
    rfl
  · rw [Attempt.record, move, block, root_eq]
    exact Ledger.tells_of_startWith granted h.chained

/-- A word of the language is spelled from every page that is reached. -/
theorem Sound.moves_eq {w : List Letter} (h : Sound root p) (fresh : Template.Fresh root)
    (woven : Woven fine w (p.attempts calls)) (hw : w ∈ root.lang) : moves (p.attempts calls) = w := by
  induction calls generalizing p with
  | nil =>
    cases woven
    rfl
  | cons q calls ih =>
    obtain ⟨path, c⟩ := q
    rw [attempts, moves_cons]
    cases woven with
    | @call l w' _ _ path_eq makes rest =>
      obtain ⟨rfl, left⟩ := cons_mem_lang.1 hw
      cases path_eq
      cases makes with
      | move nested => exact absurd rfl (nested rfl)
      | @begin_ s good =>
        obtain ⟨ok, rest_eq, -, t, pass, -⟩ := begin_pass steady h fresh good
        have move : (Attempt.mk p [] (.startWith s)).move? = some ([], .enter) := by
          rw [Attempt.move?, if_pos ok]
        rw [move, pass.moves_eq steady fresh rest (rest_eq ▸ left)]
        rfl
    | between no_move rest =>
      have after : Sound root (Attempt.mk p path c).after := Attempt.sound h fresh
      rw [no_move, ih after rest]
      rfl

end Steady

/-- **Passes spell the words of the root's language.** From the call that begins a pass to the next
one that does, the calls that succeed spell a word of the language as far as they go, a whole one
exactly when the root is used, and the sink of the pass has received their transcript. Conversely,
every word of the language can be spelled from every page that is reached: its calls all succeed,
whatever is assigned, checked or refused in between. -/
theorem passes_spell_words {fine : σ → Prop} {seen : σ → List UInt8} (steady : Sink.Steady fine seen)
    {source : String} {file : Nat} {root : Block} {p : Page σ}
    (parsed : Template.parse source file = .ok root) (reached : Reachable root p) :
    (∀ (s : σ) (calls : List (List String × Call σ)),
      let first : Attempt σ := ⟨p, [], .startWith s⟩
      let later := first.after.attempts calls
      let last := first.after.afterCalls calls
      fine s → first.succeeded = true → (∀ a ∈ later, a.begins = false) →
      (∃ w, moves (first :: later) ++ w ∈ root.lang) ∧
      (moves (first :: later) ∈ root.lang ↔ last.root.state = .used) ∧
      ∃ t, last.sink = some t ∧ ∀ l, seen t = seen s ++ transcript l (first :: later)) ∧
    (∀ w ∈ root.lang, ∀ calls, Woven fine w (p.attempts calls) → moves (p.attempts calls) = w) := by
  have fresh := Template.fresh_of_parse parsed
  have sound := reached.sound fresh
  constructor
  · intro s calls first later last good ok others
    obtain ⟨-, rest_eq, started, t, pass, received⟩ := begin_pass steady sound fresh good
    obtain ⟨spelled, t', pass', received'⟩ := pass_course steady pass fresh others
    have move : first.move? = some ([], .enter) := by rw [Attempt.move?, if_pos ok]
    -- A word goes on behind the moves made so far exactly when it completes what is left.
    have goes_on (w : List Letter) : moves (first :: later) ++ w ∈ root.lang ↔ w ∈ last.root.rest := by
      rw [moves_cons, move]
      apply cons_mem_lang.trans
      rw [← spelled, rest_eq]
      exact and_iff_right rfl
    have reached_last : last.root.state ≠ .out := afterCalls_reached pass.sound fresh started
    have going := pass'.sound.top_states.resolve_left reached_last
    refine ⟨?_, ?_, t', pass'.bound, fun l => ?_⟩
    · obtain ⟨w, hw⟩ := pass'.sound.chained.exists_mem_rest going
      exact ⟨w, (goes_on w).2 hw⟩
    · have whole := goes_on []
      rw [List.append_nil] at whole
      exact whole.trans nil_mem_rest
    · obtain ⟨seen_t, tells⟩ := received l
      rw [transcript, received' _ tells, seen_t, List.append_assoc]
  · intro w hw calls woven
    exact sound.moves_eq steady fresh woven hw

/-- A second pass begun in the middle of a first one: the root cannot go on before its nested block
is written, and its variable cannot be assigned while it is being written. -/
theorem passes_spell_words_restart :
    ∃ (root : Block) (p : Page Buffer),
      Template.parse "<!--rep var=x place=X-->X<!--rep blk=b-->y<!--/rep-->X" 0 = .ok root ∧
      Reachable root p ∧ p.root.states = [.active 0, .ready] ∧
      [([], .enter), (["b"], .enter), ([], .next)] ∈ root.lang ∧
      moves (p.attempts [([], .startWith Buffer.empty), ([], .next), (["b"], .start), ([], .set "x" "v"),
        ([], .next)]) = [([], .enter), (["b"], .enter), ([], .next)] := by
  let root : Block := ⟨none, ⟨[⟨"x", "X", "X", ⟨0, 24⟩⟩]⟩,
    [[⟨"", none⟩, ⟨"", some 0⟩, ⟨"", none⟩], [⟨"", some 0⟩, ⟨"", none⟩]],
    [⟨some "b", ⟨[]⟩, [[⟨"y", none⟩]], [], ⟨25, 53⟩, .out⟩], ⟨0, 54⟩, .out⟩
  let p : Page Buffer := (Page.ofTemplate root).afterCalls [([], .startWith Buffer.empty)]
  have parsed : Template.parse "<!--rep var=x place=X-->X<!--rep blk=b-->y<!--/rep-->X" 0 = .ok root := by
    with_unfolding_all rfl
  have reached : Reachable root p := Reachable.fresh.afterCalls _
  obtain ⟨spelled, spells⟩ := passes_spell_words Buffer.steady parsed reached
  let first : Attempt Buffer := ⟨p, [], .startWith Buffer.empty⟩
  let later := first.after.attempts [(["b"], .start), ([], .next)]
  have letters : moves (first :: later) = [([], .enter), (["b"], .enter), ([], .next)] := by
    decide +kernel
  have word : moves (first :: later) ∈ root.lang := by
    have plain := spelled Buffer.empty [(["b"], .start), ([], .next)] trivial (by decide +kernel) (by decide +kernel)
    exact plain.2.1.2 (by decide +kernel)
  rw [letters] at word
  refine ⟨root, p, parsed, reached, by decide +kernel, word, spells _ word _ ?_⟩
  exact .call rfl (.begin_ trivial) (.between (by decide +kernel)
    (.call rfl (.move nofun) (.between (by decide +kernel) (.call rfl (.move nofun) .done))))

end Page

end Stencil

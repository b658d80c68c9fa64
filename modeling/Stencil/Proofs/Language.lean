import Mathlib.Computability.Language
import Stencil.Proofs.Chain

/-!
# The language of a block

The words over the moves on a block that write it once: it is entered, and each nested block is
skipped or written one or more times before the block goes on behind it. `Block.lang` is this
language, `Block.rest` what may still come in the middle of a pass, and a letter can begin the
rest exactly when its call is granted (`cons_mem_rest`).
-/

namespace Stencil

open scoped Computability

/-! ## Words that begin with a given letter -/

section Words

variable {α : Type} {l m : Language α} {a : α} {w : List α}

theorem nil_mem_mul : [] ∈ l * m ↔ [] ∈ l ∧ [] ∈ m := by
  rw [Language.mem_mul]
  constructor
  · rintro ⟨u, hu, v, hv, e⟩
    obtain ⟨rfl, rfl⟩ := List.append_eq_nil_iff.1 e
    exact ⟨hu, hv⟩
  · rintro ⟨hl, hm⟩
    exact ⟨[], hl, [], hm, rfl⟩

theorem cons_mem_mul (nonempty : [] ∉ l) :
    a :: w ∈ l * m ↔ ∃ u v, a :: u ∈ l ∧ v ∈ m ∧ u ++ v = w := by
  rw [Language.mem_mul]
  constructor
  · rintro ⟨u, hu, v, hv, e⟩
    cases u with
    | nil => exact absurd hu nonempty
    | cons b u =>
      cases e
      exact ⟨u, v, hu, hv, rfl⟩
  · rintro ⟨u, v, hu, hv, rfl⟩
    exact ⟨a :: u, hu, v, hv, rfl⟩

/-- A language of one letter in front of another language. -/
theorem cons_mem_letter_mul {b : α} : a :: w ∈ ({[b]} : Language α) * m ↔ a = b ∧ w ∈ m := by
  have nonempty : [] ∉ ({[b]} : Language α) := fun h => by cases h
  rw [cons_mem_mul nonempty]
  constructor
  · rintro ⟨u, v, hu, hv, rfl⟩
    cases hu
    exact ⟨rfl, hv⟩
  · rintro ⟨rfl, hw⟩
    exact ⟨[], w, rfl, hw, rfl⟩

theorem nil_notMem_letter_mul {b : α} : [] ∉ ({[b]} : Language α) * m := by
  rw [nil_mem_mul]
  rintro ⟨h, -⟩
  cases h

/-- A repetition begins with one round and goes on with a repetition. -/
theorem cons_mem_kstar : a :: w ∈ l∗ ↔ a :: w ∈ l * l∗ := by
  conv_lhs => rw [← Language.one_add_self_mul_kstar_eq_kstar, Language.mem_add, Language.mem_one]
  simp

end Words

/-! ## The language -/

/-- What may be done to a block in the course of a pass. -/
inductive Move where
  | enter
  | skip
  | next
  deriving Repr, BEq, DecidableEq

/-- The call that makes a move on a nested block. -/
def Move.call {σ : Type} : Move → Call σ
  | enter => .start
  | skip => .skip
  | next => .next

/-- A move on the block that a path leads to. -/
abbrev Letter := List String × Move

/-- The same move seen from the block around. -/
def Letter.below (name : String) (l : Letter) : Letter := (name :: l.1, l.2)

namespace Block

mutual

/-- The words that write a block once. -/
def lang : Block → Language Letter
  | ⟨_, _, _, cs, _, _⟩ => {[([], .enter)]} * row cs

/-- The words that write nested blocks one after the other, with the text behind each. -/
def row : List Block → Language Letter
  | [] => 1
  | c :: cs =>
    Language.map (Letter.below (c.name.getD "")) ({[([], .skip)]} + c.lang * c.lang∗) *
      ({[([], .next)]} * row cs)

end

/-- The words for a block that is waited for: it is skipped, or written at least once. -/
def turns (b : Block) : Language Letter := {[([], .skip)]} + b.lang * b.lang∗

/-- What may follow for a block on its parent's demand, if `going` is what completes its own
pass. -/
def pendingFrom (b : Block) (going : Language Letter) : Language Letter :=
  match b.state with
  | .ready => b.turns
  | .closed => 1
  | _ => going * b.lang∗

mutual

/-- What completes the pass of a block. -/
def rest : Block → Language Letter
  | ⟨_, _, _, cs, _, .active k⟩ => restAt k cs
  | ⟨_, _, _, _, _, .used⟩ => 1
  | _ => 0

def restAt : Nat → List Block → Language Letter
  | _, [] => 0
  | 0, c :: cs =>
    Language.map (Letter.below (c.name.getD "")) (c.pendingFrom c.rest) * ({[([], .next)]} * row cs)
  | k + 1, _ :: cs => restAt k cs

end

/-- What may follow for a nested block until its parent goes on. -/
def pending (b : Block) : Language Letter := b.pendingFrom b.rest

theorem lang_eq (b : Block) : b.lang = {[([], .enter)]} * row b.children := by
  cases b
  rw [lang]

theorem row_cons (c : Block) (cs : List Block) :
    row (c :: cs) = Language.map (Letter.below (c.name.getD "")) c.turns * ({[([], .next)]} * row cs) := by
  rw [row]; rfl

theorem cons_mem_lang {b : Block} {l : Letter} {w : List Letter} :
    l :: w ∈ b.lang ↔ l = ([], .enter) ∧ w ∈ row b.children := by
  rw [lang_eq, cons_mem_letter_mul]

theorem nil_notMem_lang (b : Block) : [] ∉ b.lang := by
  rw [lang_eq]
  exact nil_notMem_letter_mul

/-- Further rounds begin by entering the block again. -/
theorem cons_mem_lang_kstar {b : Block} {l : Letter} {w : List Letter} :
    l :: w ∈ b.lang∗ ↔ l = ([], .enter) ∧ w ∈ row b.children * b.lang∗ := by
  rw [cons_mem_kstar, cons_mem_mul b.nil_notMem_lang]
  constructor
  · rintro ⟨u, v, hu, hv, rfl⟩
    obtain ⟨rfl, row_u⟩ := cons_mem_lang.1 hu
    exact ⟨rfl, Language.append_mem_mul row_u hv⟩
  · rintro ⟨rfl, hw⟩
    obtain ⟨u, hu, v, hv, rfl⟩ := Language.mem_mul.1 hw
    exact ⟨u, v, cons_mem_lang.2 ⟨rfl, hu⟩, hv, rfl⟩

theorem cons_mem_turns {b : Block} {l : Letter} {w : List Letter} :
    l :: w ∈ b.turns ↔
      (l = ([], .skip) ∧ w = []) ∨ (l = ([], .enter) ∧ w ∈ row b.children * b.lang∗) := by
  rw [turns, Language.mem_add, ← cons_mem_kstar, cons_mem_lang_kstar]
  apply or_congr_left
  constructor
  · intro h
    cases h
    exact ⟨rfl, rfl⟩
  · rintro ⟨rfl, rfl⟩
    exact rfl

theorem nil_notMem_turns (b : Block) : [] ∉ b.turns := by
  rw [turns, Language.mem_add, nil_mem_mul]
  rintro (h | ⟨h, -⟩)
  · cases h
  · exact b.nil_notMem_lang h

/-! ## The language is a matter of names -/

theorem row_map_pristine {cs : List Block} (h : ∀ c ∈ cs, c.pristine.lang = c.lang) :
    row (cs.map pristine) = row cs := by
  induction cs with
  | nil => rfl
  | cons c cs ih =>
    rw [List.map_cons, row, row, name_pristine, h c List.mem_cons_self,
      ih fun d hd => h d (List.mem_cons_of_mem _ hd)]

theorem lang_pristine (b : Block) : b.pristine.lang = b.lang := by
  induction b using nestInduction with
  | nest b ih => rw [lang_eq, lang_eq, children_pristine, row_map_pristine ih]

theorem lang_congr {a b : Block} (h : a.pristine = b.pristine) : a.lang = b.lang := by
  rw [← lang_pristine a, h, lang_pristine]

theorem row_congr {as bs : List Block} (h : as.map pristine = bs.map pristine) : row as = row bs := by
  rw [← row_map_pristine fun c _ => lang_pristine c, h, row_map_pristine fun c _ => lang_pristine c]

theorem turns_congr {a b : Block} (h : a.pristine = b.pristine) : a.turns = b.turns := by
  rw [turns, lang_congr h, turns]

/-- A word that enters no block. -/
def Sparing (w : List Letter) : Prop := ∀ l ∈ w, l.2 ≠ .enter

theorem sparing_nil : Sparing [] := List.forall_mem_nil _

theorem Sparing.append {v w : List Letter} (hv : Sparing v) (hw : Sparing w) : Sparing (v ++ w) := by
  intro l hl
  rcases List.mem_append.1 hl with hl | hl
  · exact hv l hl
  · exact hw l hl

theorem Sparing.below {w : List Letter} (h : Sparing w) (name : String) : Sparing (w.map (Letter.below name)) := by
  intro l hl
  obtain ⟨m, hm, rfl⟩ := List.mem_map.1 hl
  exact h m hm

theorem sparing_skip (path : List String) : Sparing [(path, .skip)] := by
  intro l hl
  cases List.mem_singleton.1 hl
  nofun

theorem sparing_next : Sparing [([], .next)] := by
  intro l hl
  cases List.mem_singleton.1 hl
  nofun

/-- A block can always be written. -/
theorem exists_mem_row (cs : List Block) : ∃ w ∈ row cs, Sparing w := by
  induction cs with
  | nil => exact ⟨[], rfl, sparing_nil⟩
  | cons c cs ih =>
    obtain ⟨w, hw, sparing⟩ := ih
    have skipped : [([c.name.getD ""], Move.skip)] ∈ Language.map (Letter.below (c.name.getD "")) c.turns :=
      ⟨[([], .skip)], .inl rfl, rfl⟩
    have next : [([], Move.next)] ++ w ∈ ({[([], .next)]} : Language Letter) * row cs :=
      Language.append_mem_mul rfl hw
    rw [row_cons]
    exact ⟨_, Language.append_mem_mul skipped next,
      (sparing_skip _).append (sparing_next.append sparing)⟩

/-! ## What is left of a pass -/

theorem rest_active {b : Block} {k : Nat} (here : b.state = .active k) :
    b.rest = restAt k b.children := by
  cases b
  cases here
  rw [rest]

theorem rest_used {b : Block} (here : b.state = .used) : b.rest = 1 := by
  cases b
  cases here
  rw [rest]

theorem rest_eq_zero {b : Block} (idle : b.state.isActive = false) (unused : b.state ≠ .used) :
    b.rest = 0 := by
  obtain ⟨name, vs, gaps, cs, span, state⟩ := b
  cases state with
  | active k => cases idle
  | used => exact absurd rfl unused
  | _ => rfl

theorem restAt_eq {cs : List Block} {k : Nat} {c : Block} (child : cs[k]? = some c) :
    restAt k cs =
      Language.map (Letter.below (c.name.getD "")) c.pending * ({[([], .next)]} * row (cs.drop (k + 1))) := by
  induction cs generalizing k with
  | nil => cases child
  | cons d cs ih =>
    cases k with
    | zero =>
      cases child
      rfl
    | succ k => exact ih child

theorem restAt_of_length_le {cs : List Block} {k : Nat} (h : cs.length ≤ k) : restAt k cs = 0 := by
  induction cs generalizing k with
  | nil => cases k <;> rfl
  | cons d cs ih =>
    cases k with
    | zero => simp at h
    | succ k => exact ih (by simpa using h)

/-- Nothing is left exactly when the block is written. -/
theorem nil_mem_rest {b : Block} : [] ∈ b.rest ↔ b.state = .used := by
  cases hs : b.state with
  | used =>
    rw [rest_used hs]
    exact ⟨fun _ => rfl, fun _ => rfl⟩
  | active k =>
    rw [rest_active hs]
    refine ⟨fun h => ?_, nofun⟩
    cases hc : b.children[k]? with
    | none =>
      rw [restAt_of_length_le (List.getElem?_eq_none_iff.1 hc)] at h
      exact absurd h (Language.notMem_zero _)
    | some c =>
      rw [restAt_eq hc, nil_mem_mul] at h
      exact absurd h.2 nil_notMem_letter_mul
  | _ =>
    rw [rest_eq_zero (by rw [hs]; rfl) (by rw [hs]; nofun)]
    exact ⟨fun h => absurd h (Language.notMem_zero _), nofun⟩

/-- Only an active block has a move left in its pass. -/
theorem active_of_cons_mem_rest {b : Block} {l : Letter} {w : List Letter} (h : l :: w ∈ b.rest) :
    ∃ k, b.state = .active k := by
  cases hs : b.state with
  | active k => exact ⟨k, rfl⟩
  | used =>
    rw [rest_used hs] at h
    cases h
  | _ =>
    rw [rest_eq_zero (by rw [hs]; rfl) (by rw [hs]; nofun)] at h
    exact absurd h (Language.notMem_zero _)

theorem pending_of_going {b : Block} (waits : b.state ≠ .ready) (skipped : b.state ≠ .closed) :
    b.pending = b.rest * b.lang∗ := by
  rw [pending, pendingFrom]
  split
  · next e => exact absurd e waits
  · next e => exact absurd e skipped
  · rfl

/-- The parent can go on exactly when the block has been written or skipped. -/
theorem nil_mem_pending {b : Block} : [] ∈ b.pending ↔ b.state = .used ∨ b.state = .closed := by
  by_cases waits : b.state = .ready
  · rw [pending, pendingFrom, waits]
    exact ⟨fun h => absurd h b.nil_notMem_turns, nofun⟩
  · by_cases skipped : b.state = .closed
    · rw [pending, pendingFrom, skipped]
      exact ⟨fun _ => .inr rfl, fun _ => rfl⟩
    · rw [pending_of_going waits skipped, nil_mem_mul, nil_mem_rest]
      simp [skipped, Language.nil_mem_kstar]

/-- Behind gap `k`, what is left is to write the nested blocks from `k` on. -/
theorem rest_moveOn (b : Block) (k : Nat) : (b.moveOn k).1.rest = row (b.children.drop k) := by
  rw [moveOn_eq]
  split
  · next lt =>
    have child := List.getElem?_eq_getElem lt
    have ready : (b.children.modify k fun c => { c with state := .ready })[k]? =
        some { b.children[k] with state := .ready } := by
      rw [List.getElem?_modify_eq, child]; rfl
    have pending : pending { b.children[k] with state := .ready } = b.children[k].turns :=
      turns_congr (pristine_state _ .ready)
    rw [rest_active rfl, restAt_eq ready, pending, List.drop_modify_of_lt _ _ _ _ (by omega),
      List.drop_eq_getElem_cons lt, row_cons]
  · next ge =>
    rw [rest_used rfl, List.drop_eq_nil_of_le (by omega), row]

/-! ## Letters and granted calls -/

theorem cons_mem_below {name n : String} {path : List String} {m : Move} {l : Language Letter}
    {w : List Letter} :
    (name :: path, m) :: w ∈ Language.map (Letter.below n) l ↔
      n = name ∧ ∃ u, (path, m) :: u ∈ l ∧ u.map (Letter.below n) = w := by
  constructor
  · rintro ⟨v, hv, e⟩
    cases v with
    | nil => cases e
    | cons x v =>
      cases e
      exact ⟨rfl, v, hv, rfl⟩
  · rintro ⟨rfl, u, hu, rfl⟩
    exact ⟨(path, m) :: u, hu, rfl⟩

theorem cons_self_notMem_below {n : String} {m : Move} {l : Language Letter} {w : List Letter} :
    ([], m) :: w ∉ Language.map (Letter.below n) l := by
  rintro ⟨v, -, e⟩
  cases v <;> cases e

theorem nil_mem_below {n : String} {l : Language Letter} :
    [] ∈ Language.map (Letter.below n) l ↔ [] ∈ l := by
  constructor
  · rintro ⟨v, hv, e⟩
    cases List.map_eq_nil_iff.1 e
    exact hv
  · intro h
    exact ⟨[], h, rfl⟩

/-- The words of a nested block, then the text behind it. -/
theorem cons_mem_below_mul {n : String} {l m : Language Letter} {a : Letter} {w : List Letter} :
    a :: w ∈ Language.map (Letter.below n) l * ({[([], .next)]} * m) ↔
      (a = ([], .next) ∧ [] ∈ l ∧ w ∈ m) ∨
      ∃ path x u v, a = (n :: path, x) ∧ (path, x) :: u ∈ l ∧ v ∈ ({[([], .next)]} : Language Letter) * m ∧
        u.map (Letter.below n) ++ v = w := by
  rw [Language.mem_mul]
  constructor
  · rintro ⟨u, hu, v, hv, e⟩
    cases u with
    | nil =>
      cases e
      obtain ⟨rfl, hw⟩ := cons_mem_letter_mul.1 hv
      exact .inl ⟨rfl, nil_mem_below.1 hu, hw⟩
    | cons x u =>
      cases e
      obtain ⟨_ | ⟨name, path⟩, x⟩ := a
      · exact absurd hu cons_self_notMem_below
      · obtain ⟨rfl, t, ht, rfl⟩ := cons_mem_below.1 hu
        exact .inr ⟨path, x, t, v, rfl, ht, hv, rfl⟩
  · rintro (⟨rfl, nil, hw⟩ | ⟨path, x, u, v, rfl, hu, hv, rfl⟩)
    · exact ⟨[], nil_mem_below.2 nil, _, cons_mem_letter_mul.2 ⟨rfl, hw⟩, rfl⟩
    · exact ⟨_, cons_mem_below.2 ⟨rfl, u, hu, rfl⟩, v, hv, rfl⟩

end Block

variable {σ : Type}

/-- No move is granted where nothing has been reached. -/
theorem GrantedAt.not_dormant {b b' : Block} {path : List String} {c : Call σ} (h : GrantedAt b path c b')
    {m : Move} (move : c = m.call) : ¬ b.Dormant := by
  induction h with
  | self granted =>
    intro dormant
    have out := dormant.state
    cases granted with
    | startWith | finish | set => cases m <;> cases move
    | start _ waits => simp [out] at waits
    | skip _ waits => simp [out] at waits
    | next here => simp [out] at here
  | nested _ child _ ih => exact fun dormant => ih move (dormant.child (List.mem_of_getElem? child))

/-- A call below a block leaves the block's own state. -/
theorem GrantedAt.state_below {b b' : Block} {name : String} {path : List String} {c : Call σ}
    (h : GrantedAt b (name :: path) c b') : b'.state = b.state := by
  cases h
  rfl

/-- A move is granted below active blocks only. -/
theorem GrantedAt.active_above {b b' : Block} {name : String} {path : List String} {c : Call σ}
    (h : GrantedAt b (name :: path) c b') (chained : b.Chained) {m : Move} (move : c = m.call) :
    ∃ k, b.state = .active k := by
  cases h with
  | nested index child granted =>
    cases chained with
    | resting _ below => exact absurd (below _ (List.mem_of_getElem? child)) (granted.not_dormant move)
    | writing here => exact ⟨_, here⟩

namespace Block

/-- A block can go on exactly when the next letter of its pass is to go on. -/
theorem self_mem_rest {b : Block} {m : Move} {w : List Letter} :
    ([], m) :: w ∈ b.rest ↔
      ∃ k c, m = .next ∧ b.state = .active k ∧ b.children[k]? = some c ∧
        (c.state = .used ∨ c.state = .closed) ∧ w ∈ row (b.children.drop (k + 1)) := by
  cases hs : b.state with
  | active k =>
    rw [rest_active hs]
    cases hc : b.children[k]? with
    | none =>
      rw [restAt_of_length_le (List.getElem?_eq_none_iff.1 hc)]
      constructor
      · intro h
        exact absurd h (Language.notMem_zero _)
      · rintro ⟨j, c, -, here, child, -⟩
        cases here
        rw [hc] at child
        cases child
    | some c =>
      rw [restAt_eq hc, cons_mem_below_mul, nil_mem_pending]
      constructor
      · rintro (⟨e, done, hw⟩ | ⟨path, x, u, v, e, -⟩)
        · cases e
          exact ⟨k, c, rfl, rfl, hc, done, hw⟩
        · cases e
      · rintro ⟨j, d, rfl, here, child, done, hw⟩
        cases here
        rw [hc] at child
        cases child
        exact .inl ⟨rfl, done, hw⟩
  | used =>
    rw [rest_used hs]
    exact ⟨nofun, nofun⟩
  | _ =>
    rw [rest_eq_zero (by rw [hs]; rfl) (by rw [hs]; nofun)]
    exact ⟨fun h => absurd h (Language.notMem_zero _), nofun⟩

/-- Going on as a granted call. -/
theorem next_mem_rest {b : Block} {w : List Letter} :
    ([], .next) :: w ∈ b.rest ↔ ∃ b', Granted (σ := σ) b .next b' ∧ w ∈ b'.rest := by
  have after {k : Nat} :
      ((b.modifyChild k fun c => { c with state := .out }).moveOn (k + 1)).1.rest =
        row (b.children.drop (k + 1)) := by
    rw [rest_moveOn, children_modifyChild, List.drop_modify_of_lt _ _ _ _ (by omega)]
  rw [self_mem_rest]
  constructor
  · rintro ⟨k, c, -, here, child, done, hw⟩
    exact ⟨_, .next here child done, after ▸ hw⟩
  · rintro ⟨b', granted, hw⟩
    cases granted with
    | next here child done => exact ⟨_, _, rfl, here, child, done, after ▸ hw⟩

/-- A letter below a block begins what is left of its pass exactly when the call is granted, if
that is so for what is pending of its nested blocks. -/
theorem below_mem_rest {b : Block} (named : b.WellNamed) (chained : b.Chained)
    (nested : ∀ c ∈ b.children, c.Chained → ∀ path m w,
      (path, m) :: w ∈ c.pending ↔ ∃ c', GrantedAt (σ := σ) c path m.call c' ∧ w ∈ c'.pending)
    {name : String} {path : List String} {m : Move} {w : List Letter} :
    (name :: path, m) :: w ∈ b.rest ↔
      ∃ b', GrantedAt (σ := σ) b (name :: path) m.call b' ∧ w ∈ b'.rest := by
  have dormant_denies {k : Nat} {d d' : Block} (child : b.children[k]? = some d)
      (granted : GrantedAt (σ := σ) d path m.call d') : ¬ d.Dormant := granted.not_dormant rfl
  cases chained with
  | resting idle below =>
    constructor
    · intro h
      obtain ⟨k, here⟩ := active_of_cons_mem_rest h
      simp [here, State.isActive] at idle
    · rintro ⟨b', granted, -⟩
      cases granted with
      | nested index child granted =>
        exact absurd (below _ (List.mem_of_getElem? child)) (dormant_denies child granted)
  | @writing _ c k here child reached chained others =>
    have mem := List.mem_of_getElem? child
    rw [rest_active here, restAt_eq child, cons_mem_below_mul]
    -- What is left behind a granted move on the nested block the chain leads to.
    have after {c' : Block} (same : c'.pristine = c.pristine) :
        (b.modifyChild k fun _ => c').rest =
          Language.map (Letter.below (c.name.getD "")) c'.pending *
            ({[([], .next)]} * row (b.children.drop (k + 1))) := by
      have changed : (b.modifyChild k fun _ => c').children[k]? = some c' := getElem?_modifyChild child _
      have still : (b.modifyChild k fun _ => c').state = .active k := here
      rw [rest_active still, restAt_eq changed, children_modifyChild,
        List.drop_modify_of_lt _ _ _ _ (by omega), name_eq_of_pristine_eq same]
    constructor
    · rintro (⟨e, -⟩ | ⟨path', x, u, v, e, hu, hv, rfl⟩)
      · cases e
      · cases e
        obtain ⟨c', granted, hu⟩ := (nested c mem chained path m u).1 hu
        refine ⟨_, .nested (named.childIndex? child) child granted, ?_⟩
        rw [after granted.pristine]
        exact Language.append_mem_mul ⟨u, hu, rfl⟩ hv
    · rintro ⟨b', granted, hw⟩
      cases granted with
      | @nested _ d d' j _ _ _ index child' granted =>
        by_cases e : j = k
        · subst e
          rw [child] at child'
          cases child'
          rw [after granted.pristine] at hw
          obtain ⟨t, ⟨u, hu, rfl⟩, v, hv, rfl⟩ := Language.mem_mul.1 hw
          have name_eq : c.name.getD "" = name := by rw [name_of_childIndex? index child]; rfl
          refine .inr ⟨path, m, u, v, by rw [name_eq], ?_, hv, rfl⟩
          exact (nested c mem chained path m u).2 ⟨d', granted, hu⟩
        · exact absurd (others j d e child') (dormant_denies child' granted)

theorem pending_used {b : Block} (used : b.state = .used) : b.pending = b.lang∗ := by
  rw [pending_of_going (by rw [used]; nofun) (by rw [used]; nofun), rest_used used, one_mul]

/-- While a block is being written, its own pass comes first. -/
theorem cons_mem_pending_of_unused {b : Block} {l : Letter} {w : List Letter} (waits : b.state ≠ .ready)
    (skipped : b.state ≠ .closed) (unused : b.state ≠ .used) :
    l :: w ∈ b.pending ↔ ∃ u v, l :: u ∈ b.rest ∧ v ∈ b.lang∗ ∧ u ++ v = w := by
  rw [pending_of_going waits skipped, cons_mem_mul (mt nil_mem_rest.1 unused)]

/-- What is pending of a block begins with the block's own pass, or by entering or skipping it. -/
theorem cons_mem_pending_iff {b : Block} {l : Letter} {w : List Letter} :
    l :: w ∈ b.pending ↔
      (l = ([], .skip) ∧ b.state = .ready ∧ w = []) ∨
      (l = ([], .enter) ∧ (b.state = .ready ∨ b.state = .used) ∧ w ∈ row b.children * b.lang∗) ∨
      ∃ u v, l :: u ∈ b.rest ∧ v ∈ b.lang∗ ∧ u ++ v = w := by
  have nothing_left (idle : b.state.isActive = false) :
      ¬ ∃ u v, l :: u ∈ b.rest ∧ v ∈ b.lang∗ ∧ u ++ v = w := by
    rintro ⟨u, v, hu, -⟩
    obtain ⟨k, here⟩ := active_of_cons_mem_rest hu
    simp [here, State.isActive] at idle
  cases hs : b.state with
  | ready =>
    have none_left := nothing_left (by rw [hs]; rfl)
    rw [pending, pendingFrom, hs]
    simp only [cons_mem_turns, none_left, true_and, true_or, or_false]
  | used =>
    have none_left := nothing_left (by rw [hs]; rfl)
    rw [pending_used hs, cons_mem_lang_kstar]
    simp only [none_left, reduceCtorEq, false_and, and_false, false_or, or_true, true_and, or_false]
  | closed =>
    have none_left := nothing_left (by rw [hs]; rfl)
    rw [pending, pendingFrom, hs]
    simp only [Language.mem_one, none_left, reduceCtorEq, false_and, and_false, or_false]
  | out | active =>
    rw [cons_mem_pending_of_unused (by simp [hs]) (by simp [hs]) (by simp [hs])]
    simp only [reduceCtorEq, false_and, and_false, false_or, or_false]

/-- Behind a move of its own pass, a block has that pass to complete and then further rounds. -/
theorem mem_pending_of_moved {b b' : Block} {w : List Letter} (same : b'.pristine = b.pristine)
    (going : (∃ k, b'.state = .active k) ∨ b'.state = .used) :
    w ∈ b'.pending ↔ ∃ u v, u ∈ b'.rest ∧ v ∈ b.lang∗ ∧ u ++ v = w := by
  have waits : b'.state ≠ .ready := by rcases going with ⟨k, e⟩ | e <;> rw [e] <;> nofun
  have skipped : b'.state ≠ .closed := by rcases going with ⟨k, e⟩ | e <;> rw [e] <;> nofun
  rw [pending_of_going waits skipped, lang_congr same, Language.mem_mul]
  constructor
  · rintro ⟨u, hu, v, hv, e⟩
    exact ⟨u, v, hu, hv, e⟩
  · rintro ⟨u, v, hu, hv, e⟩
    exact ⟨u, hu, v, hv, e⟩

theorem moveOn_going (b : Block) (k : Nat) :
    (∃ j, (b.moveOn k).1.state = .active j) ∨ (b.moveOn k).1.state = .used := by
  rcases b.state_moveOn k with e | e
  · exact .inl ⟨k, e⟩
  · exact .inr e

theorem self_mem_pending {b : Block} (nested : b.isRoot = false) {m : Move} {w : List Letter} :
    ([], m) :: w ∈ b.pending ↔ ∃ b', Granted (σ := σ) b m.call b' ∧ w ∈ b'.pending := by
  rw [cons_mem_pending_iff]
  cases m with
  | enter =>
    have after : w ∈ (b.moveOn 0).1.pending ↔ w ∈ row b.children * b.lang∗ := by
      rw [mem_pending_of_moved (pristine_moveOn b 0) (b.moveOn_going 0), rest_moveOn, List.drop_zero,
        Language.mem_mul]
      simp only [exists_and_left]
    constructor
    · rintro (⟨e, -⟩ | ⟨-, open_, hw⟩ | ⟨u, v, hu, -⟩)
      · cases e
      · exact ⟨_, .start nested open_, after.2 hw⟩
      · obtain ⟨_, _, e, -⟩ := self_mem_rest.1 hu
        cases e
    · rintro ⟨b', granted, hw⟩
      cases granted with
      | start _ open_ => exact .inr (.inl ⟨rfl, open_, after.1 hw⟩)
  | skip =>
    constructor
    · rintro (⟨-, waits, rfl⟩ | ⟨e, -⟩ | ⟨u, v, hu, -⟩)
      · exact ⟨_, .skip nested waits, rfl⟩
      · cases e
      · obtain ⟨_, _, e, -⟩ := self_mem_rest.1 hu
        cases e
    · rintro ⟨b', granted, hw⟩
      cases granted with
      | skip _ waits => exact .inl ⟨rfl, waits, hw⟩
  | next =>
    constructor
    · rintro (⟨e, -⟩ | ⟨e, -⟩ | ⟨u, v, hu, hv, e⟩)
      · cases e
      · cases e
      · obtain ⟨b', granted, hu⟩ := (next_mem_rest (σ := σ)).1 hu
        refine ⟨b', granted, ?_⟩
        cases granted with
        | next here child done =>
          have granted := Granted.next (σ := σ) here child done
          exact (mem_pending_of_moved granted.pristine (moveOn_going _ _)).2 ⟨u, v, hu, hv, e⟩
    · rintro ⟨b', granted, hw⟩
      have going : (∃ k, b'.state = .active k) ∨ b'.state = .used := by
        cases granted with
        | next => exact moveOn_going _ _
      obtain ⟨u, v, hu, hv, e⟩ := (mem_pending_of_moved granted.pristine going).1 hw
      exact .inr (.inr ⟨u, v, next_mem_rest.2 ⟨b', granted, hu⟩, hv, e⟩)

/-- **A letter begins what is pending of a nested block exactly when its call is granted**, and the
block the call leaves has the rest of the word pending. -/
theorem cons_mem_pending {b : Block} (nested : b.isRoot = false) (named : b.WellNamed) (chained : b.Chained)
    (path : List String) (m : Move) (w : List Letter) :
    (path, m) :: w ∈ b.pending ↔ ∃ b', GrantedAt (σ := σ) b path m.call b' ∧ w ∈ b'.pending := by
  induction b using nestInduction generalizing path m w with
  | nest b ih =>
    cases path with
    | nil =>
      rw [self_mem_pending nested]
      constructor
      · rintro ⟨b', granted, hw⟩
        exact ⟨b', .self granted, hw⟩
      · rintro ⟨b', granted, hw⟩
        cases granted with
        | self granted => exact ⟨b', granted, hw⟩
    | cons name path =>
      have below {u : List Letter} : (name :: path, m) :: u ∈ b.rest ↔
          ∃ b', GrantedAt (σ := σ) b (name :: path) m.call b' ∧ u ∈ b'.rest :=
        below_mem_rest named chained fun c hc chained path m w =>
          ih c hc ((named b b.self_mem_preorder).2 c hc) (named.child hc) chained path m w
      rw [cons_mem_pending_iff]
      constructor
      · rintro (⟨e, -⟩ | ⟨e, -⟩ | ⟨u, v, hu, hv, e⟩)
        · cases e
        · cases e
        · obtain ⟨k, here⟩ := active_of_cons_mem_rest hu
          obtain ⟨b', granted, hu⟩ := below.1 hu
          have still : b'.state = .active k := granted.state_below.trans here
          exact ⟨b', granted, (mem_pending_of_moved granted.pristine (.inl ⟨k, still⟩)).2 ⟨u, v, hu, hv, e⟩⟩
      · rintro ⟨b', granted, hw⟩
        obtain ⟨k, here⟩ := granted.active_above chained rfl
        have still : b'.state = .active k := granted.state_below.trans here
        obtain ⟨u, v, hu, hv, e⟩ := (mem_pending_of_moved granted.pristine (.inl ⟨k, still⟩)).1 hw
        exact .inr (.inr ⟨u, v, below.2 ⟨b', granted, hu⟩, hv, e⟩)

/-- **A letter begins what is left of the root's pass exactly when its call is granted.** -/
theorem cons_mem_rest {b : Block} (root : b.isRoot = true) (named : b.WellNamed) (chained : b.Chained)
    (path : List String) (m : Move) (w : List Letter) :
    (path, m) :: w ∈ b.rest ↔ ∃ b', GrantedAt (σ := σ) b path m.call b' ∧ w ∈ b'.rest := by
  cases path with
  | nil =>
    constructor
    · intro h
      obtain ⟨_, _, rfl, -⟩ := self_mem_rest.1 h
      obtain ⟨b', granted, hw⟩ := (next_mem_rest (σ := σ)).1 h
      exact ⟨b', .self granted, hw⟩
    · rintro ⟨b', granted, hw⟩
      cases granted with
      | self granted =>
        cases m with
        | enter =>
          cases granted with
          | start nested => simp [nested] at root
        | skip =>
          cases granted with
          | skip nested => simp [nested] at root
        | next => exact next_mem_rest.2 ⟨b', granted, hw⟩
  | cons name path =>
    apply below_mem_rest named chained
    intro c hc chained path m w
    exact cons_mem_pending ((named b b.self_mem_preorder).2 c hc) (named.child hc) chained path m w

/-! ## A pass can be completed -/

/-- Whatever has been reached can be completed without entering a block. -/
theorem exists_mem_pending {b : Block} (reached : b.state ≠ .out)
    (going : b.state.isActive = true → ∃ w ∈ b.rest, Sparing w) : ∃ w ∈ b.pending, Sparing w := by
  cases hs : b.state with
  | out => exact absurd hs reached
  | ready => exact ⟨_, cons_mem_pending_iff.2 (.inl ⟨rfl, hs, rfl⟩), sparing_skip []⟩
  | used => exact ⟨[], nil_mem_pending.2 (.inl hs), sparing_nil⟩
  | closed => exact ⟨[], nil_mem_pending.2 (.inr hs), sparing_nil⟩
  | active k =>
    obtain ⟨w, hw, sparing⟩ := going (by rw [hs]; rfl)
    refine ⟨w ++ [], ?_, sparing.append sparing_nil⟩
    rw [pending_of_going (by rw [hs]; nofun) (by rw [hs]; nofun)]
    exact Language.append_mem_mul hw (Language.nil_mem_kstar _)

theorem Chained.exists_sparing_rest {b : Block} (h : b.Chained)
    (going : (∃ k, b.state = .active k) ∨ b.state = .used) : ∃ w ∈ b.rest, Sparing w := by
  induction h with
  | resting idle =>
    rcases going with ⟨k, e⟩ | e
    · simp [e, State.isActive] at idle
    · exact ⟨[], nil_mem_rest.2 e, sparing_nil⟩
  | @writing b c k here child reached _ _ ih =>
    obtain ⟨u, hu, sparing⟩ := exists_mem_pending reached fun active => by
      apply ih
      cases hs : c.state with
      | active j => exact .inl ⟨j, rfl⟩
      | _ => simp [hs, State.isActive] at active
    obtain ⟨v, hv, sparing'⟩ := exists_mem_row (b.children.drop (k + 1))
    rw [rest_active here, restAt_eq child]
    have next : [([], Move.next)] ++ v ∈ ({[([], .next)]} : Language Letter) * row (b.children.drop (k + 1)) :=
      Language.append_mem_mul rfl hv
    exact ⟨_, Language.append_mem_mul ⟨u, hu, rfl⟩ next,
      (sparing.below _).append (sparing_next.append sparing')⟩

theorem Chained.exists_mem_rest {b : Block} (h : b.Chained)
    (going : (∃ k, b.state = .active k) ∨ b.state = .used) : ∃ w, w ∈ b.rest := by
  obtain ⟨w, hw, -⟩ := h.exists_sparing_rest going
  exact ⟨w, hw⟩

/-! ## Calls that are no moves -/

theorem pendingFrom_congr {a b : Block} (same : a.pristine = b.pristine) (state : a.state = b.state)
    (going : Language Letter) : a.pendingFrom going = b.pendingFrom going := by
  rw [pendingFrom, pendingFrom, state, turns_congr same, lang_congr same]

/-- What is left of a pass depends on the states of the blocks, not on their values. -/
theorem rest_modifyChild {b d d' : Block} {k : Nat} (child : b.children[k]? = some d)
    (same : d'.pristine = d.pristine) (pending : d'.pending = d.pending) :
    (b.modifyChild k fun _ => d').rest = b.rest := by
  have changed : (b.children.modify k fun _ => d')[k]? = some d' := getElem?_modifyChild child _
  have rows (j : Nat) : row ((b.children.modify k fun _ => d').drop j) = row (b.children.drop j) := by
    apply row_congr
    rw [List.map_drop, List.map_drop, map_pristine_modify fun c hc => ?_]
    rw [child] at hc
    cases hc
    exact same
  cases hs : b.state with
  | active j =>
    have still : (b.modifyChild k fun _ => d').state = .active j := hs
    rw [rest_active hs, rest_active still, children_modifyChild]
    by_cases e : k = j
    · subst e
      rw [restAt_eq child, restAt_eq changed, rows, pending, name_eq_of_pristine_eq same]
    · cases hc : b.children[j]? with
      | none =>
        have beyond := List.getElem?_eq_none_iff.1 hc
        rw [restAt_of_length_le beyond, restAt_of_length_le (by simpa using beyond)]
      | some c =>
        have kept : (b.children.modify k fun _ => d')[j]? = some c := by
          rw [List.getElem?_modify_ne _ _ e, hc]
        rw [restAt_eq hc, restAt_eq kept, rows]
  | used =>
    have still : (b.modifyChild k fun _ => d').state = .used := hs
    rw [rest_used hs, rest_used still]
  | _ =>
    rw [rest_eq_zero (by rw [state_modifyChild, hs]; rfl) (by rw [state_modifyChild, hs]; nofun),
      rest_eq_zero (by rw [hs]; rfl) (by rw [hs]; nofun)]

end Block

/-- An assignment or a check leaves what is left of the pass. -/
theorem GrantedAt.rest_eq {b b' : Block} {path : List String} {c : Call σ} (h : GrantedAt b path c b')
    (other : c = .finish ∨ ∃ name value, c = .set name value) : b'.rest = b.rest ∧ b'.pending = b.pending := by
  have pending_eq {a a' : Block} (same : a'.pristine = a.pristine) (state : a'.state = a.state)
      (rest : a'.rest = a.rest) : a'.rest = a.rest ∧ a'.pending = a.pending := by
    refine ⟨rest, ?_⟩
    rw [Block.pending, Block.pending, rest, Block.pendingFrom_congr same state]
  induction h with
  | @self b b' c granted =>
    refine pending_eq granted.pristine ?_ ?_
    · cases granted with
      | finish | set => rfl
      | _ => rcases other with e | ⟨_, _, e⟩ <;> cases e
    · cases granted with
      | finish => rfl
      | set =>
        cases b with
        | mk name vs gaps cs span state => cases state <;> rfl
      | _ => rcases other with e | ⟨_, _, e⟩ <;> cases e
  | nested index child granted ih =>
    have same := granted.pristine
    refine pending_eq (Block.pristine_modifyChild fun c hc => ?_) rfl ?_
    · rw [child] at hc
      cases hc
      exact same
    · exact Block.rest_modifyChild child same (ih other).2

end Stencil

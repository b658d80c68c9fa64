import Stencil.Proofs.Stored.Rendering

/-!
# The representation invariant

What reading makes of a source is kept apart in one store of segments, ranges of it, ends of gaps and tables of
variables, and writing uses indices into all of them without asking. `Stored.Represented` says that they fit together.
It holds of every template that is read into a store and of every page that is reached from one, and so no call is
ever stuck at an index that is out of range (`Stored.represented_in_range`).
-/

namespace Stencil

open Text

namespace Stored

namespace Block

/-! ## Blocks and the paths that lead to them -/

mutual

/-- The blocks of the tree at `path`, each with its path and behind its nested ones. -/
def located (path : List String) : Block → List (List String × Block)
  | ⟨name, cs, vs, segments, gaps, span, state⟩ =>
    locatedAll path cs ++ [(path, ⟨name, cs, vs, segments, gaps, span, state⟩)]

def locatedAll (path : List String) : List Block → List (List String × Block)
  | [] => []
  | c :: cs => c.located (path ++ [c.name.getD ""]) ++ locatedAll path cs

end

theorem located_eq (path : List String) (b : Block) : b.located path = locatedAll path b.children ++ [(path, b)] := by
  cases b
  rw [located]

theorem mem_locatedAll {path : List String} {cs : List Block} {x : List String × Block} :
    x ∈ locatedAll path cs ↔ ∃ c ∈ cs, x ∈ c.located (path ++ [c.name.getD ""]) := by
  induction cs with
  | nil => simp [locatedAll]
  | cons c cs ih => simp [locatedAll, ih]

theorem blk?_eq_childIndex? (b : Block) (name : String) :
    b.blk? name = (b.childIndex? name).bind fun k => b.children[k]? :=
  List.find?_eq_bind_findIdx?_getElem?

theorem exists_child {b c : Block} {name : String} (h : b.blk? name = some c) :
    ∃ k, b.childIndex? name = some k ∧ b.children[k]? = some c ∧ c.name = some name := by
  have named := List.find?_some h
  rw [blk?_eq_childIndex?] at h
  obtain ⟨k, index, child⟩ := Option.bind_eq_some_iff.1 h
  exact ⟨k, index, child, by simpa using named⟩

/-- What a path leads to is listed with the path. -/
theorem mem_located_of_descend? {b d : Block} {below : List String} (target : b.descend? below = some d)
    (path : List String) : (path ++ below, d) ∈ b.located path := by
  induction below generalizing b path with
  | nil =>
    cases target
    rw [located_eq, List.append_nil]
    exact List.mem_append_right _ List.mem_cons_self
  | cons name below ih =>
    obtain ⟨c, first, target⟩ := Option.bind_eq_some_iff.1 target
    obtain ⟨k, -, child, named⟩ := exists_child first
    have deeper := ih target (path ++ [name])
    rw [List.append_assoc, List.singleton_append] at deeper
    rw [located_eq]
    refine List.mem_append_left _ (mem_locatedAll.2 ⟨c, List.mem_of_getElem? child, ?_⟩)
    rwa [named]

/-- A path leads where its last name leads from where the others lead. -/
theorem descend?_snoc (b : Block) (path : List String) (name : String) :
    b.descend? (path ++ [name]) = (b.descend? path).bind (·.blk? name) := by
  induction path generalizing b with
  | nil => simp [descend?]
  | cons first path ih => simp [descend?, ih, Option.bind_assoc]

section

variable {σ : Type} [Sink σ] {store : Store} {bound : Option σ} {c : Call σ}

/-- A call along a path is made on the block that the path leads to, and its outcome stands there. -/
theorem callAt?_descend {b d : Block} {path : List String} {o : Outcome σ} (target : b.descend? path = some d)
    (made : d.call? store bound c = some o) (name : o.block.name = d.name) :
    ∃ after, b.callAt? store bound c path = some (some { o with block := after }) ∧
      after.descend? path = some o.block ∧ after.name = b.name := by
  induction path generalizing b with
  | nil =>
    cases target
    exact ⟨o.block, by rw [callAt?, made]; rfl, rfl, name⟩
  | cons first path ih =>
    obtain ⟨e, first_, target⟩ := Option.bind_eq_some_iff.1 target
    obtain ⟨k, index, child, -⟩ := exists_child first_
    obtain ⟨after, below, there, same⟩ := ih target
    refine ⟨b.modifyChild k fun _ => after, by simp [callAt?, index, child, below], ?_, rfl⟩
    have names : (b.modifyChild k fun _ => after).children.map (·.name) = b.children.map (·.name) := by
      apply List.ext_getElem?
      intro j
      rw [modifyChild, List.getElem?_map, List.getElem?_map, List.getElem?_modify]
      by_cases here : k = j
      · subst here
        simp [child, same]
      · simp [here]
    have index' : (b.modifyChild k fun _ => after).childIndex? first = some k := by
      rw [childIndex?_eq_names, names, ← childIndex?_eq_names, index]
    have child' : (b.modifyChild k fun _ => after).children[k]? = some after := by
      rw [modifyChild, List.getElem?_modify, child]
      simp
    rw [descend?, blk?_eq_childIndex?, index', Option.bind_some, child', Option.bind_some, there]

end

end Block

/-! ## The invariant -/

/-- What is known of a block in a store. Its range is one of the store; the variables of the segments there are those
of its table. It has one gap more than nested blocks; the gaps end one behind the other, the first one not at once and
the last one with the range, so that they part the range; and the last segment of each carries no variable. Its nested
blocks have names of their own. -/
structure Whole (store : Store) (b : Block) : Prop where
  own : ∃ ss, store.get? b.segments = some ss ∧ (∀ s ∈ ss, ∀ i, s.var = some i → i < b.vars.size) ∧
    ∀ i < b.vars.size, ∃ s ∈ ss, s.var = some i
  count : b.gaps.length = b.children.length + 1
  increasing : b.gaps.Pairwise (· < ·)
  positive : ∀ e ∈ b.gaps, 1 ≤ e
  last : b.gaps.getLast? = some b.segments.size
  parts : ∃ ranges, (List.range (b.children.length + 1)).mapM b.gap? = some ranges ∧
    Span.Consecutive b.segments.start ranges b.segments.stop
  ended : ∀ k ≤ b.children.length, ∃ range ss, b.gap? k = some range ∧ store.get? range = some ss ∧ Ended ss
  named : ∀ c ∈ b.children, ∃ name, c.name = some name ∧ name ≠ ""
  distinct : (b.children.map (·.name)).Nodup

/-- The parts of a template fit together. The ranges of its blocks, each behind those nested in it, fill the store;
each block is whole; and each is reached by one path. -/
structure Represented (store : Store) (root : Block) : Prop where
  consecutive : Span.Consecutive 0 ((root.located []).map (·.2.segments)) store.size
  whole : ∀ x ∈ root.located [], Whole store x.2
  paths : ((root.located []).map (·.1)).Nodup
  found : ∀ path b, root.descend? path = some b ↔ (path, b) ∈ root.located []

end Stored

namespace Block

/-- What a function gives at every index of a row is the row. -/
theorem mapM_range {α : Type} {xs : List α} {f : Nat → Option α} (each : ∀ k < xs.length, f k = xs[k]?) :
    (List.range xs.length).mapM f = some xs := by
  induction xs using List.reverseRecOn with
  | nil => rfl
  | append_singleton xs x ih =>
    rw [List.length_append, List.length_singleton] at each ⊢
    have front := ih fun k lt => by rw [each k (by omega), List.getElem?_append_left lt]
    have last : f xs.length = some x := by rw [each _ (Nat.lt_succ_self _), List.getElem?_concat_length]
    rw [List.range_succ, List.mapM_append, front]
    simp [last]

/-- A regular block is whole where it stands. -/
theorem whole_put {t : Store} {b : Block} {q : Placement} (stands : Stands t b q) (regular : b.Regular) :
    Stored.Whole t (b.put q) := by
  have parted := stands.parted regular
  have lt {k : Nat} (le : k ≤ b.children.length) : k < b.gaps.length := by
    rw [regular.gaps]
    omega
  have within := parted.within
  have ordered : q.range.start ≤ q.range.stop := by
    rw [stands.stop]
    omega
  refine ⟨⟨b.gaps.flatten, ?_, ?_, ?_⟩, ?_, ?_, ?_, ?_, ⟨q.gaps, ?_, ?_⟩, ?_, ?_, ?_⟩
  · rw [segments_put, Store.get?, if_pos ⟨ordered, within⟩, parted.own]
  · rw [vars_put]
    exact regular.known
  · rw [vars_put]
    exact regular.carried
  · rw [gaps_put, length_children_put, Placement.ends, List.length_map, parted.count]
  · rw [gaps_put]
    exact parted.increasing
  · rw [gaps_put]
    exact parted.positive
  · rw [gaps_put, segments_put]
    exact parted.last
  · rw [length_children_put, ← parted.count]
    refine mapM_range fun k within => stands.gap?_put ?_
    rwa [parted.count, ← regular.gaps] at within
  · rw [segments_put]
    exact parted.consecutive
  · intro k le
    rw [length_children_put] at le
    obtain ⟨g, here, own⟩ := stands.get?_gap (lt le)
    refine ⟨g, b.gap k, here, own, regular.ended _ ?_⟩
    rw [gap, List.getElem?_eq_getElem (lt le)]
    exact List.getElem_mem _
  · intro c hc
    have mem : c.name ∈ b.children.map (·.name) := by
      rw [← b.map_name_children_put q]
      exact List.mem_map_of_mem hc
    obtain ⟨d, hd, same⟩ := List.mem_map.1 mem
    obtain ⟨name, some_, nonempty⟩ := regular.named d hd
    exact ⟨name, same ▸ some_, nonempty⟩
  · rw [map_name_children_put]
    exact regular.distinct

/-- The blocks are listed with the paths of those they stand for. -/
theorem map_fst_located_put (b : Block) (q : Placement) (path : List String) :
    (((b.put q).located path).map (·.1)).Perm ((b.located path).map (·.1)) := by
  induction b using rowInduction (fun cs => ∀ qs path,
    ((Stored.Block.locatedAll path (putAll qs cs)).map (·.1)).Perm ((locatedAll path cs).map (·.1)))
    generalizing q path with
  | nest b ih =>
    rw [Stored.Block.located_eq, located_eq, put_eq, List.map_append, List.map_cons]
    exact List.perm_append_comm.trans ((ih q.children path).cons path)
  | nil qs path => exact .refl _
  | cons c cs first others qs path =>
    rw [putAll, Stored.Block.locatedAll, locatedAll, List.map_append, List.map_append, name_put]
    exact (first _ _).append (others _ _)

/-- The ranges of the blocks are those of the places, in the order of the store. -/
theorem map_segments_located_put (b : Block) (s : Store) (path : List String) :
    ((b.put (b.layOut s).1).located path).map (·.2.segments) = (b.layOut s).1.postorder.map (·.range) := by
  induction b using rowInduction (fun cs => ∀ s path,
    (Stored.Block.locatedAll path (putAll (layOutAll s cs).1 cs)).map (·.2.segments) =
      (Placement.postorderAll (layOutAll s cs).1).map (·.range)) generalizing s path with
  | nest b ih =>
    rw [layOut_eq, Stored.Block.located_eq, put_eq, Placement.postorder, List.map_append, List.map_append]
    exact congrArg (· ++ _) (ih s path)
  | nil s path => rfl
  | cons c cs first others s path =>
    rw [layOutAll_cons, putAll, Stored.Block.locatedAll, Placement.postorderAll, List.map_append, List.map_append]
    exact congrArg₂ _ (first s _) (others _ path)

/-- Every block that is listed stands for one of the tree. -/
theorem exists_of_mem_located_put {t : Store} {b : Block} {q : Placement} (laid : LaidIn t b q) {path : List String}
    {x : List String × Stored.Block} (mem : x ∈ (b.put q).located path) :
    ∃ a p, a ∈ b.preorder ∧ Stands t a p ∧ x.2 = a.put p := by
  induction b using nestInduction generalizing q path with
  | nest b ih =>
    cases laid with
    | mk own nested =>
      rw [Stored.Block.located_eq, List.mem_append, Stored.Block.mem_locatedAll, List.mem_singleton] at mem
      rcases mem with ⟨d, hd, deeper⟩ | rfl
      · obtain ⟨k, here⟩ := List.getElem?_of_mem hd
        rw [getElem?_children_put] at here
        obtain ⟨c, child, rfl⟩ := Option.map_eq_some_iff.1 here
        have hc := List.mem_of_getElem? child
        obtain ⟨a, p, part, stands, same⟩ := ih c hc (nested k c child) deeper
        exact ⟨a, p, mem_preorder_of_child hc part, stands, same⟩
      · exact ⟨b, q, b.self_mem_preorder, own, rfl⟩

/-- A path leads to what stands for the block it leads to in the tree. -/
theorem exists_descend?_put {t : Store} {b : Block} {q : Placement} (laid : LaidIn t b q) (path : List String) :
    ∃ p, (b.put q).descend? path = (b.descend? path).map (·.put p) ∧ ∀ a, b.descend? path = some a → LaidIn t a p := by
  induction path generalizing b q with
  | nil =>
    refine ⟨q, rfl, fun a same => ?_⟩
    cases same
    exact laid
  | cons name path ih =>
    rw [Stored.Block.descend?, Stored.Block.blk?_eq_childIndex?, childIndex?_put, descend?]
    cases index : b.childIndex? name with
    | none =>
      refine ⟨q, rfl, fun a same => ?_⟩
      cases same
    | some k =>
      obtain ⟨c, child⟩ := exists_child_of_childIndex? index
      cases laid with
      | mk own nested =>
        obtain ⟨p, same, below⟩ := ih (nested k c child)
        refine ⟨p, ?_, ?_⟩
        · simp only [Option.bind_some, getElem?_children_put, child, Option.map_some, same]
        · simp only [child, Option.bind_some]
          exact below

/-- The parts of a template fit together where its blocks are laid out. -/
theorem represented_put {b : Block} (regular : ∀ a ∈ b.preorder, a.Regular) (named : b.WellNamed) :
    Stored.Represented b.store (b.put b.placement) := by
  have laid : LaidIn b.store b b.placement := laidIn_layOut b (List.prefix_refl _)
  have paths : (((b.put b.placement).located []).map (·.1)).Nodup :=
    (b.map_fst_located_put b.placement []).nodup_iff.2 (nodup_located named [])
  refine ⟨?_, fun x mem => ?_, paths, fun path d => ⟨fun target => ?_, fun mem => ?_⟩⟩
  · rw [placement, map_segments_located_put]
    exact b.placing.consecutive
  · obtain ⟨a, p, part, stands, same⟩ := exists_of_mem_located_put laid mem
    rw [same]
    exact whole_put stands (regular a part)
  · exact Stored.Block.mem_located_of_descend? target []
  · have listed := (b.map_fst_located_put b.placement []).mem_iff.1 (List.mem_map_of_mem mem)
    obtain ⟨⟨below, a⟩, mem', rfl⟩ := List.mem_map.1 listed
    obtain ⟨_, rfl, target⟩ := (mem_located named).1 mem'
    obtain ⟨p, same, -⟩ := exists_descend?_put laid below
    rw [target, Option.map_some] at same
    have one := List.inj_on_of_nodup_map paths mem (Stored.Block.mem_located_of_descend? same []) rfl
    rw [same, (Prod.mk.inj one).2]

end Block

namespace Stored

/-! ## Pages -/

variable {σ : Type}

/-- What stands for a page, with the places and the store of its template. -/
def Page.of (q : Placement) (store : Store) (p : Stencil.Page σ) : Page σ :=
  ⟨p.root.put q, store, p.sink⟩

/-- What stands for the answer to a call. -/
def Page.Reply.of (q : Placement) (store : Store) (r : Stencil.Page.Reply σ) : Page.Reply σ :=
  ⟨.of q store r.page, r.result, r.events⟩

variable [Sink σ] {source : String} {file : Nat} {root : Stencil.Block}

/-- What is known of a page that is reached from a template, for what stands for it. -/
structure Page.Kept (root : Stencil.Block) (p : Stencil.Page σ) : Prop where
  regular : ∀ a ∈ p.root.preorder, a.Regular
  inside : ∀ a ∈ p.root.preorder, ∀ k, a.state = .active k → k < a.children.length
  named : p.root.WellNamed
  placement : p.root.placement = root.placement
  store : p.root.store = root.store

theorem Page.kept (parsed : Template.parse source file = .ok root) {p : Stencil.Page σ}
    (reached : Stencil.Page.Reachable root p) : Kept root p := by
  have fresh := Template.fresh_of_parse parsed
  have regular := Template.regular_of_parse parsed
  have sound := reached.sound fresh
  have laidOut : p.root.layOut .empty = root.layOut .empty := by
    rw [← Stencil.Block.layOut_pristine p.root, sound.pristine]
  refine ⟨fun a part => ?_, fun a part k active => (sound.chained.orderly a part).lt_of_active active,
    sound.named fresh, congrArg Prod.fst laidOut, congrArg Prod.snd laidOut⟩
  obtain ⟨b, hb, same⟩ := Stencil.Block.exists_part_of_pristine_eq (sound.pristine.trans fresh.pristine.symm) part
  exact (regular b hb).congr same.symm

/-- A call on what stands for a page is never stuck, and comes to what stands for the answer. -/
theorem Page.call?_of (parsed : Template.parse source file = .ok root) {p : Stencil.Page σ}
    (reached : Stencil.Page.Reachable root p) (path : List String) (c : Call σ) :
    (Page.of root.placement root.store p).call? path c =
      some ((p.call? path c).map (Reply.of root.placement root.store)) := by
  have kept := kept parsed reached
  have laid : LaidIn root.store p.root root.placement := by
    rw [← kept.placement, ← kept.store]
    exact laidIn_layOut p.root (List.prefix_refl _)
  have made := callAt?_put laid kept.regular kept.inside p.sink c path
  rw [Page.call?, Page.of, made, Stencil.Page.call?, Option.map_some, Option.map_map, Option.map_map]
  rfl

/-- Every page that is reached in the tree is reached in the store. -/
theorem Page.reachable_of (parsed : Template.parse source file = .ok root) {p : Stencil.Page σ}
    (reached : Stencil.Page.Reachable root p) :
    Reachable (root.put root.placement) root.store (.of root.placement root.store p) := by
  have step {p : Stencil.Page σ} {path : List String} {c : Call σ} {r : Stencil.Page.Reply σ}
      (before : Stencil.Page.Reachable root p)
      (there : Reachable (root.put root.placement) root.store (.of root.placement root.store p))
      (reply : p.call? path c = some r) :
      Reachable (root.put root.placement) root.store (.of root.placement root.store r.page) := by
    have made := call?_of parsed before path c
    rw [reply] at made
    exact there.call made
  induction reached with
  | fresh => exact .fresh
  | call before reply ih => exact step before ih reply
  | touch before bound t ih => exact ih.touch bound t
  | fill before fields sink ih =>
    -- A filling is a row of calls.
    rw [Stencil.Page.fill_page]
    exact (Stencil.Page.perform_keeps (P := fun p => Stencil.Page.Reachable root p ∧
      Reachable (root.put root.placement) root.store (.of root.placement root.store p))
      (fun p path c r here reply => ⟨here.1.call reply, step here.1 here.2 reply⟩) _ ⟨before, ih⟩).2

/-- Every page that is reached in the store stands for one that is reached in the tree. -/
theorem Page.Reachable.exists_of (parsed : Template.parse source file = .ok root) {p : Page σ}
    (reached : Reachable (root.put root.placement) root.store p) :
    ∃ p', Stencil.Page.Reachable root p' ∧ p = .of root.placement root.store p' := by
  induction reached with
  | fresh => exact ⟨_, .fresh, rfl⟩
  | @call p path c r before reply ih =>
    obtain ⟨p', reached, rfl⟩ := ih
    rw [call?_of parsed reached, Option.some.injEq] at reply
    obtain ⟨r', reply', rfl⟩ := Option.map_eq_some_iff.1 reply
    exact ⟨r'.page, reached.call reply', rfl⟩
  | @touch p s before bound t ih =>
    obtain ⟨p', reached, rfl⟩ := ih
    exact ⟨_, reached.touch bound t, rfl⟩

/-- **Every index in use is in range.** A source that parses is read into a store, to what stands for the template, and
its parts fit together there. So do those of every page that is reached from it, whose store is still that one. On such
a page a path leads to the same block whether it is looked up, reached name by name or called; and a call on it is
never stuck at a nested block, a gap, a range of the store or a variable that is not there, but comes to what stands
for the answer in the tree. Every page that is reached in the tree is reached so. -/
theorem represented_in_range (parsed : Template.parse source file = .ok root) :
    ∃ template store, template? source file = some (.ok (template, store)) ∧ Represented store template ∧
      template = root.put root.placement ∧ store = root.store ∧
      ∀ (σ : Type) [Sink σ],
        (∀ p : Stencil.Page σ, Stencil.Page.Reachable root p →
          Page.Reachable template store (.of root.placement store p)) ∧
        ∀ p : Page σ, Page.Reachable template store p →
          p.store = store ∧ Represented store p.root ∧
          (∀ path name, p.root.descend? (path ++ [name]) = (p.root.descend? path).bind (·.blk? name)) ∧
          (∀ path (c : Call σ), (p.root.descend? path = none → p.call? path c = some none) ∧
            ∀ b, p.root.descend? path = some b → ∃ o r, b.call? p.store p.sink c = some o ∧
              p.call? path c = some (some r) ∧ r.page.root.descend? path = some o.block ∧
              r.page.store = p.store ∧ r.page.sink = o.sink ∧ r.result = o.result ∧ r.events = o.events) ∧
          ∃ p', Stencil.Page.Reachable root p' ∧ p = .of root.placement store p' ∧
            ∀ path (c : Call σ), p.call? path c = some ((p'.call? path c).map (.of root.placement store)) := by
  have fresh := Template.fresh_of_parse parsed
  have read := template?_eq source file
  rw [parsed] at read
  refine ⟨_, _, read, Stencil.Block.represented_put (Template.regular_of_parse parsed) fresh.named, rfl, rfl,
    fun σ _ => ⟨fun p reached => Page.reachable_of parsed reached, fun p reached => ?_⟩⟩
  obtain ⟨p', reached', rfl⟩ := Page.Reachable.exists_of parsed reached
  have kept := Page.kept parsed reached'
  have represented := Stencil.Block.represented_put kept.regular kept.named
  rw [kept.placement, kept.store] at represented
  have laid : LaidIn root.store p'.root root.placement := by
    rw [← kept.placement, ← kept.store]
    exact laidIn_layOut p'.root (List.prefix_refl _)
  refine ⟨rfl, represented, Block.descend?_snoc _, fun path c => ?_, p', reached', rfl, Page.call?_of parsed reached'⟩
  obtain ⟨q, there, below⟩ := Stencil.Block.exists_descend?_put laid path
  constructor
  · intro nowhere
    have nowhere' : p'.root.descend? path = none := Option.map_eq_none_iff.1 (there.symm.trans nowhere)
    have unmade := (Stencil.Block.callAt_eq_none_iff p'.sink c).2 nowhere'
    rw [Page.call?_of parsed reached', Stencil.Page.call?, unmade]
    rfl
  · intro b target
    obtain ⟨a, target', rfl⟩ := Option.map_eq_some_iff.1 (there.symm.trans target)
    have part := Stencil.Block.mem_preorder_of_descend? target'
    cases below a target' with
    | mk own nested =>
      have made := call?_put own (kept.regular a part) (kept.inside a part) p'.sink c
      have name : (a.call p'.sink c).block.name = a.name :=
        Stencil.Block.name_eq_of_pristine_eq (Stencil.Block.pristine_call a p'.sink c)
      obtain ⟨after, called, stands, -⟩ := Block.callAt?_descend target made (by
        rw [Outcome.put, Stencil.Block.name_put, Stencil.Block.name_put, name])
      exact ⟨_, ⟨⟨after, root.store, (a.call p'.sink c).sink⟩, (a.call p'.sink c).result, (a.call p'.sink c).events⟩,
        made, by rw [Page.call?]; exact congrArg (Option.map _) called, stands, rfl, rfl, rfl, rfl⟩

/-- The ranges and gaps of a template with a nested block, and a call that is made in the middle of a pass. -/
theorem represented_in_range_mid_pass :
    ∃ (template : Block) (store : Store) (p : Page Buffer) (r : Page.Reply Buffer),
      template? "<!--rep var=v place=V-->V<!--rep blk=b-->x<!--/rep-->" 0 = some (.ok (template, store)) ∧
      store.segments = [⟨"x", none⟩, ⟨"", none⟩, ⟨"", some 0⟩, ⟨"", none⟩, ⟨"", none⟩] ∧
      (template.located []).map (fun x => (x.1, x.2.segments, x.2.gaps)) =
        [(["b"], ⟨0, 1⟩, [1]), ([], ⟨1, 5⟩, [3, 4])] ∧
      Page.Reachable template store p ∧ p.root.state = .active 0 ∧ Represented store p.root ∧
      p.root.gap? 1 = some ⟨4, 5⟩ ∧ p.call? ["b"] .start = some (some r) ∧ r.result = .ok () := by
  let root : Stencil.Block := ⟨none, ⟨[⟨"v", "V", "V", ⟨0, 24⟩⟩]⟩,
    [[⟨"", none⟩, ⟨"", some 0⟩, ⟨"", none⟩], [⟨"", none⟩]],
    [⟨some "b", ⟨[]⟩, [[⟨"x", none⟩]], [], ⟨25, 53⟩, .out⟩], ⟨0, 53⟩, .out⟩
  have parsed : Template.parse "<!--rep var=v place=V-->V<!--rep blk=b-->x<!--/rep-->" 0 = .ok root := by
    with_unfolding_all rfl
  let p' : Stencil.Page Buffer := (Stencil.Page.ofTemplate root).afterCalls [([], .startWith Buffer.empty)]
  have reached' : Stencil.Page.Reachable root p' := Stencil.Page.Reachable.fresh.afterCalls _
  obtain ⟨template, store, read, -, rfl, rfl, pages⟩ := represented_in_range parsed
  obtain ⟨kept, each⟩ := pages Buffer
  have reached := kept p' reached'
  obtain ⟨-, represented, -, calls, -⟩ := each _ reached
  obtain ⟨o, r, made, called, -, -, -, result, -⟩ := (calls ["b"] .start).2 _ (by with_unfolding_all rfl)
  have ok : some o.result = some (.ok ()) :=
    (congrArg (Option.map Outcome.result) made).symm.trans (by with_unfolding_all rfl)
  exact ⟨_, _, _, r, read, by with_unfolding_all rfl, by with_unfolding_all rfl, reached, by with_unfolding_all rfl,
    represented, by with_unfolding_all rfl, called, result.trans (Option.some.inj ok)⟩

end Stored

end Stencil

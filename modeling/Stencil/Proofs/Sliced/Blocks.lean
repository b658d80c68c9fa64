import Stencil.Proofs.Sliced.Turns

/-!
# Templates by byte positions

The recursion over the blocks of a source ends, each block at a boundary behind the place where it was called
(`exists_block`). So wherever the loop over the tags of a block stands while a template is read, every search, every
cutting and the block itself come to a result (`Reached.safe`), and the template is what `Template.parse` gives
(`Template.parse_sliced`).
-/

namespace Stencil

open Text

namespace Sliced

/-! ## The recursion ends -/

variable {cs : List Char} {f g : Frame} {pos : Nat}

theorem block?_of_ended {result : Except Defect (Block × Nat)} (h : turn? cs f pos = some (.ended result)) :
    block? cs f pos = some result := by
  rw [block?, h]
  rfl

theorem block?_of_on {next : Nat} (h : turn? cs f pos = some (.on g next)) : block? cs f pos = block? cs g next := by
  rw [block?, h]
  rfl

theorem block?_of_enter {next : Nat} {name : String} {opening : Span}
    (h : turn? cs f pos = some (.enter g name opening next)) :
    block? cs f pos = (block? cs (.opened (some name) opening) next).bind fun
      | .error d => some (.error d)
      | .ok (child, next) => block? cs (g.nest child) next := by
  rw [block?, h]
  rfl

/-- The rest of a block is read to its end. Each turn leaves less text for the turns and the calls behind it. -/
theorem exists_block {before after : List Char} (whole : cs = before ++ after) (proper : f.Proper) :
    ∃ result, block? cs f (byteCount before) = some result ∧ Settles cs f (byteCount before) after result := by
  induction h : byteCount after using Nat.strongRecOn generalizing before after f with
  | ind size ih =>
    obtain ⟨turn, turned, turns⟩ := exists_turn whole proper
    subst h
    cases turns with
    | @ended result settles => exact ⟨result, block?_of_ended turned, settles⟩
    | @on passed later g text less proper' settles =>
      obtain ⟨result, read, settled⟩ := ih _ less text proper' rfl
      exact ⟨result, by rw [block?_of_on turned, read], settles result settled⟩
    | @enter passed later g name opening text less proper' fails settles =>
      obtain ⟨inner, read, settled⟩ := ih _ less text (Frame.Proper.opened (some name) opening) rfl
      rw [block?_of_enter turned, read, Option.bind_some]
      cases inner with
      | error d => exact ⟨_, rfl, fails d settled⟩
      | ok ended =>
        obtain ⟨child, stop⟩ := ended
        obtain ⟨le, -, boundary, -⟩ := settled.ends child stop rfl
        obtain ⟨front, rest, split_, rfl⟩ := isBoundary_iff.1 boundary
        -- The nested block ends behind its opening tag, so less is left behind it too.
        have fewer : byteCount rest < byteCount after := by
          have sizes : byteCount (front ++ rest) = byteCount (before ++ passed ++ later) := by rw [← split_, ← text]
          simp only [byteCount_append] at sizes le
          omega
        obtain ⟨result, read', settled'⟩ := ih _ fewer split_ (proper'.nest child) rfl
        refine ⟨result, read', settles child _ result settled ?_⟩
        rw [split_, dropBytes_append]
        rwa [split_] at settled'

/-! ## Everywhere the loop stands -/

/-- A turn that starts at a boundary with proper placeholders is one of those that `Turns` tells of. -/
theorem turns_of_turn? {turn : Turn Frame (Block × Nat)} (start : isBoundary cs pos = true ∧ f.Proper)
    (h : turn? cs f pos = some turn) :
    ∃ before after, Turns cs before after f turn := by
  obtain ⟨before, after, whole, rfl⟩ := isBoundary_iff.1 start.1
  obtain ⟨turn', turned, turns⟩ := exists_turn whole start.2
  cases h.symm.trans turned
  exact ⟨before, after, turns⟩

theorem Reached.boundary_proper (h : Reached cs f pos) : isBoundary cs pos = true ∧ f.Proper := by
  induction h with
  | root => exact ⟨isBoundary_zero cs, Frame.Proper.opened _ _⟩
  | on outer turned ih =>
    obtain ⟨before, after, turns⟩ := turns_of_turn? ih turned
    cases turns with
    | on text less proper settles => exact ⟨isBoundary_iff.2 ⟨_, _, text, rfl⟩, proper⟩
  | enter outer turned ih =>
    obtain ⟨before, after, turns⟩ := turns_of_turn? ih turned
    cases turns with
    | enter text less proper fails settles => exact ⟨isBoundary_iff.2 ⟨_, _, text, rfl⟩, Frame.Proper.opened _ _⟩
  | @leave f g pos next stop name opening child outer turned inner ih =>
    obtain ⟨before, after, turns⟩ := turns_of_turn? ih turned
    cases turns with
    | enter text less proper fails settles =>
      obtain ⟨result, read, settled⟩ := exists_block text (Frame.Proper.opened (some name) opening)
      cases inner.symm.trans read
      obtain ⟨-, -, boundary, -⟩ := settled.ends child stop rfl
      exact ⟨boundary, proper.nest child⟩

/-- What holds of a source wherever the loop over the tags of a block stands while it is read. The search for the next
tag ends, and what it finds are ten bytes or more between two boundaries ahead. No placeholder of the block is empty;
so every text is cut at them to its end, by passes that all leave less of it but the last. The rest of the block is
read to a result; unless that is a defect, it lies at a boundary ahead, for a nested block further ahead. -/
structure Safe (source : String) (f : Frame) (pos : Nat) : Prop where
  boundary : isBoundary source.toList pos = true
  search : tag? source.toList pos = some (Tag.findFrom source pos)
  found : ∀ t, Tag.findFrom source pos = .ok (some t) →
    pos ≤ t.span.start ∧ t.span.start + 10 ≤ t.span.stop ∧ t.span.stop ≤ byteCount source.toList ∧
      isBoundary source.toList t.span.start = true ∧ isBoundary source.toList t.span.stop = true
  proper : ∀ v ∈ f.vars.entries, v.placeholder ≠ ""
  cut : ∀ text out, decompose? f.vars text out = some (out ++ f.vars.segments text, (f.vars.segments text).length)
  shorter : ∀ s s', cutPass f.vars s = some (.again s') → byteCount s'.rest < byteCount s.rest
  block : ∃ result, block? source.toList f pos = some result ∧ ∀ b next, result = .ok (b, next) →
    pos ≤ next ∧ next ≤ byteCount source.toList ∧ isBoundary source.toList next = true ∧ (f.name ≠ none → pos < next)

/-- What is found of a tag lies between two boundaries ahead. -/
theorem span_of_find {before after : List Char} {g : Tag.Found} (whole : cs = before ++ after)
    (h : Tag.find (byteCount before) after = .ok (some g)) :
    byteCount before ≤ g.tag.span.start ∧ g.tag.span.start + 10 ≤ g.tag.span.stop ∧
      g.tag.span.stop ≤ byteCount cs ∧ isBoundary cs g.tag.span.start = true ∧
      isBoundary cs g.tag.span.stop = true := by
  obtain ⟨comment, text, size, span⟩ := exists_of_find h
  rw [span]
  dsimp only
  have begins : isBoundary cs (byteCount (before ++ g.front)) = true :=
    isBoundary_iff.2 ⟨_, comment ++ g.rest, by simp only [whole, text, List.append_assoc], rfl⟩
  have ends : isBoundary cs (byteCount (before ++ (g.front ++ comment))) = true :=
    isBoundary_iff.2 ⟨_, g.rest, by simp only [whole, text, List.append_assoc], rfl⟩
  refine ⟨?_, ?_, le_of_isBoundary ends, begins, ends⟩
  · rw [byteCount_append]
    omega
  · simp only [byteCount_append]
    omega

theorem Reached.safe {source : String} (h : Reached source.toList f pos) : Safe source f pos := by
  obtain ⟨boundary, proper⟩ := h.boundary_proper
  obtain ⟨before, after, whole, rfl⟩ := isBoundary_iff.1 boundary
  have search : Tag.findFrom source (byteCount before) =
      (Tag.find (byteCount before) after).map (Option.map Tag.Found.tag) := Tag.findFrom_eq_find whole
  refine ⟨boundary, ?_, fun t found => ?_, proper, decompose?_eq proper, fun s s' => cutPass_shorter proper, ?_⟩
  · rw [search]
    exact tag?_eq_find whole
  · rw [search] at found
    cases result : Tag.find (byteCount before) after with
    | error d =>
      rw [result] at found
      cases found
    | ok found' =>
      rw [result] at found
      cases found' with
      | none => cases found
      | some g =>
        cases found
        exact span_of_find whole result
  · obtain ⟨result, read, settled⟩ := exists_block whole proper
    exact ⟨result, read, settled.ends⟩

/-- The recursion over the blocks of a source comes to what the reader makes of it. -/
theorem template?_eq (source : String) (file : Nat) : template? source file = some (Template.parse source file) := by
  obtain ⟨result, read, settled⟩ :=
    exists_block (List.nil_append source.toList).symm (Frame.Proper.opened none ⟨0, byteCount source.toList⟩)
  obtain ⟨notes, reads⟩ := settled.reads [] [] (iff_of_true rfl rfl)
  have whole : Template.parse source file = ((goOn source.toList [] notes result).mapError (·.inFile file)) := by
    rw [Template.parse_eq_readOn, ← reads]
    rfl
  rw [template?, whole]
  have read' : block? source.toList (.opened none ⟨0, byteCount source.toList⟩) 0 = some result := read
  rw [read']
  cases result <;> rfl

end Sliced

open Sliced

/-- **A template is read to an end, between characters only.** However a source is cut by byte positions while it is
read, no slice is missing and no loop is endless: what the recursion over its blocks comes to is the template or the
error that `Template.parse` gives. Wherever the loop over the tags of a block stands, `Safe` says why: the position
and both ends of every tag found from there are at boundaries of characters inside the source, and the tag has at
least ten bytes; no placeholder is empty; and each call ends at a boundary behind its beginning. The attributes of
every tag are read to their end, each pair of them by at least two bytes. That no placeholder is empty is needed: with
an empty one the cutting of no text ever ends. -/
theorem Template.parse_sliced (source : String) (file : Nat) :
    template? source file = some (Template.parse source file) ∧
    (∀ f pos, Reached source.toList f pos → Safe source f pos) ∧
    (∀ text, attributes? text = some (Attributes.parse text) ∧
      ∀ pair size, pair? text = some (some (pair, size)) →
        2 ≤ size ∧ size ≤ byteCount text ∧ isBoundary text size = true) ∧
    ∀ vs text out, decompose? vs text out = none ↔ ∃ v ∈ vs.entries, v.placeholder = "" :=
  ⟨template?_eq source file, fun _ _ => Reached.safe, fun text => ⟨attributes?_eq text, fun _ _ => size_of_pair?⟩,
    fun _ _ _ => decompose?_eq_none_iff⟩

/-- A nested block behind a two-byte character, in which a variable with a two-byte placeholder is declared. -/
theorem Template.parse_sliced_nested :
    ∃ f, Reached "é<!--rep blk=b-->ß<!--rep var=x place=ü-->ü<!--/rep-->".toList f 45 ∧
      f.name = some "b" ∧ f.vars.entries.map (·.placeholder) = ["ü"] ∧
      Safe "é<!--rep blk=b-->ß<!--rep var=x place=ü-->ü<!--/rep-->" f 45 := by
  have outer : "é<!--rep blk=b-->ß<!--rep var=x place=ü-->ü<!--/rep-->".toList =
      [] ++ "é<!--rep blk=b-->ß<!--rep var=x place=ü-->ü<!--/rep-->".toList := rfl
  have inner : "é<!--rep blk=b-->ß<!--rep var=x place=ü-->ü<!--/rep-->".toList =
      "é<!--rep blk=b-->".toList ++ "ß<!--rep var=x place=ü-->ü<!--/rep-->".toList := by decide +kernel
  have size : byteCount "é<!--rep blk=b-->".toList = 18 := by decide +kernel
  have block : Tag.find (byteCount []) "é<!--rep blk=b-->ß<!--rep var=x place=ü-->ü<!--/rep-->".toList =
      .ok (some ⟨['é'], ⟨.opening ⟨[("blk", "b")]⟩, ⟨2, 18⟩⟩,
        "ß<!--rep var=x place=ü-->ü<!--/rep-->".toList⟩) := by
    have kind : Tag.Opener.opening.kind " blk=b".toList = .ok (.opening ⟨[("blk", "b")]⟩) := by
      with_unfolding_all rfl
    exact Tag.find_of_parts (by decide +kernel) (by decide +kernel) kind
  have var : Tag.find (byteCount "é<!--rep blk=b-->".toList)
      "ß<!--rep var=x place=ü-->ü<!--/rep-->".toList =
      .ok (some ⟨['ß'], ⟨.opening ⟨[("var", "x"), ("place", "ü")]⟩, ⟨20, 45⟩⟩, "ü<!--/rep-->".toList⟩) := by
    have kind : Tag.Opener.opening.kind " var=x place=ü".toList =
        .ok (.opening ⟨[("var", "x"), ("place", "ü")]⟩) := by
      with_unfolding_all rfl
    rw [size]
    exact Tag.find_of_parts (by decide +kernel) (by decide +kernel) kind
  have entered : turn? "é<!--rep blk=b-->ß<!--rep var=x place=ü-->ü<!--/rep-->".toList
      (.opened none ⟨0, byteCount "é<!--rep blk=b-->ß<!--rep var=x place=ü-->ü<!--/rep-->".toList⟩) 0 =
      some (.enter _ "b" ⟨2, 18⟩ 18) := turn?_of_found outer (Frame.Proper.opened _ _) block
  have declared := turn?_of_found inner (Frame.Proper.opened (some "b") ⟨2, 18⟩) var
  rw [size] at declared
  have reached := (Reached.root.enter entered).on declared
  exact ⟨_, reached, rfl, rfl, (Template.parse_sliced _ 0).2.1 _ _ reached⟩

end Stencil

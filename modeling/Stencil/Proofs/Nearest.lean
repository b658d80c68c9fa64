import Mathlib.Order.Bounds.Defs
import Stencil.Proofs.Leftmost
import Stencil.Proofs.Shifted

/-!
# The nearest tag

From any place between two characters of a source the tag that is found begins at the nearest opener behind which
a word ends, and runs to the nearest closer behind that (`Tag.findFrom_nearest`). Places are counted in bytes and
told without a search: the parts of the text around an occurrence that none precedes are those that the search
cuts the text into (`cutAt?_of_least`, `firstOpener?_of_least`).
-/

namespace Stencil

namespace Text

theorem eq_nil_of_byteCount {cs : List Char} (none_ : byteCount cs = 0) : cs = [] := by
  cases cs with
  | nil => rfl
  | cons c cs =>
    have := Char.utf8Size_pos c
    rw [byteCount_cons] at none_
    omega

/-- Of two beginnings of a text the one with fewer bytes has fewer characters. -/
theorem length_le_of_prefix {xs ys text : List Char} (hx : xs <+: text) (hy : ys <+: text)
    (size : byteCount xs ≤ byteCount ys) : xs.length ≤ ys.length := by
  refine Decidable.byContradiction fun longer => ?_
  have shorter : ys <+: xs := List.prefix_of_prefix_length_le hy hx (by omega)
  have back := byteCount_le_of_prefix shorter
  have same : xs = ys := eq_of_prefix hx hy (Nat.le_antisymm size back)
  exact longer (same ▸ Nat.le_refl _)

/-- What ends no earlier than the front of a text has that front. -/
theorem exists_behind {before after front back : List Char} (same : before ++ after = front ++ back)
    (size : byteCount before ≤ byteCount front) : ∃ mid, front = before ++ mid ∧ after = mid ++ back := by
  rcases List.append_eq_append_iff.1 same with ⟨mid, front_eq, after_eq⟩ | ⟨mid, before_eq, back_eq⟩
  · exact ⟨mid, front_eq, after_eq⟩
  · have none_ : mid = [] := by
      refine eq_nil_of_byteCount ?_
      rw [before_eq, byteCount_append] at size
      omega
    rw [none_, List.append_nil] at before_eq
    rw [none_, List.nil_append] at back_eq
    exact ⟨[], by rw [before_eq, List.append_nil], by rw [back_eq, List.nil_append]⟩

/-- Where a pattern stands a text begins with it, behind some of the characters. -/
theorem StandsAt.exists_take {pat cs : List Char} {offset : Nat} (h : StandsAt pat cs offset) :
    ∃ n ≤ cs.length, (after? pat (cs.drop n)).isSome = true ∧ byteCount (cs.take n) = offset := by
  obtain ⟨front, rest, rfl, rfl⟩ := h
  rw [List.append_assoc]
  refine ⟨front.length, ?_, ?_, ?_⟩
  · rw [List.length_append]
    omega
  · rw [List.drop_left, after?_eq_some_iff.2 rfl]
    rfl
  · rw [List.take_left]

/-- A text is cut around the occurrence of a pattern that none precedes. -/
theorem cutAt?_of_least {pat front rest : List Char}
    (least : ∀ front' rest', front ++ pat ++ rest = front' ++ pat ++ rest' → front.length ≤ front'.length) :
    cutAt? pat (front ++ pat ++ rest) = some (front, rest) := by
  induction front with
  | nil => exact cutAt?_of_after? (after?_eq_some_iff.2 rfl)
  | cons c front ih =>
    have here : after? pat (c :: (front ++ pat ++ rest)) = none := by
      cases found : after? pat (c :: (front ++ pat ++ rest)) with
      | none => rfl
      | some rest' => exact absurd (least [] rest' (after?_eq_some_iff.1 found)) (Nat.not_succ_le_zero _)
    have later := ih fun front' rest' text =>
      Nat.le_of_succ_le_succ (least (c :: front') rest' (by rw [List.cons_append, List.cons_append, text]; rfl))
    rw [List.cons_append, List.cons_append, cutAt?_cons here, later]
    rfl

/-- Behind a front the text is cut around the nearest occurrence of a pattern. -/
theorem cutAt?_of_isLeast {whole ahead rest pat : List Char} (split_ : whole = ahead ++ rest) {q : Nat}
    (nearest : IsLeast {q | byteCount ahead ≤ q ∧ StandsAt pat whole q} q) :
    ∃ inside behind, q = byteCount (ahead ++ inside) ∧ rest = inside ++ pat ++ behind ∧
      cutAt? pat rest = some (inside, behind) := by
  obtain ⟨⟨le, front, behind, text, size⟩, least⟩ := nearest
  subst size
  rw [split_, List.append_assoc front] at text
  obtain ⟨inside, rfl, rest_eq⟩ := exists_behind text le
  rw [← List.append_assoc] at rest_eq
  refine ⟨inside, behind, rfl, rest_eq, ?_⟩
  rw [rest_eq]
  refine cutAt?_of_least fun front' rest' other => ?_
  have here : StandsAt pat whole (byteCount (ahead ++ front')) :=
    ⟨ahead ++ front', rest', by rw [split_, rest_eq, other]; simp only [List.append_assoc], rfl⟩
  have le' := least ⟨by rw [byteCount_append]; omega, here⟩
  rw [byteCount_append, byteCount_append] at le'
  have near : inside <+: rest := ⟨pat ++ behind, by rw [rest_eq, List.append_assoc]⟩
  have far : front' <+: rest := ⟨pat ++ rest', by rw [rest_eq, other, List.append_assoc]⟩
  exact length_le_of_prefix near far (Nat.le_of_add_le_add_left le')

/-- A pattern that stands nowhere behind a front is missing there. -/
theorem cutAt?_of_not_standsAt {whole ahead rest pat : List Char} (split_ : whole = ahead ++ rest)
    (nonempty : pat ≠ []) (none_ : ¬ ∃ q, byteCount ahead ≤ q ∧ StandsAt pat whole q) : cutAt? pat rest = none := by
  refine (cutAt?_eq_none_iff nonempty).2 fun front back text => none_ ⟨byteCount (ahead ++ front), ?_, ?_⟩
  · rw [byteCount_append]
    omega
  · exact ⟨ahead ++ front, back, by rw [split_, text]; simp only [List.append_assoc], rfl⟩

end Text

open Text

namespace Tag

/-- An opener stands in a text behind its first `offset` bytes, and a word ends behind it. -/
def OpensAt (o : Opener) (cs : List Char) (offset : Nat) : Prop :=
  ∃ front rest, cs = front ++ o.text ++ rest ∧ wordEnds rest = true ∧ byteCount front = offset

theorem opener?_of_text {o : Opener} {rest : List Char} (ends : wordEnds rest = true) :
    opener? (o.text ++ rest) = some (o, rest) := by
  have own : behind? o (o.text ++ rest) = some rest := by
    rw [behind?, after?_eq_some_iff.2 rfl, Option.filter_some, if_pos ends]
  unfold opener?
  cases o with
  | closing => rw [own]
  | opening =>
    have other : behind? .closing (Opener.opening.text ++ rest) = none := rfl
    rw [other, own]
    rfl

/-- Where an opener stands a text begins with it, behind some of the characters. -/
theorem OpensAt.exists_take {o : Opener} {cs : List Char} {offset : Nat} (h : OpensAt o cs offset) :
    ∃ n ≤ cs.length, (opener? (cs.drop n)).isSome = true ∧ byteCount (cs.take n) = offset := by
  obtain ⟨front, rest, rfl, ends, rfl⟩ := h
  rw [List.append_assoc]
  refine ⟨front.length, ?_, ?_, ?_⟩
  · rw [List.length_append]
    omega
  · rw [List.drop_left, opener?_of_text ends]
    rfl
  · rw [List.take_left]

/-- The first opener is the one that none precedes. -/
theorem firstOpener?_of_least {o : Opener} {front rest : List Char} (ends : wordEnds rest = true)
    (least : ∀ front' o' rest', front ++ o.text ++ rest = front' ++ Opener.text o' ++ rest' → wordEnds rest' = true →
      front.length ≤ front'.length) : firstOpener? (front ++ o.text ++ rest) = some (front, o, rest) := by
  induction front with
  | nil => exact firstOpener?_of_opener? (opener?_of_text ends)
  | cons c front ih =>
    have here : opener? (c :: (front ++ o.text ++ rest)) = none := by
      cases opens : opener? (c :: (front ++ o.text ++ rest)) with
      | none => rfl
      | some found =>
        obtain ⟨o', rest'⟩ := found
        obtain ⟨text, ends'⟩ := opener?_eq_some opens
        exact absurd (least [] o' rest' text ends') (Nat.not_succ_le_zero _)
    have later := ih fun front' o' rest' text ends' => Nat.le_of_succ_le_succ
      (least (c :: front') o' rest' (by rw [List.cons_append, List.cons_append, text]; rfl) ends')
    rw [List.cons_append, List.cons_append, firstOpener?_cons here, later]
    rfl

theorem firstOpener?_eq_none {cs : List Char}
    (none_ : ∀ front o rest, cs = front ++ Opener.text o ++ rest → wordEnds rest = false) : firstOpener? cs = none := by
  cases first : firstOpener? cs with
  | none => rfl
  | some found =>
    obtain ⟨front, o, rest⟩ := found
    obtain ⟨text, ends, -⟩ := firstOpener?_eq_some first
    rw [none_ front o rest text] at ends
    cases ends

/-- Behind a front the first opener is the nearest one. -/
theorem firstOpener?_of_isLeast {whole before after : List Char} (boundary : whole = before ++ after) {p : Nat}
    {o : Opener} (nearest : IsLeast {p | byteCount before ≤ p ∧ ∃ o, OpensAt o whole p} p) (opens : OpensAt o whole p) :
    ∃ front rest, p = byteCount (before ++ front) ∧ after = front ++ o.text ++ rest ∧
      firstOpener? after = some (front, o, rest) := by
  obtain ⟨⟨le, -⟩, least⟩ := nearest
  obtain ⟨ahead, rest, text, ends, size⟩ := opens
  subst size
  rw [boundary, List.append_assoc ahead] at text
  obtain ⟨front, rfl, after_eq⟩ := exists_behind text le
  rw [← List.append_assoc] at after_eq
  refine ⟨front, rest, rfl, after_eq, ?_⟩
  rw [after_eq]
  refine firstOpener?_of_least ends fun front' o' rest' other ends' => ?_
  have here : OpensAt o' whole (byteCount (before ++ front')) :=
    ⟨before ++ front', rest', by rw [boundary, after_eq, other]; simp only [List.append_assoc], ends', rfl⟩
  have le' := least ⟨by rw [byteCount_append]; omega, o', here⟩
  rw [byteCount_append, byteCount_append] at le'
  have near : front <+: after := ⟨o.text ++ rest, by rw [after_eq, List.append_assoc]⟩
  have far : front' <+: after := ⟨o'.text ++ rest', by rw [after_eq, other, List.append_assoc]⟩
  exact length_le_of_prefix near far (Nat.le_of_add_le_add_left le')

/-- The search behind the front of a source is the search in the rest alone, moved by the front. -/
theorem findFrom_behind {source : String} {before after : List Char} (boundary : source.toList = before ++ after) :
    findFrom source (byteCount before) =
      ((findFrom (String.ofList after) 0).map (Option.map (·.shift (byteCount before)))).mapError
        (·.shift (byteCount before)) := by
  have moved := find_shift 0 (byteCount before) after
  rw [Nat.zero_add] at moved
  rw [findFrom, findFrom, boundary, dropBytes_append, dropBytes_zero, String.toList_ofList, moved]
  cases find 0 after with
  | error d => rfl
  | ok found => cases found <;> rfl

theorem findFrom_eq_find {source : String} {before after : List Char} (boundary : source.toList = before ++ after) :
    findFrom source (byteCount before) = (find (byteCount before) after).map (Option.map Found.tag) := by
  rw [findFrom, boundary, dropBytes_append]

theorem findFrom_of_nowhere {source : String} {before after : List Char} (boundary : source.toList = before ++ after)
    (nowhere : ¬ ∃ p o, byteCount before ≤ p ∧ OpensAt o source.toList p) :
    findFrom source (byteCount before) = .ok none := by
  have first : firstOpener? after = none := by
    refine firstOpener?_eq_none fun front o rest text => ?_
    refine Bool.eq_false_iff.2 fun ends => nowhere
      ⟨byteCount (before ++ front), o, ?_, before ++ front, rest, ?_, ends, rfl⟩
    · rw [byteCount_append]
      omega
    · rw [boundary, text]
      simp only [List.append_assoc]
  rw [findFrom_eq_find boundary, find_eq, first]
  rfl

/-- From the nearest opener on, the tag is what the opener and the text behind it are completed to. -/
theorem findFrom_of_isLeast {source : String} {before after : List Char} (boundary : source.toList = before ++ after)
    {p : Nat} {o : Opener} (nearest : IsLeast {p | byteCount before ≤ p ∧ ∃ o, OpensAt o source.toList p} p)
    (opens : OpensAt o source.toList p) :
    ∃ front rest, p = byteCount front ∧ source.toList = front ++ o.text ++ rest ∧
      findFrom source (byteCount before) = (complete o p rest).map fun read => some read.1 := by
  obtain ⟨front, rest, rfl, text, first⟩ := firstOpener?_of_isLeast boundary nearest opens
  refine ⟨before ++ front, rest, rfl, ?_, ?_⟩
  · rw [boundary, text]
    simp only [List.append_assoc]
  · have found : find (byteCount before) after =
        (complete o (byteCount (before ++ front)) rest).map fun read => some ⟨front, read.1, read.2⟩ := by
      rw [find_eq, first, byteCount_append]
    rw [findFrom_eq_find boundary, found]
    cases complete o (byteCount (before ++ front)) rest <;> rfl

/-- An opener without a closer behind it. -/
theorem complete_of_endless {source : String} {front rest : List Char} {o : Opener}
    (text : source.toList = front ++ o.text ++ rest)
    (endless : ¬ ∃ q, byteCount front + byteCount o.text ≤ q ∧ StandsAt closer source.toList q) :
    complete o (byteCount front) rest = .error ⟨.unterminatedTag, byteCount front, byteCount source.toList⟩ := by
  rw [← byteCount_append] at endless
  rw [complete_of_missing (cutAt?_of_not_standsAt text (List.cons_ne_nil _ _) endless), text, ← byteCount_append,
    List.append_assoc]

/-- An opener with a closer behind it; the nearest one ends the tag. -/
theorem complete_of_isLeast {source : String} {front rest : List Char} {o : Opener} {q : Nat}
    (text : source.toList = front ++ o.text ++ rest)
    (closes : IsLeast {q | byteCount front + byteCount o.text ≤ q ∧ StandsAt closer source.toList q} q) :
    ∃ behind, complete o (byteCount front) rest =
      ((o.kind (slice source.toList (byteCount front + byteCount o.text) q)).map
        fun kind => (⟨kind, byteCount front, q + 3⟩, behind)).mapError
          fun fault => ⟨fault, byteCount front, q + 3⟩ := by
  rw [← byteCount_append] at closes ⊢
  obtain ⟨inside, behind, rfl, rest_eq, cut⟩ := cutAt?_of_isLeast text closes
  have between : slice source.toList (byteCount (front ++ o.text))
      (byteCount (front ++ o.text ++ inside)) = inside := by
    rw [text, rest_eq, byteCount_append _ inside, List.append_assoc inside, ← List.append_assoc]
    exact slice_append _ inside _
  have three : byteCount closer = 3 := by decide
  have stop : byteCount front + byteCount (o.text ++ inside ++ closer) =
      byteCount (front ++ o.text ++ inside) + 3 := by
    simp only [byteCount_append, three, Nat.add_assoc]
  refine ⟨behind, ?_⟩
  rw [complete_of_cut cut, between, stop]
  cases o.kind inside <;> rfl

/-- **The nearest tag is found, in its exact extent.** Let the search begin between two characters of a source,
and let `p` be the nearest place from there on where an opener stands behind which a word ends. Without such a
place nothing is found. If no closer stands behind the opener, its tag is unterminated, up to the end of the
source. Otherwise the tag runs to the end of the nearest closer behind the opener, and it closes a block, or opens
what the attributes between the two are read as; where these cannot be read, that is the defect of the tag. What
stands in front of the place where the search begins moves the answer and has no other part in it. -/
theorem findFrom_nearest {source : String} {before after : List Char} (boundary : source.toList = before ++ after) :
    ((¬ ∃ p o, byteCount before ≤ p ∧ OpensAt o source.toList p) → findFrom source (byteCount before) = .ok none) ∧
    (∀ p o, IsLeast {p | byteCount before ≤ p ∧ ∃ o, OpensAt o source.toList p} p → OpensAt o source.toList p →
      ((¬ ∃ q, p + byteCount o.text ≤ q ∧ StandsAt closer source.toList q) →
        findFrom source (byteCount before) = .error ⟨.unterminatedTag, p, byteCount source.toList⟩) ∧
      ∀ q, IsLeast {q | p + byteCount o.text ≤ q ∧ StandsAt closer source.toList q} q →
        (o = .closing → findFrom source (byteCount before) = .ok (some ⟨.closing, p, q + 3⟩)) ∧
        (o = .opening → ∀ a, Attributes.parse (slice source.toList (p + byteCount o.text) q) = .ok a →
          findFrom source (byteCount before) = .ok (some ⟨.opening a, p, q + 3⟩)) ∧
        (o = .opening → ∀ fault, Attributes.parse (slice source.toList (p + byteCount o.text) q) = .error fault →
          findFrom source (byteCount before) = .error ⟨fault, p, q + 3⟩)) ∧
    findFrom source (byteCount before) =
      ((findFrom (String.ofList after) 0).map (Option.map (·.shift (byteCount before)))).mapError
        (·.shift (byteCount before)) := by
  refine ⟨findFrom_of_nowhere boundary, fun p o nearest opens => ?_, findFrom_behind boundary⟩
  obtain ⟨front, rest, rfl, text, found⟩ := findFrom_of_isLeast boundary nearest opens
  rw [found]
  constructor
  · intro endless
    rw [complete_of_endless text endless]
    rfl
  · intro q closes
    obtain ⟨behind, completed⟩ := complete_of_isLeast text closes
    rw [completed]
    refine ⟨?_, ?_, ?_⟩
    · rintro rfl
      rfl
    · rintro rfl a parsed
      rw [Opener.kind, parsed]
      rfl
    · rintro rfl fault parsed
      rw [Opener.kind, parsed]
      rfl

/-- A comment and a longer word are passed over, also where a tag begins before they end. -/
theorem findFrom_nearest_behind_near_misses :
    IsLeast {p | 2 ≤ p ∧ ∃ o, OpensAt o "é<!--<!--repeat<!--rep blk=x-->".toList p} 16 ∧
      IsLeast {q | 23 ≤ q ∧ StandsAt closer "é<!--<!--repeat<!--rep blk=x-->".toList q} 29 ∧
      findFrom "é<!--<!--repeat<!--rep blk=x-->" 2 = .ok (some ⟨.opening ⟨[("blk", "x")]⟩, 16, 32⟩) := by
  have text : "é<!--<!--repeat<!--rep blk=x-->".toList =
      "é<!--<!--repeat".toList ++ Opener.opening.text ++ (" blk=x".toList ++ closer ++ []) := by decide +kernel
  have opens : OpensAt .opening "é<!--<!--repeat<!--rep blk=x-->".toList 16 := ⟨_, _, text, by decide +kernel⟩
  have nearest : IsLeast {p | 2 ≤ p ∧ ∃ o, OpensAt o "é<!--<!--repeat<!--rep blk=x-->".toList p} 16 := by
    have later : ∀ n ≤ "é<!--<!--repeat<!--rep blk=x-->".toList.length,
        (opener? ("é<!--<!--repeat<!--rep blk=x-->".toList.drop n)).isSome = true →
        2 ≤ byteCount ("é<!--<!--repeat<!--rep blk=x-->".toList.take n) →
          16 ≤ byteCount ("é<!--<!--repeat<!--rep blk=x-->".toList.take n) := by decide +kernel
    refine ⟨⟨by decide, _, opens⟩, ?_⟩
    rintro p ⟨le, o, standing⟩
    obtain ⟨n, short, begins, rfl⟩ := standing.exists_take
    exact later n short begins le
  have closes : IsLeast {q | 23 ≤ q ∧ StandsAt closer "é<!--<!--repeat<!--rep blk=x-->".toList q} 29 := by
    have later : ∀ n ≤ "é<!--<!--repeat<!--rep blk=x-->".toList.length,
        (after? closer ("é<!--<!--repeat<!--rep blk=x-->".toList.drop n)).isSome = true →
        23 ≤ byteCount ("é<!--<!--repeat<!--rep blk=x-->".toList.take n) →
          29 ≤ byteCount ("é<!--<!--repeat<!--rep blk=x-->".toList.take n) := by decide +kernel
    refine ⟨⟨by decide, "é<!--<!--repeat<!--rep blk=x".toList, [], by decide +kernel⟩, ?_⟩
    rintro q ⟨le, standing⟩
    obtain ⟨n, short, begins, rfl⟩ := standing.exists_take
    exact later n short begins le
  have boundary : "é<!--<!--repeat<!--rep blk=x-->".toList = ['é'] ++ "<!--<!--repeat<!--rep blk=x-->".toList := by
    decide +kernel
  have parsed : Attributes.parse (slice "é<!--<!--repeat<!--rep blk=x-->".toList 23 29) = .ok ⟨[("blk", "x")]⟩ := by
    with_unfolding_all rfl
  exact ⟨nearest, closes, (((findFrom_nearest boundary).2.1 16 .opening nearest opens).2 29 closes).2.1 rfl _ parsed⟩

end Tag

end Stencil

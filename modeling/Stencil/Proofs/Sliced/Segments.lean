import Stencil.Proofs.Slices
import Stencil.Proofs.Unmatched

/-!
# Segments by byte positions

A text cut at placeholders by a loop that slices one segment after the other off its front, behind segments that are
there already, and counts them. If no placeholder is empty, every pass but the last leaves less text
(`exists_of_best?`), and the loop ends with what `Variables.decompose` gives (`decompose?_eq`): the text cut at the
earliest and longest placeholders (`Variables.decompose_leftmost`). With an empty placeholder it never ends
(`decompose?_eq_none`).
-/

namespace Stencil

open Text

namespace Sliced

open Variables

/-- A placeholder in a text: the byte where it first stands, the index of its variable, and its bytes. -/
structure Hit where
  offset : Nat
  var : Nat
  size : Nat

/-- The hit to take once variable `i` has been looked for too. -/
def improve (rest : List Char) (best : Option Hit) (i : Nat) (v : Variable) : Option Hit :=
  match offset? v.placeholder.toList rest with
  | none => best
  | some offset =>
    let size := byteCount v.placeholder.toList
    match best with
    | none => some ⟨offset, i, size⟩
    | some hit =>
      if offset < hit.offset ∨ offset = hit.offset ∧ hit.size < size then some ⟨offset, i, size⟩ else some hit

/-- The hit to take once the variables from index `i` on have been looked for too. -/
def bestFrom (rest : List Char) (best : Option Hit) (i : Nat) : List Variable → Option Hit
  | [] => best
  | v :: vs => bestFrom rest (improve rest best i v) (i + 1) vs

/-- The hit at which a text is cut next. -/
def best? (vs : Variables) (rest : List Char) : Option Hit :=
  bestFrom rest none 0 vs.entries

/-- A text that has been cut up to some place: the segments so far, how many of them the text has given, and the text
that is left. -/
structure Cutting where
  out : List Segment
  pushed : Nat
  rest : List Char

/-- One segment more. It is the last one if no placeholder stands in the text that is left. -/
def cutPass (vs : Variables) : Cutting → Option (Pass Cutting (List Segment × Nat))
  | ⟨out, pushed, rest⟩ =>
    match best? vs rest with
    | none => some (.done (out ++ [⟨String.ofList rest, none⟩], pushed + 1))
    | some hit => do
      let front ← slice? rest 0 hit.offset
      let behind ← sliceFrom? rest (hit.offset + hit.size)
      some (.again ⟨out ++ [⟨String.ofList front, some hit.var⟩], pushed + 1, behind⟩)

/-- A text cut at the placeholders of a table, behind the segments `out`, with the number of segments it has given. -/
def decompose? (vs : Variables) (text : List Char) (out : List Segment) : Option (List Segment × Nat) :=
  loop? (cutPass vs) ⟨out, 0, text⟩

theorem offset?_eq_none_iff {pat cs : List Char} : offset? pat cs = none ↔ Missing pat cs := by
  rw [offset?, Option.map_eq_none_iff]
  cases pat with
  | nil =>
    rw [cutAt?_of_after? (after?_nil cs)]
    exact iff_of_false (Option.some_ne_none _) fun missing => missing [] cs rfl
  | cons c pat => exact cutAt?_eq_none_iff (List.cons_ne_nil _ _)

theorem standsAt_of_offset? {pat cs : List Char} {offset : Nat} (h : offset? pat cs = some offset) :
    StandsAt pat cs offset := by
  obtain ⟨⟨front, back⟩, cut, size⟩ := Option.map_eq_some_iff.1 h
  exact ⟨front, back, cutAt?_eq_some cut, size⟩

/-- A pattern that stands in a text is found no further behind. -/
theorem exists_offset? {pat cs : List Char} {offset : Nat} (h : StandsAt pat cs offset) :
    ∃ first ≤ offset, offset? pat cs = some first := by
  obtain ⟨front, back, text, rfl⟩ := h
  cases found : offset? pat cs with
  | none => exact absurd text (offset?_eq_none_iff.1 found front back)
  | some first =>
    obtain ⟨⟨front', back'⟩, cut, size⟩ := Option.map_eq_some_iff.1 found
    have text' := cutAt?_eq_some cut
    have near : front' <+: cs := ⟨pat ++ back', by rw [text', List.append_assoc]⟩
    have far : front <+: cs := ⟨pat ++ back, by rw [text, List.append_assoc]⟩
    refine ⟨first, ?_, rfl⟩
    rw [← size]
    exact byteCount_le_of_prefix (List.prefix_of_prefix_length_le near far (cutAt?_first cut text))

/-- What is to be taken among some variables: nothing if none of their placeholders stands in the text, and else a
hit that stands in front of the others, or at the same byte and is longer, or is as long and declared earlier. -/
def IsBest (rest : List Char) (seen : List Variable) : Option Hit → Prop
  | none => ∀ v ∈ seen, offset? v.placeholder.toList rest = none
  | some hit => ∃ w, seen[hit.var]? = some w ∧ offset? w.placeholder.toList rest = some hit.offset ∧
      byteCount w.placeholder.toList = hit.size ∧
      ∀ j v offset, seen[j]? = some v → offset? v.placeholder.toList rest = some offset →
        hit.offset < offset ∨ hit.offset = offset ∧
          (byteCount v.placeholder.toList < hit.size ∨ byteCount v.placeholder.toList = hit.size ∧ hit.var ≤ j)

section

variable {rest : List Char} {seen : List Variable} {v : Variable}

theorem entry_snoc {j : Nat} {u : Variable} (entry : (seen ++ [v])[j]? = some u) :
    seen[j]? = some u ∨ j = seen.length ∧ u = v := by
  rcases Nat.lt_trichotomy j seen.length with before | rfl | behind
  · rw [List.getElem?_append_left before] at entry
    exact .inl entry
  · rw [List.getElem?_concat_length] at entry
    exact .inr ⟨rfl, (Option.some.inj entry).symm⟩
  · have inside := (List.getElem?_eq_some_iff.1 entry).1
    rw [List.length_append, List.length_singleton] at inside
    omega

/-- A variable that stands nowhere changes nothing. -/
theorem IsBest.of_missing {best : Option Hit} (h : IsBest rest seen best)
    (missing : offset? v.placeholder.toList rest = none) : IsBest rest (seen ++ [v]) best := by
  cases best with
  | none =>
    intro u mem
    rcases List.mem_append.1 mem with earlier | last
    · exact h u earlier
    · rwa [List.mem_singleton.1 last]
  | some hit =>
    obtain ⟨w, entry, stands, size, others⟩ := h
    have inside := (List.getElem?_eq_some_iff.1 entry).1
    refine ⟨w, (List.getElem?_append_left inside).trans entry, stands, size, fun j u offset entry' stands' => ?_⟩
    rcases entry_snoc entry' with earlier | ⟨-, rfl⟩
    · exact others j u offset earlier stands'
    · rw [missing] at stands'
      cases stands'

/-- A variable that stands in front of all others, or at the same byte and is longer, is the one to take. -/
theorem isBest_of_better {offset : Nat} (found : offset? v.placeholder.toList rest = some offset)
    (better : ∀ (j : Nat) u offset', seen[j]? = some u → offset? u.placeholder.toList rest = some offset' →
      offset < offset' ∨
        offset = offset' ∧ byteCount u.placeholder.toList < byteCount v.placeholder.toList) :
    IsBest rest (seen ++ [v]) (some ⟨offset, seen.length, byteCount v.placeholder.toList⟩) := by
  refine ⟨v, List.getElem?_concat_length, found, rfl, fun j u offset' entry stands => ?_⟩
  rcases entry_snoc entry with earlier | ⟨rfl, rfl⟩
  · exact (better j u offset' earlier stands).imp_right fun ⟨same, shorter⟩ => ⟨same, .inl shorter⟩
  · rw [found] at stands
    cases stands
    exact .inr ⟨rfl, .inr ⟨rfl, Nat.le_refl _⟩⟩

/-- A hit stays the one to take if the next variable neither stands in front of it nor is longer at the same byte. -/
theorem IsBest.of_worse {hit : Hit} {offset : Nat} (h : IsBest rest seen (some hit))
    (found : offset? v.placeholder.toList rest = some offset)
    (worse : ¬(offset < hit.offset ∨ offset = hit.offset ∧ hit.size < byteCount v.placeholder.toList)) :
    IsBest rest (seen ++ [v]) (some hit) := by
  obtain ⟨w, entry, stands, size, others⟩ := h
  have inside := (List.getElem?_eq_some_iff.1 entry).1
  refine ⟨w, (List.getElem?_append_left inside).trans entry, stands, size, fun j u offset' entry' stands' => ?_⟩
  rcases entry_snoc entry' with earlier | ⟨rfl, rfl⟩
  · exact others j u offset' earlier stands'
  · rw [found] at stands'
    cases stands'
    omega

theorem IsBest.improve {best : Option Hit} (h : IsBest rest seen best) (v : Variable) :
    IsBest rest (seen ++ [v]) (improve rest best seen.length v) := by
  unfold Sliced.improve
  cases found : offset? v.placeholder.toList rest with
  | none => exact h.of_missing found
  | some offset =>
    cases best with
    | none =>
      refine isBest_of_better found fun j u offset' entry stands => ?_
      rw [h u (List.mem_of_getElem? entry)] at stands
      cases stands
    | some hit =>
      dsimp only
      split
      · next better =>
        obtain ⟨-, -, -, -, others⟩ := h
        refine isBest_of_better found fun j u offset' entry stands => ?_
        have := others j u offset' entry stands
        omega
      · next worse => exact h.of_worse found worse

end

theorem isBest_best? (vs : Variables) (rest : List Char) : IsBest rest vs.entries (best? vs rest) := by
  have run (later : List Variable) : ∀ (seen : List Variable) (best : Option Hit), IsBest rest seen best →
      IsBest rest (seen ++ later) (bestFrom rest best seen.length later) := by
    induction later with
    | nil =>
      intro seen best h
      rwa [List.append_nil]
    | cons v later ih =>
      intro seen best h
      have next := ih (seen ++ [v]) _ (h.improve v)
      rwa [List.append_assoc, List.length_append] at next
  exact run vs.entries [] none nofun

variable {vs : Variables} {rest text : List Char}

/-- The hit is what the table takes from the text. -/
theorem takes_of_best? {hit : Hit} (h : best? vs rest = some hit) :
    vs.Takes rest hit.offset hit.var ∧ hit.size = byteCount (vs.placeholder hit.var).toList := by
  have best := isBest_best? vs rest
  rw [h] at best
  obtain ⟨w, entry, found, size, others⟩ := best
  have place := placeholder_of_getElem? entry
  have stands := standsAt_of_offset? found
  refine ⟨⟨(List.getElem?_eq_some_iff.1 entry).1, place ▸ stands, ?_, ?_, ?_⟩, place ▸ size.symm⟩
  · intro v mem offset here
    obtain ⟨j, entry'⟩ := List.getElem?_of_mem mem
    obtain ⟨first, le, found'⟩ := exists_offset? here
    have := others j v first entry' found'
    omega
  · intro v mem here
    obtain ⟨j, entry'⟩ := List.getElem?_of_mem mem
    obtain ⟨first, le, found'⟩ := exists_offset? here
    have := others j v first entry' found'
    rw [place]
    omega
  · intro j lt same
    have entry' : vs.entries[j]? = some vs.entries[j] := List.getElem?_eq_getElem lt
    have alike : vs.entries[j].placeholder = w.placeholder := by
      rw [← placeholder_of_getElem? entry', same, place]
    have := others j _ hit.offset entry' (alike ▸ found)
    rw [alike] at this
    omega

theorem missing_of_best? (h : best? vs rest = none) : ∀ v ∈ vs.entries, Missing v.placeholder.toList rest := by
  have best := isBest_best? vs rest
  rw [h] at best
  exact fun v mem => offset?_eq_none_iff.1 (best v mem)

/-- A pass takes the text in front of a placeholder and the placeholder itself, which are never nothing. -/
theorem exists_of_best? (proper : ∀ v ∈ vs.entries, v.placeholder ≠ "") {hit : Hit} (h : best? vs rest = some hit) :
    ∃ front behind, rest = front ++ (vs.placeholder hit.var).toList ++ behind ∧ byteCount behind < byteCount rest ∧
      vs.segments rest = ⟨String.ofList front, some hit.var⟩ :: vs.segments behind ∧
      ∀ out pushed, cutPass vs ⟨out, pushed, rest⟩ =
        some (.again ⟨out ++ [⟨String.ofList front, some hit.var⟩], pushed + 1, behind⟩) := by
  obtain ⟨takes, size⟩ := takes_of_best? h
  obtain ⟨front, behind, cut, offset⟩ := takes.stands
  have longer : 0 < byteCount (vs.placeholder hit.var).toList := by
    obtain ⟨v, mem, place, -⟩ := takes.exists_entry
    refine Nat.pos_of_ne_zero fun none_ => proper v mem ?_
    rw [← place, ← String.toList_eq_nil_iff]
    exact eq_nil_of_byteCount none_
  refine ⟨front, behind, cut, ?_, ?_, fun out pushed => ?_⟩
  · rw [cut, byteCount_append, byteCount_append]
    omega
  · rw [cut, ← offset] at takes
    have pieces := Cuts.piece takes (cuts_segments proper behind)
    rw [← cut] at pieces
    exact (cuts_segments proper rest).unique pieces
  · have ahead : slice? rest 0 hit.offset = some front := by
      rw [cut, ← offset, List.append_assoc]
      exact slice?_front front _
    have later : sliceFrom? rest (hit.offset + hit.size) = some behind := by
      rw [cut, ← offset, size, ← byteCount_append]
      exact sliceFrom?_append _ behind
    rw [cutPass, h]
    dsimp only
    rw [ahead, later]
    rfl

/-- Under placeholders that are not empty the text is cut to its end. -/
theorem decompose?_eq (proper : ∀ v ∈ vs.entries, v.placeholder ≠ "") (text : List Char) (out : List Segment) :
    decompose? vs text out = some (vs.decompose text out) := by
  have whole : decompose? vs text out = some (out ++ vs.segments text, 0 + (vs.segments text).length) := by
    refine loop?_eq (fun s : Cutting => (s.out ++ vs.segments s.rest, s.pushed + (vs.segments s.rest).length))
      (fun _ => True) (fun s => byteCount s.rest) ?_ trivial
    rintro ⟨out, pushed, rest⟩ -
    cases best : best? vs rest with
    | none =>
      have last := (cuts_segments proper rest).unique (.rest (missing_of_best? best))
      refine .inl ?_
      rw [cutPass, best, last]
      rfl
    | some hit =>
      obtain ⟨front, behind, -, shorter, segments, pass⟩ := exists_of_best? proper best
      refine .inr ⟨_, pass out pushed, trivial, shorter, ?_⟩
      dsimp only
      rw [segments, List.append_assoc, List.length_cons, Nat.add_assoc, Nat.add_comm 1]
      rfl
  rwa [Nat.zero_add] at whole

theorem cutPass_shorter (proper : ∀ v ∈ vs.entries, v.placeholder ≠ "") {s s' : Cutting}
    (again : cutPass vs s = some (.again s')) : byteCount s'.rest < byteCount s.rest := by
  obtain ⟨out, pushed, rest⟩ := s
  cases best : best? vs rest with
  | none =>
    rw [cutPass, best] at again
    cases again
  | some hit =>
    obtain ⟨front, behind, -, shorter, -, pass⟩ := exists_of_best? proper best
    cases (pass out pushed).symm.trans again
    exact shorter

/-- An empty placeholder is hit in every text, so that no pass is ever the last one. -/
theorem decompose?_eq_none {v : Variable} (mem : v ∈ vs.entries) (empty : v.placeholder = "") (text : List Char)
    (out : List Segment) : decompose? vs text out = none := by
  refine loop?_eq_none fun s result last => ?_
  obtain ⟨out, pushed, rest⟩ := s
  cases best : best? vs rest with
  | none =>
    have missing := missing_of_best? best v mem [] rest
    rw [empty] at missing
    exact missing rfl
  | some hit =>
    rw [cutPass, best] at last
    obtain ⟨front, -, last⟩ := Option.bind_eq_some_iff.1 last
    obtain ⟨behind, -, last⟩ := Option.bind_eq_some_iff.1 last
    cases last

/-- Cutting a text comes to nothing under an empty placeholder, and only there. -/
theorem decompose?_eq_none_iff {out : List Segment} :
    decompose? vs text out = none ↔ ∃ v ∈ vs.entries, v.placeholder = "" := by
  constructor
  · intro endless
    refine Decidable.byContradiction fun none_ => ?_
    have proper : ∀ v ∈ vs.entries, v.placeholder ≠ "" := fun v mem empty => none_ ⟨v, mem, empty⟩
    rw [decompose?_eq proper text out] at endless
    cases endless
  · rintro ⟨v, mem, empty⟩
    exact decompose?_eq_none mem empty text out

end Sliced

namespace Variables

open Sliced

/-- **Text is cut at the earliest and longest placeholders.** Under placeholders that are not empty, cutting a text
leaves the segments that are there as they are, adds a number of tagged ones and a last one that carries no variable,
and gives how many it has added; the text that a block reads is cut so too. The added segments are the text again. A
tagged segment ends at the first byte of the remaining text at which any placeholder stands; its variable's is the
longest of those that stand there, and of variables with this placeholder it is the one declared first. No placeholder
stands in the last segment. If no two placeholders are the same, then in every order of declaration the same names are
found behind the same pieces. -/
theorem decompose_leftmost {vs : Variables} (proper : ∀ v ∈ vs.entries, v.placeholder ≠ "") (text : List Char)
    (out : List Segment) :
    ∃ tagged last,
      decompose? vs text out = some (out ++ (tagged ++ [last]), tagged.length + 1) ∧
      vs.decompose text out = (out ++ (tagged ++ [last]), tagged.length + 1) ∧
      last.var = none ∧
      vs.uncut (tagged ++ [last]) = text ∧
      (∀ front s back, tagged = front ++ s :: back → ∃ i, s.var = some i ∧
        vs.Takes (vs.uncut (s :: back ++ [last])) (byteCount s.text.toList) i) ∧
      (∀ v ∈ vs.entries, Missing v.placeholder.toList last.text.toList) ∧
      ((vs.entries.map (·.placeholder)).Nodup → ∀ ws : Variables, ws.entries.Perm vs.entries → ∀ out',
        ∃ others, decompose? ws text out' = some (out' ++ others, tagged.length + 1) ∧
          ws.named others = vs.named (tagged ++ [last])) := by
  obtain ⟨tagged, last, whole, none_, uncut, each, free, ordered⟩ := exists_pieces proper text
  have cut : vs.decompose text out = (out ++ (tagged ++ [last]), tagged.length + 1) := by
    rw [decompose, whole, List.length_append, List.length_singleton]
  refine ⟨tagged, last, cut ▸ decompose?_eq proper text out, cut, none_, uncut, each, free,
    fun distinct ws order out' => ⟨ws.segments text, ?_, ordered distinct ws order⟩⟩
  have proper' : ∀ v ∈ ws.entries, v.placeholder ≠ "" := fun v hv => proper v (order.mem_iff.1 hv)
  -- Cut under the same names, the text has as many pieces.
  have size : (ws.segments text).length = tagged.length + 1 := by
    have lengths := congrArg List.length (ordered distinct ws order)
    rwa [named, named, List.length_map, List.length_map, List.length_append, List.length_singleton] at lengths
  rw [decompose?_eq proper', decompose, size]

/-- Placeholders that begin alike, of which two are the same, in text behind a segment that is there already. -/
theorem decompose_leftmost_overlapping :
    ∃ (vs : Variables) (tagged : List Segment) (last : Segment),
      vs.entries.map (·.placeholder) = ["é", "éB", "éB", "Bx"] ∧
      decompose? vs "-éBx-éBé.".toList [⟨"a", none⟩] = some (⟨"a", none⟩ :: (tagged ++ [last]), 4) ∧
      tagged ++ [last] = [⟨"-", some 1⟩, ⟨"x-", some 1⟩, ⟨"", some 0⟩, ⟨".", none⟩] ∧
      vs.uncut (tagged ++ [last]) = "-éBx-éBé.".toList ∧
      vs.Takes "-éBx-éBé.".toList 1 1 := by
  let vs : Variables := ⟨[⟨"short", "é", "é", ⟨0, 0⟩⟩, ⟨"long", "éB", "éB", ⟨0, 0⟩⟩,
    ⟨"twin", "éB", "éB", ⟨0, 0⟩⟩, ⟨"late", "Bx", "Bx", ⟨0, 0⟩⟩]⟩
  have cut : vs.decompose "-éBx-éBé.".toList [⟨"a", none⟩] =
      ([⟨"a", none⟩] ++ ([⟨"-", some 1⟩, ⟨"x-", some 1⟩, ⟨"", some 0⟩] ++ [⟨".", none⟩]), 4) := by
    with_unfolding_all rfl
  have proper : ∀ v ∈ vs.entries, v.placeholder ≠ "" := by decide +kernel
  obtain ⟨tagged, last, ran, same, -, uncut, each, -⟩ := decompose_leftmost proper "-éBx-éBé.".toList [⟨"a", none⟩]
  obtain ⟨segments, count⟩ := Prod.mk.inj (same.symm.trans cut)
  have segments := List.append_cancel_left segments
  obtain ⟨pieces, end_⟩ := List.append_inj' segments rfl
  obtain ⟨i, index, taken⟩ := each [] _ _ pieces
  cases index
  cases end_
  refine ⟨vs, tagged, _, rfl, count ▸ ran, segments, uncut, ?_⟩
  rwa [← uncut, segments]

end Variables

end Stencil

import Mathlib.Data.List.Nodup
import Stencil.Proofs.Cutting
import Stencil.Proofs.Openers
import Stencil.Template

/-!
# Where a text is cut

What it means to cut a text at the placeholders of a table, told without a search: a piece ends where a
placeholder stands with none further in front (`Variables.Takes`), and behind the last piece there is none
(`Variables.Cuts`). The segments of a text are cut so (`cuts_segments`), and that leaves no choice but the
index of the variable, so under distinct placeholders the order of declaration does not matter
(`Cuts.named_eq`). `Variables.exists_pieces` says it of the segments one by one.
-/

namespace Stencil

open Text

namespace Text

/-- The pattern stands in a text behind its first `offset` bytes. -/
def StandsAt (pat text : List Char) (offset : Nat) : Prop :=
  ∃ front back, text = front ++ pat ++ back ∧ byteCount front = offset

theorem byteCount_le_of_prefix {xs ys : List Char} (h : xs <+: ys) : byteCount xs ≤ byteCount ys := by
  obtain ⟨more, rfl⟩ := h
  rw [byteCount_append]
  omega

/-- Two beginnings of a text with the same number of bytes are the same. -/
theorem eq_of_prefix {xs ys text : List Char} (hx : xs <+: text) (hy : ys <+: text)
    (size : byteCount xs = byteCount ys) : xs = ys := by
  obtain ⟨x, rfl⟩ := hx
  obtain ⟨y, e⟩ := hy
  have behind : x = y := by
    rw [← dropBytes_append xs x, ← e, size, dropBytes_append]
  exact (List.append_cancel_right (behind ▸ e)).symm

/-- Patterns with the same number of bytes that stand in one place are the same. -/
theorem StandsAt.unique {pat pat' text : List Char} {offset : Nat} (h : StandsAt pat text offset)
    (h' : StandsAt pat' text offset) (size : byteCount pat = byteCount pat') : pat = pat' := by
  obtain ⟨front, back, rfl, rfl⟩ := h
  obtain ⟨front', back', e, size'⟩ := h'
  have ahead : front <+: front ++ pat ++ back := ⟨pat ++ back, by rw [List.append_assoc]⟩
  have ahead' : front' <+: front ++ pat ++ back := ⟨pat' ++ back', by rw [e, List.append_assoc]⟩
  have same : front = front' := eq_of_prefix ahead ahead' size'.symm
  subst same
  rw [List.append_assoc, List.append_assoc, List.append_cancel_left_eq] at e
  exact eq_of_prefix ⟨back, rfl⟩ ⟨back', e.symm⟩ size

end Text

namespace Variables

/-- Behind the first `offset` bytes of a text variable `i` is taken: its placeholder stands there, and none
stands further in front; none that stands there is longer, and none before it in the table is the same. -/
structure Takes (vs : Variables) (text : List Char) (offset i : Nat) : Prop where
  known : i < vs.size
  stands : StandsAt (vs.placeholder i).toList text offset
  leftmost : ∀ v ∈ vs.entries, ∀ o, StandsAt v.placeholder.toList text o → offset ≤ o
  longest : ∀ v ∈ vs.entries, StandsAt v.placeholder.toList text offset →
    byteCount v.placeholder.toList ≤ byteCount (vs.placeholder i).toList
  first : ∀ j < vs.size, vs.placeholder j = vs.placeholder i → i ≤ j

/-- The segments are the text cut at the placeholders of a table. -/
inductive Cuts (vs : Variables) : List Char → List Segment → Prop where
  | rest {text : List Char} (free : ∀ v ∈ vs.entries, Missing v.placeholder.toList text) :
      Cuts vs text [⟨String.ofList text, none⟩]
  | piece {front behind : List Char} {i : Nat} {ss : List Segment}
      (taken : vs.Takes (front ++ (vs.placeholder i).toList ++ behind) (byteCount front) i)
      (later : Cuts vs behind ss) :
      Cuts vs (front ++ (vs.placeholder i).toList ++ behind) (⟨String.ofList front, some i⟩ :: ss)

theorem placeholder_of_getElem? {vs : Variables} {i : Nat} {v : Variable} (entry : vs.entries[i]? = some v) :
    vs.placeholder i = v.placeholder := by
  rw [placeholder, entry]
  rfl

end Variables

/-- A variable with a placeholder is taken exactly where the placeholder stands in front. -/
theorem Variable.take?_eq_some_iff {v : Variable} (proper : v.placeholder ≠ "") {cs rest : List Char} :
    v.take? cs = some rest ↔ cs = v.placeholder.toList ++ rest := by
  refine ⟨take?_eq_some, fun text => ?_⟩
  rw [take?]
  split
  · next none_ => exact absurd (String.toList_eq_nil_iff.1 none_) proper
  · next place => rw [← place, after?_eq_some_iff, text]

namespace Variables

variable {vs : Variables} (proper : ∀ v ∈ vs.entries, v.placeholder ≠ "")

/-! ## The segments are cut so -/

section

include proper

/-- Behind text in which no placeholder begins, the variable that is hit is the one to take. -/
theorem takes_of_hit {front cs rest : List Char} {i : Nat} (hit : hit? cs 0 vs.entries = some (i, rest))
    (clear : ∀ v ∈ vs.entries, ∀ before back, front ++ cs = before ++ v.placeholder.toList ++ back →
      front.length ≤ before.length) :
    cs = (vs.placeholder i).toList ++ rest ∧ vs.Takes (front ++ cs) (byteCount front) i := by
  obtain ⟨n, v, e, entry, taken, shortest⟩ := hit?_shortest hit
  have here : i = n := by omega
  subst here
  have place := placeholder_of_getElem? entry
  have text := Variable.take?_eq_some taken
  have stands_front (before back : List Char) (pat : List Char) (e : front ++ cs = before ++ pat ++ back) :
      before <+: front ++ cs := ⟨pat ++ back, by rw [e, List.append_assoc]⟩
  refine ⟨place ▸ text, (List.getElem?_eq_some_iff.1 entry).1, ?_, ?_, ?_, ?_⟩
  · exact ⟨front, rest, by rw [place, text, List.append_assoc], rfl⟩
  · rintro w hw o ⟨before, back, e, rfl⟩
    have le := clear w hw before back e
    exact byteCount_le_of_prefix (List.prefix_of_prefix_length_le (List.prefix_append front cs)
      (stands_front _ _ _ e) le)
  · rintro w hw ⟨before, back, e, size⟩
    have same : before = front := eq_of_prefix (stands_front _ _ _ e) (List.prefix_append front cs) size
    subst same
    rw [List.append_assoc, List.append_cancel_left_eq] at e
    obtain ⟨m, hm⟩ := List.getElem?_of_mem hw
    have others := shortest m w back hm ((Variable.take?_eq_some_iff (proper w hw)).2 e)
    have lengths := congrArg List.length (text.symm.trans e)
    rw [List.length_append, List.length_append] at lengths
    rw [place]
    exact byteCount_le_of_prefix (List.prefix_of_prefix_length_le ⟨back, e.symm⟩ ⟨rest, text.symm⟩ (by omega))
  · intro j lt same
    have hj : vs.entries[j]? = some vs.entries[j] := List.getElem?_eq_getElem lt
    rw [placeholder_of_getElem? hj, place] at same
    have again : vs.entries[j].take? cs = some rest :=
      (Variable.take?_eq_some_iff (proper _ (List.getElem_mem lt))).2 (same ▸ text)
    have := shortest j _ rest hj again
    omega

theorem cuts_segmentsAfter (seen cs : List Char)
    (clear : ∀ v ∈ vs.entries, ∀ before back, seen.reverse ++ cs = before ++ v.placeholder.toList ++ back →
      seen.reverse.length ≤ before.length) :
    vs.Cuts (seen.reverse ++ cs) (vs.segmentsAfter seen cs) := by
  -- No placeholder begins in what has been seen.
  induction h : cs.length using Nat.strongRecOn generalizing seen cs with
  | ind size ih =>
    rw [segmentsAfter]
    split
    · next i rest hit =>
      obtain ⟨text, taken⟩ := takes_of_hit proper hit clear
      have later := ih rest.length (h ▸ hit?_shorter hit) [] rest (fun _ _ _ _ _ => Nat.zero_le _) rfl
      have whole : seen.reverse ++ cs = seen.reverse ++ (vs.placeholder i).toList ++ rest := by
        rw [text, List.append_assoc]
      rw [whole] at taken ⊢
      exact .piece taken later
    · next missed =>
      have none_ (v : Variable) (hv : v ∈ vs.entries) (back : List Char) : cs ≠ v.placeholder.toList ++ back := by
        intro e
        have taken := (Variable.take?_eq_some_iff (proper v hv)).2 e
        rw [hit?_eq_none.1 missed v hv] at taken
        cases taken
      split
      · rw [List.append_nil] at clear ⊢
        refine .rest fun v hv before back e => proper v hv ?_
        have le := clear v hv before back e
        have lengths := congrArg List.length e
        simp only [List.length_append] at lengths
        exact String.toList_eq_nil_iff.1 (List.eq_nil_of_length_eq_zero (by omega))
      · next c rest _ =>
        have text : (c :: seen).reverse ++ rest = seen.reverse ++ c :: rest := by simp
        rw [← text]
        refine ih rest.length (by simp [← h]) (c :: seen) rest (fun v hv before back e => ?_) rfl
        rw [text] at e
        have le := clear v hv before back e
        have further : seen.reverse.length ≠ before.length := by
          intro same
          rw [List.append_assoc] at e
          exact none_ v hv back (List.append_inj_right e same)
        rw [List.length_reverse] at le further ⊢
        exact Nat.lt_of_le_of_ne le further

/-- The segments of a text are the text cut at the placeholders. -/
theorem cuts_segments (text : List Char) : vs.Cuts text (vs.segments text) :=
  cuts_segmentsAfter proper [] text fun _ _ _ _ _ => Nat.zero_le _

end

/-! ## What a cutting is made of -/

/-- Segments, each with the name of its variable in place of the index. -/
def named (vs : Variables) (ss : List Segment) : List (String × Option String) :=
  ss.map fun s => (s.text, s.var.bind (vs.names[·]?))

namespace Takes

variable {text : List Char} {o i : Nat}

theorem exists_entry (h : vs.Takes text o i) :
    ∃ v ∈ vs.entries, vs.placeholder i = v.placeholder ∧ vs.names[i]? = some v.name := by
  obtain ⟨v, entry⟩ : ∃ v, vs.entries[i]? = some v := ⟨_, List.getElem?_eq_getElem h.known⟩
  refine ⟨_, List.mem_of_getElem? entry, placeholder_of_getElem? entry, ?_⟩
  rw [names, List.getElem?_map, entry]
  rfl

/-- Tables of the same variables take the same placeholder in the same place. -/
theorem unique {ws : Variables} {o' i' : Nat} (same : ∀ v, v ∈ ws.entries ↔ v ∈ vs.entries)
    (h : vs.Takes text o i) (h' : ws.Takes text o' i') : o = o' ∧ vs.placeholder i = ws.placeholder i' := by
  obtain ⟨v, hv, place, -⟩ := h.exists_entry
  obtain ⟨w, hw, place', -⟩ := h'.exists_entry
  have stands := place ▸ h.stands
  have stands' := place' ▸ h'.stands
  have offset : o = o' := Nat.le_antisymm (h.leftmost w ((same w).1 hw) o' stands')
    (h'.leftmost v ((same v).2 hv) o stands)
  subst offset
  have le := h.longest w ((same w).1 hw) stands'
  have le' := h'.longest v ((same v).2 hv) stands
  rw [place] at le
  rw [place'] at le'
  rw [place, place']
  exact ⟨rfl, String.toList_injective (stands.unique stands' (Nat.le_antisymm le' le))⟩

end Takes

namespace Cuts

variable {text : List Char} {ss : List Segment}

/-- Text is cut in one of the two ways. -/
theorem inv (h : vs.Cuts text ss) :
    ((∀ v ∈ vs.entries, Missing v.placeholder.toList text) ∧ ss = [⟨String.ofList text, none⟩]) ∨
      ∃ front behind i later, text = front ++ (vs.placeholder i).toList ++ behind ∧
        ss = ⟨String.ofList front, some i⟩ :: later ∧ vs.Takes text (byteCount front) i ∧ vs.Cuts behind later := by
  cases h with
  | rest free => exact .inl ⟨free, rfl⟩
  | piece taken later => exact .inr ⟨_, _, _, _, rfl, rfl, taken, later⟩

/-- The pieces and the placeholders between them are the text. -/
theorem uncut (h : vs.Cuts text ss) : vs.uncut ss = text := by
  induction h with
  | rest => simp [Variables.uncut]
  | piece _ _ ih =>
    rw [Variables.uncut, List.flatMap_cons, ← Variables.uncut, ih]
    simp

/-- All pieces but the last are cut off where their variables are taken from the rest of the text. -/
theorem pieces (h : vs.Cuts text ss) :
    ∃ tagged last, ss = tagged ++ [last] ∧ last.var = none ∧
      (∀ v ∈ vs.entries, Missing v.placeholder.toList last.text.toList) ∧
      ∀ front s back, tagged = front ++ s :: back → ∃ i, s.var = some i ∧
        vs.Takes (vs.uncut (s :: back ++ [last])) (byteCount s.text.toList) i := by
  induction h with
  | @rest text free =>
    refine ⟨[], _, rfl, rfl, ?_, fun front s back e => ?_⟩
    · rwa [String.toList_ofList]
    · exact absurd e.symm (by simp)
  | @piece before behind i ss taken later ih =>
    obtain ⟨tagged, last, rfl, none_, free, each⟩ := ih
    refine ⟨_ :: tagged, last, rfl, none_, free, fun front s back e => ?_⟩
    cases front with
    | nil =>
      cases e
      have text : vs.uncut (⟨String.ofList before, some i⟩ :: tagged ++ [last]) =
          before ++ (vs.placeholder i).toList ++ behind := (Cuts.piece taken later).uncut
      refine ⟨i, rfl, ?_⟩
      rwa [text, String.toList_ofList]
    | cons t front =>
      cases e
      exact each front s back rfl

/-- Under distinct placeholders, a text is cut at the same names whatever order they are declared in. -/
theorem named_eq {ws : Variables} (order : ws.entries.Perm vs.entries)
    (distinct : (vs.entries.map (·.placeholder)).Nodup) {ss' : List Segment} (h : vs.Cuts text ss)
    (h' : ws.Cuts text ss') : vs.named ss = ws.named ss' := by
  have same (v : Variable) : v ∈ ws.entries ↔ v ∈ vs.entries := order.mem_iff
  induction h generalizing ss' with
  | @rest text free =>
    rcases h'.inv with ⟨-, rfl⟩ | ⟨front, behind, i, later, e, -, taken, -⟩
    · rfl
    · obtain ⟨w, hw, place, -⟩ := taken.exists_entry
      exact absurd (place ▸ e) (free w ((same w).1 hw) front behind)
  | @piece front behind i ss taken later ih =>
    obtain ⟨v, hv, place, name⟩ := taken.exists_entry
    rcases h'.inv with ⟨free, -⟩ | ⟨front', behind', i', ss', e, rfl, taken', later'⟩
    · exact absurd (by rw [place]) (free v ((same v).2 hv) front behind)
    · obtain ⟨size, alike⟩ := taken.unique same taken'
      obtain ⟨w, hw, place', name'⟩ := taken'.exists_entry
      have one : v = w := List.inj_on_of_nodup_map distinct hv ((same w).1 hw)
        (place.symm.trans (alike.trans place'))
      rw [← alike, List.append_assoc, List.append_assoc] at e
      have start : front = front' := eq_of_prefix ⟨_, rfl⟩ ⟨_, e.symm⟩ size
      subst start
      have rest : behind = behind' := List.append_cancel_left (List.append_cancel_left e)
      have others := ih (rest ▸ later')
      rw [named, named] at others ⊢
      rw [List.map_cons, List.map_cons, others, Option.bind_some, Option.bind_some, name, name', one]

end Cuts

end Variables

/-- The segments of a text are a number of tagged ones and a last one that carries no variable. They are the text
again. A tagged segment ends where its variable is taken from the remaining text, and no placeholder stands in the
last one. If no two placeholders are the same, then in every order of declaration the same names are found behind the
same pieces. -/
theorem Variables.exists_pieces {vs : Variables} (proper : ∀ v ∈ vs.entries, v.placeholder ≠ "") (text : List Char) :
    ∃ tagged last, vs.segments text = tagged ++ [last] ∧ last.var = none ∧
      vs.uncut (tagged ++ [last]) = text ∧
      (∀ front s back, tagged = front ++ s :: back → ∃ i, s.var = some i ∧
        vs.Takes (vs.uncut (s :: back ++ [last])) (byteCount s.text.toList) i) ∧
      (∀ v ∈ vs.entries, Missing v.placeholder.toList last.text.toList) ∧
      ((vs.entries.map (·.placeholder)).Nodup → ∀ ws : Variables, ws.entries.Perm vs.entries →
        ws.named (ws.segments text) = vs.named (tagged ++ [last])) := by
  have cuts := cuts_segments proper text
  obtain ⟨tagged, last, whole, none_, free, each⟩ := cuts.pieces
  refine ⟨tagged, last, whole, none_, whole ▸ cuts.uncut, each, free, fun distinct ws order => ?_⟩
  have proper' : ∀ v ∈ ws.entries, v.placeholder ≠ "" := fun v hv => proper v (order.mem_iff.1 hv)
  rw [← whole]
  exact (cuts.named_eq order distinct (cuts_segments proper' text)).symm

end Stencil

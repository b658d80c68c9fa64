import Stencil.Proofs.Contexts
import Stencil.Proofs.FieldOrder
import Stencil.Proofs.Leftmost

/-!
# Placeholders that are not found

A variable is unmatched if its placeholder is taken in no stretch of its block's own text behind the declaration
(`Outline.Unmatched`). The reader refuses a source for that exactly when it comes, without another defect, to the end
of a block with such a variable, and it names all of them (`Template.parse_unmatched`).
-/

namespace Stencil

open Text
open Tag (Piece)

/-! ## What is taken from a text -/

namespace Variables

variable {vs : Variables} {text : List Char} {i : Nat}

/-- The placeholder of variable `i` is taken when a text is cut. -/
def Consumes (vs : Variables) (text : List Char) (i : Nat) : Prop := ∃ ss, vs.Cuts text ss ∧ ∃ s ∈ ss, s.var = some i

theorem Takes.index_unique {o o' i' : Nat} (h : vs.Takes text o i) (h' : vs.Takes text o' i') : o = o' ∧ i = i' := by
  obtain ⟨same, place⟩ := h.unique (fun _ => Iff.rfl) h'
  exact ⟨same, Nat.le_antisymm (h.first i' h'.known place.symm) (h'.first i h.known place)⟩

/-- A text is cut in one way. -/
theorem Cuts.unique {ss ss' : List Segment} (h : vs.Cuts text ss) (h' : vs.Cuts text ss') : ss = ss' := by
  induction h generalizing ss' with
  | @rest text free =>
    rcases h'.inv with ⟨-, rfl⟩ | ⟨front, behind, i, later, e, -, taken, -⟩
    · rfl
    · obtain ⟨w, hw, place, -⟩ := taken.exists_entry
      exact absurd (place ▸ e) (free w hw front behind)
  | @piece front behind i ss taken later ih =>
    obtain ⟨v, hv, place, -⟩ := taken.exists_entry
    rcases h'.inv with ⟨free, -⟩ | ⟨front', behind', i', ss', e, rfl, taken', later'⟩
    · exact absurd (by rw [place]) (free v hv front behind)
    · obtain ⟨size, rfl⟩ := taken.index_unique taken'
      rw [List.append_assoc, List.append_assoc] at e
      have start : front = front' := eq_of_prefix ⟨_, rfl⟩ ⟨_, e.symm⟩ size
      subst start
      have rest : behind = behind' := List.append_cancel_left (List.append_cancel_left e)
      rw [ih (rest ▸ later')]

theorem consumes_iff (proper : ∀ v ∈ vs.entries, v.placeholder ≠ "") :
    vs.Consumes text i ↔ ∃ s ∈ vs.segments text, s.var = some i := by
  have cuts := cuts_segments proper text
  constructor
  · rintro ⟨ss, cut, taken⟩
    rwa [cuts.unique cut]
  · exact fun taken => ⟨_, cuts, taken⟩

/-- What is taken stands somewhere in the text, and is taken from what is left there. -/
theorem Consumes.exists_takes (h : vs.Consumes text i) : ∃ front rest o, text = front ++ rest ∧ vs.Takes rest o i := by
  obtain ⟨ss, cuts, s, mem, var⟩ := h
  induction cuts with
  | rest =>
    cases List.mem_singleton.1 mem
    cases var
  | @piece front behind j ss taken later ih =>
    rcases List.mem_cons.1 mem with rfl | mem
    · cases var
      exact ⟨[], _, _, rfl, taken⟩
    · obtain ⟨front', rest, o, rfl, taken'⟩ := ih mem
      exact ⟨front ++ (vs.placeholder j).toList ++ front', rest, o, (List.append_assoc ..).symm, taken'⟩

end Variables

/-! ## The text of a block -/

namespace Outline

/-- The stretches of a block's own text, each with the variables declared in front of it, to begin with those of
`vs`; `tail` is the text behind the last tag. -/
def ownText : Variables → Outline → (tail : List Char) → List (Variables × List Char)
  | vs, nil, tail => [(vs, tail)]
  | vs, var p next, tail => (vs, p.text) :: ownText (vs.declareBy p.tag) next tail
  | vs, block opening _ _ next, tail => (vs, opening.text) :: ownText vs next tail

theorem flatten_gaps (vs : Variables) (o : Outline) (tail : List Char) :
    (gaps vs o tail).flatten = (ownText vs o tail).flatMap fun s => s.1.segments s.2 := by
  induction o generalizing vs with
  | nil => simp [gaps, ownText]
  | var p next ih => rw [gaps, flatten_ontoFirst, ih, ownText, List.flatMap_cons]
  | block opening body closing next _ ih => rw [gaps, List.flatten_cons, ih, ownText, List.flatMap_cons]

/-- The variables that a stretch is cut with are the first of those of the block. -/
theorem prefix_of_ownText {vs : Variables} {o : Outline} {tail : List Char} {s : Variables × List Char}
    (mem : s ∈ ownText vs o tail) : s.1.entries <+: vs.entries ++ o.table := by
  induction o generalizing vs with
  | nil =>
    cases List.mem_singleton.1 mem
    exact List.prefix_append _ _
  | var p next ih =>
    rcases List.mem_cons.1 mem with rfl | later
    · exact List.prefix_append _ _
    · have known := ih later
      rwa [Variables.declareBy, Variables.declare, List.append_assoc] at known
  | block opening body closing next _ ih =>
    rcases List.mem_cons.1 mem with rfl | later
    · exact List.prefix_append _ _
    · exact ih later

/-- A variable whose placeholder is taken in no stretch of the block's own text behind its declaration. -/
def Unmatched (o : Outline) (tail : List Char) (v : Variable) : Prop :=
  ∃ i, o.table[i]? = some v ∧ ∀ s ∈ ownText .empty o tail, i < s.1.size → ¬ s.1.Consumes s.2 i

variable {o : Outline} {tail : List Char} {v : Variable}

/-- The unmatched variables are those that no segment of the block carries. -/
theorem unmatched_iff (proper : ∀ v ∈ o.table, v.placeholder ≠ "") : o.Unmatched tail v ↔
    ∃ i, o.table[i]? = some v ∧ ¬ ∃ s ∈ (gaps .empty o tail).flatten, s.var = some i := by
  have each {s : Variables × List Char} (mem : s ∈ ownText .empty o tail) (i : Nat) :
      s.1.Consumes s.2 i ↔ ∃ seg ∈ s.1.segments s.2, seg.var = some i :=
    Variables.consumes_iff fun w hw => proper w ((prefix_of_ownText mem).subset hw)
  refine exists_congr fun i => and_congr_right fun _ => ?_
  rw [flatten_gaps]
  constructor
  · rintro free ⟨seg, mem, var⟩
    obtain ⟨s, hs, mem⟩ := List.mem_flatMap.1 mem
    have consumes := (each hs i).2 ⟨seg, mem, var⟩
    obtain ⟨-, rest, o, -, taken⟩ := consumes.exists_takes
    exact free s hs taken.known consumes
  · intro free s hs _ consumes
    obtain ⟨seg, mem, var⟩ := (each hs i).1 consumes
    exact free ⟨seg, List.mem_flatMap.2 ⟨s, hs, mem⟩, var⟩

/-- In the table of a stretch the variables are those of the block. -/
theorem placeholder_of_ownText {s : Variables × List Char} {i : Nat} (mem : s ∈ ownText .empty o tail)
    (known : i < s.1.size) (entry : o.table[i]? = some v) : s.1.placeholder i = v.placeholder := by
  obtain ⟨more, table⟩ := prefix_of_ownText mem
  have table : s.1.entries ++ more = o.table := table
  rw [← table, List.getElem?_append_left known] at entry
  exact Variables.placeholder_of_getElem? entry

/-- A placeholder that stands in no stretch behind the declaration is taken in none. -/
theorem unmatched_of_missing {i : Nat} (entry : o.table[i]? = some v)
    (missing : ∀ s ∈ ownText .empty o tail, i < s.1.size → Missing v.placeholder.toList s.2) : o.Unmatched tail v := by
  refine ⟨i, entry, fun s mem known consumes => ?_⟩
  obtain ⟨front, rest, at_, text, taken⟩ := consumes.exists_takes
  obtain ⟨before, back, split_, -⟩ := taken.stands
  rw [placeholder_of_ownText mem known entry] at split_
  refine missing s mem known (front ++ before) back ?_
  rw [text, split_]
  simp only [List.append_assoc]

/-- Of two variables with the same placeholder the later one is never taken. -/
theorem unmatched_of_twin {i j : Nat} {w : Variable} (order : i < j) (entry : o.table[i]? = some v)
    (entry' : o.table[j]? = some w) (same : v.placeholder = w.placeholder) : o.Unmatched tail w := by
  refine ⟨j, entry', fun s mem known consumes => ?_⟩
  obtain ⟨-, rest, at_, -, taken⟩ := consumes.exists_takes
  have first := taken.first i (Nat.lt_trans order known)
  rw [placeholder_of_ownText mem known entry', placeholder_of_ownText mem (Nat.lt_trans order known) entry] at first
  exact absurd (first same) (Nat.not_le_of_lt order)

/-- Every variable of a block is declared by one of its tags. -/
theorem exists_declaring (shaped : o.Shaped) (declares : ∀ p ∈ o.pieces, p.tag.Declares) (known : v ∈ o.table) :
    ∃ p ∈ o.pieces, Tag.NamesVar p.tag v.name ∧ p.tag.span = v.span := by
  induction o with
  | nil => cases known
  | var p next ih =>
    rcases List.mem_cons.1 known with rfl | later
    · obtain ⟨a, kind, declared⟩ := (declares p List.mem_cons_self).variable shaped.1 shaped.2.1
      obtain ⟨blk, var, -, -⟩ := Attributes.declaration_eq_var_iff.1 declared
      rw [← Tag.get?_opening kind] at blk var
      exact ⟨p, List.mem_cons_self, ⟨blk, var⟩, rfl⟩
    · obtain ⟨q, mem, named⟩ := ih shaped.2.2 (fun q mem => declares q (.tail _ mem)) later
      exact ⟨q, .tail _ mem, named⟩
  | block opening body closing next _ ih =>
    have behind {q : Piece} (mem : q ∈ next.pieces) : q ∈ (block opening body closing next).pieces :=
      List.mem_append_right _ (.tail _ mem)
    obtain ⟨q, mem, named⟩ := ih shaped.2.2.2 (fun q mem => declares q (behind mem)) known
    exact ⟨q, behind mem, named⟩

end Outline

/-! ## The end of a block -/

namespace Frame

variable {f : Frame}

theorem mem_unmatched_iff {v : Variable} :
    v ∈ f.unmatched ↔ ∃ i, f.vars.entries[i]? = some v ∧ ¬ ∃ s ∈ f.allGaps.flatten, s.var = some i := by
  unfold unmatched Variables.missing
  rw [List.mem_mergeSort]
  simp only [List.mem_map, List.mem_filter, List.mem_zipIdx_iff_getElem?, Prod.exists, Bool.not_eq_true',
    List.any_eq_false, beq_iff_eq]
  constructor
  · rintro ⟨w, i, ⟨entry, free⟩, rfl⟩
    exact ⟨i, entry, fun ⟨s, mem, var⟩ => free s mem var⟩
  · rintro ⟨i, entry, free⟩
    exact ⟨v, i, ⟨entry, fun s mem var => free ⟨s, mem, var⟩⟩, rfl⟩

/-- Variables with different names are listed in the ascending byte order of their names. -/
theorem unmatched_ascending (distinct : (f.vars.entries.map (·.name)).Nodup) :
    (f.unmatched.map (·.name)).Pairwise fun a b => bytes a < bytes b := by
  have sorted : f.unmatched.Pairwise fun a b => decide (a.name ≤ b.name) = true := by
    apply List.pairwise_mergeSort
    · intro a b c ab bc
      exact decide_eq_true (String.le_trans (of_decide_eq_true ab) (of_decide_eq_true bc))
    · intro a b
      rcases String.le_total a.name b.name with le | le <;> simp [le]
  have once : f.unmatched.Pairwise fun a b => a.name ≠ b.name := by
    refine ((List.mergeSort_perm _ _).pairwise_iff fun h => Ne.symm h).2 ?_
    refine List.Pairwise.sublist (List.filter_sublist.map Prod.fst) ?_
    rw [List.zipIdx_map_fst]
    exact List.pairwise_map.1 distinct
  rw [List.pairwise_map]
  refine (sorted.and once).imp fun ⟨le, ne⟩ => bytes_lt_iff.2 ?_
  exact String.not_le.1 fun ge => ne (String.le_antisymm (of_decide_eq_true le) ge)

theorem close_of_unmatched {v : Variable} {vs : List Variable} (found : f.unmatched = v :: vs) (stop : Nat) :
    f.close stop = .error ⟨.placeholdersNotFound ((v :: vs).map (·.name)), v.span⟩ := by
  rw [close, found]

end Frame

/-- Behind the tags `done` the reader comes, without a defect, to the end of a block that encloses `own`: to its closing
tag, or for the root to the end of the source. In front of that stands the text `last`. -/
inductive EndsBlock (cs : List Char) : (done : List Piece) → (own : Outline) → (last : List Char) → Prop where
  | root {own : Outline} {last : List Char} (tags : Tag.scan 0 cs = ⟨own.pieces, .ok last⟩) (sound : own.Sound) :
      EndsBlock cs own.pieces own last
  | nested {outer : Context} {before own : Outline} {opening closing : Piece} {later : List Piece}
      (tags : (Tag.scan 0 cs).pieces = (Context.nested outer before opening).pieces ++ own.pieces ++ closing :: later)
      (closes : closing.tag.closes = true) (around : (Context.nested outer before opening).Sound) (sound : own.Sound) :
      EndsBlock cs ((Context.nested outer before opening).pieces ++ own.pieces) own closing.text

/-- The frame of a block lacks the unmatched variables of its outline. -/
theorem Context.mem_unmatched_frame {size : Nat} {c : Context} {o : Outline} (sound : o.Sound) (tail : List Char)
    (v : Variable) : v ∈ ((c.frame size o).read tail).unmatched ↔ o.Unmatched tail v := by
  have vars : ((c.frame size o).read tail).vars = ⟨o.table⟩ := vars_frame
  rw [Frame.mem_unmatched_iff, Outline.unmatched_iff sound.places, allGaps_frame, vars]

/-- A closing tag is refused if the block it closes is. -/
theorem Builder.step_of_close {b : Builder} {p : Piece} {d : Defect} (closes : p.tag.closes = true)
    (inside : b.enclosing ≠ []) (failed : (b.frame.read p.text).close p.tag.span.stop = .error d) :
    b.step p = .error d := by
  obtain ⟨parent, others, open_⟩ := List.exists_cons_of_ne_nil inside
  simp only [step, Tag.closes_iff.1 closes, open_, failed]
  rfl

/-- A root that is refused ends the reading. -/
theorem Builder.finish_of_close {b : Builder} {size : Nat} {text : List Char} {d : Defect} (outer : b.enclosing = [])
    (failed : (b.frame.read text).close size = .error d) : b.finish size (.ok text) = .error d := by
  rw [finish, outer]
  exact failed

namespace EndsBlock

variable {source : String} {done : List Piece} {own : Outline} {last : List Char}

/-- What the reader knows at the end of a block, and what comes next. -/
theorem exists_builder (h : EndsBlock source.toList done own last) :
    ∃ b, (Builder.start (byteCount source.toList)).run done = (b, none) ∧
      ((b.frame.read last).vars.entries.map (·.name)).Nodup ∧
      (∀ v, v ∈ (b.frame.read last).unmatched ↔ own.Unmatched last v) ∧
      ((Tag.scan 0 source.toList = ⟨done, .ok last⟩ ∧ b.enclosing = []) ∨
      ∃ closing later, (Tag.scan 0 source.toList).pieces = done ++ closing :: later ∧ closing.tag.closes = true ∧
        closing.text = last ∧ b.enclosing ≠ []) := by
  have vars {c : Context} {size : Nat} (sound : own.Sound) :
      (((c.frame size own).read last).vars.entries.map (·.name)).Nodup := by
    have table : ((c.frame size own).read last).vars = ⟨own.table⟩ := Context.vars_frame
    rw [table]
    exact sound.vars
  cases h with
  | root tags sound =>
    obtain ⟨notes, ran⟩ := Context.run (c := .root) (byteCount source.toList) trivial sound
    exact ⟨_, ran, vars sound, Context.mem_unmatched_frame sound last, .inl ⟨tags, rfl⟩⟩
  | nested tags closes around sound =>
    obtain ⟨notes, ran⟩ := Context.run (byteCount source.toList) around sound
    exact ⟨_, ran, vars sound, Context.mem_unmatched_frame sound _,
      .inr ⟨_, _, tags, closes, rfl, List.cons_ne_nil _ _⟩⟩

theorem sound (h : EndsBlock source.toList done own last) : own.Sound := by
  cases h <;> assumption

/-- At the end of a block with unmatched variables reading stops, and the error names them. -/
theorem parse (h : EndsBlock source.toList done own last) {v : Variable} (unmatched : own.Unmatched last v)
    (file : Nat) : ∃ w ws, Template.parse source file =
        .error ⟨⟨.placeholdersNotFound ((w :: ws).map (·.name)), w.span⟩, file⟩ ∧
      (∀ u, u ∈ w :: ws ↔ own.Unmatched last u) ∧
      ((w :: ws).map (·.name)).Pairwise fun a b => bytes a < bytes b := by
  obtain ⟨b, ran, distinct, each, next⟩ := h.exists_builder
  have ascending := Frame.unmatched_ascending distinct
  obtain ⟨w, ws, found⟩ := List.exists_cons_of_ne_nil (List.ne_nil_of_mem ((each v).2 unmatched))
  rw [found] at each ascending
  refine ⟨w, ws, ?_, each, ascending⟩
  rcases next with ⟨tags, outer⟩ | ⟨closing, later, tags, closes, rfl, inside⟩
  · refine Template.parse_of_finish (b := b) (d := ⟨_, _⟩) file (by rw [tags]; exact ran) ?_
    rw [tags]
    exact Builder.finish_of_close outer (Frame.close_of_unmatched found _)
  · exact Template.parse_of_step (d := ⟨_, _⟩) file tags ran
      (Builder.step_of_close closes inside (Frame.close_of_unmatched found _))

/-- All variables of a block that ends earlier are matched. -/
theorem matched_earlier {done' : List Piece} {own' : Outline} {last' : List Char}
    (h : EndsBlock source.toList done own last) (h' : EndsBlock source.toList done' own' last')
    (earlier : done.length < done'.length) (v : Variable) : ¬ own.Unmatched last v := by
  intro unmatched
  obtain ⟨b, ran, -, each, next⟩ := h.exists_builder
  obtain ⟨b', ran', -, -, next'⟩ := h'.exists_builder
  obtain ⟨more, tags'⟩ : ∃ more, (Tag.scan 0 source.toList).pieces = done' ++ more := by
    rcases next' with ⟨tags, -⟩ | ⟨closing, later, tags, -⟩
    · exact ⟨[], by rw [tags, List.append_nil]⟩
    · exact ⟨_, tags⟩
  rcases next with ⟨tags, -⟩ | ⟨closing, later, tags, closes, rfl, inside⟩
  · rw [tags] at tags'
    have sizes : done.length = (done' ++ more).length := congrArg List.length tags'
    rw [List.length_append] at sizes
    omega
  · obtain ⟨w, ws, found⟩ := List.exists_cons_of_ne_nil (List.ne_nil_of_mem ((each v).2 unmatched))
    have stops := Builder.step_of_close closes inside (Frame.close_of_unmatched found _)
    obtain ⟨between, rfl⟩ : ∃ between, done' = done ++ closing :: between := by
      rw [tags] at tags'
      rcases List.append_eq_append_iff.1 tags' with ⟨mid, rfl, e⟩ | ⟨mid, rfl, -⟩
      · cases mid with
        | nil =>
          rw [List.append_nil] at earlier
          omega
        | cons q mid =>
          obtain ⟨rfl, -⟩ := List.cons.inj e
          exact ⟨mid, rfl⟩
      · rw [List.length_append] at earlier
        omega
    rw [Builder.run_append ran, Builder.run, stops] at ran'
    cases ran'

end EndsBlock

/-- A frame that is refused has an unmatched variable. -/
theorem Frame.exists_unmatched {f : Frame} {stop : Nat} {d : Defect} (failed : f.close stop = .error d) :
    ∃ v, v ∈ f.unmatched := by
  refine List.exists_mem_of_ne_nil _ fun none_ => ?_
  rw [close, none_] at failed
  cases failed

/-- A tag that cannot be read is no matter of placeholders. -/
theorem Tag.fault_of_find_error {pos : Nat} {cs : List Char} {d : Defect} (h : find pos cs = .error d)
    (names : List String) : d.fault ≠ .placeholdersNotFound names := by
  intro fault
  obtain ⟨_, o, _, -, -, ⟨endless, -⟩ | ⟨inside, _, -, misread, -⟩⟩ := find_eq_error h
  · rw [fault] at endless
    cases endless
  · obtain ⟨-, parsed⟩ := Opener.kind_eq_error misread
    rw [fault] at parsed
    rcases Attributes.parse_eq_error parsed with ⟨key, e, -⟩ | ⟨e, -⟩ <;> cases e

/-- Where placeholders are not found the reader has come to the end of a block with unmatched variables. -/
theorem exists_endsBlock {source : String} {file : Nat} {e : ParseError} {names : List String}
    (h : Template.parse source file = .error e) (fault : e.fault = .placeholdersNotFound names) :
    ∃ done own last v, EndsBlock source.toList done own last ∧ own.Unmatched last v := by
  obtain ⟨d, rfl, ⟨done, p, rest, b, pieces, ran, failed⟩ | ⟨b, ran, failed⟩⟩ := Template.parse_eq_error h
  · obtain ⟨c, own, around, sound, rfl, frame, enclosing⟩ := Context.exists_of_run ran
    cases Builder.refuses_of_step failed with
    | stray | enter => cases fault
    | nothing _ undeclared =>
      cases fault
      rcases Attributes.declaration_eq_error undeclared with ⟨e, -⟩ | ⟨e, -⟩ | ⟨e, -⟩ | ⟨e, -⟩ <;> cases e
    | declare _ _ misplaced => rcases Frame.declare_eq_error misplaced with ⟨-, rfl⟩ | ⟨-, rfl⟩ <;> cases fault
    | close tag open_ unclosed =>
      rw [frame] at unclosed
      obtain ⟨v, unmatched⟩ := Frame.exists_unmatched unclosed
      rw [Context.mem_unmatched_frame sound] at unmatched
      cases c with
      | root =>
        rw [enclosing] at open_
        cases open_
      | nested outer before opening =>
        exact ⟨_, own, p.text, v, .nested pieces (Tag.closes_iff.2 tag) around sound, unmatched⟩
  · obtain ⟨c, own, around, sound, tags, frame, enclosing⟩ := Context.exists_of_run ran
    rcases Builder.finish_eq_error failed with tail | ⟨text, tail, ⟨-, rfl⟩ | ⟨outer, unclosed⟩⟩
    · obtain ⟨stop, left, -, stuck⟩ := Tag.walk_of_tail_error tail
      exact absurd fault (Tag.fault_of_find_error stuck names)
    · cases fault
    · rw [frame] at unclosed
      obtain ⟨v, unmatched⟩ := Frame.exists_unmatched unclosed
      rw [Context.mem_unmatched_frame sound] at unmatched
      cases c with
      | root =>
        refine ⟨_, own, text, v, .root ?_ sound, unmatched⟩
        rw [← tail]
        exact congrArg (fun ps => (⟨ps, (Tag.scan 0 source.toList).tail⟩ : Tag.Scan)) tags
      | nested outer' before opening =>
        rw [enclosing] at outer
        cases outer

/-- **Missing placeholders are reported exactly.** A source is refused for placeholders that are not found exactly when
the reader comes, without another defect, to the end of a block with an unmatched variable: one whose placeholder is
taken in no stretch of the block's own text behind its declaration, where the earliest placeholder is taken, of those
in one place the longest, and of equal ones the first declared. That block's end is the last one the reader comes to
and the first with an unmatched variable. The error has the names of all unmatched variables of this block and no
others, strictly ascending by their bytes, and points at the tag that declares the first of them. A variable whose
placeholder stands in no stretch behind its declaration is unmatched, and so is the later of two with the same
placeholder. -/
theorem Template.parse_unmatched (source : String) (file : Nat) :
    ((∃ e names, Template.parse source file = .error e ∧ e.fault = .placeholdersNotFound names) ↔
      ∃ done own last v, EndsBlock source.toList done own last ∧ own.Unmatched last v) ∧
    (∀ done own last v, EndsBlock source.toList done own last → own.Unmatched last v →
      (∃ names w p, Template.parse source file = .error ⟨⟨.placeholdersNotFound names, p.tag.span⟩, file⟩ ∧
        names.Pairwise (fun a b => bytes a < bytes b) ∧
        (∀ name, name ∈ names ↔ ∃ u, own.Unmatched last u ∧ u.name = name) ∧
        names.head? = some w.name ∧ own.Unmatched last w ∧
        p ∈ own.pieces ∧ Tag.NamesVar p.tag w.name ∧ p.tag.span = w.span) ∧
      ∀ done' own' last', EndsBlock source.toList done' own' last' → done'.length ≤ done.length ∧
        (done'.length < done.length → ∀ u, ¬ own'.Unmatched last' u)) ∧
    (∀ (own : Outline) (tail : List Char) (i : Nat) (v : Variable), own.table[i]? = some v →
      (∀ s ∈ own.ownText .empty tail, i < s.1.size → Missing v.placeholder.toList s.2) → own.Unmatched tail v) ∧
    ∀ (own : Outline) (tail : List Char) (i j : Nat) (v w : Variable), i < j → own.table[i]? = some v →
      own.table[j]? = some w → v.placeholder = w.placeholder → own.Unmatched tail w := by
  refine ⟨⟨?_, ?_⟩, ?_, ?_, ?_⟩
  · rintro ⟨e, names, h, fault⟩
    exact exists_endsBlock h fault
  · rintro ⟨done, own, last, v, ends, unmatched⟩
    obtain ⟨w, ws, refused, -⟩ := ends.parse unmatched file
    exact ⟨_, _, refused, rfl⟩
  · intro done own last v ends unmatched
    refine ⟨?_, fun done' own' last' ends' => ⟨?_, fun earlier => ends'.matched_earlier ends earlier⟩⟩
    · obtain ⟨w, ws, refused, each, ascending⟩ := ends.parse unmatched file
      obtain ⟨i, entry, free⟩ := (each w).1 List.mem_cons_self
      obtain ⟨p, mem, named, span⟩ :=
        Outline.exists_declaring ends.sound.shaped ends.sound.declares (List.mem_of_getElem? entry)
      refine ⟨_, w, p, span ▸ refused, ascending, fun name => ?_, rfl, ⟨i, entry, free⟩, mem, named, span⟩
      rw [List.mem_map]
      exact exists_congr fun u => and_congr_left fun _ => each u
    · exact Nat.le_of_not_lt fun later => ends.matched_earlier ends' later v unmatched
  · exact fun own tail i v entry missing => Outline.unmatched_of_missing entry missing
  · exact fun own tail i j v w order entry entry' same => Outline.unmatched_of_twin order entry entry' same

/-- A placeholder that stands within a longer one that is taken, and in a nested block. -/
theorem Template.parse_unmatched_elsewhere :
    ∃ done own last,
      EndsBlock "<!--rep var=z place=AB--><!--rep var=y place=A-->AB<!--rep blk=c-->A<!--/rep-->".toList done own last ∧
      Template.parse "<!--rep var=z place=AB--><!--rep var=y place=A-->AB<!--rep blk=c-->A<!--/rep-->" 0 =
        .error ⟨⟨.placeholdersNotFound ["y"], ⟨25, 49⟩⟩, 0⟩ ∧
      ∀ name, name ∈ ["y"] ↔ ∃ u, own.Unmatched last u ∧ u.name = name := by
  have refused : Template.parse "<!--rep var=z place=AB--><!--rep var=y place=A-->AB<!--rep blk=c-->A<!--/rep-->" 0 =
      .error ⟨⟨.placeholdersNotFound ["y"], ⟨25, 49⟩⟩, 0⟩ := by
    with_unfolding_all rfl
  obtain ⟨exact_, payload, -⟩ :=
    Template.parse_unmatched "<!--rep var=z place=AB--><!--rep var=y place=A-->AB<!--rep blk=c-->A<!--/rep-->" 0
  obtain ⟨done, own, last, v, ends, unmatched⟩ := exact_.1 ⟨_, _, refused, rfl⟩
  obtain ⟨⟨names, w, p, refused', -, each, -⟩, -⟩ := payload done own last v ends unmatched
  rw [refused, Except.error.injEq, ParseError.mk.injEq, Defect.mk.injEq, Fault.placeholdersNotFound.injEq] at refused'
  obtain ⟨⟨rfl, -⟩, -⟩ := refused'
  exact ⟨done, own, last, ends, refused, each⟩

end Stencil

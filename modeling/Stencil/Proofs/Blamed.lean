import Stencil.Proofs.Opened
import Stencil.Proofs.Walks

/-!
# The tag an error points at

Reading a template stops at the first defect, and the error points at a tag. `Blames` says for every
kind of error which one: the tag that could not be read, the one that declares nothing or declares a name
again, the one that closes what was not opened, the one that opened the innermost block that is still
open, or the one that declared the first of the variables that were not found. The reader keeps account of
the tags it has read (`Open`), so that it blames the right one, however far behind it the defect shows.
-/

namespace Stencil

open Text
open Tag (Piece)

/-! ## Attributes that cannot be read -/

namespace Attributes

/-- The pairs at the front of a text, and the text behind them. -/
inductive Row : List Char → List (String × String) → List Char → Prop where
  | rest {cs : List Char} : Row cs [] cs
  | pair {cs key val mid rest : List Char} {pairs : List (String × String)}
      (first : pair? cs = some ((key, val), mid)) (others : Row mid pairs rest) :
      Row cs ((String.ofList key, String.ofList val) :: pairs) rest

/-- Behind some pairs comes another one with the key of one of them. -/
def Repeats (text : List Char) (key : String) : Prop :=
  ∃ pairs mid val rest, Row text pairs mid ∧ pair? mid = some ((key.toList, val), rest) ∧ key ∈ pairs.map (·.1)

/-- Behind some pairs comes something that is none. -/
def Breaks (text : List Char) : Prop := ∃ pairs rest, Row text pairs rest ∧ pair? rest = none ∧ rest ≠ []

theorem collect_eq_error {known : List (String × String)} {cs : List Char} {fault : Fault}
    (h : collect known cs = .error fault) :
    (∃ key pairs mid val rest, fault = .repeatedAttribute key ∧ Row cs pairs mid ∧
      pair? mid = some ((key.toList, val), rest) ∧ key ∈ (known ++ pairs).map (·.1)) ∨
    (fault = .invalidAttributes ∧ Breaks cs) := by
  induction size : cs.length using Nat.strongRecOn generalizing known cs with
  | ind size ih =>
    rw [collect] at h
    split at h
    · next none_ =>
      split at h
      · cases h
      · next some_ =>
        cases h
        exact .inr ⟨rfl, [], cs, .rest, none_, by simpa using some_⟩
    · next key val rest found =>
      split at h
      · next twice =>
        cases h
        obtain ⟨v, hv⟩ := Option.isSome_iff_exists.1 twice
        obtain ⟨front, back, e, -⟩ := List.lookup_eq_some_iff.1 hv
        refine .inl ⟨String.ofList key, [], cs, val, rest, rfl, .rest, ?_, ?_⟩
        · rw [String.toList_ofList]
          exact found
        · rw [e]
          simp
      · rcases ih rest.length (size ▸ pair?_shorter found) h rfl with
          ⟨k, pairs, mid, v, behind, rfl, row, again, mem⟩ | ⟨rfl, pairs, behind, row, stuck, left⟩
        · refine .inl ⟨k, _, mid, v, behind, rfl, .pair found row, again, ?_⟩
          rwa [List.append_assoc, List.singleton_append] at mem
        · exact .inr ⟨rfl, _, behind, .pair found row, stuck, left⟩

/-- Attributes are refused for a key that is repeated, or for something that is no pair. -/
theorem parse_eq_error {text : List Char} {fault : Fault} (h : parse text = .error fault) :
    (∃ key, fault = .repeatedAttribute key ∧ Repeats (dropEndWhile isSpace text) key) ∨
    (fault = .invalidAttributes ∧ Breaks (dropEndWhile isSpace text)) := by
  rcases collect_eq_error h with ⟨key, pairs, mid, val, rest, rfl, row, again, mem⟩ | invalid
  · exact .inl ⟨key, rfl, pairs, mid, val, rest, row, again, mem⟩
  · exact .inr invalid

/-- The attributes of a tag that declares nothing. -/
theorem declaration_eq_error {a : Attributes} {fault : Fault} (h : a.declaration = .error fault) :
    (fault = .emptyBlockName ∧ a.get? "blk" = some "") ∨
    (fault = .bothBlockAndVariable ∧ (∃ name, name ≠ "" ∧ a.get? "blk" = some name) ∧
      ∃ name, a.get? "var" = some name) ∨
    (fault = .emptyVariableName ∧ a.get? "blk" = none ∧ a.get? "var" = some "") ∨
    (fault = .missingAttribute ∧ a.get? "blk" = none ∧ a.get? "var" = none) := by
  unfold declaration at h
  cases blk : a.get? "blk" with
  | some name =>
    rw [blk] at h
    by_cases empty : name = ""
    · simp only [empty, if_true] at h
      cases h
      exact .inl ⟨rfl, by rw [empty]⟩
    · cases var : a.get? "var" with
      | some other =>
        simp only [empty, if_false, var, Option.isSome_some, if_true] at h
        cases h
        exact .inr (.inl ⟨rfl, ⟨name, empty, rfl⟩, other, rfl⟩)
      | none =>
        simp [empty, var] at h
  | none =>
    cases var : a.get? "var" with
    | some name =>
      rw [blk, var] at h
      by_cases empty : name = ""
      · simp only [empty, if_true] at h
        cases h
        exact .inr (.inr (.inl ⟨rfl, rfl, by rw [empty]⟩))
      · simp [empty] at h
    | none =>
      rw [blk, var] at h
      cases h
      exact .inr (.inr (.inr ⟨rfl, rfl, rfl⟩))

end Attributes

open Tag (Walk Balanced Directly NamesVar spanOf)

/-! ## The tag that is to blame -/

/-- The next tag behind the tags `ts`. -/
def Tag.Next (cs : List Char) (ts : List Tag) (t : Tag) : Prop :=
  ∃ ps pos rest f, Walk 0 cs ps pos rest ∧ ps.map (·.tag) = ts ∧ Tag.find pos rest = .ok (some f) ∧ f.tag = t

/-- Behind the tags `ts` the source has no more tags. -/
def Tag.Last (cs : List Char) (ts : List Tag) : Prop :=
  ∃ ps pos rest, Walk 0 cs ps pos rest ∧ ps.map (·.tag) = ts ∧ Tag.find pos rest = .ok none

open Tag (Next Last)

/-- The bytes of the tag that an error speaks of. -/
inductive Blames (cs : List Char) : Fault → Span → Prop where
  | unterminatedTag {ps : List Piece} {pos : Nat} {rest : List Char} {span : Span} (walk : Walk 0 cs ps pos rest)
      (stuck : Tag.find pos rest = .error ⟨.unterminatedTag, span⟩) : Blames cs .unterminatedTag span
  | repeatedAttribute {key : String} {before inside behind : List Char}
      (written : Tag.Written cs before .opening inside behind)
      (repeats : Attributes.Repeats (dropEndWhile Attributes.isSpace inside) key) :
      Blames cs (.repeatedAttribute key) (spanOf before .opening inside)
  | invalidAttributes {before inside behind : List Char} (written : Tag.Written cs before .opening inside behind)
      (breaks : Attributes.Breaks (dropEndWhile Attributes.isSpace inside)) :
      Blames cs .invalidAttributes (spanOf before .opening inside)
  | emptyBlockName {ts : List Tag} {t : Tag} (next : Next cs ts t) (blk : t.get? "blk" = some "") :
      Blames cs .emptyBlockName t.span
  | bothBlockAndVariable {ts : List Tag} {t : Tag} (next : Next cs ts t)
      (blk : ∃ name, name ≠ "" ∧ t.get? "blk" = some name) (var : ∃ name, t.get? "var" = some name) :
      Blames cs .bothBlockAndVariable t.span
  | emptyVariableName {ts : List Tag} {t : Tag} (next : Next cs ts t) (var : NamesVar t "") :
      Blames cs .emptyVariableName t.span
  | missingAttribute {ts : List Tag} {t : Tag} (next : Next cs ts t) (opening : t.closes = false)
      (blk : t.get? "blk" = none) (var : t.get? "var" = none) : Blames cs .missingAttribute t.span
  | missingPlaceholder {ts : List Tag} {t : Tag} (next : Next cs ts t) (var : ∃ name, name ≠ "" ∧ NamesVar t name)
      (place : t.place = "") : Blames cs .missingPlaceholder t.span
  | unmatchedClose {ts : List Tag} {t : Tag} (next : Next cs ts t) (closes : t.closes = true)
      (closed : Balanced ts) : Blames cs .unmatchedClose t.span
  | duplicateBlock {ts : List Tag} {t : Tag} {name : String} (next : Next cs ts t) (blk : t.get? "blk" = some name)
      (earlier : Directly (fun p => p.get? "blk" = some name) ts) : Blames cs (.duplicateBlock name) t.span
  | duplicateVariable {ts : List Tag} {t : Tag} {name : String} (next : Next cs ts t) (var : NamesVar t name)
      (earlier : Directly (fun p => NamesVar p name) ts) : Blames cs (.duplicateVariable name) t.span
  /-- The block has not been closed at the end of the source, and all blocks opened in it have. -/
  | unclosedBlock {front back : List Tag} {t : Tag} {name : String} (last : Last cs (front ++ t :: back))
      (blk : t.get? "blk" = some name) (inside : Balanced back) : Blames cs (.unclosedBlock name) t.span
  /-- The block in which the tag stands ends behind the tags read so far. -/
  | placeholdersNotFound {ts : List Tag} {t : Tag} {name : String} {others : List String}
      (ends : (∃ c, Next cs ts c ∧ c.closes = true) ∨ Last cs ts ∧ Balanced ts)
      (declared : Directly (fun p => NamesVar p name ∧ p = t) ts) :
      Blames cs (.placeholdersNotFound (name :: others)) t.span

/-! ## Errors of the reader -/

namespace Frame

theorem mem_of_unmatched {f : Frame} {v : Variable} (h : v ∈ f.unmatched) : v ∈ f.vars.entries := by
  unfold unmatched Variables.missing at h
  rw [List.mem_mergeSort] at h
  obtain ⟨⟨w, i⟩, kept, rfl⟩ := List.mem_map.1 h
  exact List.mem_of_getElem? (List.mem_zipIdx_iff_getElem?.1 (List.mem_filter.1 kept).1)

theorem close_eq_error {f : Frame} {stop : Nat} {d : Defect} (h : f.close stop = .error d) :
    ∃ v others, v ∈ f.vars.entries ∧ d = ⟨.placeholdersNotFound (v.name :: others), v.span⟩ := by
  unfold close at h
  cases found : f.unmatched with
  | nil =>
    rw [found] at h
    cases h
  | cons v vs =>
    rw [found] at h
    cases h
    exact ⟨v, vs.map (·.name), mem_of_unmatched (found ▸ List.mem_cons_self), rfl⟩

theorem declare_eq_error {f : Frame} {name : String} {place : Option String} {span : Span} {d : Defect}
    (h : f.declare name place span = .error d) :
    (f.vars.declares name = true ∧ d = ⟨.duplicateVariable name, span⟩) ∨
    (place.getD "" = "" ∧ d = ⟨.missingPlaceholder, span⟩) := by
  unfold declare Variables.declare? at h
  by_cases twice : f.vars.declares name = true
  · rw [if_pos twice] at h
    cases h
    exact .inl ⟨twice, rfl⟩
  · rw [if_neg twice] at h
    cases place with
    | none =>
      cases h
      exact .inr ⟨rfl, rfl⟩
    | some text =>
      by_cases empty : text = ""
      · simp only [empty, if_true] at h
        cases h
        exact .inr ⟨empty, rfl⟩
      · simp [empty, Except.map] at h

end Frame

/-- Why a tag is not read. -/
inductive Refuses (b : Builder) (p : Piece) : Defect → Prop where
  | stray (tag : p.tag.kind = .closing) (outer : b.enclosing = []) : Refuses b p ⟨.unmatchedClose, p.tag.span⟩
  | close {parent : Frame} {others : List Frame} {d : Defect} (tag : p.tag.kind = .closing)
      (open_ : b.enclosing = parent :: others) (failed : (b.frame.read p.text).close p.tag.span.stop = .error d) :
      Refuses b p d
  | nothing {attributes : Attributes} {fault : Fault} (tag : p.tag.kind = .opening attributes)
      (failed : attributes.declaration = .error fault) : Refuses b p ⟨fault, p.tag.span⟩
  | enter {attributes : Attributes} {name : String} (tag : p.tag.kind = .opening attributes)
      (declared : attributes.declaration = .ok (.block name)) (taken : (b.frame.read p.text).hasChild name = true) :
      Refuses b p ⟨.duplicateBlock name, p.tag.span⟩
  | declare {attributes : Attributes} {name : String} {place : Option String} {d : Defect}
      (tag : p.tag.kind = .opening attributes) (declared : attributes.declaration = .ok (.var name place))
      (failed : (b.frame.read p.text).declare name place p.tag.span = .error d) : Refuses b p d

theorem Builder.refuses_of_step {b : Builder} {p : Piece} {d : Defect} (failed : b.step p = .error d) :
    Refuses b p d := by
  unfold step at failed
  dsimp only at failed
  cases tag : p.tag.kind with
  | closing =>
    rw [tag] at failed
    cases enclosing : b.enclosing with
    | nil =>
      rw [enclosing] at failed
      cases failed
      exact .stray tag enclosing
    | cons parent others =>
      rw [enclosing] at failed
      cases closed : (b.frame.read p.text).close p.tag.span.stop with
      | ok block =>
        simp only [closed] at failed
        cases failed
      | error d' =>
        simp only [closed] at failed
        cases failed
        exact .close tag enclosing closed
  | opening attributes =>
    rw [tag] at failed
    cases declared : attributes.declaration with
    | error fault =>
      simp only [declared] at failed
      cases failed
      exact .nothing tag declared
    | ok declaration =>
      cases declaration with
      | block name =>
        simp only [declared] at failed
        split at failed
        · next taken =>
          cases failed
          exact .enter tag declared taken
        · cases failed
      | var name place =>
        cases added : (b.frame.read p.text).declare name place p.tag.span with
        | ok frame =>
          simp only [declared, added] at failed
          cases failed
        | error d' =>
          simp only [declared, added] at failed
          cases failed
          exact .declare tag declared added

/-- What can be wrong behind all tags: one that cannot be read, a block that is open, or the root. -/
theorem Builder.finish_eq_error {b : Builder} {size : Nat} {tail : Except Defect (List Char)} {d : Defect}
    (failed : b.finish size tail = .error d) : tail = .error d ∨ ∃ text, tail = .ok text ∧
      ((b.enclosing ≠ [] ∧ d = ⟨.unclosedBlock (b.frame.name.getD ""), b.frame.opening⟩) ∨
      (b.enclosing = [] ∧ (b.frame.read text).close size = .error d)) := by
  cases tail with
  | error d' =>
    cases failed
    exact .inl rfl
  | ok text =>
    refine .inr ⟨text, rfl, ?_⟩
    rw [finish] at failed
    cases enclosing : b.enclosing with
    | nil =>
      rw [enclosing] at failed
      exact .inr ⟨rfl, failed⟩
    | cons g gs =>
      rw [enclosing] at failed
      cases failed
      exact .inl ⟨List.cons_ne_nil _ _, rfl⟩

section

variable {cs : List Char} {ts : List Tag} {b : Builder} {d : Defect}

/-- A frame that cannot be closed is to blame on a tag of its own. -/
theorem Open.blame_close {f : Frame} {gs : List Frame} {stop : Nat} (h : Open ts f gs)
    (failed : f.close stop = .error d) (ends : (∃ c, Next cs ts c ∧ c.closes = true) ∨ Last cs ts ∧ Balanced ts) :
    Blames cs d.fault d.span := by
  obtain ⟨v, others, mem, rfl⟩ := Frame.close_eq_error failed
  obtain ⟨front, us, rfl, own⟩ := h.exists_own
  obtain ⟨before, p, mid, rfl, ⟨named, span⟩, balanced⟩ := own.vars v mem
  show Blames cs (.placeholdersNotFound (v.name :: others)) v.span
  rw [← span]
  refine .placeholdersNotFound ends (Directly.prepend ⟨before, p, mid, rfl, ⟨named, rfl⟩, balanced⟩ front)

/-- A tag that declares nothing is to blame itself. -/
theorem blame_declaration {t : Tag} {attributes : Attributes} {fault : Fault} (next : Next cs ts t)
    (kind : t.kind = .opening attributes) (failed : attributes.declaration = .error fault) :
    Blames cs fault t.span := by
  have nothing := Attributes.declaration_eq_error failed
  simp only [← Tag.get?_opening kind] at nothing
  rcases nothing with ⟨rfl, blk⟩ | ⟨rfl, blk, var⟩ | ⟨rfl, var⟩ | ⟨rfl, blk, var⟩
  · exact .emptyBlockName next blk
  · exact .bothBlockAndVariable next blk var
  · exact .emptyVariableName next var
  · refine .missingAttribute next ?_ blk var
    rw [Tag.closes, kind]

/-- A block whose name is taken has been declared by another tag directly in the same block. -/
theorem Open.blame_enter {f : Frame} {gs : List Frame} {t : Tag} {name : String} (h : Open ts f gs)
    (next : Next cs ts t) (blk : t.get? "blk" = some name) (twice : f.hasChild name = true) :
    Blames cs (.duplicateBlock name) t.span := by
  obtain ⟨front, us, rfl, own⟩ := h.exists_own
  obtain ⟨c, hc, same⟩ := List.any_eq_true.1 twice
  have named : c.name = some name := by simpa using same
  have earlier := own.children c hc
  rw [named] at earlier
  exact .duplicateBlock next blk (earlier.prepend front)

/-- A variable whose name is taken has been declared by another tag directly in the same block. -/
theorem Open.blame_declare {f : Frame} {gs : List Frame} {t : Tag} {name : String} (h : Open ts f gs)
    (next : Next cs ts t) (named : NamesVar t name) (nonempty : name ≠ "")
    (failed : f.declare name (t.get? "place") t.span = .error d) : Blames cs d.fault d.span := by
  rcases Frame.declare_eq_error failed with ⟨twice, rfl⟩ | ⟨empty, rfl⟩
  · have known : name ∈ f.vars.entries.map (·.name) := by
      refine Decidable.byContradiction fun new => ?_
      rw [Variables.declares_eq_false_iff.2 new] at twice
      cases twice
    obtain ⟨v, hv, rfl⟩ := List.mem_map.1 known
    obtain ⟨front, us, rfl, own⟩ := h.exists_own
    obtain ⟨before, p, mid, rfl, ⟨other, -⟩, balanced⟩ := own.vars v hv
    exact .duplicateVariable next named (Directly.prepend ⟨before, p, mid, rfl, other, balanced⟩ front)
  · exact .missingPlaceholder next ⟨name, nonempty, named⟩ empty

/-- A tag that cannot be read is to blame itself, or the first of the variables that were not found in the
block it closes. -/
theorem Open.blame_step {p : Piece} (h : Open ts b.frame b.enclosing) (next : Next cs ts p.tag)
    (failed : b.step p = .error d) : Blames cs d.fault d.span := by
  have here := h.read p.text
  cases Builder.refuses_of_step failed with
  | stray tag outer =>
    rw [outer] at h
    cases h with
    | root unnamed own => exact .unmatchedClose next (Tag.closes_iff.2 tag) own.balanced
  | close tag open_ unclosed => exact here.blame_close unclosed (.inl ⟨p.tag, next, Tag.closes_iff.2 tag⟩)
  | nothing tag undeclared => exact blame_declaration next tag undeclared
  | enter tag declared taken =>
    obtain ⟨blk, -, -⟩ := Attributes.declaration_eq_block_iff.1 declared
    rw [← Tag.get?_opening tag] at blk
    exact here.blame_enter next blk taken
  | declare tag declared misplaced =>
    obtain ⟨blk, var, nonempty, rfl⟩ := Attributes.declaration_eq_var_iff.1 declared
    rw [← Tag.get?_opening tag] at blk var misplaced
    exact here.blame_declare next ⟨blk, var⟩ nonempty misplaced

/-- At the end of the source the innermost open block is to blame, or the first of the variables that were not
found in the root. -/
theorem Open.blame_finish {size : Nat} {text : List Char} (h : Open ts b.frame b.enclosing) (last : Last cs ts)
    (failed : b.finish size (.ok text) = .error d) : Blames cs d.fault d.span := by
  rw [Builder.finish] at failed
  have here := h.read text
  generalize frame : b.frame = f at h here failed
  generalize enclosing : b.enclosing = gs at h here failed
  cases h with
  | root unnamed own => exact here.blame_close failed (.inr ⟨last, own.balanced⟩)
  | nested around opening named span own =>
    cases failed
    show Blames cs (.unclosedBlock (f.name.getD "")) f.opening
    rw [named, span]
    exact .unclosedBlock last opening own.balanced

end

/-- Reading stops at the first tag that cannot be read. -/
theorem Builder.run_eq_error {b after : Builder} {ps : List Piece} {d : Defect} (h : b.run ps = (after, some d)) :
    ∃ done p rest, ps = done ++ p :: rest ∧ b.run done = (after, none) ∧ after.step p = .error d := by
  induction ps generalizing b with
  | nil => cases h
  | cons p ps ih =>
    rw [run] at h
    cases step : b.step p with
    | error d' =>
      rw [step] at h
      cases h
      exact ⟨[], p, ps, rfl, rfl, step⟩
    | ok mid =>
      rw [step] at h
      obtain ⟨done, q, rest, rfl, ran, failed⟩ := ih h
      exact ⟨p :: done, q, rest, rfl, by rw [run, step]; exact ran, failed⟩

/-- Behind tags that are read the reading goes on. -/
theorem Builder.run_append {b after : Builder} {ps : List Piece} (h : b.run ps = (after, none)) (more : List Piece) :
    b.run (ps ++ more) = after.run more := by
  induction ps generalizing b with
  | nil =>
    cases h
    rfl
  | cons p ps ih =>
    obtain ⟨mid, reads, rest⟩ := run_cons_iff.1 h
    rw [List.cons_append, run, step_eq_ok_iff.2 reads]
    exact ih rest

/-! ## What is blamed is a tag -/

section

variable {cs : List Char} {ts : List Tag} {t : Tag}

/-- A tag is written out in a text, and these are its bytes. -/
def Tag.WrittenAt (cs : List Char) (span : Span) : Prop :=
  ∃ before o inside behind, Tag.Written cs before o inside behind ∧ span = spanOf before o inside

theorem Tag.Next.writtenAt (h : Next cs ts t) : Tag.WrittenAt cs t.span := by
  obtain ⟨ps, pos, rest, f, walk, -, found, rfl⟩ := h
  obtain ⟨front, text, stop, -⟩ := walk.exists_front
  rw [Nat.zero_add] at stop
  obtain ⟨o, inside, written, span⟩ := Tag.written_of_find found text stop
  exact ⟨_, o, inside, f.rest, written, span⟩

theorem Tag.Walk.writtenAt {ps : List Piece} {pos : Nat} {rest : List Char} (h : Walk 0 cs ps pos rest)
    (tags : ps.map (·.tag) = ts) (mem : t ∈ ts) : Tag.WrittenAt cs t.span := by
  subst tags
  obtain ⟨p, hp, rfl⟩ := List.mem_map.1 mem
  have whole : cs = [] ++ cs := rfl
  exact h.written whole rfl hp

theorem Blames.writtenAt {fault : Fault} {span : Span} (h : Blames cs fault span) :
    fault ≠ .unterminatedTag → Tag.WrittenAt cs span := by
  intro terminated
  cases h with
  | unterminatedTag => exact absurd rfl terminated
  | repeatedAttribute written | invalidAttributes written => exact ⟨_, _, _, _, written, rfl⟩
  | unclosedBlock last =>
    obtain ⟨ps, pos, rest, walk, tags, -⟩ := last
    exact walk.writtenAt tags (List.mem_append_right _ List.mem_cons_self)
  | placeholdersNotFound ends declared =>
    obtain ⟨front, p, mid, rfl, ⟨-, rfl⟩, -⟩ := declared
    rcases ends with ⟨c, ⟨ps, pos, rest, f, walk, tags, -⟩, -⟩ | ⟨⟨ps, pos, rest, walk, tags, -⟩, -⟩
    · exact walk.writtenAt tags (List.mem_append_right _ List.mem_cons_self)
    · exact walk.writtenAt tags (List.mem_append_right _ List.mem_cons_self)
  | emptyBlockName next | bothBlockAndVariable next | emptyVariableName next | missingAttribute next
  | missingPlaceholder next | unmatchedClose next | duplicateBlock next | duplicateVariable next =>
    exact next.writtenAt

/-- What is inside a tag can be misread in an opening tag only. -/
theorem Tag.Opener.kind_eq_error {o : Tag.Opener} {inside : List Char} {fault : Fault}
    (h : o.kind inside = .error fault) : o = .opening ∧ Attributes.parse inside = .error fault := by
  cases o with
  | closing => cases h
  | opening =>
    refine ⟨rfl, ?_⟩
    unfold Tag.Opener.kind at h
    cases parsed : Attributes.parse inside with
    | ok attributes =>
      rw [parsed] at h
      cases h
    | error fault' =>
      rw [parsed] at h
      cases h
      rfl

/-- A tag that has no end runs to the end of the source. -/
theorem Blames.unterminated {span : Span} (h : Blames cs .unterminatedTag span) :
    ∃ (before : List Char) (o : Tag.Opener) (rest : List Char), cs = before ++ o.text ++ rest ∧
      Tag.wordEnds rest = true ∧ Missing Tag.closer rest ∧ span = ⟨byteCount before, byteCount cs⟩ := by
  cases h with
  | unterminatedTag walk stuck =>
    obtain ⟨passed, text, pos_eq, -⟩ := walk.exists_front
    obtain ⟨front, o, behind, first, start, ⟨-, cut, stop⟩ | ⟨inside, after, -, misread, -⟩⟩ := Tag.find_eq_error stuck
    · obtain ⟨split_, ends, -⟩ := Tag.firstOpener?_eq_some first
      refine ⟨passed ++ front, o, behind, ?_, ends, (cutAt?_eq_none_iff (List.cons_ne_nil _ _)).1 cut, ?_⟩
      · rw [text, split_]
        simp only [List.append_assoc]
      · obtain ⟨lo, hi⟩ := span
        have start : lo = byteCount (passed ++ front) := by
          rw [byteCount_append, ← Nat.zero_add (byteCount passed), ← pos_eq]
          exact start
        have stop : hi = byteCount cs := by
          rw [text, byteCount_append, ← Nat.zero_add (byteCount passed), ← pos_eq]
          exact stop
        rw [start, stop]
    · obtain ⟨-, parsed⟩ := Tag.Opener.kind_eq_error misread
      rcases Attributes.parse_eq_error parsed with ⟨key, e, -⟩ | ⟨e, -⟩ <;> cases e

/-- A search that fails blames the tag it runs into. -/
theorem Tag.Walk.blame {ps : List Piece} {pos : Nat} {rest : List Char} {d : Defect} (walk : Walk 0 cs ps pos rest)
    (stuck : Tag.find pos rest = .error d) : Blames cs d.fault d.span := by
  obtain ⟨passed, text, pos_eq, -⟩ := walk.exists_front
  obtain ⟨fault, lo, hi⟩ := d
  obtain ⟨front, o, behind, first, start, ⟨unterminated, -⟩ | ⟨inside, after, cut, misread, stop⟩⟩ :=
    Tag.find_eq_error stuck
  · cases unterminated
    exact .unterminatedTag walk stuck
  · have written := Tag.written_of_first first cut text
    obtain ⟨rfl, parsed⟩ := Tag.Opener.kind_eq_error misread
    have span : (⟨lo, hi⟩ : Span) = spanOf (passed ++ front) .opening inside := by
      have start : lo = pos + byteCount front := start
      have stop : hi = pos + byteCount (front ++ Tag.Opener.opening.text ++ inside ++ Tag.closer) := stop
      unfold spanOf
      rw [start, stop, pos_eq]
      simp only [byteCount_append, Nat.zero_add, Nat.add_assoc]
    show Blames cs fault ⟨lo, hi⟩
    rw [span]
    rcases Attributes.parse_eq_error parsed with ⟨key, same, repeats⟩ | ⟨same, breaks⟩
    · cases same
      exact .repeatedAttribute written repeats
    · cases same
      exact .invalidAttributes written breaks

end

namespace Template

theorem parse_eq_error {source : String} {file : Nat} {e : ParseError} (h : Template.parse source file = .error e) :
    ∃ d, e = d.inFile file ∧
      ((∃ done p rest b, (Tag.scan 0 source.toList).pieces = done ++ p :: rest ∧
        (Builder.start (byteCount source.toList)).run done = (b, none) ∧ b.step p = .error d) ∨
      ∃ b, (Builder.start (byteCount source.toList)).run (Tag.scan 0 source.toList).pieces = (b, none) ∧
        b.finish (byteCount source.toList) (Tag.scan 0 source.toList).tail = .error d) := by
  simp only [parse, read, ← Builder.start_eq] at h
  cases ran : (Builder.start (byteCount source.toList)).run (Tag.scan 0 source.toList).pieces with
  | mk b failure =>
    rw [ran] at h
    cases failure with
    | some d =>
      cases h
      obtain ⟨done, p, rest, pieces, before, failed⟩ := Builder.run_eq_error ran
      exact ⟨d, rfl, .inl ⟨done, p, rest, b, pieces, before, failed⟩⟩
    | none =>
      cases finished : b.finish (byteCount source.toList) (Tag.scan 0 source.toList).tail with
      | ok root =>
        simp only [finished] at h
        cases h
      | error d =>
        simp only [finished] at h
        cases h
        exact ⟨d, rfl, .inr ⟨b, rfl, finished⟩⟩

/-- A tag that cannot be read ends the reading. -/
theorem parse_of_step {source : String} {done rest : List Piece} {p : Piece} {b : Builder} {d : Defect} (file : Nat)
    (pieces : (Tag.scan 0 source.toList).pieces = done ++ p :: rest)
    (ran : (Builder.start (byteCount source.toList)).run done = (b, none)) (failed : b.step p = .error d) :
    Template.parse source file = .error (d.inFile file) := by
  simp only [parse, read, ← Builder.start_eq]
  rw [pieces, Builder.run_append ran, Builder.run, failed]

/-- So does what is wrong behind all tags. -/
theorem parse_of_finish {source : String} {b : Builder} {d : Defect} (file : Nat)
    (ran : (Builder.start (byteCount source.toList)).run (Tag.scan 0 source.toList).pieces = (b, none))
    (failed : b.finish (byteCount source.toList) (Tag.scan 0 source.toList).tail = .error d) :
    Template.parse source file = .error (d.inFile file) := by
  simp only [parse, read, ← Builder.start_eq]
  rw [ran]
  dsimp only
  rw [failed]

/-- What an error of the reader points at is to blame. -/
theorem blames_of_parse_error {source : String} {file : Nat} {e : ParseError}
    (h : Template.parse source file = .error e) : e.file = file ∧ Blames source.toList e.fault e.span := by
  obtain ⟨d, rfl, ⟨done, p, rest, b, pieces, before, failed⟩ | ⟨b, ran, failed⟩⟩ := parse_eq_error h
  · obtain ⟨stop, left, walk, later, -⟩ := Tag.walk_of_scan pieces
    have next : Next source.toList (done.map (·.tag)) p.tag := by
      cases found : Tag.find stop left with
      | error d =>
        rw [Tag.scan_of_error found] at later
        cases later
      | ok r =>
        cases r with
        | none =>
          rw [Tag.scan_of_none found] at later
          cases later
        | some f =>
          rw [Tag.scan_of_some found] at later
          obtain ⟨rfl, -⟩ := List.cons.inj later
          exact ⟨done, stop, left, f, walk, rfl, found, rfl⟩
    exact ⟨rfl, (Open.run before).blame_step next failed⟩
  · obtain ⟨stop, left, walk, none_, tail⟩ := Tag.walk_of_scan (List.append_nil _).symm
    rw [← tail] at failed
    cases found : Tag.find stop left with
    | error d' =>
      rw [Tag.scan_of_error found] at failed
      cases failed
      exact ⟨rfl, walk.blame found⟩
    | ok r =>
      cases r with
      | none =>
        rw [Tag.scan_of_none found] at failed
        exact ⟨rfl, (Open.run ran).blame_finish ⟨_, stop, left, walk, rfl, found⟩ failed⟩
      | some f =>
        rw [Tag.scan_of_some found] at none_
        cases none_

/-- **Parse errors point at the offending tag.** The error of a source that is not read is in the file it was
read as. Its bytes lie in the source, between characters, and begin where an opener begins behind which a word
ends. A tag without end is marked up to the end of the source, and no closer stands behind its opener; for all
other kinds the marked text is one tag, which runs to the first closer behind its opener. It is the tag that the
kind of the error speaks of. -/
theorem parse_error_points_at_tag {source : String} {file : Nat} {e : ParseError}
    (h : Template.parse source file = .error e) :
    e.file = file ∧ e.span.start < e.span.stop ∧ e.span.stop ≤ byteCount source.toList ∧
    (∃ (before : List Char) (o : Tag.Opener) (rest : List Char), source.toList = before ++ o.text ++ rest ∧
      Tag.wordEnds rest = true ∧ e.span.start = byteCount before ∧
      ((e.fault = .unterminatedTag ∧ Missing Tag.closer rest ∧ e.span.stop = byteCount source.toList) ∨
      (e.fault ≠ .unterminatedTag ∧ ∃ inside behind, rest = inside ++ Tag.closer ++ behind ∧
        (∀ front back, rest = front ++ Tag.closer ++ back → inside.length ≤ front.length) ∧
        e.span.stop = byteCount (before ++ o.text ++ inside ++ Tag.closer) ∧
        slice source.toList e.span.start e.span.stop = o.text ++ inside ++ Tag.closer))) ∧
    Blames source.toList e.fault e.span := by
  obtain ⟨file_eq, blames⟩ := blames_of_parse_error h
  by_cases unterminated : e.fault = .unterminatedTag
  · have endless := blames
    rw [unterminated] at endless
    obtain ⟨before, o, rest, text, ends, missing, span⟩ := endless.unterminated
    have longer : byteCount source.toList = byteCount before + byteCount o.text + byteCount rest := by
      rw [text, byteCount_append, byteCount_append]
    have opener : 0 < byteCount o.text := by cases o <;> decide
    rw [span]
    refine ⟨file_eq, ?_, Nat.le_refl _, ⟨before, o, rest, text, ends, rfl, .inl ⟨unterminated, missing, rfl⟩⟩,
      span ▸ blames⟩
    show byteCount before < byteCount source.toList
    omega
  · obtain ⟨before, o, inside, behind, written, span⟩ := blames.writtenAt unterminated
    obtain ⟨nonempty, inSource, marked⟩ := written.bounds
    rw [span]
    refine ⟨file_eq, nonempty, inSource, ⟨before, o, inside ++ Tag.closer ++ behind, ?_, written.ends, rfl,
      .inr ⟨unterminated, inside, behind, rfl, written.first, rfl, marked⟩⟩, span ▸ blames⟩
    rw [written.text]
    simp only [List.append_assoc]

/-- A variable that does not occur in its block: the closing tag of the block is read, and the tag of the
variable is marked. -/
theorem parse_error_points_at_variable :
    ∃ e : ParseError, Template.parse "é<!--rep blk=b--><!--rep var=v place=V-->x<!--/rep-->" 7 = .error e ∧
      e.fault = .placeholdersNotFound ["v"] ∧ e.file = 7 ∧ e.span = ⟨18, 42⟩ ∧
      slice "é<!--rep blk=b--><!--rep var=v place=V-->x<!--/rep-->".toList 18 42 = "<!--rep var=v place=V-->".toList ∧
      Blames "é<!--rep blk=b--><!--rep var=v place=V-->x<!--/rep-->".toList e.fault e.span := by
  have refused : Template.parse "é<!--rep blk=b--><!--rep var=v place=V-->x<!--/rep-->" 7 =
      .error ⟨⟨.placeholdersNotFound ["v"], ⟨18, 42⟩⟩, 7⟩ := by
    with_unfolding_all rfl
  obtain ⟨file, -, -, -, blames⟩ := parse_error_points_at_tag refused
  exact ⟨_, refused, rfl, file, rfl, by decide +kernel, blames⟩

end Template

end Stencil

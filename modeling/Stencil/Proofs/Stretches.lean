import Mathlib.Data.List.Basic
import Stencil.Proofs.Contents
import Stencil.Proofs.Placed
import Stencil.Proofs.Untagged

/-!
# The stretches of a template

Between two consecutive tags of a source stands a stretch of text, possibly an empty one. Each
belongs to the innermost block around it, and there to the gap between two nested blocks. Reading
cuts a stretch with the variables of its block that are declared in front of it, and nothing else
comes into a gap (`gap_eq_stretches`): a placeholder is not found in front of its declaration, in the
text of another block, or across a tag.
-/

namespace Stencil

open Text
open Tag (Piece)

/-! ## Tags of a source and the text between them -/

namespace Tag

/-- A tag is not empty. -/
theorem find_proper {pos : Nat} {cs : List Char} {f : Found} (h : find pos cs = .ok (some f)) :
    f.tag.span.start < f.tag.span.stop := by
  induction cs generalizing pos f with
  | nil => simp [find] at h
  | cons c cs ih =>
    rw [find] at h
    split at h
    · next o rest _ =>
      cases hc : complete o pos rest with
      | error d => rw [hc] at h; cases h
      | ok read =>
        obtain ⟨t, after⟩ := read
        rw [hc] at h
        cases h
        obtain ⟨inside, -, span⟩ := complete_eq_ok hc
        have marked : 0 < byteCount closer := by decide
        rw [span]
        show pos < pos + byteCount o.text + byteCount inside + byteCount closer
        omega
    · cases hf : find (pos + c.utf8Size) cs with
      | error d => rw [hf] at h; cases h
      | ok found =>
        cases found with
        | none => rw [hf] at h; cases h
        | some g =>
          rw [hf] at h
          cases h
          exact ih (f := g) hf

theorem findFrom_proper {source : String} {pos : Nat} {t : Tag} (h : findFrom source pos = .ok (some t)) :
    t.span.start < t.span.stop := by
  rw [findFrom] at h
  cases hf : find pos (dropBytes pos source.toList) with
  | error d => rw [hf] at h; cases h
  | ok found =>
    cases found with
    | none => rw [hf] at h; cases h
    | some f =>
      rw [hf] at h
      cases h
      exact find_proper hf

/-- Tags of a source from byte `pos` on, each with all the text in front of it, and the text behind
them up to byte `stop`. -/
inductive Spread (source : String) (stop : Nat) : Nat → List Piece → List Char → Prop where
  | done {pos : Nat} (le : pos ≤ stop) : Spread source stop pos [] (slice source.toList pos stop)
  | tag {pos : Nat} {t : Tag} {ps : List Piece} {tail : List Char} (le : pos ≤ t.span.start)
      (proper : t.span.start < t.span.stop) (rest : Spread source stop t.span.stop ps tail) :
      Spread source stop pos (⟨slice source.toList pos t.span.start, t⟩ :: ps) tail

/-- What the flat scan finds are tags of the source with the text between them. -/
theorem FlatScan.spread {source : String} {before cs : List Char} {ps : List Piece} {tail : List Char}
    (split_ : source.toList = before ++ cs) (scan : FlatScan source (byteCount before) ps tail) :
    Spread source (byteCount source.toList) (byteCount before) ps tail := by
  induction ps generalizing before cs with
  | nil =>
    cases scan with
    | done =>
      refine .done ?_
      rw [split_, byteCount_append]
      omega
  | cons p ps ih =>
    cases scan with
    | @tag _ t _ _ found rest =>
      obtain ⟨front, comment, back, rfl, span⟩ := findFrom_eq_some split_ found
      have whole : source.toList = (before ++ front ++ comment) ++ back := by
        rw [split_]
        simp only [List.append_assoc]
      have le : byteCount before ≤ t.span.start := by
        rw [span, byteCount_append]
        exact Nat.le_add_right _ _
      have stop : t.span.stop = byteCount (before ++ front ++ comment) := by rw [span]
      rw [stop] at rest
      refine .tag le (findFrom_proper found) ?_
      rw [stop]
      exact ih whole rest

namespace Spread

variable {source : String} {pos stop : Nat} {ps : List Piece} {tail : List Char}

theorem le (h : Spread source stop pos ps tail) : pos ≤ stop := by
  induction h with
  | done le => exact le
  | tag le proper _ ih => omega

/-- The first of the tags, the text in front of it, and what is behind it. -/
theorem cons {p : Piece} (h : Spread source stop pos (p :: ps) tail) :
    p.text = slice source.toList pos p.tag.span.start ∧ pos ≤ p.tag.span.start ∧
      p.tag.span.start < p.tag.span.stop ∧ Spread source stop p.tag.span.stop ps tail := by
  cases h with
  | tag le proper rest => exact ⟨rfl, le, proper, rest⟩

/-- A tag ends the text in front of it. -/
theorem split {front back : List Piece} {p : Piece} (h : Spread source stop pos (front ++ p :: back) tail) :
    Spread source p.tag.span.start pos front p.text ∧ p.tag.span.start < p.tag.span.stop ∧
      Spread source stop p.tag.span.stop back tail := by
  induction front generalizing pos with
  | nil =>
    cases h with
    | tag le proper rest => exact ⟨.done le, proper, rest⟩
  | cons q front ih =>
    cases h with
    | tag le proper rest =>
      obtain ⟨first, proper', behind⟩ := ih rest
      exact ⟨.tag le proper first, proper', behind⟩

end Spread

end Tag

/-- The stretches between spans from `pos` on, up to `stop`. -/
def Text.stretches (stop : Nat) : (pos : Nat) → List Span → List Span
  | pos, [] => [⟨pos, stop⟩]
  | pos, s :: ss => ⟨pos, s.start⟩ :: stretches stop s.stop ss

/-- The stretches in front of a span and those behind it. -/
theorem Text.stretches_append (stop pos : Nat) (front : List Span) (s : Span) (back : List Span) :
    stretches stop pos (front ++ s :: back) = stretches s.start pos front ++ stretches stop s.stop back := by
  induction front generalizing pos with
  | nil => rfl
  | cons r front ih => rw [List.cons_append, stretches, ih, stretches, List.cons_append]

/-- The stretches between the tags of a source stand between its ends. -/
theorem Tag.Spread.within {source : String} {pos stop : Nat} {ps : List Piece} {tail : List Char}
    (h : Spread source stop pos ps tail) :
    ∀ s ∈ stretches stop pos (ps.map (·.tag.span)), pos ≤ s.start ∧ s.start ≤ s.stop ∧ s.stop ≤ stop := by
  induction h with
  | @done pos le =>
    intro s hs
    cases List.mem_singleton.1 hs
    exact ⟨Nat.le_refl _, le, Nat.le_refl _⟩
  | @tag pos t ps tail le proper rest ih =>
    have later := rest.le
    intro s hs
    rcases List.mem_cons.1 hs with rfl | hs
    · exact ⟨Nat.le_refl _, le, by show t.span.start ≤ stop; omega⟩
    · have := ih s hs
      omega

/-! ## Whose a stretch is -/

/-- The variables of a table whose tags end in front of a byte. -/
def Variables.before (vs : Variables) (pos : Nat) : Variables :=
  ⟨vs.entries.filter (·.span.stop ≤ pos)⟩

namespace Block

/-- Whether a stretch stands between the two tags of a block. The root is around everything. -/
def encloses (b : Block) (s : Span) : Bool :=
  b.isRoot || (b.span.start < s.start && s.stop < b.span.stop)

/-- Whether a block is the innermost one around a stretch. -/
def owns (b : Block) (s : Span) : Bool :=
  b.encloses s && b.children.all fun c => !c.encloses s

/-- Whether a stretch stands behind the first `k` of some blocks and in front of the others. -/
def between (cs : List Block) (k : Nat) (s : Span) : Bool :=
  (cs.take k).all (·.span.stop ≤ s.start) && (cs.drop k).all (s.stop ≤ ·.span.start)

theorem between_cons_zero (c : Block) (cs : List Block) (s : Span) :
    between (c :: cs) 0 s = (decide (s.stop ≤ c.span.start) && between cs 0 s) := by
  simp [between]

theorem between_cons_succ (c : Block) (cs : List Block) (k : Nat) (s : Span) :
    between (c :: cs) (k + 1) s = (decide (c.span.stop ≤ s.start) && between cs k s) := by
  simp only [between, List.take_succ_cons, List.drop_succ_cons, List.all_cons, Bool.and_assoc]

/-- What stands in front of some blocks stands behind none of them. -/
theorem between_of_front {cs : List Block} {k : Nat} {s : Span} (proper : s.start ≤ s.stop)
    (front : ∀ c ∈ cs, s.stop ≤ c.span.start ∧ c.span.start < c.span.stop) (le : k ≤ cs.length) :
    between cs k s = decide (k = 0) := by
  cases k with
  | zero =>
    simp only [between, List.take_zero, List.all_nil, List.drop_zero, Bool.true_and, decide_true,
      List.all_eq_true, decide_eq_true_eq]
    exact fun c hc => (front c hc).1
  | succ k =>
    cases cs with
    | nil => simp at le
    | cons c cs =>
      have := front c List.mem_cons_self
      have late : ¬ c.span.stop ≤ s.start := by omega
      rw [between_cons_succ, decide_eq_false late]
      rfl

/-- What stands between nested blocks stands in none of them. -/
theorem encloses_of_between {cs : List Block} {k : Nat} {s : Span} (between_ : between cs k s = true)
    (le : s.start ≤ s.stop) {c : Block} (child : c ∈ cs) (nested : c.isRoot = false) : c.encloses s = false := by
  rw [between, Bool.and_eq_true, List.all_eq_true, List.all_eq_true] at between_
  obtain ⟨before, behind⟩ := between_
  have apart : c.span.stop ≤ s.start ∨ s.stop ≤ c.span.start := by
    rw [← List.take_append_drop k cs] at child
    rcases List.mem_append.1 child with early | late
    · exact .inl (of_decide_eq_true (before c early))
    · exact .inr (of_decide_eq_true (behind c late))
  rw [encloses, nested, Bool.false_or, Bool.and_eq_false_iff, decide_eq_false_iff_not, decide_eq_false_iff_not]
  omega

end Block

open Block

/-! ## The gaps of an outline -/

namespace Outline

variable {source : String} {pos stop : Nat} {o : Outline} {tail : List Char}

theorem getElem?_ontoFirst_zero {front gap : List Segment} {gs : List (List Segment)} (h : gs[0]? = some gap) :
    (ontoFirst front gs)[0]? = some (front ++ gap) := by
  cases gs with
  | nil => cases h
  | cons g gs =>
    cases h
    rfl

theorem getElem?_ontoFirst_succ (front : List Segment) (gs : List (List Segment)) (k : Nat) :
    (ontoFirst front gs)[k + 1]? = gs[k + 1]? := by
  cases gs <;> rfl

theorem nested_of_mem_blocks {c : Block} (child : c ∈ o.blocks) : c.isRoot = false := by
  induction o with
  | nil => cases child
  | var p next ih => exact ih child
  | block opening body closing next _ ih =>
    rcases List.mem_cons.1 child with rfl | later
    · rfl
    · exact ih later

/-- Behind the opening tag of a block come its own tags, and behind its closing tag the others. -/
theorem spread_block {opening closing : Piece} {body next : Outline}
    (spread : Tag.Spread source stop pos (block opening body closing next).pieces tail) :
    opening.text = slice source.toList pos opening.tag.span.start ∧ pos ≤ opening.tag.span.start ∧
      opening.tag.span.start < opening.tag.span.stop ∧
      Tag.Spread source closing.tag.span.start opening.tag.span.stop body.pieces closing.text ∧
      closing.tag.span.start < closing.tag.span.stop ∧
      Tag.Spread source stop closing.tag.span.stop next.pieces tail := by
  rw [pieces, List.cons_append] at spread
  obtain ⟨text, le, proper, rest⟩ := spread.cons
  exact ⟨text, le, proper, rest.split⟩

/-- The blocks of an outline stand where its tags do. -/
theorem span_of_mem_blocks (spread : Tag.Spread source stop pos o.pieces tail) :
    ∀ c ∈ o.blocks, pos ≤ c.span.start ∧ c.span.start < c.span.stop := by
  induction o generalizing pos with
  | nil => exact nofun
  | var p next ih =>
    obtain ⟨-, le, proper, rest⟩ := spread.cons
    intro c hc
    have := ih rest c hc
    omega
  | block opening body closing next _ ih =>
    obtain ⟨-, le, proper, inside, proper', behind⟩ := spread_block spread
    have inner := inside.le
    rw [blocks_block, List.forall_mem_cons]
    constructor
    · show pos ≤ opening.tag.span.start ∧ opening.tag.span.start < closing.tag.span.stop
      omega
    · intro c hc
      have := ih behind c hc
      omega

/-- So do its variables. -/
theorem span_of_mem_table (spread : Tag.Spread source stop pos o.pieces tail) :
    ∀ v ∈ o.table, pos < v.span.stop := by
  induction o generalizing pos with
  | nil => exact nofun
  | var p next ih =>
    obtain ⟨-, le, proper, rest⟩ := spread.cons
    rw [table, List.forall_mem_cons]
    constructor
    · show pos < p.tag.span.stop
      omega
    · intro v hv
      have := ih rest v hv
      omega
  | block opening body closing next _ ih =>
    obtain ⟨-, le, proper, inside, proper', behind⟩ := spread_block spread
    have inner := inside.le
    intro v hv
    have := ih behind v hv
    omega

theorem before_eq_empty (spread : Tag.Spread source stop pos o.pieces tail) {at_ : Nat} (le : at_ ≤ pos) :
    (Variables.before ⟨o.table⟩ at_).entries = [] := by
  refine List.filter_eq_nil_iff.2 fun v hv => ?_
  have := span_of_mem_table spread v hv
  rw [decide_eq_true_eq]
  omega

/-- The variables declared in front of a byte are the first ones of the table. -/
theorem before_isPrefix (spread : Tag.Spread source stop pos o.pieces tail) (at_ : Nat) :
    (Variables.before ⟨o.table⟩ at_).entries <+: o.table := by
  induction o generalizing pos with
  | nil => exact List.prefix_refl _
  | var p next ih =>
    obtain ⟨-, le, proper, rest⟩ := spread.cons
    by_cases declared : p.tag.span.stop ≤ at_
    · rw [Variables.before, table, List.filter_cons_of_pos (by simpa using declared)]
      exact (List.prefix_cons_inj _).2 (ih rest)
    · have later : (Variables.before ⟨next.table⟩ at_).entries = [] := before_eq_empty rest (by omega)
      rw [Variables.before] at later
      rw [Variables.before, table, List.filter_cons_of_neg (by simpa using declared), later]
      exact List.nil_prefix
  | block opening body closing next _ ih =>
    obtain ⟨-, -, -, -, -, behind⟩ := spread_block spread
    exact ih behind

/-- The segments of a stretch in a block that has the variables of `vs` and then those of `o`. -/
def cutStretch (source : String) (vs : Variables) (o : Outline) (s : Span) : List Segment :=
  Variables.segments ⟨vs.entries ++ (Variables.before ⟨o.table⟩ s.start).entries⟩
    (slice source.toList s.start s.stop)

/-- In front of the first tag there are only the variables from before. -/
theorem cutStretch_of_le (spread : Tag.Spread source stop pos o.pieces tail) (vs : Variables) {s : Span}
    (le : s.start ≤ pos) : cutStretch source vs o s = vs.segments (slice source.toList s.start s.stop) := by
  rw [cutStretch, before_eq_empty spread le, List.append_nil]

/-- Behind a declaration the variable is one of those from before. -/
theorem cutStretch_var {p : Piece} (vs : Variables) {s : Span} (le : p.tag.span.stop ≤ s.start) :
    cutStretch source vs (var p o) s = cutStretch source (vs.declareBy p.tag) o s := by
  rw [cutStretch, cutStretch, Variables.before, table, List.filter_cons_of_pos (by simpa using le)]
  simp only [Variables.declareBy, Variables.declare, List.append_assoc, List.cons_append, List.nil_append,
    Variables.before]

/-- The stretches of gap `k` among those of an outline, cut. -/
def gapOf (source : String) (stop pos : Nat) (vs : Variables) (o : Outline) (k : Nat) : List Segment :=
  ((stretches stop pos (o.pieces.map (·.tag.span))).filter (between o.blocks k)).flatMap
    (cutStretch source vs o)

/-- The text in front of a declaration comes to the first gap. -/
theorem gapOf_var {p : Piece} {next : Outline} (spread : Tag.Spread source stop pos (var p next).pieces tail)
    (vs : Variables) {k : Nat} (le : k ≤ next.blocks.length) :
    gapOf source stop pos vs (var p next) k = (if k = 0 then vs.segments p.text else []) ++
      gapOf source stop p.tag.span.stop (vs.declareBy p.tag) next k := by
  obtain ⟨text, le', proper, rest⟩ := spread.cons
  have head : between next.blocks k ⟨pos, p.tag.span.start⟩ = decide (k = 0) := by
    refine between_of_front le' (fun c hc => ?_) le
    have := span_of_mem_blocks rest c hc
    show p.tag.span.start ≤ _ ∧ _
    omega
  have first : cutStretch source vs (var p next) ⟨pos, p.tag.span.start⟩ = vs.segments p.text := by
    rw [text]
    exact cutStretch_of_le spread vs (Nat.le_refl _)
  have later : ∀ s ∈ (stretches stop p.tag.span.stop (next.pieces.map (·.tag.span))).filter (between next.blocks k),
      cutStretch source vs (var p next) s = cutStretch source (vs.declareBy p.tag) next s := fun s hs =>
    cutStretch_var vs (rest.within s (List.mem_filter.1 hs).1).1
  have blocks_eq : (var p next).blocks = next.blocks := rfl
  rw [gapOf, gapOf, pieces, List.map_cons, stretches, blocks_eq, List.filter_cons, head,
    ← List.flatMap_congr later]
  by_cases zero : k = 0
  · rw [if_pos (by simpa using zero), if_pos zero, List.flatMap_cons, first]
  · rw [if_neg (by simpa using zero), if_neg zero, List.nil_append]

section

variable {opening closing : Piece} {body next : Outline}

/-- The stretches of a nested block are in none of the gaps around it. -/
theorem filter_between_block (spread : Tag.Spread source stop pos (block opening body closing next).pieces tail)
    (k : Nat) :
    (stretches closing.tag.span.start opening.tag.span.stop (body.pieces.map (·.tag.span))).filter
      (between (block opening body closing next).blocks k) = [] := by
  obtain ⟨-, -, proper, inside, proper', -⟩ := spread_block spread
  refine List.filter_eq_nil_iff.2 fun s hs => ?_
  have inner := inside.within s hs
  rw [blocks_block, Bool.not_eq_true]
  cases k with
  | zero =>
    have late : ¬ s.stop ≤ opening.tag.span.start := by omega
    rw [between_cons_zero]
    show (decide (s.stop ≤ opening.tag.span.start) && _) = false
    rw [decide_eq_false late, Bool.false_and]
  | succ k =>
    have early : ¬ closing.tag.span.stop ≤ s.start := by omega
    rw [between_cons_succ]
    show (decide (closing.tag.span.stop ≤ s.start) && _) = false
    rw [decide_eq_false early, Bool.false_and]

theorem stretches_block (opening closing : Piece) (body next : Outline) (stop pos : Nat) :
    stretches stop pos ((block opening body closing next).pieces.map (·.tag.span)) =
      ⟨pos, opening.tag.span.start⟩ ::
        (stretches closing.tag.span.start opening.tag.span.stop (body.pieces.map (·.tag.span)) ++
          stretches stop closing.tag.span.stop (next.pieces.map (·.tag.span))) := by
  rw [pieces, List.cons_append, List.map_cons, List.map_append, List.map_cons, stretches, stretches_append]

/-- The text in front of a nested block ends the first gap. -/
theorem gapOf_block_zero (spread : Tag.Spread source stop pos (block opening body closing next).pieces tail)
    (vs : Variables) : gapOf source stop pos vs (block opening body closing next) 0 = vs.segments opening.text := by
  obtain ⟨text, le, proper, inside, proper', behind⟩ := spread_block spread
  have inner := inside.le
  have head : between (block opening body closing next).blocks 0 ⟨pos, opening.tag.span.start⟩ = true := by
    refine (between_of_front le (fun c hc => ?_) (Nat.zero_le _)).trans (decide_eq_true rfl)
    rcases List.mem_cons.1 hc with rfl | hc
    · show opening.tag.span.start ≤ opening.tag.span.start ∧ opening.tag.span.start < closing.tag.span.stop
      omega
    · have := span_of_mem_blocks behind c hc
      show opening.tag.span.start ≤ _ ∧ _
      omega
  have later : (stretches stop closing.tag.span.stop (next.pieces.map (·.tag.span))).filter
      (between (block opening body closing next).blocks 0) = [] := by
    refine List.filter_eq_nil_iff.2 fun s hs => ?_
    have := behind.within s hs
    have late : ¬ s.stop ≤ opening.tag.span.start := by omega
    rw [blocks_block, between_cons_zero, Bool.not_eq_true]
    show (decide (s.stop ≤ opening.tag.span.start) && _) = false
    rw [decide_eq_false late, Bool.false_and]
  rw [gapOf, stretches_block, List.filter_cons_of_pos head, List.filter_append, filter_between_block spread,
    later, text]
  exact (List.append_nil _).trans (cutStretch_of_le spread vs (Nat.le_refl _))

/-- The other gaps are made of what stands behind the nested block. -/
theorem gapOf_block_succ (spread : Tag.Spread source stop pos (block opening body closing next).pieces tail)
    (vs : Variables) (k : Nat) : gapOf source stop pos vs (block opening body closing next) (k + 1) =
      gapOf source stop closing.tag.span.stop vs next k := by
  obtain ⟨-, le, proper, inside, proper', behind⟩ := spread_block spread
  have inner := inside.le
  have head : ¬ between (block opening body closing next).blocks (k + 1) ⟨pos, opening.tag.span.start⟩ = true := by
    have early : ¬ closing.tag.span.stop ≤ pos := by omega
    rw [blocks_block, between_cons_succ, Bool.not_eq_true]
    show (decide (closing.tag.span.stop ≤ pos) && _) = false
    rw [decide_eq_false early, Bool.false_and]
  have later : ∀ s ∈ stretches stop closing.tag.span.stop (next.pieces.map (·.tag.span)),
      between (block opening body closing next).blocks (k + 1) s = between next.blocks k s := by
    intro s hs
    rw [blocks_block, between_cons_succ]
    show (decide (closing.tag.span.stop ≤ s.start) && _) = _
    rw [decide_eq_true (behind.within s hs).1, Bool.true_and]
  rw [gapOf, stretches_block, List.filter_cons_of_neg head, List.filter_append, filter_between_block spread,
    List.nil_append, List.filter_congr later]
  rfl

end

/-- The gaps of an outline are made of the stretches between its nested blocks. -/
theorem getElem?_gaps (spread : Tag.Spread source stop pos o.pieces tail) (vs : Variables) {k : Nat}
    (le : k ≤ o.blocks.length) : (gaps vs o tail)[k]? = some (gapOf source stop pos vs o k) := by
  induction o generalizing pos vs k with
  | nil =>
    obtain rfl : k = 0 := Nat.le_zero.1 le
    cases spread with
    | done => simp [gaps, gapOf, pieces, stretches, between, blocks, cutStretch, table, Variables.before]
  | var p next ih =>
    have later := ih spread.cons.2.2.2 (vs.declareBy p.tag) le
    rw [gaps, gapOf_var spread vs le]
    cases k with
    | zero => exact getElem?_ontoFirst_zero later
    | succ k => exact (getElem?_ontoFirst_succ _ _ k).trans later
  | block opening body closing next _ ih =>
    obtain ⟨-, -, -, -, -, behind⟩ := spread_block spread
    rw [gaps]
    cases k with
    | zero => rw [gapOf_block_zero spread]; rfl
    | succ k =>
      rw [gapOf_block_succ spread, List.getElem?_cons_succ]
      exact ih behind vs (Nat.le_of_succ_le_succ le)

end Outline

/-! ## Blocks around stretches -/

/-- A block is the one around an outline, whose stretches come one after the other among some others;
it is around these and around none of the others. -/
inductive Surrounds (source : String) (all : List Span) : Block → Prop where
  | mk {name : Option String} {span : Span} {o : Outline} {tail : List Char} {pos stop : Nat}
      (front back : List Span) (spread : Tag.Spread source stop pos o.pieces tail)
      (row : all = front ++ (stretches stop pos (o.pieces.map (·.tag.span)) ++ back))
      (inside : ∀ s ∈ stretches stop pos (o.pieces.map (·.tag.span)),
        (o.around name span tail o.blocks).encloses s = true)
      (outside : ∀ s ∈ front ++ back, (o.around name span tail o.blocks).encloses s = false) :
      Surrounds source all (o.around name span tail o.blocks)

namespace Surrounds

variable {source : String} {all : List Span} {b : Block} {k : Nat}

theorem lt_length_gaps (h : Surrounds source all b) (le : k ≤ b.children.length) : k < b.gaps.length := by
  cases h with
  | mk _ _ spread =>
    have here := Outline.getElem?_gaps spread .empty le
    exact (List.getElem?_eq_some_iff.1 here).1

/-- Its gaps are made of the stretches it is the innermost block around. -/
theorem gap (h : Surrounds source all b) (le : k ≤ b.children.length) :
    b.gap k = (all.filter fun s => b.owns s && between b.children k s).flatMap fun s =>
      (b.vars.before s.start).segments (slice source.toList s.start s.stop) := by
  cases h with
  | @mk name span o tail pos stop front back spread row inside outside =>
    let b := o.around name span tail o.blocks
    have none_of (ss : List Span) (out : ∀ s ∈ ss, b.encloses s = false) :
        ss.filter (fun s => b.owns s && between b.children k s) = [] := by
      refine List.filter_eq_nil_iff.2 fun s hs => ?_
      simp [owns, out s hs]
    have own : ∀ s ∈ stretches stop pos (o.pieces.map (·.tag.span)),
        (b.owns s && between b.children k s) = between o.blocks k s := by
      intro s hs
      show ((b.encloses s && o.blocks.all fun c => !c.encloses s) && between o.blocks k s) = _
      rw [inside s hs, Bool.true_and]
      cases hb : between o.blocks k s with
      | false => rw [Bool.and_false]
      | true =>
        rw [Bool.and_true, List.all_eq_true]
        intro c hc
        rw [encloses_of_between hb (spread.within s hs).2.1 hc (Outline.nested_of_mem_blocks hc)]
        rfl
    have made : b.gap k = Outline.gapOf source stop pos .empty o k := by
      have here : b.gaps[k]? = some (Outline.gapOf source stop pos .empty o k) :=
        Outline.getElem?_gaps spread .empty le
      rw [Block.gap, here]
      rfl
    rw [made, row, List.filter_append, List.filter_append,
      none_of front fun s hs => outside s (List.mem_append_left _ hs),
      none_of back fun s hs => outside s (List.mem_append_right _ hs), List.nil_append, List.append_nil,
      List.filter_congr own]
    rfl

/-- The variables declared in front of a byte are the first ones of the block. -/
theorem before_isPrefix (h : Surrounds source all b) (pos : Nat) : (b.vars.before pos).entries <+: b.vars.entries := by
  cases h with
  | mk _ _ spread => exact Outline.before_isPrefix spread pos

/-- A segment with a variable comes from a stretch behind the variable's tag. -/
theorem exists_stretch (h : Surrounds source all b) (le : k ≤ b.children.length) {seg : Segment}
    (mem : seg ∈ b.gap k) {i : Nat} (var : seg.var = some i) :
    ∃ v s, b.vars.entries[i]? = some v ∧ s ∈ all ∧ b.owns s = true ∧ between b.children k s = true ∧
      v.span.stop ≤ s.start ∧ seg ∈ (b.vars.before s.start).segments (slice source.toList s.start s.stop) := by
  rw [h.gap le] at mem
  obtain ⟨s, hs, cut⟩ := List.mem_flatMap.1 mem
  obtain ⟨among, mine⟩ := List.mem_filter.1 hs
  rw [Bool.and_eq_true] at mine
  have lt : i < (b.vars.before s.start).entries.length := Variables.var_lt_of_mem_segments cut var
  have known : (b.vars.before s.start).entries[i] ∈ (b.vars.before s.start).entries := List.getElem_mem lt
  have same := (h.before_isPrefix s.start).getElem lt
  refine ⟨(b.vars.before s.start).entries[i], s, ?_, among, mine.1, mine.2, ?_, cut⟩
  · rw [same]
    exact List.getElem?_eq_getElem _
  · exact of_decide_eq_true (List.mem_filter.1 known).2

end Surrounds

namespace Template

/-- Every block of a template surrounds its stretches. -/
theorem surrounds_of_parse {source : String} {file : Nat} {root : Block}
    (parsed : Template.parse source file = .ok root) :
    ∃ ps tail, Tag.FlatScan source 0 ps tail ∧ ∀ b ∈ root.preorder,
      Surrounds source (stretches (byteCount source.toList) 0 (ps.map (·.tag.span))) b := by
  obtain ⟨ps, tail, o, scan, declares, outlines⟩ := exists_outline parsed
  obtain ⟨-, rfl⟩ := (parse_outline_iff scan declares outlines).1 parsed
  obtain ⟨shaped, rfl⟩ := outlines
  have whole := @Tag.FlatScan.spread source [] source.toList _ _ rfl scan
  refine ⟨o.pieces, tail, scan, fun b part => ?_⟩
  rcases Block.mem_preorder.1 part with rfl | ⟨c, hc, deeper⟩
  · exact .mk [] [] whole (by rw [List.append_nil, List.nil_append]; rfl) (fun _ _ => rfl) nofun
  · obtain ⟨opening, body, closing, contained, rfl⟩ := Outline.exists_contains hc deeper
    obtain ⟨front, back, pieces⟩ := contained.pieces
    rw [pieces] at whole ⊢
    obtain ⟨first, proper, rest⟩ := whole.split
    obtain ⟨inner, proper', behind⟩ := rest.split
    refine .mk (stretches opening.tag.span.start 0 (front.map (·.tag.span)))
      (stretches (byteCount source.toList) closing.tag.span.stop (back.map (·.tag.span))) inner ?_ ?_ ?_
    · rw [List.map_append, List.map_cons, stretches_append, List.map_append, List.map_cons, stretches_append]
    · intro s hs
      have := inner.within s hs
      show (decide (opening.tag.span.start < s.start) && decide (s.stop < closing.tag.span.stop)) = true
      rw [decide_eq_true (by omega), decide_eq_true (by omega)]
      rfl
    · intro s hs
      have between_ := inner.le
      show (decide (opening.tag.span.start < s.start) && decide (s.stop < closing.tag.span.stop)) = false
      rcases List.mem_append.1 hs with early | late
      · have := first.within s early
        rw [decide_eq_false (by omega), Bool.false_and]
      · have := behind.within s late
        rw [decide_eq_false (p := s.stop < closing.tag.span.stop) (by omega), Bool.and_false]

/-- **A gap is made of its block's own stretches.** The segments of gap `k` of a block, which are also those
of its range in the store, are in the order of the source what the stretches between two consecutive tags
are cut into whose innermost block it is and which stand behind its first `k` nested blocks and in front of
the others. Each is cut with the variables of the block whose tags stand in front of it. These are the first
ones of its table, so an index means the same variable in all of them; and a segment that carries a variable
comes from an own stretch behind the variable's tag. -/
theorem gap_eq_stretches {source : String} {file : Nat} {root : Block}
    (parsed : Template.parse source file = .ok root) :
    ∃ ps tail, Tag.FlatScan source 0 ps tail ∧
      let all := stretches (byteCount source.toList) 0 (ps.map (·.tag.span))
      ∀ b ∈ root.preorder,
        (∀ k ≤ b.children.length,
          b.gap k = ((all.filter fun s => b.owns s && between b.children k s).flatMap fun s =>
            (b.vars.before s.start).segments (slice source.toList s.start s.stop)) ∧
          ∀ q, (b, q) ∈ root.placed → ∃ g, q.gaps[k]? = some g ∧ root.store.get g = b.gap k) ∧
        (∀ pos, (b.vars.before pos).entries <+: b.vars.entries) ∧
        ∀ k ≤ b.children.length, ∀ seg ∈ b.gap k, ∀ i, seg.var = some i →
          ∃ v s, b.vars.entries[i]? = some v ∧ s ∈ all ∧ b.owns s = true ∧ between b.children k s = true ∧
            v.span.stop ≤ s.start ∧ seg ∈ (b.vars.before s.start).segments (slice source.toList s.start s.stop) := by
  obtain ⟨ps, tail, scan, surrounds⟩ := surrounds_of_parse parsed
  refine ⟨ps, tail, scan, fun b part => ?_⟩
  have around := surrounds b part
  refine ⟨fun k le => ⟨around.gap le, fun q placed => ?_⟩, around.before_isPrefix, fun k le seg mem i var => ?_⟩
  · obtain ⟨g, here, -, -, -, own⟩ := (root.placing.stands (b, q) placed).get_gap (around.lt_length_gaps le)
    exact ⟨g, here, own⟩
  · exact around.exists_stretch le mem var

/-- A text in front of a variable's tag, in a nested block, and behind it. -/
theorem gap_eq_stretches_around_block :
    ∃ root ps tail, Template.parse "X<!--rep var=x place=X-->X<!--rep blk=b-->X<!--/rep-->X" 0 = .ok root ∧
      Tag.FlatScan "X<!--rep var=x place=X-->X<!--rep blk=b-->X<!--/rep-->X" 0 ps tail ∧
      root.gap 0 = [⟨"X", none⟩, ⟨"", some 0⟩, ⟨"", none⟩] ∧ root.gap 1 = [⟨"", some 0⟩, ⟨"", none⟩] ∧
      root.children.map (·.gap 0) = [[⟨"X", none⟩]] ∧
      root.gap 1 = ((stretches 55 0 (ps.map (·.tag.span))).filter
        fun s => root.owns s && between root.children 1 s).flatMap fun s => (root.vars.before s.start).segments
          (slice "X<!--rep var=x place=X-->X<!--rep blk=b-->X<!--/rep-->X".toList s.start s.stop) := by
  let b : Block := ⟨some "b", ⟨[]⟩, [[⟨"X", none⟩]], [], ⟨26, 54⟩, .out⟩
  let root : Block := ⟨none, ⟨[⟨"x", "X", "X", ⟨1, 25⟩⟩]⟩,
    [[⟨"X", none⟩, ⟨"", some 0⟩, ⟨"", none⟩], [⟨"", some 0⟩, ⟨"", none⟩]], [b], ⟨0, 55⟩, .out⟩
  have parsed : Template.parse "X<!--rep var=x place=X-->X<!--rep blk=b-->X<!--/rep-->X" 0 = .ok root := by
    with_unfolding_all rfl
  have size : byteCount "X<!--rep var=x place=X-->X<!--rep blk=b-->X<!--/rep-->X".toList = 55 := by
    decide +kernel
  obtain ⟨ps, tail, scan, all⟩ := gap_eq_stretches parsed
  rw [size] at all
  exact ⟨root, ps, tail, parsed, scan, rfl, rfl, rfl, ((all root root.self_mem_preorder).1 1 (by decide)).1⟩

end Template

end Stencil

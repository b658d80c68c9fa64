import Stencil.Proofs.Grammar

/-!
# What is open while a template is read

Behind some tags of a source some blocks are open, and whatever the reader knows of each was declared by a
tag that stands directly in it (`Owns`). `Open` keeps account of this for all open blocks; reading a tag
keeps it (`Open.reads`).
-/

namespace Stencil

open Tag (Piece)

namespace Tag

theorem Balanced.append {ts us : List Tag} (first : Balanced ts) (second : Balanced us) : Balanced (ts ++ us) := by
  unfold Balanced at first second ⊢
  rw [openAfter_append, first, Option.bind_some, second]

/-- A tag that is no bracket. -/
theorem Balanced.single {t : Tag} (opens : t.opens = false) (closes : t.closes = false) : Balanced [t] := by
  unfold Balanced
  rw [openAfter, closes, opens]
  rfl

/-- Blocks that are open around some tags stay open. -/
theorem openAfter_add {d e : Nat} {ts : List Tag} (h : openAfter d ts = some e) (k : Nat) :
    openAfter (d + k) ts = some (e + k) := by
  induction ts generalizing d with
  | nil =>
    cases h
    rfl
  | cons t ts ih =>
    rw [openAfter] at h ⊢
    cases closes : t.closes with
    | true =>
      rw [closes, if_pos rfl] at h
      by_cases none_ : d = 0
      · rw [if_pos none_] at h
        cases h
      · rw [if_neg none_] at h
        have order : d + k - 1 = d - 1 + k := by omega
        rw [if_pos rfl, if_neg (by omega), order]
        exact ih h
    | false =>
      rw [closes, if_neg Bool.false_ne_true] at h
      rw [if_neg Bool.false_ne_true]
      cases opens : t.opens with
      | true =>
        rw [opens, if_pos rfl] at h
        rw [if_pos rfl, Nat.add_right_comm]
        exact ih h
      | false =>
        rw [opens, if_neg Bool.false_ne_true] at h
        rw [if_neg Bool.false_ne_true]
        exact ih h

/-- A block from its opening tag to its closing tag. -/
theorem Balanced.enclose {t c : Tag} {us : List Tag} (opens : t.opens = true) (inside : Balanced us)
    (closes : c.closes = true) : Balanced (t :: us ++ [c]) := by
  have deeper : openAfter 1 us = some 1 := openAfter_add inside 1
  unfold Balanced
  rw [List.cons_append, openAfter, closes_of_opens opens, opens]
  show openAfter 1 (us ++ [c]) = some 0
  rw [openAfter_append, deeper, Option.bind_some, openAfter, closes]
  rfl

/-- One of the tags read so far satisfies `P` and stands directly in the block that is open behind them. -/
def Directly (P : Tag → Prop) (ts : List Tag) : Prop :=
  ∃ front p mid, ts = front ++ p :: mid ∧ P p ∧ Balanced (p :: mid)

theorem Directly.append {P : Tag → Prop} {ts more : List Tag} (h : Directly P ts) (balanced : Balanced more) :
    Directly P (ts ++ more) := by
  obtain ⟨front, p, mid, rfl, here, rest⟩ := h
  refine ⟨front, p, mid ++ more, ?_, here, rest.append balanced⟩
  rw [List.append_assoc, List.cons_append]

theorem Directly.prepend {P : Tag → Prop} {ts : List Tag} (h : Directly P ts) (front : List Tag) :
    Directly P (front ++ ts) := by
  obtain ⟨others, p, mid, rfl, here, rest⟩ := h
  exact ⟨front ++ others, p, mid, (List.append_assoc ..).symm, here, rest⟩

/-- A tag gives a variable its name. -/
def NamesVar (t : Tag) (name : String) : Prop := t.get? "blk" = none ∧ t.get? "var" = some name

end Tag

open Tag (Balanced Directly NamesVar)

/-! ## Open blocks -/

/-- The tags read since a block was opened account for all that has been declared in it. -/
structure Owns (ts : List Tag) (f : Frame) : Prop where
  balanced : Balanced ts
  children : ∀ c ∈ f.children, Directly (fun p => p.get? "blk" = c.name) ts
  vars : ∀ v ∈ f.vars.entries, Directly (fun p => NamesVar p v.name ∧ p.span = v.span) ts

/-- The tags read so far have opened these blocks, the innermost first. -/
inductive Open : List Tag → Frame → List Frame → Prop where
  | root {ts : List Tag} {f : Frame} (unnamed : f.name = none) (own : Owns ts f) : Open ts f []
  | nested {ts us : List Tag} {t : Tag} {f g : Frame} {gs : List Frame} {name : String} (around : Open ts g gs)
      (opening : t.get? "blk" = some name) (named : f.name = some name) (span : f.opening = t.span)
      (own : Owns us f) : Open (ts ++ t :: us) f (g :: gs)

namespace Owns

variable {ts : List Tag} {f : Frame}

theorem opened (name : Option String) (span : Span) : Owns [] (.opened name span) :=
  ⟨rfl, nofun, nofun⟩

theorem read (h : Owns ts f) (text : List Char) : Owns ts (f.read text) :=
  ⟨h.balanced, h.children, h.vars⟩

/-- A variable was declared by its tag. -/
theorem declare {p : Piece} (h : Owns ts f) (closes : p.tag.closes = false) (named : NamesVar p.tag p.tag.var) :
    Owns (ts ++ [p.tag]) (f.declareAt p) := by
  have opens : p.tag.opens = false := by rw [Tag.opens, named.1]; rfl
  have one : Balanced [p.tag] := .single opens closes
  refine ⟨h.balanced.append one, fun c hc => (h.children c hc).append one, fun v hv => ?_⟩
  rcases List.mem_append.1 hv with old | new
  · exact (h.vars v old).append one
  · cases List.mem_singleton.1 new
    exact ⟨ts, p.tag, [], rfl, ⟨named, rfl⟩, one⟩

/-- A nested block was declared by its opening tag. -/
theorem nest {us : List Tag} {t c : Tag} {b : Block} (h : Owns ts f) (opening : t.get? "blk" = b.name)
    (opens : t.opens = true) (inside : Balanced us) (closes : c.closes = true) :
    Owns (ts ++ (t :: us ++ [c])) (f.nest b) := by
  have whole : Balanced (t :: us ++ [c]) := .enclose opens inside closes
  refine ⟨h.balanced.append whole, fun d hd => ?_, fun v hv => (h.vars v hv).append whole⟩
  rcases List.mem_append.1 hd with old | new
  · exact (h.children d old).append whole
  · cases List.mem_singleton.1 new
    exact ⟨ts, t, us ++ [c], rfl, opening, whole⟩

end Owns

namespace Open

variable {ts : List Tag} {f : Frame} {gs : List Frame}

/-- What has been declared in the innermost block. -/
theorem exists_own (h : Open ts f gs) : ∃ front us, ts = front ++ us ∧ Owns us f := by
  cases h with
  | root _ own => exact ⟨[], ts, rfl, own⟩
  | @nested ts us t _ _ _ name around _ _ _ own => exact ⟨ts ++ [t], us, by simp, own⟩

/-- Further tags change the innermost block alone. -/
theorem extend {f' : Frame} {more : List Tag} (h : Open ts f gs) (name : f'.name = f.name)
    (opening : f'.opening = f.opening) (own : ∀ us, Owns us f → Owns (us ++ more) f') : Open (ts ++ more) f' gs := by
  cases h with
  | root unnamed before => exact .root (name.trans unnamed) (own _ before)
  | nested around tag named span before =>
    rw [List.append_assoc, List.cons_append]
    exact .nested around tag (name.trans named) (opening.trans span) (own _ before)

theorem read (h : Open ts f gs) (text : List Char) : Open ts (f.read text) gs := by
  have same : Open (ts ++ []) (f.read text) gs := h.extend rfl rfl fun us own => by
    rw [List.append_nil]
    exact own.read text
  rwa [List.append_nil] at same

/-- Reading a tag keeps account of it. -/
theorem reads {b after : Builder} {p : Piece} (h : Open ts b.frame b.enclosing) (reads : Reads b p after) :
    Open (ts ++ [p.tag]) after.frame after.enclosing := by
  have declares := reads.declares
  cases closes : p.tag.closes with
  | true =>
    obtain ⟨parent, others, open_, -, rfl⟩ := (reads_close_iff closes).1 reads
    rw [open_] at h
    generalize frame : b.frame = inner at h
    cases h with
    | @nested ts us t _ _ _ name around opening named span own =>
      subst frame
      have opens : t.opens = true := by rw [Tag.opens, opening]; rfl
      rw [List.append_assoc, List.cons_append]
      exact around.extend rfl rfl fun front before => before.nest (opening.trans named.symm) opens own.balanced closes
  | false =>
    cases opens : p.tag.opens with
    | true =>
      obtain ⟨-, rfl⟩ := (reads_enter_iff declares opens).1 reads
      obtain ⟨name, opening⟩ := Option.isSome_iff_exists.1 opens
      have named : p.tag.blk = name := by rw [Tag.blk, opening]; rfl
      exact .nested (h.read p.text) (named ▸ opening) rfl rfl (.opened _ _)
    | false =>
      obtain ⟨-, -, rfl⟩ := (reads_declare_iff declares opens closes).1 reads
      obtain ⟨a, kind, declared⟩ := declares.variable opens closes
      obtain ⟨blk, var, -, -⟩ := Attributes.declaration_eq_var_iff.1 declared
      rw [← Tag.get?_opening kind] at blk var
      exact h.extend rfl rfl fun us own => own.declare closes ⟨blk, var⟩

/-- So does reading all tags of a row. -/
theorem run {size : Nat} {ps : List Piece} {b : Builder} (h : (Builder.start size).run ps = (b, none)) :
    Open (ps.map (·.tag)) b.frame b.enclosing := by
  refine Builder.run_induct (fun done b => Open (done.map (·.tag)) b.frame b.enclosing) ?_ h ?_
  · intro done p b after before read
    rw [List.map_append]
    exact before.reads read
  · exact .root rfl (.opened _ _)

end Open

end Stencil

import Stencil.Tag.Scan

/-!
# Where a tag begins and ends

`Tag.find` looks for the first opener of a text and completes the tag from there (`find_eq`); where the
first opener stands does not depend on the position of the text. A tag ends at the first closer behind its
opener (`cutAt?_first`). Neither what stands behind its end nor what stands in front of its opener plays a part
in any of this (`find_local`).
-/

namespace Stencil

namespace Text

/-- The pattern occurs nowhere in a text. -/
def Missing (pat text : List Char) : Prop := ∀ front back, text ≠ front ++ pat ++ back

theorem after?_append {pat text : List Char} (long : pat.length ≤ text.length) (more : List Char) :
    after? pat (text ++ more) = (after? pat text).map (· ++ more) := by
  induction pat generalizing text with
  | nil => simp
  | cons p ps ih =>
    cases text with
    | nil => exact absurd long (Nat.not_succ_le_zero _)
    | cons c cs =>
      rw [List.cons_append, after?, after?]
      split
      · exact ih (Nat.le_of_succ_le_succ long)
      · rfl

theorem cutAt?_of_after? {pat text rest : List Char} (h : after? pat text = some rest) :
    cutAt? pat text = some ([], rest) := by
  cases text with
  | nil =>
    cases pat with
    | nil =>
      cases h
      rfl
    | cons => cases h
  | cons c cs => rw [cutAt?, h]

theorem cutAt?_cons {pat cs : List Char} {c : Char} (h : after? pat (c :: cs) = none) :
    cutAt? pat (c :: cs) = (cutAt? pat cs).map fun (front, rest) => (c :: front, rest) := by
  rw [cutAt?, h]

/-- A text is cut at the first character of a kind. -/
theorem cutAt?_char {c : Char} {text front rest : List Char} :
    cutAt? [c] text = some (front, rest) ↔ text = front ++ c :: rest ∧ c ∉ front := by
  induction text generalizing front with
  | nil => simp [cutAt?]
  | cons d text ih =>
    by_cases same : c = d
    · subst same
      have here : after? [c] (c :: text) = some text := after?_eq_some_iff.2 rfl
      rw [cutAt?_of_after? here, Option.some_inj, Prod.mk.injEq]
      constructor
      · rintro ⟨rfl, rfl⟩
        exact ⟨rfl, List.not_mem_nil⟩
      · rintro ⟨split, absent⟩
        cases front with
        | nil => exact ⟨rfl, (List.cons.inj split).2⟩
        | cons e front => exact absurd ((List.cons.inj split).1 ▸ List.mem_cons_self) absent
    · have past : after? [c] (d :: text) = none := if_neg same
      rw [cutAt?_cons past, Option.map_eq_some_iff]
      constructor
      · rintro ⟨⟨inner, behind⟩, cut, split⟩
        cases split
        obtain ⟨rfl, absent⟩ := ih.1 cut
        exact ⟨rfl, fun mem => (List.mem_cons.1 mem).elim same absent⟩
      · rintro ⟨split, absent⟩
        cases front with
        | nil => exact absurd (List.cons.inj split).1.symm same
        | cons e front =>
          obtain ⟨rfl, rfl⟩ := List.cons.inj split
          exact ⟨(front, rest), ih.2 ⟨rfl, fun mem => absent (List.mem_cons_of_mem _ mem)⟩, rfl⟩

theorem after?_ne_none_of_front {pat text rest : List Char} (h : text = [] ++ pat ++ rest) :
    after? pat text ≠ none := by
  have here : after? pat text = some rest := after?_eq_some_iff.2 h
  rw [here]
  exact Option.some_ne_none _

theorem cutAt?_eq_none_iff {pat text : List Char} (nonempty : pat ≠ []) :
    cutAt? pat text = none ↔ Missing pat text := by
  induction text with
  | nil =>
    have none_ : cutAt? pat [] = none := by
      unfold cutAt?
      exact if_neg (by simpa using nonempty)
    refine iff_of_true none_ fun front back e => nonempty ?_
    have parts := List.append_eq_nil_iff.1 e.symm
    exact (List.append_eq_nil_iff.1 parts.1).2
  | cons c cs ih =>
    cases here : after? pat (c :: cs) with
    | some rest =>
      rw [cutAt?_of_after? here]
      exact iff_of_false (Option.some_ne_none _) fun missing => missing [] rest (after?_eq_some_iff.1 here)
    | none =>
      rw [cutAt?_cons here, Option.map_eq_none_iff, ih]
      constructor
      · rintro missing (_ | ⟨d, front⟩) back e
        · exact after?_ne_none_of_front e here
        · exact missing front back (List.cons.inj e).2
      · intro missing front back e
        exact missing (c :: front) back (by rw [e]; rfl)

/-- A text is cut at the first place where the pattern occurs. -/
theorem cutAt?_first {pat text front rest front' rest' : List Char} (h : cutAt? pat text = some (front, rest))
    (other : text = front' ++ pat ++ rest') : front.length ≤ front'.length := by
  induction text generalizing front front' with
  | nil =>
    have parts := congrArg List.length (cutAt?_eq_some h)
    simp only [List.length_nil, List.length_append] at parts
    omega
  | cons c cs ih =>
    cases here : after? pat (c :: cs) with
    | some behind =>
      rw [cutAt?_of_after? here] at h
      cases h
      exact Nat.zero_le _
    | none =>
      rw [cutAt?_cons here] at h
      obtain ⟨⟨inner, rest⟩, cut, e⟩ := Option.map_eq_some_iff.1 h
      cases e
      cases front' with
      | nil => exact absurd here (after?_ne_none_of_front other)
      | cons d front' => exact Nat.succ_le_succ (ih cut (List.cons.inj other).2)

/-- What stands behind the first occurrence plays no part in where it is. -/
theorem cutAt?_congr {pat front rest : List Char} (h : cutAt? pat (front ++ pat ++ rest) = some (front, rest))
    (more : List Char) : cutAt? pat (front ++ pat ++ more) = some (front, more) := by
  induction front with
  | nil => exact cutAt?_of_after? (after?_eq_some_iff.2 rfl)
  | cons c front ih =>
    have long : pat.length ≤ (c :: front ++ pat).length := by
      rw [List.length_append]
      omega
    have ahead : after? pat (c :: front ++ pat) = none := by
      cases here : after? pat (c :: front ++ pat) with
      | none => rfl
      | some behind =>
        have first := after?_append long rest
        rw [here] at first
        rw [cutAt?_of_after? first] at h
        cases h
    have later (x : List Char) : after? pat (c :: (front ++ pat ++ x)) = none := by
      have passed := after?_append long x
      rw [ahead] at passed
      exact passed
    have inner : cutAt? pat (front ++ pat ++ rest) = some (front, rest) := by
      have cut : cutAt? pat (c :: (front ++ pat ++ rest)) = some (c :: front, rest) := h
      rw [cutAt?_cons (later rest)] at cut
      obtain ⟨⟨front', rest'⟩, cut, e⟩ := Option.map_eq_some_iff.1 cut
      cases e
      exact cut
    show cutAt? pat (c :: (front ++ pat ++ more)) = some (c :: front, more)
    rw [cutAt?_cons (later more), ih inner]
    rfl

end Text

open Text

namespace Tag

/-- The first opener of a text, with what stands in front of it and behind it. -/
def firstOpener? : List Char → Option (List Char × Opener × List Char)
  | [] => none
  | c :: cs =>
    match opener? (c :: cs) with
    | some (o, rest) => some ([], o, rest)
    | none => (firstOpener? cs).map fun (front, o, rest) => (c :: front, o, rest)

/-- The first tag is the one that begins with the first opener. -/
theorem find_eq (pos : Nat) (cs : List Char) :
    find pos cs = match firstOpener? cs with
      | none => .ok none
      | some (front, o, rest) =>
        (complete o (pos + byteCount front) rest).map fun (tag, behind) => some ⟨front, tag, behind⟩ := by
  induction cs generalizing pos with
  | nil => rfl
  | cons c cs ih =>
    rw [find, firstOpener?]
    cases opener? (c :: cs) with
    | some found => rfl
    | none =>
      rw [ih]
      cases firstOpener? cs with
      | none => rfl
      | some found =>
        obtain ⟨front, o, rest⟩ := found
        dsimp only [Option.map_some]
        rw [byteCount_cons, Nat.add_assoc]
        cases complete o (pos + (c.utf8Size + byteCount front)) rest <;> rfl

/-! ## Openers -/

theorem length_opener_le (o : Opener) : 7 ≤ o.text.length ∧ o.text.length ≤ 8 := by
  cases o <;> decide

/-- Whether a text begins with an opener is settled by nine characters. -/
theorem opener?_append {text : List Char} (long : 9 ≤ text.length) (more : List Char) :
    opener? (text ++ more) = (opener? text).map fun (o, rest) => (o, rest ++ more) := by
  have each (o : Opener) : behind? o (text ++ more) = (behind? o text).map (· ++ more) := by
    have short := (length_opener_le o).2
    unfold behind?
    rw [after?_append (by omega)]
    cases found : after? o.text text with
    | none => rfl
    | some rest =>
      have parts := congrArg List.length (after?_eq_some_iff.1 found)
      rw [List.length_append] at parts
      cases rest with
      | nil =>
        rw [List.length_nil] at parts
        omega
      | cons c rest =>
        have same : wordEnds (c :: rest ++ more) = wordEnds (c :: rest) := rfl
        rw [Option.map_some, Option.filter_some, Option.filter_some, same]
        split <;> rfl
  unfold opener?
  rw [each, each]
  cases behind? .closing text with
  | some rest => rfl
  | none =>
    cases behind? .opening text <;> rfl

theorem firstOpener?_of_opener? {text rest : List Char} {o : Opener} (h : opener? text = some (o, rest)) :
    firstOpener? text = some ([], o, rest) := by
  cases text with
  | nil => cases o <;> exact absurd (opener?_eq_some h).1 nofun
  | cons c cs => rw [firstOpener?, h]

theorem firstOpener?_cons {c : Char} {cs : List Char} (h : opener? (c :: cs) = none) :
    firstOpener? (c :: cs) = (firstOpener? cs).map fun (front, o, rest) => (c :: front, o, rest) := by
  rw [firstOpener?, h]

/-- The first opener stands in the text, and behind it a word ends. -/
theorem firstOpener?_eq_some {text front rest : List Char} {o : Opener}
    (h : firstOpener? text = some (front, o, rest)) :
    text = front ++ o.text ++ rest ∧ wordEnds rest = true ∧ opener? (o.text ++ rest) = some (o, rest) := by
  induction text generalizing front with
  | nil => cases h
  | cons c cs ih =>
    cases here : opener? (c :: cs) with
    | some found =>
      obtain ⟨o', rest'⟩ := found
      rw [firstOpener?_of_opener? here] at h
      cases h
      obtain ⟨text, ends⟩ := opener?_eq_some here
      rw [text] at here
      exact ⟨text, ends, here⟩
    | none =>
      rw [firstOpener?_cons here] at h
      obtain ⟨⟨front', o', rest'⟩, found, e⟩ := Option.map_eq_some_iff.1 h
      cases e
      obtain ⟨text, ends, opens⟩ := ih found
      exact ⟨by rw [text]; rfl, ends, opens⟩

/-- What stands two characters behind the first opener plays no part in where it is. -/
theorem firstOpener?_congr {front near far : List Char} {o : Opener} (long : 2 ≤ near.length)
    (h : firstOpener? (front ++ o.text ++ near ++ far) = some (front, o, near ++ far)) (more : List Char) :
    firstOpener? (front ++ o.text ++ near ++ more) = some (front, o, near ++ more) := by
  have enough (front : List Char) : 9 ≤ (front ++ o.text ++ near).length := by
    have := (length_opener_le o).1
    rw [List.length_append, List.length_append]
    omega
  induction front with
  | nil =>
    obtain ⟨-, -, here⟩ := firstOpener?_eq_some h
    rw [← List.append_assoc, ← List.nil_append o.text, opener?_append (enough [])] at here
    obtain ⟨⟨o', near'⟩, opens, e⟩ := Option.map_eq_some_iff.1 here
    obtain ⟨rfl, same⟩ := Prod.mk.inj e
    obtain rfl := List.append_cancel_right same
    apply firstOpener?_of_opener?
    rw [opener?_append (enough []), opens]
    rfl
  | cons c front ih =>
    have ahead : opener? (c :: front ++ o.text ++ near) = none := by
      cases here : opener? (c :: front ++ o.text ++ near) with
      | none => rfl
      | some found =>
        have opens := opener?_append (enough (c :: front)) far
        rw [here] at opens
        rw [firstOpener?_of_opener? opens] at h
        cases h
    have later (x : List Char) : opener? (c :: (front ++ o.text ++ near ++ x)) = none := by
      have passed := opener?_append (enough (c :: front)) x
      rw [ahead] at passed
      exact passed
    have inner : firstOpener? (front ++ o.text ++ near ++ far) = some (front, o, near ++ far) := by
      have found : firstOpener? (c :: (front ++ o.text ++ near ++ far)) = some (c :: front, o, near ++ far) := h
      rw [firstOpener?_cons (later far)] at found
      obtain ⟨⟨front', o', rest'⟩, found, e⟩ := Option.map_eq_some_iff.1 found
      cases e
      exact found
    show firstOpener? (c :: (front ++ o.text ++ near ++ more)) = some (c :: front, o, near ++ more)
    rw [firstOpener?_cons (later more), ih inner]
    rfl

/-! ## Completing a tag -/

/-- What a tag with a given opener does, from the text behind the opener. -/
def Opener.kind (o : Opener) (inside : List Char) : Except Fault TagKind :=
  match o with
  | .closing => .ok .closing
  | .opening => (Attributes.parse inside).map .opening

/-- The tag runs to the first closer. -/
theorem complete_of_cut {o : Opener} {start : Nat} {rest inside behind : List Char}
    (cut : cutAt? closer rest = some (inside, behind)) :
    complete o start rest =
      (let span : Span := ⟨start, start + byteCount (o.text ++ inside ++ closer)⟩
      match o.kind inside with
      | .error fault => .error ⟨fault, span⟩
      | .ok kind => .ok (⟨kind, span⟩, behind)) := by
  have sizes : start + byteCount o.text + byteCount inside + byteCount closer =
      start + byteCount (o.text ++ inside ++ closer) := by
    rw [byteCount_append, byteCount_append]
    omega
  unfold complete Opener.kind
  rw [cut]
  dsimp only
  rw [sizes]
  cases o with
  | closing => rfl
  | opening => cases Attributes.parse inside <;> rfl

theorem complete_of_missing {o : Opener} {start : Nat} {rest : List Char} (missing : cutAt? closer rest = none) :
    complete o start rest = .error ⟨.unterminatedTag, start, start + byteCount (o.text ++ rest)⟩ := by
  unfold complete
  rw [missing, byteCount_append, Nat.add_assoc]

/-! ## Finding a tag -/

/-- A tag that is found runs from the first opener to the first closer behind it. -/
theorem find_eq_ok_some {pos : Nat} {cs : List Char} {f : Found} (h : find pos cs = .ok (some f)) :
    ∃ o inside, firstOpener? cs = some (f.front, o, inside ++ closer ++ f.rest) ∧
      cutAt? closer (inside ++ closer ++ f.rest) = some (inside, f.rest) ∧ o.kind inside = .ok f.tag.kind ∧
      f.tag.span =
        ⟨pos + byteCount f.front, pos + byteCount f.front + byteCount (o.text ++ inside ++ closer)⟩ := by
  rw [find_eq] at h
  cases first : firstOpener? cs with
  | none =>
    rw [first] at h
    cases h
  | some found =>
    obtain ⟨front, o, rest⟩ := found
    rw [first] at h
    cases cut : cutAt? closer rest with
    | none =>
      simp only [complete_of_missing cut] at h
      cases h
    | some parts =>
      obtain ⟨inside, behind⟩ := parts
      obtain rfl := cutAt?_eq_some cut
      simp only [complete_of_cut cut] at h
      cases kind : o.kind inside with
      | error fault =>
        rw [kind] at h
        cases h
      | ok k =>
        rw [kind] at h
        cases h
        exact ⟨o, inside, rfl, cut, kind, rfl⟩

/-- The search runs into the first opener if its tag cannot be read. -/
theorem find_eq_error {pos : Nat} {cs : List Char} {d : Defect} (h : find pos cs = .error d) :
    ∃ front o rest, firstOpener? cs = some (front, o, rest) ∧ d.span.start = pos + byteCount front ∧
      ((d.fault = .unterminatedTag ∧ cutAt? closer rest = none ∧ d.span.stop = pos + byteCount cs) ∨
      ∃ inside behind, cutAt? closer rest = some (inside, behind) ∧ o.kind inside = .error d.fault ∧
        d.span.stop = pos + byteCount (front ++ o.text ++ inside ++ closer)) := by
  rw [find_eq] at h
  cases first : firstOpener? cs with
  | none =>
    rw [first] at h
    cases h
  | some found =>
    obtain ⟨front, o, rest⟩ := found
    rw [first] at h
    cases cut : cutAt? closer rest with
    | none =>
      simp only [complete_of_missing cut] at h
      cases h
      refine ⟨front, o, rest, rfl, rfl, .inl ⟨rfl, cut, ?_⟩⟩
      rw [(firstOpener?_eq_some first).1, List.append_assoc, byteCount_append front, Nat.add_assoc]
    | some parts =>
      obtain ⟨inside, behind⟩ := parts
      simp only [complete_of_cut cut] at h
      cases kind : o.kind inside with
      | ok k =>
        rw [kind] at h
        cases h
      | error fault =>
        rw [kind] at h
        cases h
        refine ⟨front, o, rest, rfl, rfl, .inr ⟨inside, behind, cut, kind, ?_⟩⟩
        simp only [byteCount_append, Nat.add_assoc]

theorem find_of_parts {pos : Nat} {cs front inside behind : List Char} {o : Opener} {kind : TagKind}
    (first : firstOpener? cs = some (front, o, inside ++ closer ++ behind))
    (cut : cutAt? closer (inside ++ closer ++ behind) = some (inside, behind)) (reads : o.kind inside = .ok kind) :
    find pos cs = .ok (some ⟨front,
      ⟨kind, ⟨pos + byteCount front, pos + byteCount front + byteCount (o.text ++ inside ++ closer)⟩⟩, behind⟩) := by
  rw [find_eq, first]
  simp only [complete_of_cut cut, reads]
  rfl

/-- A tag is found from its own text, wherever it stands and whatever is behind it. -/
theorem find_local {pos : Nat} {cs : List Char} {f : Found} (h : find pos cs = .ok (some f)) :
    ∃ comment, cs = f.front ++ comment ++ f.rest ∧
      f.tag.span = ⟨pos + byteCount f.front, pos + byteCount f.front + byteCount comment⟩ ∧
      (∀ more, find pos (f.front ++ comment ++ more) = .ok (some ⟨f.front, f.tag, more⟩)) ∧
      ∀ more, find (pos + byteCount f.front) (comment ++ more) = .ok (some ⟨[], f.tag, more⟩) := by
  obtain ⟨o, inside, first, cut, kind, span⟩ := find_eq_ok_some h
  have tag : f.tag = ⟨f.tag.kind,
      ⟨pos + byteCount f.front, pos + byteCount f.front + byteCount (o.text ++ inside ++ closer)⟩⟩ := by
    rw [← span]
  obtain ⟨text, ends, opens⟩ := firstOpener?_eq_some first
  have near : 2 ≤ (inside ++ closer).length := by
    have : closer.length = 3 := rfl
    rw [List.length_append]
    omega
  have moved (more : List Char) : firstOpener? (f.front ++ (o.text ++ inside ++ closer) ++ more) =
      some (f.front, o, inside ++ closer ++ more) := by
    have order (x : List Char) : f.front ++ (o.text ++ inside ++ closer) ++ x =
        f.front ++ o.text ++ (inside ++ closer) ++ x := by
      simp only [List.append_assoc]
    have whole : firstOpener? (f.front ++ o.text ++ (inside ++ closer) ++ f.rest) =
        some (f.front, o, inside ++ closer ++ f.rest) := by
      rw [List.append_assoc (f.front ++ o.text), ← text, first]
    rw [order]
    exact firstOpener?_congr near whole more
  refine ⟨o.text ++ inside ++ closer, ?_, span, fun more => ?_, fun more => ?_⟩
  · rw [text]
    simp only [List.append_assoc]
  · rw [find_of_parts (moved more) (cutAt?_congr cut more) kind, ← tag]
  · have own : firstOpener? (o.text ++ inside ++ closer ++ more) = some ([], o, inside ++ closer ++ more) := by
      have order (x : List Char) : o.text ++ inside ++ closer ++ x = [] ++ o.text ++ (inside ++ closer) ++ x := by
        simp only [List.append_assoc, List.nil_append]
      have whole : firstOpener? ([] ++ o.text ++ (inside ++ closer) ++ f.rest) =
          some ([], o, inside ++ closer ++ f.rest) := by
        rw [List.append_assoc ([] ++ o.text)]
        exact firstOpener?_of_opener? opens
      rw [order]
      exact firstOpener?_congr near whole more
    rw [find_of_parts own (cutAt?_congr cut more) kind, byteCount_nil, Nat.add_zero, ← tag]

end Tag

end Stencil

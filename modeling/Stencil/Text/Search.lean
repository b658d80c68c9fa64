/-!
# Searching text

The first occurrence of a pattern, as the text in front of it and the text behind it, so
that nothing has to be cut by position. `cutAt?_eq_some` says that the two parts and the
pattern make up the text.
-/

namespace Stencil.Text

/-- The text behind `pat`, if the text begins with it. -/
def after? : (pat text : List Char) → Option (List Char)
  | [], cs => some cs
  | _ :: _, [] => none
  | p :: ps, c :: cs => if p = c then after? ps cs else none

@[simp] theorem after?_nil (cs : List Char) : after? [] cs = some cs := by
  cases cs <;> rfl

theorem after?_eq_some_iff {pat text rest : List Char} :
    after? pat text = some rest ↔ text = pat ++ rest := by
  induction pat generalizing text with
  | nil => simp
  | cons p ps ih =>
    cases text with
    | nil => simp [after?]
    | cons c cs =>
      by_cases h : p = c
      · subst h; simp [after?, ih]
      · simp [after?, h, Ne.symm h]

/-- The parts around the first occurrence of `pat`. -/
def cutAt? (pat : List Char) : List Char → Option (List Char × List Char)
  | [] => if pat.isEmpty then some ([], []) else none
  | c :: cs =>
    match after? pat (c :: cs) with
    | some rest => some ([], rest)
    | none => (cutAt? pat cs).map fun (front, rest) => (c :: front, rest)

/-- The parts around an occurrence and the pattern itself are the whole text. -/
theorem cutAt?_eq_some {pat text front rest : List Char}
    (h : cutAt? pat text = some (front, rest)) : text = front ++ pat ++ rest := by
  induction text generalizing front with
  | nil =>
    cases pat <;> simp [cutAt?] at h
    obtain ⟨rfl, rfl⟩ := h; rfl
  | cons c cs ih =>
    rw [cutAt?] at h
    split at h
    · next r hr =>
      simp only [Option.some.injEq, Prod.mk.injEq] at h
      obtain ⟨rfl, rfl⟩ := h
      simpa using after?_eq_some_iff.1 hr
    · obtain ⟨⟨f, r⟩, hf, e⟩ := Option.map_eq_some_iff.1 h
      simp only [Prod.mk.injEq] at e
      obtain ⟨rfl, rfl⟩ := e
      simp [ih hf]

/-- Whether `pat` occurs in `text`. -/
def occursIn (pat text : String) : Bool :=
  (cutAt? pat.toList text.toList).isSome

/-- The list without the elements of class `p` at its end. -/
def dropEndWhile {α : Type} (p : α → Bool) (xs : List α) : List α :=
  (xs.reverse.dropWhile p).reverse

/-- The text without the characters of class `p` at either end. -/
def trimBoth (p : Char → Bool) (cs : List Char) : List Char :=
  dropEndWhile p (cs.dropWhile p)

/-- The lines of a text: each ends in a line feed, which a carriage return may precede; the
last one may lack its end, and an empty last line is none. -/
def lines (s : String) : List String :=
  (pieces [] s.toList).map String.ofList
where
  /-- Collects the current line, last character first. -/
  pieces (line : List Char) : List Char → List (List Char)
    | [] => if line.isEmpty then [] else [line.reverse]
    | '\n' :: cs => (dropReturn line).reverse :: pieces [] cs
    | c :: cs => pieces (c :: line) cs
  dropReturn : List Char → List Char
    | '\r' :: line => line
    | line => line

end Stencil.Text

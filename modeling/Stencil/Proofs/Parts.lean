import Mathlib.Data.List.DropRight
import Stencil.Proofs.Openers
import Stencil.Text.Blank

/-!
# Parts of a text

What a text has between the characters of a class at its ends is told without a search from either end
(`Trims`), and the search finds it (`trimBoth_eq_iff`). A text occurs in another one if it is a part of it
(`occursIn_iff`).
-/

namespace Stencil.Text

/-! ## The ends of a text -/

/-- A run of characters of a class ends in front of the first one that is not of it. -/
theorem span_run {p : Char → Bool} {run behind : List Char} (all : ∀ c ∈ run, p c = true)
    (stop : ∀ c ∈ behind.head?, p c = false) :
    (run ++ behind).takeWhile p = run ∧ (run ++ behind).dropWhile p = behind := by
  rw [List.takeWhile_append_of_pos all, List.dropWhile_append_of_pos all]
  cases behind with
  | nil => simp
  | cons c cs =>
    have here : p c = false := stop c rfl
    simp [here]

/-- What is dropped from the end of a text is of the class. -/
theorem exists_dropEndWhile (p : Char → Bool) (text : List Char) :
    ∃ trail, text = dropEndWhile p text ++ trail ∧ ∀ c ∈ trail, p c = true := by
  refine ⟨(text.reverse.takeWhile p).reverse, ?_, fun c mem => ?_⟩
  · unfold dropEndWhile
    rw [← List.reverse_append, List.takeWhile_append_dropWhile, List.reverse_reverse]
  · exact List.mem_takeWhile_imp (List.mem_reverse.1 mem)

/-- In front of a character that stays, nothing is dropped from the end of a text. -/
theorem dropEndWhile_append {p : Char → Bool} {last : Char} (stays : p last = false) (front behind : List Char) :
    dropEndWhile p (front ++ [last] ++ behind) = front ++ [last] ++ dropEndWhile p behind := by
  unfold dropEndWhile
  rw [List.reverse_append, List.dropWhile_append, List.reverse_append]
  cases left : behind.reverse.dropWhile p with
  | nil => simp [stays]
  | cons => simp

/-- A run of characters of a class at the end of a text is dropped up to the last one that is not of it. -/
theorem dropEndWhile_run {p : Char → Bool} {front run : List Char} (all : ∀ c ∈ run, p c = true)
    (stop : ∀ c ∈ front.getLast?, p c = false) : dropEndWhile p (front ++ run) = front := by
  have mirrored : ∀ c ∈ front.reverse.head?, p c = false := by rwa [List.head?_reverse]
  rw [dropEndWhile, List.reverse_append, (span_run (fun c mem => all c (List.mem_reverse.1 mem)) mirrored).2,
    List.reverse_reverse]

/-- A text has a core with characters of a class around it, and the core neither begins nor ends with one. -/
structure Trims (p : Char → Bool) (text core : List Char) : Prop where
  around : ∃ front back, text = front ++ core ++ back ∧ (∀ c ∈ front, p c = true) ∧ ∀ c ∈ back, p c = true
  first : ∀ c ∈ core.head?, p c = false
  last : ∀ c ∈ core.getLast?, p c = false

theorem trims_trimBoth (p : Char → Bool) (text : List Char) : Trims p text (trimBoth p text) := by
  -- What is dropped in front is the longest run there, and so is what is dropped from the end.
  have stops (cs : List Char) : ∀ c ∈ (cs.dropWhile p).head?, p c = false := by
    intro c here
    have stop := List.head?_dropWhile_not p cs
    rwa [Option.mem_def.1 here] at stop
  obtain ⟨back, parts, ends⟩ := exists_dropEndWhile p (text.dropWhile p)
  refine ⟨⟨text.takeWhile p, back, ?_, fun c mem => List.mem_takeWhile_imp mem, ends⟩, fun c here => ?_, ?_⟩
  · rw [List.append_assoc, trimBoth, ← parts, List.takeWhile_append_dropWhile]
  · refine stops text c ?_
    rw [parts, List.head?_append, ← trimBoth, Option.mem_def.1 here]
    rfl
  · intro c here
    rw [trimBoth, dropEndWhile, List.getLast?_reverse] at here
    exact stops _ c here

/-- Nothing else is left of a text. -/
theorem Trims.trimBoth_eq {p : Char → Bool} {text core : List Char} (h : Trims p text core) :
    trimBoth p text = core := by
  obtain ⟨⟨front, back, rfl, before, behind⟩, first, last⟩ := h
  rw [trimBoth]
  cases core with
  | nil =>
    have all : ∀ c ∈ front ++ [] ++ back, p c = true := by
      intro c mem
      rw [List.append_nil] at mem
      exact (List.mem_append.1 mem).elim (before c) (behind c)
    rw [List.dropWhile_eq_nil_iff.2 all]
    rfl
  | cons c core =>
    have stop : ∀ d ∈ (c :: core ++ back).head?, p d = false := first
    rw [List.append_assoc, (span_run before stop).2, dropEndWhile_run behind last]

theorem trimBoth_eq_iff {p : Char → Bool} {text core : List Char} : trimBoth p text = core ↔ Trims p text core := by
  refine ⟨?_, Trims.trimBoth_eq⟩
  rintro rfl
  exact trims_trimBoth p text

/-! ## Texts within texts -/

theorem occursIn_iff {part text : String} : occursIn part text = true ↔ part.toList <:+: text.toList := by
  rw [occursIn, Option.isSome_iff_exists]
  constructor
  · rintro ⟨⟨front, rest⟩, cut⟩
    exact ⟨front, rest, (cutAt?_eq_some cut).symm⟩
  · rintro ⟨front, rest, whole⟩
    by_cases empty : part.toList = []
    · rw [empty]
      exact ⟨_, cutAt?_of_after? (after?_nil _)⟩
    · refine Option.ne_none_iff_exists'.1 fun none_ => ?_
      exact (cutAt?_eq_none_iff empty).1 none_ front rest whole.symm

/-- A pattern that is missing in front of an occurrence, and whose first character stands in it only once, is
found there. -/
theorem cutAt?_of_missing {c : Char} {pat front rest : List Char} (once : c ∉ pat)
    (missing : ¬ c :: pat <:+: front) : cutAt? (c :: pat) (front ++ c :: pat ++ rest) = some (front, rest) := by
  induction front with
  | nil => exact cutAt?_of_after? (after?_eq_some_iff.2 rfl)
  | cons d front ih =>
    have here : after? (c :: pat) (d :: (front ++ c :: pat ++ rest)) = none := by
      refine Option.eq_none_iff_forall_not_mem.2 fun rest' found => missing ?_
      obtain ⟨rfl, text⟩ := List.cons.inj (after?_eq_some_iff.1 found)
      rw [List.append_assoc] at text
      -- An occurrence that begins here ends in front of the other one, or they overlap in its first character.
      rcases List.append_eq_append_iff.1 text with ⟨mid, ends, overlap⟩ | ⟨mid, inside, -⟩
      · cases mid with
        | nil => exact ⟨[], [], by rw [ends]; simp⟩
        | cons e mid =>
          rw [List.cons_append, List.cons_append] at overlap
          exact absurd (by rw [ends, (List.cons.inj overlap).1]; simp) once
      · exact ⟨[], mid, by rw [inside]; rfl⟩
    have later := ih fun inside => missing (inside.trans (List.suffix_cons d front).isInfix)
    rw [List.cons_append, List.cons_append, cutAt?_cons here, later]
    rfl

end Stencil.Text

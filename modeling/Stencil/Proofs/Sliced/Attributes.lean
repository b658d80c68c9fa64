import Stencil.Proofs.Slices
import Stencil.Proofs.Spelled

/-!
# Attributes by byte positions

The attributes of a tag, read by a loop that slices one pair after the other off the text. A pair takes at least two
bytes (`pair?_eq_some`), so the loop ends, with what `Attributes.parse` gives (`attributes?_eq`).
-/

namespace Stencil

open Text

namespace Text

/-- A text begins with its longest run of characters of a class. -/
theorem exists_run (p : Char → Bool) (cs : List Char) :
    ∃ run behind, cs = run ++ behind ∧ cs.takeWhile p = run ∧ cs.dropWhile p = behind :=
  ⟨_, _, List.takeWhile_append_dropWhile.symm, rfl, rfl⟩

/-- A text is cut at the first character of a kind, behind the run of others. -/
theorem cutAt?_run (c : Char) (cs : List Char) :
    cutAt? [c] cs = match cs.dropWhile (· != c) with
      | [] => none
      | _ :: rest => some (cs.takeWhile (· != c), rest) := by
  have others : c ∉ cs.takeWhile (· != c) := by
    intro mem
    have inner := List.mem_takeWhile_imp mem
    simp at inner
  have stops := List.head?_dropWhile_not (· != c) cs
  obtain ⟨run, behind, parts, taken, left⟩ := exists_run (· != c) cs
  rw [taken] at others ⊢
  rw [left] at stops ⊢
  cases behind with
  | nil =>
    refine (cutAt?_eq_none_iff (List.cons_ne_nil _ _)).2 fun front back text => others ?_
    rw [List.append_nil] at parts
    rw [← parts, text]
    simp
  | cons d rest =>
    have same : d = c := by simpa using stops
    subst same
    exact cutAt?_char.2 ⟨parts, others⟩

end Text

namespace Sliced

open Attributes

/-- The value at the front of a text, and its bytes with the quotes. A quote that is not closed takes nothing and
leaves an empty value. -/
def value? (cs : List Char) : Option (List Char × Nat) :=
  match cs.head?.filter isQuote with
  | some quote => do
    let behind ← sliceFrom? cs 1
    match offset? [quote] behind with
    | some close => do
      let inside ← slice? cs 1 (1 + close)
      some (inside, close + 2)
    | none => some ([], 0)
  | none => do
    let stop := byteCount (cs.takeWhile isPlain)
    let run ← slice? cs 0 stop
    some (run, stop)

/-- The pair at the front of a text, and the bytes it takes; `some none` where there is no pair. -/
def pair? (cs : List Char) : Option (Option ((List Char × List Char) × Nat)) :=
  let body := cs.dropWhile isSpace
  let lead := byteCount cs - byteCount body
  if body.head?.any isWord then do
    let keyEnd := byteCount (body.takeWhile isKey)
    let behindKey ← sliceFrom? body keyEnd
    match after? ['='] behindKey with
    | none => some none
    | some behindSign => do
      let (val, size) ← value? behindSign
      let key ← slice? body 0 keyEnd
      some (some ((key, val), lead + keyEnd + 1 + size))
  else
    some none

/-- One pair more, from the pairs so far and the text behind them. -/
def attributesPass : List (String × String) × List Char →
    Option (Pass (List (String × String) × List Char) (Except Fault Attributes))
  | (known, rest) => do
    match ← pair? rest with
    | none => some (.done (if rest.isEmpty then .ok ⟨known⟩ else .error .invalidAttributes))
    | some ((key, val), size) =>
      if (known.lookup (String.ofList key)).isSome then
        some (.done (.error (.repeatedAttribute (String.ofList key))))
      else do
        let rest ← sliceFrom? rest size
        some (.again (known ++ [(String.ofList key, String.ofList val)], rest))

/-- The attributes of an opening tag, from the text between its keyword and its end. -/
def attributes? (text : List Char) : Option (Except Fault Attributes) :=
  loop? attributesPass ([], dropEndWhile isSpace text)

theorem byteCount_of_isQuote {c : Char} (h : isQuote c = true) : byteCount [c] = 1 := by
  rcases isQuote_iff.1 h with rfl | rfl <;> rfl

/-- A quoted value is what stands in front of the next quote of its kind. -/
theorem value?_of_quote {quote : Char} {cs : List Char} (mark : isQuote quote = true) :
    value? (quote :: cs) = match cs.dropWhile (· != quote) with
      | [] => some ([], 0)
      | _ :: _ => some (cs.takeWhile (· != quote), byteCount (cs.takeWhile (· != quote)) + 2) := by
  have one := byteCount_of_isQuote mark
  have head : (quote :: cs).head?.filter isQuote = some quote := by
    rw [List.head?_cons, Option.filter_some, if_pos mark]
  have behindQuote : sliceFrom? (quote :: cs) 1 = some cs := by
    rw [← one]
    exact sliceFrom?_append [quote] cs
  have cut := cutAt?_run quote cs
  rw [value?, head]
  dsimp only
  rw [behindQuote, Option.bind_eq_bind, Option.bind_some, offset?]
  obtain ⟨run, behind, parts, taken, left⟩ := exists_run (· != quote) cs
  rw [taken, left] at cut ⊢
  rw [cut]
  cases behind with
  | nil => rfl
  | cons c rest =>
    have inside : slice? (quote :: cs) 1 (1 + byteCount run) = some run :=
      slice?_eq_some_iff.2 ⟨[quote], c :: rest, congrArg (quote :: ·) parts, one, by rw [one]⟩
    rw [Option.map_some]
    dsimp only
    rw [inside]
    rfl

theorem value?_of_bare {cs : List Char} (bare : ∀ c ∈ cs.head?, isQuote c = false) :
    value? cs = some (cs.takeWhile isPlain, byteCount (cs.takeWhile isPlain)) := by
  have head : cs.head?.filter isQuote = none := by
    refine Option.filter_eq_none_iff.2 fun c mem => ?_
    rw [bare c mem]
    exact Bool.false_ne_true
  rw [value?, head]
  dsimp only
  obtain ⟨run, behind, rfl, taken, -⟩ := exists_run isPlain cs
  rw [taken, slice?_front]
  rfl

/-- The value takes the text in front of what is left. -/
theorem value?_eq {cs val rest : List Char} (h : value cs = (val, rest)) :
    ∃ taken, cs = taken ++ rest ∧ value? cs = some (val, byteCount taken) := by
  by_cases quoted : ∃ c ∈ cs.head?, isQuote c = true
  · obtain ⟨quote, head, mark⟩ := quoted
    obtain ⟨cs, rfl⟩ := List.head?_eq_some_iff.1 head
    have stops := List.head?_dropWhile_not (· != quote) cs
    rw [value_of_quote mark] at h
    rw [value?_of_quote mark]
    obtain ⟨run, behind, parts, taken, left⟩ := exists_run (· != quote) cs
    rw [taken, left] at h ⊢
    rw [left] at stops
    cases behind with
    | nil =>
      cases h
      exact ⟨[], rfl, rfl⟩
    | cons c behind =>
      cases h
      have same : c = quote := by simpa using stops
      have size : byteCount (quote :: val ++ [quote]) = byteCount val + 2 := by
        have one : byteCount [quote] = 1 := byteCount_of_isQuote mark
        rw [byteCount_append, ← List.singleton_append, byteCount_append, one]
        omega
      refine ⟨quote :: val ++ [quote], ?_, by rw [size]⟩
      rw [parts, same]
      simp
  · have bare : ∀ c ∈ cs.head?, isQuote c = false := fun c mem =>
      Bool.eq_false_iff.2 fun mark => quoted ⟨c, mem, mark⟩
    rw [value_of_bare bare] at h
    rw [value?_of_bare bare]
    obtain ⟨run, behind, rfl, taken, left⟩ := exists_run isPlain cs
    rw [taken, left] at h
    cases h
    exact ⟨val, rfl, by rw [taken]⟩

/-- A pair takes the text in front of what is left, and that is at least a character of its key and its sign. -/
theorem pair?_eq_some {cs rest : List Char} {pair : List Char × List Char}
    (h : Attributes.pair? cs = some (pair, rest)) :
    ∃ taken, cs = taken ++ rest ∧ 2 ≤ byteCount taken ∧ pair? cs = some (some (pair, byteCount taken)) := by
  obtain ⟨space, body, rfl, -, trimmed⟩ := exists_run isSpace cs
  unfold pair?
  unfold Attributes.pair? at h
  dsimp only at h ⊢
  rw [trimmed] at h ⊢
  have lead : byteCount (space ++ body) - byteCount body = byteCount space := by
    rw [byteCount_append]
    omega
  rw [lead]
  split at h
  · next begins =>
    rw [if_pos begins]
    have keySize : 0 < byteCount (body.takeWhile isKey) := by
      cases body with
      | nil => cases begins
      | cons c body =>
        rw [List.takeWhile_cons_of_pos (isKey_iff.2 (.inl begins)), byteCount_cons]
        exact Nat.lt_add_right _ (Char.utf8Size_pos c)
    obtain ⟨key, behind, rfl, taken, left⟩ := exists_run isKey body
    rw [taken] at h keySize ⊢
    rw [left] at h
    rw [sliceFrom?_append, slice?_front]
    split at h
    · next behindSign =>
      obtain ⟨val, left, read⟩ : ∃ val left, Attributes.value behindSign = (val, left) := ⟨_, _, rfl⟩
      rw [read] at h
      cases h
      obtain ⟨taken, text, value⟩ := value?_eq read
      have sign : after? ['='] ('=' :: behindSign) = some behindSign := after?_eq_some_iff.2 rfl
      have size : byteCount (space ++ (key ++ '=' :: taken)) =
          byteCount space + byteCount key + 1 + byteCount taken := by
        have one : Char.utf8Size '=' = 1 := rfl
        rw [byteCount_append, byteCount_append, byteCount_cons, one]
        omega
      refine ⟨space ++ (key ++ '=' :: taken), ?_, by omega, ?_⟩
      · rw [List.append_assoc, List.append_assoc, List.cons_append, ← text]
      · rw [size, Option.bind_eq_bind, Option.bind_some, sign]
        dsimp only
        rw [value]
        rfl
    · cases h
  · cases h

theorem pair?_eq_none {cs : List Char} (h : Attributes.pair? cs = none) : pair? cs = some none := by
  unfold pair?
  unfold Attributes.pair? at h
  dsimp only at h ⊢
  generalize cs.dropWhile isSpace = body at h
  split at h
  · next begins =>
    rw [if_pos begins]
    obtain ⟨key, behind, rfl, taken, left⟩ := exists_run isKey body
    rw [left] at h
    rw [taken]
    split at h
    · cases h
    · next unsigned =>
      have missed : after? ['='] behind = none := by
        cases sign : after? ['='] behind with
        | none => rfl
        | some rest => exact (unsigned rest (after?_eq_some_iff.1 sign)).elim
      rw [sliceFrom?_append, Option.bind_eq_bind, Option.bind_some, missed]
  · next other => rw [if_neg other]

/-- What a pair takes ends at a boundary, at least two bytes behind its beginning. -/
theorem size_of_pair? {cs : List Char} {pair : List Char × List Char} {size : Nat}
    (h : pair? cs = some (some (pair, size))) : 2 ≤ size ∧ size ≤ byteCount cs ∧ isBoundary cs size = true := by
  cases found : Attributes.pair? cs with
  | none =>
    rw [pair?_eq_none found] at h
    cases h
  | some read =>
    obtain ⟨taken, rfl, two, pair⟩ := pair?_eq_some found
    cases pair.symm.trans h
    have boundary := isBoundary_append taken read.2
    exact ⟨two, le_of_isBoundary boundary, boundary⟩

/-- The pairs are read up to the end. With each of them the rest of the text gets shorter. -/
theorem attributes?_eq (text : List Char) : attributes? text = some (Attributes.parse text) := by
  refine loop?_eq (fun s : List (String × String) × List Char => collect s.1 s.2) (fun _ => True)
    (fun s => byteCount s.2) ?_ trivial
  rintro ⟨known, rest⟩ -
  dsimp only
  cases found : Attributes.pair? rest with
  | none =>
    refine .inl ?_
    rw [attributesPass, pair?_eq_none found, collect_of_none found]
    rfl
  | some read =>
    obtain ⟨⟨key, val⟩, behind⟩ := read
    obtain ⟨taken, rfl, size, pair⟩ := pair?_eq_some found
    rw [attributesPass, pair, Option.bind_eq_bind, Option.bind_some, collect_of_pair found]
    dsimp only
    by_cases twice : (known.lookup (String.ofList key)).isSome = true
    · rw [if_pos twice, if_pos twice]
      exact .inl rfl
    · rw [if_neg twice, if_neg twice, sliceFrom?_append]
      refine .inr ⟨_, rfl, trivial, ?_, rfl⟩
      show byteCount behind < byteCount (taken ++ behind)
      rw [byteCount_append]
      omega

end Sliced

end Stencil

import Stencil.Proofs.Blamed
import Stencil.Proofs.Parts
import Stencil.Proofs.Places

/-!
# How attributes are spelled

What the text of an opening tag may look like, told without a reader: a row of pairs, each with its space, its
key and its value in quotes or bare (`Attributes.Spells`). A text spells at most one such row
(`Spells.unique`). The reader takes a row pair by pair (`pair?_spelled`, `pair?_eq_some`), and the space at the
end of the text counts neither for it nor for the row (`Spells.trimmed`, `Spells.padded`); so it accepts the
texts that spell pairs with distinct keys and decodes what was written (`Attributes.parse_spelled`).
-/

namespace Stencil

open Text

namespace Attributes

/-! ## What is written -/

/-- A value as it is written, between two quotes or without any. -/
inductive Spelling where
  | quoted (quote : Char) (inside : List Char)
  | bare (run : List Char)

namespace Spelling

/-- What is written. -/
def text : Spelling → List Char
  | quoted quote inside => quote :: (inside ++ [quote])
  | bare run => run

/-- What is meant. -/
def value : Spelling → List Char
  | quoted _ inside => inside
  | bare run => run

/-- The quote is one of the two and does not stand between itself; a bare value has neither quotes nor space
in it. -/
def Proper : Spelling → Prop
  | quoted quote inside => isQuote quote = true ∧ quote ∉ inside
  | bare run => ∀ c ∈ run, isQuote c = false ∧ isSpace c = false

/-- Behind a bare value comes space or nothing. -/
def EndsBefore : Spelling → List Char → Prop
  | quoted _ _, _ => True
  | bare _, behind => ∀ c ∈ behind.head?, isSpace c = true

end Spelling

/-- A pair as it is written. -/
structure Spelled where
  lead : List Char
  key : List Char
  value : Spelling

namespace Spelled

/-- What is written. -/
def text (p : Spelled) : List Char := p.lead ++ (p.key ++ '=' :: p.value.text)

/-- What is meant. -/
def pair (p : Spelled) : String × String := (String.ofList p.key, String.ofList p.value.value)

/-- Space, a key that begins as a word and goes on as one or with hyphens, and a value. -/
structure Proper (p : Spelled) : Prop where
  lead : ∀ c ∈ p.lead, isSpace c = true
  key : ∃ c cs, p.key = c :: cs ∧ isWord c = true ∧ ∀ d ∈ cs, isWord d = true ∨ d = '-'
  value : p.value.Proper

end Spelled

/-- A text is a row of pairs with space behind them. -/
inductive Spells : List Char → List Spelled → Prop where
  | blank {trail : List Char} (space : ∀ c ∈ trail, isSpace c = true) : Spells trail []
  | pair {p : Spelled} {behind : List Char} {ps : List Spelled} (proper : p.Proper)
      (ends : p.value.EndsBefore behind) (others : Spells behind ps) : Spells (p.text ++ behind) (p :: ps)

/-! ## Classes of characters -/

theorem isSpace_iff {c : Char} :
    isSpace c = true ↔ c = ' ' ∨ c = '\t' ∨ c = '\n' ∨ c = '\x0B' ∨ c = '\x0C' ∨ c = '\r' := by
  simp [isSpace, or_assoc]

theorem isWord_of_isSpace {c : Char} (h : isSpace c = true) : isWord c = false := by
  rcases isSpace_iff.1 h with rfl | rfl | rfl | rfl | rfl | rfl <;> decide

theorem isQuote_iff {c : Char} : isQuote c = true ↔ c = '"' ∨ c = '\'' := by
  simp [isQuote]

/-- A quote is no space and begins no key. -/
theorem class_of_isQuote {c : Char} (h : isQuote c = true) : isSpace c = false ∧ isWord c = false := by
  rcases isQuote_iff.1 h with rfl | rfl <;> decide

theorem isKey_iff {c : Char} : isKey c = true ↔ isWord c = true ∨ c = '-' := by
  simp [isKey]

theorem isPlain_iff {c : Char} : isPlain c = true ↔ isQuote c = false ∧ isSpace c = false := by
  simp [isPlain]

/-! ## Reading what is written -/

theorem value_of_quote {quote : Char} {cs : List Char} (h : isQuote quote = true) :
    value (quote :: cs) = match cs.dropWhile (· != quote) with
      | _ :: rest => (cs.takeWhile (· != quote), rest)
      | [] => ([], quote :: cs) := by
  rw [value]
  exact if_pos h

theorem value_of_bare {cs : List Char} (h : ∀ c ∈ cs.head?, isQuote c = false) :
    value cs = (cs.takeWhile isPlain, cs.dropWhile isPlain) := by
  cases cs with
  | nil => rfl
  | cons c cs => rw [value, h c rfl, if_neg Bool.false_ne_true]

/-- A value is read as it is meant. -/
theorem value_spelled {v : Spelling} {behind : List Char} (proper : v.Proper) (ends : v.EndsBefore behind) :
    value (v.text ++ behind) = (v.value, behind) := by
  cases v with
  | quoted quote inside =>
    obtain ⟨isQuote, closed⟩ := proper
    have inner : ∀ c ∈ inside, (c != quote) = true := fun c mem => bne_iff_ne.2 fun same => closed (same ▸ mem)
    have ends : ∀ c ∈ (quote :: behind).head?, (c != quote) = false := by simp
    obtain ⟨taken, dropped⟩ := span_run inner ends
    have text : (Spelling.quoted quote inside).text ++ behind = quote :: (inside ++ quote :: behind) := by
      simp [Spelling.text]
    rw [text, value_of_quote isQuote, dropped]
    simp only [taken, Spelling.value]
  | bare run =>
    have plain : ∀ c ∈ run, isPlain c = true := fun c mem => isPlain_iff.2 (proper c mem)
    have stop : ∀ c ∈ behind.head?, isPlain c = false := fun c mem => by simp [isPlain, ends c mem]
    have first : ∀ c ∈ (run ++ behind).head?, isQuote c = false := by
      intro c mem
      cases run with
      | nil =>
        have space := isSpace_iff.1 (ends c mem)
        rcases space with rfl | rfl | rfl | rfl | rfl | rfl <;> decide
      | cons d run =>
        cases mem
        exact (proper c List.mem_cons_self).1
    obtain ⟨taken, dropped⟩ := span_run plain stop
    show value (run ++ behind) = (run, behind)
    rw [value_of_bare first, taken, dropped]

/-- What is read as a value is one that was written, or a quote stands in the way. -/
theorem value_eq {cs val rest : List Char} (h : value cs = (val, rest)) :
    (∃ v : Spelling, v.Proper ∧ v.EndsBefore rest ∧ cs = v.text ++ rest ∧ v.value = val) ∨
      ∃ c ∈ rest.head?, isQuote c = true := by
  by_cases quoted : ∃ c ∈ cs.head?, isQuote c = true
  · obtain ⟨quote, mem, isQuote⟩ := quoted
    obtain ⟨cs, rfl⟩ := List.head?_eq_some_iff.1 mem
    rw [value_of_quote isQuote] at h
    cases left : cs.dropWhile (· != quote) with
    | nil =>
      -- A quote that is not closed is left where it stands.
      rw [left] at h
      cases h
      exact .inr ⟨quote, rfl, isQuote⟩
    | cons c behind =>
      rw [left] at h
      cases h
      have closing : c = quote := by
        have stops := List.head?_dropWhile_not (· != quote) cs
        rw [left] at stops
        simpa using stops
      subst closing
      have parts : cs.takeWhile (· != c) ++ c :: rest = cs := by
        rw [← left, List.takeWhile_append_dropWhile]
      refine .inl ⟨.quoted c (cs.takeWhile (· != c)), ⟨isQuote, fun mem => ?_⟩, trivial, ?_, rfl⟩
      · have inner := List.mem_takeWhile_imp mem
        simp at inner
      · rw [Spelling.text, List.cons_append, List.append_assoc, List.singleton_append, parts]
  · have first : ∀ c ∈ cs.head?, isQuote c = false := fun c mem =>
      Bool.eq_false_iff.2 fun isQuote => quoted ⟨c, mem, isQuote⟩
    rw [value_of_bare first] at h
    cases h
    have stops := List.head?_dropWhile_not isPlain cs
    by_cases blocked : ∃ c ∈ (cs.dropWhile isPlain).head?, isQuote c = true
    · exact .inr blocked
    · refine .inl ⟨.bare (cs.takeWhile isPlain), fun c mem => isPlain_iff.1 (List.mem_takeWhile_imp mem), ?_, ?_, rfl⟩
      · intro c mem
        rw [Option.mem_def.1 mem] at stops
        have open_ : isQuote c = false := Bool.eq_false_iff.2 fun isQuote => blocked ⟨c, mem, isQuote⟩
        simpa [isPlain, open_] using stops
      · exact List.takeWhile_append_dropWhile.symm

theorem Spelled.Proper.spans {p : Spelled} (h : p.Proper) (behind : List Char) :
    (p.text ++ behind).takeWhile isSpace = p.lead ∧
      (p.text ++ behind).dropWhile isSpace = p.key ++ '=' :: (p.value.text ++ behind) := by
  obtain ⟨c, cs, key, word, -⟩ := h.key
  have text : p.text ++ behind = p.lead ++ (p.key ++ '=' :: (p.value.text ++ behind)) := by
    simp [Spelled.text]
  rw [text]
  refine span_run h.lead fun d mem => ?_
  rw [key] at mem
  cases mem
  refine Bool.eq_false_iff.2 fun space => ?_
  rw [isWord_of_isSpace space] at word
  cases word

/-- A pair is read as it is meant. -/
theorem pair?_spelled {p : Spelled} {behind : List Char} (proper : p.Proper) (ends : p.value.EndsBefore behind) :
    pair? (p.text ++ behind) = some ((p.key, p.value.value), behind) := by
  obtain ⟨c, cs, key, word, others⟩ := proper.key
  have body := (proper.spans behind).2
  have run : ∀ d ∈ p.key, isKey d = true := by
    intro d mem
    rw [key] at mem
    rcases List.mem_cons.1 mem with rfl | later
    · exact isKey_iff.2 (.inl word)
    · exact isKey_iff.2 (others d later)
  have stop : ∀ d ∈ ('=' :: (p.value.text ++ behind)).head?, isKey d = false := fun d mem => by
    cases mem
    decide
  obtain ⟨taken, dropped⟩ := span_run run stop
  have first : ((p.key ++ '=' :: (p.value.text ++ behind)).head?).any isWord = true := by
    rw [key]
    exact word
  rw [pair?, body]
  simp only [first, if_true, dropped, taken, value_spelled proper.value ends]

/-- What is read as a pair is one that was written, or a quote stands in the way. -/
theorem pair?_eq_some {cs key val rest : List Char} (h : pair? cs = some ((key, val), rest)) :
    (∃ p : Spelled, p.Proper ∧ p.value.EndsBefore rest ∧ cs = p.text ++ rest ∧ p.key = key ∧ p.value.value = val) ∨
      ∃ c ∈ rest.head?, isQuote c = true := by
  have lead : cs.takeWhile isSpace ++ cs.dropWhile isSpace = cs := List.takeWhile_append_dropWhile
  unfold pair? at h
  generalize body_eq : cs.dropWhile isSpace = body at h lead
  simp only at h
  split at h
  · next first =>
    split at h
    · next after stop =>
      cases h
      have parts : body.takeWhile isKey ++ '=' :: after = body := by
        rw [← stop, List.takeWhile_append_dropWhile]
      have read : value after = ((value after).1, (value after).2) := rfl
      refine (value_eq read).imp_left ?_
      rintro ⟨v, proper, ends, text, same⟩
      refine ⟨⟨cs.takeWhile isSpace, body.takeWhile isKey, v⟩, ⟨fun c => List.mem_takeWhile_imp, ?_, proper⟩, ends, ?_,
        rfl, same⟩
      · cases body with
        | nil => cases first
        | cons c body =>
          have word : isWord c = true := first
          have key : isKey c = true := isKey_iff.2 (.inl word)
          refine ⟨c, body.takeWhile isKey, by rw [List.takeWhile_cons_of_pos key], word, fun d mem => ?_⟩
          exact isKey_iff.1 (List.mem_takeWhile_imp mem)
      · have whole : cs = cs.takeWhile isSpace ++ (body.takeWhile isKey ++ '=' :: (v.text ++ (value after).2)) := by
          rw [← text, parts, lead]
        refine whole.trans ?_
        simp [Spelled.text]
    · cases h
  · cases h

/-- No pair begins with a quote. -/
theorem pair?_of_quote {c : Char} {cs : List Char} (h : isQuote c = true) : pair? (c :: cs) = none := by
  obtain ⟨space, word⟩ := class_of_isQuote h
  unfold pair?
  rw [List.dropWhile_cons_of_neg (by simp [space])]
  simp [word]

/-! ## One row only -/

theorem Spelling.eq_of_text_eq {v w : Spelling} (text : v.text = w.text) (value : v.value = w.value) : v = w := by
  cases v with
  | quoted quote inside =>
    cases w with
    | quoted quote' inside' =>
      obtain ⟨same, -⟩ := List.cons.inj text
      have inner : inside = inside' := value
      rw [same, inner]
    | bare run =>
      have sizes := congrArg List.length text
      have inner : inside = run := value
      simp only [Spelling.text, inner, List.length_cons, List.length_append] at sizes
      omega
  | bare run =>
    cases w with
    | quoted quote' inside' =>
      have sizes := congrArg List.length text
      have inner : run = inside' := value
      simp only [Spelling.text, inner, List.length_cons, List.length_append] at sizes
      omega
    | bare run' =>
      have inner : run = run' := value
      rw [inner]

/-- At the front of a text stands one pair only. -/
theorem Spelled.Proper.unique {p q : Spelled} {behind behind' : List Char} (hp : p.Proper)
    (ends : p.value.EndsBefore behind) (hq : q.Proper) (ends' : q.value.EndsBefore behind')
    (same : p.text ++ behind = q.text ++ behind') : p = q ∧ behind = behind' := by
  have read := pair?_spelled hp ends
  have spans := hp.spans behind
  rw [same, pair?_spelled hq ends'] at read
  rw [same, (hq.spans behind').1, (hq.spans behind').2] at spans
  obtain ⟨pairs, rfl⟩ := Prod.mk.inj (Option.some.inj read)
  obtain ⟨key, value⟩ := Prod.mk.inj pairs
  obtain ⟨lead, body⟩ := spans
  rw [key, List.append_cancel_left_eq, List.cons.injEq, List.append_cancel_right_eq] at body
  have spelling := Spelling.eq_of_text_eq body.2 value
  obtain ⟨_, _, _⟩ := p
  obtain ⟨_, _, _⟩ := q
  cases key
  cases spelling
  cases lead
  exact ⟨rfl, rfl⟩

/-- Only space is no row of pairs. -/
theorem not_blank_of_pair {p : Spelled} {behind : List Char} (proper : p.Proper) :
    ¬ ∀ c ∈ p.text ++ behind, isSpace c = true := by
  intro space
  obtain ⟨c, cs, key, word, -⟩ := proper.key
  have here : c ∈ p.text ++ behind := by simp [Spelled.text, key]
  rw [isWord_of_isSpace (space c here)] at word
  cases word

/-- A text spells one row of pairs at most. -/
theorem Spells.unique {text : List Char} {ps qs : List Spelled} (h : Spells text ps) (h' : Spells text qs) :
    ps = qs := by
  induction h generalizing qs with
  | blank space =>
    cases h' with
    | blank => rfl
    | pair proper => exact absurd space (not_blank_of_pair proper)
  | @pair p behind ps proper ends _ ih =>
    generalize whole : p.text ++ behind = text at h'
    cases h' with
    | blank space => exact absurd (whole ▸ space) (not_blank_of_pair proper)
    | pair proper' ends' others' =>
      obtain ⟨rfl, rfl⟩ := proper.unique ends proper' ends' whole
      rw [ih others']

/-! ## Space at the end -/

/-- A pair does not end with space. -/
theorem Spelled.Proper.exists_last {p : Spelled} (h : p.Proper) :
    ∃ front last, p.text = front ++ [last] ∧ isSpace last = false := by
  have whole : p.text = (p.lead ++ p.key) ++ '=' :: p.value.text := by simp [Spelled.text]
  have proper := h.value
  cases value : p.value with
  | quoted quote inside =>
    rw [value] at proper
    exact ⟨p.lead ++ p.key ++ '=' :: quote :: inside, quote, by rw [whole, value]; simp [Spelling.text],
      (class_of_isQuote proper.1).1⟩
  | bare run =>
    rw [value] at proper
    rcases List.eq_nil_or_concat run with rfl | ⟨front, last, rfl⟩
    · exact ⟨p.lead ++ p.key, '=', by rw [whole, value]; rfl, by decide⟩
    · rw [List.concat_eq_append] at value proper
      exact ⟨p.lead ++ p.key ++ '=' :: front, last, by rw [whole, value]; simp [Spelling.text],
        (proper last (List.mem_append_right _ List.mem_cons_self)).2⟩

theorem Spelled.Proper.dropEndWhile_text {p : Spelled} (h : p.Proper) (behind : List Char) :
    dropEndWhile isSpace (p.text ++ behind) = p.text ++ dropEndWhile isSpace behind := by
  obtain ⟨front, last, text, stays⟩ := h.exists_last
  rw [text, dropEndWhile_append stays]

/-- What is behind a value may lose its end. -/
theorem Spelling.EndsBefore.shorten {v : Spelling} {near far : List Char} (h : v.EndsBefore (near ++ far)) :
    v.EndsBefore near := by
  cases v with
  | quoted => trivial
  | bare =>
    cases near with
    | nil => exact nofun
    | cons c near => exact h

/-- Without the space at its end a text spells the same. -/
theorem Spells.trimmed {text : List Char} {ps : List Spelled} (h : Spells text ps) :
    Spells (dropEndWhile isSpace text) ps := by
  induction h with
  | @blank trail space =>
    obtain ⟨more, parts, -⟩ := exists_dropEndWhile isSpace trail
    exact .blank fun c mem => space c (parts ▸ List.mem_append_left _ mem)
  | @pair p behind ps proper ends _ ih =>
    obtain ⟨more, parts, -⟩ := exists_dropEndWhile isSpace behind
    rw [proper.dropEndWhile_text]
    rw [parts] at ends
    exact .pair proper ends.shorten ih

/-- Space that does not end with space is none. -/
theorem Spells.eq_nil {text : List Char} (h : Spells text []) (trimmed : dropEndWhile isSpace text = text) :
    text = [] := by
  cases h with
  | blank space => exact trimmed.symm.trans (List.rdropWhile_eq_nil_iff.2 space)

/-- With more space at its end a text spells the same. -/
theorem Spells.padded {text trail : List Char} {ps : List Spelled} (h : Spells text ps)
    (space : ∀ c ∈ trail, isSpace c = true) : Spells (text ++ trail) ps := by
  induction h with
  | blank own =>
    refine .blank fun c mem => ?_
    rcases List.mem_append.1 mem with early | late
    · exact own c early
    · exact space c late
  | @pair p behind ps proper ends _ ih =>
    have ends' : p.value.EndsBefore (behind ++ trail) := by
      cases value : p.value with
      | quoted => trivial
      | bare =>
        rw [value] at ends
        cases behind with
        | nil => exact fun c mem => space c (List.mem_of_mem_head? mem)
        | cons => exact ends
    rw [List.append_assoc]
    exact .pair proper ends' ih

theorem spells_trimmed_iff {text : List Char} {ps : List Spelled} :
    Spells (dropEndWhile isSpace text) ps ↔ Spells text ps := by
  refine ⟨fun h => ?_, Spells.trimmed⟩
  obtain ⟨trail, parts, space⟩ := exists_dropEndWhile isSpace text
  rw [parts]
  exact h.padded space

/-! ## Reading a row -/

theorem collect_of_pair {known : List (String × String)} {cs key val rest : List Char}
    (found : pair? cs = some ((key, val), rest)) :
    collect known cs =
      if (known.lookup (String.ofList key)).isSome then .error (.repeatedAttribute (String.ofList key))
      else collect (known ++ [(String.ofList key, String.ofList val)]) rest := by
  rw [collect]
  split
  · next none_ =>
    rw [found] at none_
    cases none_
  · next some_ =>
    rw [found] at some_
    cases some_
    rfl

theorem collect_of_none {known : List (String × String)} {text : List Char} (missed : pair? text = none) :
    collect known text = if text.isEmpty then .ok ⟨known⟩ else .error .invalidAttributes := by
  rw [collect]
  split
  · rfl
  · next some_ =>
    rw [missed] at some_
    cases some_

theorem lookup_isSome_iff {known : List (String × String)} {key : String} :
    (known.lookup key).isSome = true ↔ key ∈ known.map (·.1) := by
  rw [← Bool.not_eq_false, Option.isSome_eq_false_iff, Option.isNone_iff_eq_none, List.lookup_eq_none_iff]
  constructor
  · intro h
    refine Decidable.byContradiction fun new => h fun p mem => bne_iff_ne.2 fun same => ?_
    exact new (List.mem_map.2 ⟨p, mem, same.symm⟩)
  · intro mem all
    obtain ⟨p, hp, same⟩ := List.mem_map.1 mem
    exact bne_iff_ne.1 (all p hp) same.symm

/-- The keys of some pairs. -/
def keys (ps : List Spelled) : List String := ps.map fun p => String.ofList p.key

/-- The first pairs of a row are read one after the other if their keys are new. -/
theorem collect_front (known : List (String × String)) {text : List Char} {front back : List Spelled}
    (h : Spells text (front ++ back)) (trimmed : dropEndWhile isSpace text = text)
    (new : (known.map (·.1) ++ keys front).Nodup) :
    ∃ rest, Spells rest back ∧ dropEndWhile isSpace rest = rest ∧
      collect known text = collect (known ++ front.map (·.pair)) rest := by
  induction front generalizing known text with
  | nil => exact ⟨text, h, trimmed, by rw [List.map_nil, List.append_nil]⟩
  | cons p front ih =>
    cases h with
    | @pair _ behind _ proper ends others =>
      rw [proper.dropEndWhile_text, List.append_cancel_left_eq] at trimmed
      have order : known.map (·.1) ++ keys (p :: front) = (known ++ [p.pair]).map (·.1) ++ keys front := by
        simp [keys, Spelled.pair]
      rw [order] at new
      have first : ¬ (known.lookup (String.ofList p.key)).isSome = true := by
        have snoc := (List.nodup_append.1 new).1
        have own : (known.map (·.1)).Nodup := by
          rw [List.map_append] at snoc
          exact (List.nodup_append.1 snoc).1
        rw [lookup_isSome_iff]
        exact (nodup_map_snoc own).1 snoc
      obtain ⟨rest, spells, ends', read⟩ := ih _ others trimmed new
      refine ⟨rest, spells, ends', ?_⟩
      rw [collect_of_pair (pair?_spelled proper ends), if_neg first]
      exact read.trans (by rw [List.append_assoc]; rfl)

/-- What is read is what was written. -/
theorem exists_spelled (known : List (String × String)) {text : List Char} {a : Attributes}
    (h : collect known text = .ok a) (distinct : (known.map (·.1)).Nodup) :
    ∃ ps, Spells text ps ∧ (known.map (·.1) ++ keys ps).Nodup ∧ a.pairs = known ++ ps.map (·.pair) := by
  induction size : text.length using Nat.strongRecOn generalizing known text with
  | ind size ih =>
    cases found : pair? text with
    | none =>
      rw [collect_of_none found] at h
      cases text with
      | nil =>
        cases h
        exact ⟨[], .blank nofun, by simpa [keys] using distinct, (List.append_nil _).symm⟩
      | cons => cases h
    | some first =>
      obtain ⟨⟨key, val⟩, rest⟩ := first
      rw [collect_of_pair found] at h
      split at h
      · cases h
      · next new =>
        rcases pair?_eq_some found with ⟨p, proper, ends, rfl, rfl, rfl⟩ | ⟨c, head, isQuote⟩
        · rw [lookup_isSome_iff] at new
          have distinct' : ((known ++ [p.pair]).map (·.1)).Nodup := (nodup_map_snoc distinct).2 new
          obtain ⟨ps, spells, apart, pairs⟩ := ih rest.length (size ▸ pair?_shorter found) _ h distinct' rfl
          refine ⟨p :: ps, .pair proper ends spells, ?_, ?_⟩
          · simpa [keys, Spelled.pair] using apart
          · rw [pairs, List.append_assoc]
            rfl
        · obtain ⟨rest, rfl⟩ := List.head?_eq_some_iff.1 head
          rw [collect_of_none (pair?_of_quote isQuote)] at h
          cases h

/-- Pairs with space in front of each, and behind the last, are a row. -/
theorem spells_row {ps : List Spelled} {trail : List Char} (proper : ∀ p ∈ ps, p.Proper ∧ p.lead ≠ [])
    (space : ∀ c ∈ trail, isSpace c = true) : Spells (ps.flatMap (·.text) ++ trail) ps := by
  induction ps with
  | nil => exact .blank space
  | cons p ps ih =>
    rw [List.flatMap_cons, List.append_assoc]
    refine .pair (proper p List.mem_cons_self).1 ?_ (ih fun q hq => proper q (List.mem_cons_of_mem _ hq))
    cases value : p.value with
    | quoted => trivial
    | bare =>
      intro c head
      cases ps with
      | nil => exact space c (List.mem_of_mem_head? head)
      | cons q ps =>
        obtain ⟨own, lead⟩ := proper q (List.mem_cons_of_mem _ List.mem_cons_self)
        obtain ⟨d, ds, lead_eq⟩ := List.exists_cons_of_ne_nil lead
        rw [List.flatMap_cons, Spelled.text, lead_eq] at head
        cases head
        exact own.lead _ (lead_eq ▸ List.mem_cons_self)

theorem map_fst_pairs (ps : List Spelled) : (ps.map (·.pair)).map (·.1) = keys ps := by
  rw [List.map_map]
  rfl

theorem parse_of_spells {text : List Char} {ps : List Spelled} (h : Spells text ps) (distinct : (keys ps).Nodup) :
    parse text = .ok ⟨ps.map (·.pair)⟩ := by
  have row : Spells (dropEndWhile isSpace text) (ps ++ []) := by
    rw [List.append_nil]
    exact h.trimmed
  obtain ⟨rest, left, ends, same⟩ := collect_front [] row (List.rdropWhile_idempotent _ _) distinct
  have nothing : rest = [] := left.eq_nil ends
  have none_ : pair? [] = none := rfl
  rw [nothing, collect_of_none none_] at same
  exact same

theorem exists_spells {text : List Char} {a : Attributes} (h : parse text = .ok a) :
    ∃ ps, Spells text ps ∧ (keys ps).Nodup ∧ a.pairs = ps.map (·.pair) := by
  obtain ⟨ps, spells, distinct, pairs⟩ := exists_spelled [] h List.nodup_nil
  exact ⟨ps, spells_trimmed_iff.1 spells, distinct, pairs⟩

/-- A row is refused at the first key that repeats an earlier one. -/
theorem parse_of_repeated {text : List Char} {front back : List Spelled} {p : Spelled}
    (h : Spells text (front ++ p :: back)) (distinct : (keys front).Nodup) (twice : String.ofList p.key ∈ keys front) :
    parse text = .error (.repeatedAttribute (String.ofList p.key)) := by
  obtain ⟨rest, left, -, same⟩ := collect_front [] h.trimmed (List.rdropWhile_idempotent _ _) distinct
  cases left with
  | pair proper ends others =>
    rw [collect_of_pair (pair?_spelled proper ends), if_pos] at same
    · exact same
    · rw [lookup_isSome_iff, List.nil_append, map_fst_pairs]
      exact twice

/-- **Attributes are read exactly as they are spelled.** A text spells one row of pairs at most. It is read if and
only if it spells a row with distinct keys; what is read are then its pairs, and looking up a key gives the value
that was written for it, without the quotes, or nothing. Where a key of the row repeats an earlier one, the text
is refused for the first such key. A text that spells no row is refused. Hence pairs with distinct keys, written
in any quotes or none with space in front of each, are read back. -/
theorem parse_spelled (text : List Char) :
    (∀ ps qs, Spells text ps → Spells text qs → ps = qs) ∧
    ((∃ a, parse text = .ok a) ↔ ∃ ps, Spells text ps ∧ (keys ps).Nodup) ∧
    (∀ a ps, parse text = .ok a → Spells text ps → a.pairs = ps.map (·.pair) ∧
      (∀ p ∈ ps, a.get? (String.ofList p.key) = some (String.ofList p.value.value)) ∧
      ∀ key ∉ keys ps, a.get? key = none) ∧
    (∀ front p back, Spells text (front ++ p :: back) → (keys front).Nodup → String.ofList p.key ∈ keys front →
      parse text = .error (.repeatedAttribute (String.ofList p.key))) ∧
    ((∀ ps, ¬ Spells text ps) → ∃ fault, parse text = .error fault) ∧
    ∀ ps trail, text = ps.flatMap (·.text) ++ trail → (∀ p ∈ ps, p.Proper ∧ p.lead ≠ []) →
      (∀ c ∈ trail, isSpace c = true) → (keys ps).Nodup → parse text = .ok ⟨ps.map (·.pair)⟩ := by
  refine ⟨fun ps qs h h' => h.unique h', ⟨?_, ?_⟩, ?_, fun front p back => parse_of_repeated, ?_, ?_⟩
  · rintro ⟨a, h⟩
    obtain ⟨ps, spells, distinct, -⟩ := exists_spells h
    exact ⟨ps, spells, distinct⟩
  · rintro ⟨ps, spells, distinct⟩
    exact ⟨_, parse_of_spells spells distinct⟩
  · intro a ps h spells
    obtain ⟨qs, spells', distinct, pairs⟩ := exists_spells h
    obtain rfl := spells.unique spells'
    have distinct' : (a.pairs.map (·.1)).Nodup := by rwa [pairs, map_fst_pairs]
    refine ⟨pairs, fun p mem => ?_, fun key new => ?_⟩
    · rw [get?, lookup_eq_some_iff_mem distinct', pairs]
      exact List.mem_map.2 ⟨p, mem, rfl⟩
    · rw [← map_fst_pairs, ← pairs] at new
      rw [← lookup_isSome_iff, Bool.not_eq_true, Option.isSome_eq_false_iff, Option.isNone_iff_eq_none] at new
      exact new
  · intro none_
    cases h : parse text with
    | error fault => exact ⟨fault, rfl⟩
    | ok a =>
      obtain ⟨ps, spells, -⟩ := exists_spells h
      exact absurd spells (none_ ps)
  · rintro ps trail rfl proper space distinct
    exact parse_of_spells (spells_row proper space) distinct

/-- A quote in the other quotes, a pair directly behind one, an empty value, a sign in a bare value, and space of
several kinds. -/
theorem parse_spelled_mixed :
    ∃ ps a, Spells "\n\ta-b=\"it's\" c='x \"y\" 'd= e==f \r".toList ps ∧ (keys ps).Nodup ∧
      parse "\n\ta-b=\"it's\" c='x \"y\" 'd= e==f \r".toList = .ok a ∧ keys ps = ["a-b", "c", "d", "e"] ∧
      a.get? "a-b" = some "it's" ∧ a.get? "c" = some "x \"y\" " ∧ a.get? "d" = some "" ∧ a.get? "e" = some "=f" ∧
      a.get? "f" = none := by
  let first : Spelled := ⟨"\n\t".toList, "a-b".toList, .quoted '"' "it's".toList⟩
  let second : Spelled := ⟨" ".toList, "c".toList, .quoted '\'' "x \"y\" ".toList⟩
  let third : Spelled := ⟨[], "d".toList, .bare []⟩
  let fourth : Spelled := ⟨" ".toList, "e".toList, .bare "=f".toList⟩
  have hyphened : ∀ d ∈ ['-', 'b'], isWord d = true ∨ d = '-' := by simp [isWord]
  have plain : ∀ c ∈ ['=', 'f'], isQuote c = false ∧ isSpace c = false := by simp [isQuote, isSpace]
  have proper₁ : first.Proper :=
    ⟨List.all_eq_true.1 (by decide), ⟨'a', ['-', 'b'], rfl, by decide, hyphened⟩, by decide, by decide⟩
  have proper₂ : second.Proper :=
    ⟨List.all_eq_true.1 (by decide), ⟨'c', [], rfl, by decide, nofun⟩, by decide, by decide⟩
  have proper₃ : third.Proper := ⟨nofun, ⟨'d', [], rfl, by decide, nofun⟩, nofun⟩
  have proper₄ : fourth.Proper := ⟨List.all_eq_true.1 (by decide), ⟨'e', [], rfl, by decide, nofun⟩, plain⟩
  have ends₃ : third.value.EndsBefore (fourth.text ++ " \r".toList) := fun c head => by cases head; decide
  have ends₄ : fourth.value.EndsBefore " \r".toList := fun c head => by cases head; decide
  have spells : Spells "\n\ta-b=\"it's\" c='x \"y\" 'd= e==f \r".toList [first, second, third, fourth] :=
    .pair proper₁ trivial (.pair proper₂ trivial (.pair proper₃ ends₃ (.pair proper₄ ends₄
      (.blank (List.all_eq_true.1 (by decide))))))
  have distinct : (keys [first, second, third, fourth]).Nodup := by decide
  obtain ⟨-, read, found, -⟩ := parse_spelled "\n\ta-b=\"it's\" c='x \"y\" 'd= e==f \r".toList
  obtain ⟨a, parsed⟩ := read.2 ⟨_, spells, distinct⟩
  obtain ⟨-, values, others⟩ := found a _ parsed spells
  refine ⟨_, a, spells, distinct, parsed, by decide, ?_, ?_, ?_, ?_, others "f" (by decide)⟩
  · exact values first List.mem_cons_self
  · exact values second (.tail _ List.mem_cons_self)
  · exact values third (.tail _ (.tail _ List.mem_cons_self))
  · exact values fourth (.tail _ (.tail _ (.tail _ List.mem_cons_self)))

end Attributes

end Stencil

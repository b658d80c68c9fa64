import Stencil.Fixture.Config
import Stencil.Proofs.Parts

/-!
# Reading a test file back

A test file is written as a head between two lines of dashes and a template behind them, with either line end
at each of the three places and byte order marks in front (`written`). Unless a line of the head but its first one
begins like the closing line, or the head ends in a carriage return, exactly the head and the template are read
back (`split_written`); what lacks one of the two lines is refused for the first that it lacks (`read_written`).
-/

namespace Stencil.Fixture

open Text

/-- The ways to end a line: a line feed, with a carriage return in front of it or without. -/
inductive LineEnd where
  | lf
  | crlf
  deriving Repr, BEq, DecidableEq

/-- What stands in front of the line feed. -/
def LineEnd.lead : LineEnd → List Char
  | lf => []
  | crlf => ['\r']

/-- A line end as it is written. -/
def LineEnd.text (e : LineEnd) : List Char := e.lead ++ ['\n']

/-- A number of byte order marks. -/
def marks (n : Nat) : List Char := List.replicate n '\uFEFF'

/-- A test file behind some byte order marks, with the line ends behind the opening dashes, in front of the
closing ones and behind those. -/
def written (n : Nat) (opening ahead behind : LineEnd) (head source : List Char) : List Char :=
  marks n ++ dashes ++ opening.text ++ head ++ ahead.text ++ dashes ++ behind.text ++ source

/-- A text with one line end less, if it begins with one. -/
inductive SkipsEnd : List Char → List Char → Prop where
  | past (e : LineEnd) (rest : List Char) : SkipsEnd (e.text ++ rest) rest
  | none {rest : List Char} (h : ∀ (e : LineEnd) (behind : List Char), rest ≠ e.text ++ behind) : SkipsEnd rest rest

theorem afterLineEnd_text (e : LineEnd) (rest : List Char) : afterLineEnd (e.text ++ rest) = rest := by
  cases e <;> rfl

theorem skipsEnd_iff {text rest : List Char} : SkipsEnd text rest ↔ afterLineEnd text = rest := by
  constructor
  · intro skips
    cases skips with
    | past e => exact afterLineEnd_text e rest
    | none h =>
      unfold afterLineEnd
      split
      · exact absurd rfl (h .lf _)
      · exact absurd rfl (h .crlf _)
      · rfl
  · rintro rfl
    unfold afterLineEnd
    split
    · exact .past .lf _
    · exact .past .crlf _
    · next noFeed noReturn =>
      refine .none fun e behind => ?_
      cases e with
      | lf => exact noFeed behind
      | crlf => exact noReturn behind

/-! ## Byte order marks -/

/-- Byte order marks are dropped up to the first other character. -/
theorem dropWhile_marks (n : Nat) {rest : List Char} (stop : ∀ c ∈ rest.head?, (c == '\uFEFF') = false) :
    (marks n ++ rest).dropWhile (· == '\uFEFF') = rest :=
  (span_run (fun _ mem => beq_iff_eq.2 (List.eq_of_mem_replicate mem)) stop).2

theorem exists_marks (content : List Char) : ∃ n, content = marks n ++ content.dropWhile (· == '\uFEFF') := by
  have all : content.takeWhile (· == '\uFEFF') = marks (content.takeWhile (· == '\uFEFF')).length := by
    refine List.eq_replicate_iff.2 ⟨rfl, fun c mem => ?_⟩
    have mark := List.mem_takeWhile_imp mem
    exact beq_iff_eq.1 mark
  refine ⟨(content.takeWhile (· == '\uFEFF')).length, ?_⟩
  rw [← all, List.takeWhile_append_dropWhile]

/-- Behind byte order marks a file opens with dashes. -/
theorem opens_iff {content rest : List Char} :
    after? dashes (content.dropWhile (· == '\uFEFF')) = some rest ↔ ∃ n, content = marks n ++ dashes ++ rest := by
  rw [after?_eq_some_iff]
  constructor
  · intro opens
    obtain ⟨n, text⟩ := exists_marks content
    exact ⟨n, by rw [List.append_assoc, ← opens, ← text]⟩
  · rintro ⟨n, rfl⟩
    have stop : ∀ c ∈ (dashes ++ rest).head?, (c == '\uFEFF') = false := by simp [dashes]
    rw [List.append_assoc, dropWhile_marks n stop]

/-! ## The two lines of dashes -/

theorem split_of_opened {content rest : List Char} (opened : ∃ n, content = marks n ++ dashes ++ rest) :
    split content =
      match cutAt? ('\n' :: dashes) (afterLineEnd rest) with
      | none => .error .missingClosing
      | some (head, rest) => .ok (dropEndWhile (· == '\r') head, afterLineEnd rest) := by
  have opens := opens_iff.2 opened
  unfold split
  generalize after? dashes (content.dropWhile (· == '\uFEFF')) = behind at opens ⊢
  subst opens
  rfl

theorem split_of_unopened {content : List Char} (unopened : ¬ ∃ n, marks n ++ dashes <+: content) :
    split content = .error .missingOpening := by
  have none_ : after? dashes (content.dropWhile (· == '\uFEFF')) = none := by
    refine Option.eq_none_iff_forall_not_mem.2 fun rest opens => unopened ?_
    obtain ⟨n, text⟩ := opens_iff.1 opens
    exact ⟨n, rest, text.symm⟩
  unfold split
  rw [none_]

/-- The lead of a line end behind a head makes no line of dashes in it. -/
theorem missing_ahead {head : List Char} (plain : ¬ '\n' :: dashes <:+: head) (e : LineEnd) :
    ¬ '\n' :: dashes <:+: head ++ e.lead := by
  cases e with
  | lf => simpa [LineEnd.lead] using plain
  | crlf =>
    intro inside
    rcases List.infix_concat_iff.1 inside with ends | within
    · obtain ⟨front, text⟩ := ends
      have last := congrArg List.getLast? text
      simp [dashes] at last
    · exact plain within

/-- What was written as the head and as the template is read as them. -/
theorem split_written (n : Nat) (opening ahead behind : LineEnd) {head : List Char} (source : List Char)
    (plain : ¬ '\n' :: dashes <:+: head) (ends : head.getLast? ≠ some '\r') :
    split (written n opening ahead behind head source) = .ok (head, source) := by
  have opened : written n opening ahead behind head source =
      marks n ++ dashes ++ (opening.text ++ (head ++ ahead.lead ++ '\n' :: dashes ++ (behind.text ++ source))) := by
    simp [written, LineEnd.text]
  have cut : cutAt? ('\n' :: dashes) (head ++ ahead.lead ++ '\n' :: dashes ++ (behind.text ++ source)) =
      some (head ++ ahead.lead, behind.text ++ source) :=
    cutAt?_of_missing (by decide) (missing_ahead plain ahead)
  have kept : dropEndWhile (· == '\r') (head ++ ahead.lead) = head := by
    refine dropEndWhile_run (fun c mem => ?_) fun c last => beq_false_of_ne ?_
    · cases ahead with
      | lf => cases mem
      | crlf => exact beq_iff_eq.2 (List.mem_singleton.1 mem)
    · rintro rfl
      exact ends last
  rw [split_of_opened ⟨n, opened⟩, afterLineEnd_text, cut]
  simp only [kept, afterLineEnd_text]

theorem split_eq_missingOpening {content : List Char} :
    split content = .error .missingOpening ↔ ¬ ∃ n, marks n ++ dashes <+: content := by
  refine ⟨?_, split_of_unopened⟩
  rintro refused ⟨n, rest, text⟩
  rw [split_of_opened ⟨n, text.symm⟩] at refused
  split at refused <;> cases refused

theorem split_eq_missingClosing {content : List Char} : split content = .error .missingClosing ↔
    ∃ n rest body, content = marks n ++ dashes ++ rest ∧ SkipsEnd rest body ∧ ¬ '\n' :: dashes <:+: body := by
  have absent {body : List Char} : cutAt? ('\n' :: dashes) body = none ↔ ¬ '\n' :: dashes <:+: body := by
    rw [cutAt?_eq_none_iff (List.cons_ne_nil _ _)]
    constructor
    · rintro missing ⟨front, back, text⟩
      exact missing front back text.symm
    · exact fun missing front back text => missing ⟨front, back, text.symm⟩
  constructor
  · intro refused
    by_cases opened : ∃ n, marks n ++ dashes <+: content
    · obtain ⟨n, rest, text⟩ := opened
      refine ⟨n, rest, afterLineEnd rest, text.symm, skipsEnd_iff.2 rfl, absent.1 ?_⟩
      rw [split_of_opened ⟨n, text.symm⟩] at refused
      split at refused
      · next none_ => exact none_
      · cases refused
    · rw [split_of_unopened opened] at refused
      cases refused
  · rintro ⟨n, rest, body, text, skips, missing⟩
    rw [split_of_opened ⟨n, text⟩, skipsEnd_iff.1 skips, absent.2 missing]

/-! ## The whole file -/

variable {toml : Toml.Library}

theorem readBy_of_split {content : String} {head source : List Char}
    (parts : split content.toList = .ok (head, source)) :
    readBy toml content =
      match Config.ofToml? toml (String.ofList head) with
      | some config => .ok (config, String.ofList source)
      | none => .error .invalidToml := by
  unfold readBy
  rw [parts]
  rfl

theorem readBy_of_unsplit {content : String} {e : HeadError} (refused : split content.toList = .error e) :
    readBy toml content = .error e := by
  unfold readBy
  rw [refused]
  rfl

/-- A file is refused for its lines of dashes just as it is split. -/
theorem readBy_eq_error_iff {content : String} {e : HeadError} (lines : e ≠ .invalidToml) :
    readBy toml content = .error e ↔ split content.toList = .error e := by
  refine ⟨fun refused => ?_, readBy_of_unsplit⟩
  cases parts : split content.toList with
  | error e' =>
    rw [readBy_of_unsplit parts] at refused
    cases refused
    rfl
  | ok both =>
    rw [readBy_of_split parts] at refused
    split at refused <;> cases refused
    exact absurd rfl lines

/-- **Splitting a test file.** By whatever library TOML is read, a file that is written as a head and a template,
with either line end at each of the three places and any number of byte order marks in front, is split into just
these, whatever the template is, unless the head has a line feed with dashes behind it or ends in a carriage
return: the head is read as TOML, and if it describes a test the template is returned with it. A file is refused
for its opening line exactly if it does not begin with dashes behind the byte order marks, and for its closing line
exactly if behind the opening dashes, and one line end directly behind these, no line feed has dashes behind it. -/
theorem read_written (toml : Toml.Library) :
    (∀ (content head source : String) (n : Nat) (opening ahead behind : LineEnd),
      content.toList = written n opening ahead behind head.toList source.toList →
      ¬ '\n' :: dashes <:+: head.toList → head.toList.getLast? ≠ some '\r' →
      split content.toList = .ok (head.toList, source.toList) ∧
      (∀ config, Config.ofToml? toml head = some config → readBy toml content = .ok (config, source)) ∧
      (Config.ofToml? toml head = none → readBy toml content = .error .invalidToml)) ∧
    (∀ content : String, readBy toml content = .error .missingOpening ↔
      ¬ ∃ n, marks n ++ dashes <+: content.toList) ∧
    ∀ content : String, readBy toml content = .error .missingClosing ↔
      ∃ n rest body, content.toList = marks n ++ dashes ++ rest ∧ SkipsEnd rest body ∧
        ¬ '\n' :: dashes <:+: body := by
  refine ⟨fun content head source n opening ahead behind text plain ends => ?_, fun content => ?_, fun content => ?_⟩
  · have parts : split content.toList = .ok (head.toList, source.toList) := by
      rw [text]
      exact split_written n opening ahead behind source.toList plain ends
    have whole := @readBy_of_split toml _ _ _ parts
    rw [String.ofList_toList, String.ofList_toList] at whole
    refine ⟨parts, fun config describes => ?_, fun none_ => ?_⟩
    · rw [whole, describes]
    · rw [whole, none_]
  · exact (readBy_eq_error_iff (by decide)).trans split_eq_missingOpening
  · exact (readBy_eq_error_iff (by decide)).trans split_eq_missingClosing

/-- A head that ends in a line feed and has dashes in it, all line ends in turn, and a template that begins like a
test file itself. -/
theorem read_written_twice :
    ∃ config : Config, config.description = some "---" ∧
      read "\uFEFF\uFEFF---\ndescription = '---'\n\r\n---\n\n---\n\uFEFFX" = .ok (config, "\n---\n\uFEFFX") ∧
      read "\uFEFF--\n---\n" = .error .missingOpening ∧ read "---\r\n---\n" = .error .missingClosing := by
  obtain ⟨framed, opening, closing⟩ := read_written Toml.library
  have described : ((Config.ofToml? Toml.library "description = '---'\n").map (·.description)) = some (some "---") := by
    decide +kernel
  obtain ⟨config, describes, name⟩ := Option.map_eq_some_iff.1 described
  obtain ⟨-, returned, -⟩ := framed "\uFEFF\uFEFF---\ndescription = '---'\n\r\n---\n\n---\n\uFEFFX"
    "description = '---'\n" "\n---\n\uFEFFX" 2 .lf .crlf .lf (by decide +kernel) (by decide +kernel) (by decide +kernel)
  refine ⟨config, name, returned config describes, (opening _).2 ?_, (closing _).2 ?_⟩
  · rintro ⟨n, rest, text⟩
    have none_ : after? dashes ("\uFEFF--\n---\n".toList.dropWhile (· == '\uFEFF')) = none := by decide +kernel
    rw [opens_iff.2 ⟨n, text.symm⟩] at none_
    cases none_
  · refine ⟨0, "\r\n---\n".toList, "---\n".toList, by decide +kernel, .past .crlf _, by decide +kernel⟩

end Stencil.Fixture

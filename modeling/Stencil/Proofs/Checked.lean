import Stencil.Fixture.Check
import Stencil.Proofs.Delivered
import Stencil.Proofs.Parts

/-!
# What a check finds

A check comes to good exactly if the template does what the head of the test says (`check_exact`): either it
does not parse, for the reason that is expected, or it means the text and the warnings that are. A template
that was just read fills a buffer without an error, whatever the data, so no test that expects one passes.
-/

namespace Stencil

open Text

/-! ## What is rendered is a text -/

namespace Text

theorem ofBytes?_bytes (t : String) : ofBytes? (bytes t) = some t := by
  rw [ofBytes?, bytes, Array.toArray_toList, String.fromUTF8?, dif_pos t.isValidUTF8]
  rfl

/-- Some bytes encode a text. -/
def IsText (bs : List UInt8) : Prop := ∃ t, bs = bytes t

namespace IsText

theorem nil : IsText [] := ⟨"", rfl⟩

theorem append {xs ys : List UInt8} (first : IsText xs) (second : IsText ys) : IsText (xs ++ ys) := by
  obtain ⟨s, rfl⟩ := first
  obtain ⟨t, rfl⟩ := second
  exact ⟨s ++ t, (bytes_append s t).symm⟩

theorem flatMap {α : Type} {f : α → List UInt8} (each : ∀ a, IsText (f a)) (items : List α) :
    IsText (items.flatMap f) := by
  induction items with
  | nil => exact nil
  | cons a items ih => exact (each a).append ih

end IsText

end Text

theorem Block.isText_gapUnder (b : Block) (value : String → String) (k : Nat) : IsText (b.gapUnder value k) :=
  .flatMap (fun _ => .append ⟨_, rfl⟩ ⟨_, rfl⟩) _

/-- A pass writes a text behind a text. -/
theorem Block.isText_pass (b : Block) (path : List String) (fields : Fields) {r : Rendering} (h : IsText r.out) :
    IsText (b.pass path fields r).out := by
  induction b using rowInduction (fun cs => ∀ path fields (gap : Nat → List UInt8) k (r : Rendering),
    (∀ k, IsText (gap k)) → IsText r.out → IsText (passEach path fields gap k r cs).out)
    generalizing path fields r with
  | nest b ih =>
    rw [pass_eq]
    refine ih _ _ _ _ _ (fun k => b.isText_gapUnder _ k) ?_
    rw [Rendering.out_emit, out_assigns]
    exact h.append (b.isText_gapUnder _ 0)
  | nil path fields gap k r gaps h => exact h
  | cons c cs first others path fields gap k r gaps h =>
    have rounds (rounds : List Fields) (r : Rendering) (h : IsText r.out) :
        IsText (rounds.foldl (fun r inner => c.pass (path ++ [c.name.getD ""]) inner r) r).out := by
      induction rounds generalizing r with
      | nil => exact h
      | cons inner rounds ih => exact ih _ (first _ _ h)
    rw [passEach]
    exact others _ _ _ _ _ gaps ((rounds _ r h).append (gaps k))

namespace Fixture

variable {config : Config} {source : String} {root : Block}

/-- Of two checks one after the other both come to good, or the whole does not. -/
theorem both_ok_iff {first second : Except Failure Unit} :
    (first >>= fun _ => second) = .ok () ↔ first = .ok () ∧ second = .ok () := by
  cases first with
  | ok done => exact (and_iff_right rfl).symm
  | error failure => exact iff_of_false nofun fun both => nomatch both.1

/-! ## Warnings -/

/-- A warning is as expected: the part is in its wording, and it is about the block, where one is given. -/
structure Describes (w : Warning) (e : ExpectedWarning) : Prop where
  wording : e.contains.toList <:+: w.message.toList
  block : ∀ block, e.block = some block → block = w.block

theorem checkWarning_ok_iff {index : Nat} {w : Warning} {e : ExpectedWarning} :
    checkWarning index w e = .ok () ↔ Describes w e := by
  rw [checkWarning]
  by_cases wording : occursIn e.contains w.message = true
  · have part := occursIn_iff.1 wording
    rw [wording]
    cases given : e.block with
    | none => exact iff_of_true rfl ⟨part, by simp [given]⟩
    | some block =>
      by_cases same : block = w.block
      · simp only [same, if_true]
        exact iff_of_true rfl ⟨part, by simp [given, same]⟩
      · simp only [same, if_false]
        exact iff_of_false nofun fun h => same (h.block block given)
  · rw [if_pos (by simpa using wording)]
    exact iff_of_false nofun fun h => wording (occursIn_iff.2 h.wording)

theorem checkWarnings_ok_iff {actual : List Warning} {expected : List ExpectedWarning} :
    checkWarnings actual expected = .ok () ↔ List.Forall₂ Describes actual expected := by
  have inOrder (index : Nat) (same : actual.length = expected.length) :
      checkInOrder index actual expected = .ok () ↔ List.Forall₂ Describes actual expected := by
    induction actual generalizing expected index with
    | nil =>
      rw [List.length_eq_zero_iff.1 same.symm]
      exact iff_of_true rfl .nil
    | cons w actual ih =>
      cases expected with
      | nil => cases same
      | cons e expected =>
        rw [checkInOrder, both_ok_iff, checkWarning_ok_iff, ih (index + 1) (Nat.succ.inj same), List.forall₂_cons]
  rw [checkWarnings]
  split_ifs with differ
  · exact iff_of_false nofun fun h => differ h.length_eq
  · exact inOrder 0 (not_not.1 differ)

/-! ## Output -/

/-- Some bytes are a text that is another one but for white space at the ends of both. -/
def Agrees (written : List UInt8) (expected : String) : Prop :=
  ∃ t core, written = bytes t ∧ Trims isBlank t.toList core ∧ Trims isBlank expected.toList core

theorem checkOutput_ok_iff {written : List UInt8} (text : IsText written) {expected : String} :
    checkOutput written expected = .ok () ↔ Agrees written expected := by
  obtain ⟨t, rfl⟩ := text
  have same : trim t = trim expected ↔ Agrees (bytes t) expected := by
    rw [trim, trim, String.ofList_inj, trimBoth_eq_iff]
    constructor
    · exact fun trims => ⟨t, _, rfl, trims, trims_trimBoth _ _⟩
    · rintro ⟨t', core, same, trims, trims'⟩
      have same : t = t' := Option.some.inj (by rw [← ofBytes?_bytes, same, ofBytes?_bytes])
      rw [same, trims'.trimBoth_eq]
      exact trims
  rw [checkOutput, ofBytes?_bytes, Option.getD_some]
  split_ifs with h
  · exact iff_of_true rfl (same.1 h)
  · exact iff_of_false nofun fun agrees => h (same.2 agrees)

/-! ## Checks -/

/-- A template means what a test expects of its filling, which is no error. -/
structure Meets (config : Config) (root : Block) : Prop where
  noError : config.renderError = none
  output : ∀ expected, config.output = some expected →
    Agrees (root.pass [] config.data ⟨[], root.valuation⟩).out expected
  warnings : ∀ expected, config.warnings = some expected →
    List.Forall₂ Describes ((root.visits [] config.data).flatMap Visit.warnings) expected

theorem checkFilled_ok_iff (parsed : Template.parse source 0 = .ok root) :
    checkFilled config root = .ok () ↔ Meets config root := by
  obtain ⟨result, received⟩ := Command.filled_buffer parsed config.data
  unfold checkFilled
  dsimp only
  rw [result, received]
  cases fails : config.renderError with
  | some expected => exact iff_of_false nofun fun meets => nomatch fails.symm.trans meets.noError
  | none =>
    have text : IsText (root.pass [] config.data ⟨[], root.valuation⟩).out := root.isText_pass [] config.data .nil
    dsimp only
    trans (∀ e, config.output = some e → checkOutput (root.pass [] config.data ⟨[], root.valuation⟩).out e = .ok ()) ∧
      ∀ es, config.warnings = some es →
        checkWarnings ((root.visits [] config.data).flatMap Visit.warnings) es = .ok ()
    · cases config.output <;> cases config.warnings <;> simp [both_ok_iff, pure, Except.pure]
    · simp only [checkOutput_ok_iff text, checkWarnings_ok_iff]
      exact ⟨fun both => ⟨fails, both.1, both.2⟩, fun meets => ⟨meets.output, meets.warnings⟩⟩

/-- **Checks of tests.** For every head and every template: a test that expects an error of the reader passes
exactly if the template does not parse, with an error in whose wording the expected part occurs. Any other
passes exactly if the template parses, no error is expected of its filling, and, as far as they are given, the
output is what the data means for the template, up to white space at both ends, and the warnings are all those
of the data, as many, in their order, and each as expected. To fill a template that was just read in a buffer
is never an error. -/
theorem check_exact (config : Config) (source : String) :
    (check config source = .ok () ↔ match config.parseError with
      | some part => ∃ e, Template.parse source 0 = .error e ∧ part.toList <:+: e.message.toList
      | none => ∃ root, Template.parse source 0 = .ok root ∧ Meets config root) ∧
    (∀ root, Template.parse source 0 = .ok root →
      ∃ warnings, ((Page.ofTemplate root).fill config.data Buffer.empty).result = .ok warnings) ∧
    (∀ expected, config.renderError = some expected → config.parseError = none → check config source ≠ .ok ()) := by
  have verdict : check config source = .ok () ↔ match config.parseError with
      | some part => ∃ e, Template.parse source 0 = .error e ∧ part.toList <:+: e.message.toList
      | none => ∃ root, Template.parse source 0 = .ok root ∧ Meets config root := by
    rw [check]
    cases config.parseError with
    | some part =>
      cases Template.parse source 0 with
      | ok root => simp
      | error e => simp [← occursIn_iff]
    | none =>
      cases parsed : Template.parse source 0 with
      | ok root => simp [checkFilled_ok_iff parsed]
      | error e => simp
  refine ⟨verdict, fun root parsed => ⟨_, (Command.filled_buffer parsed config.data).1⟩,
    fun expected asked reads good => ?_⟩
  rw [reads] at verdict
  obtain ⟨root, -, meets⟩ := verdict.1 good
  exact nomatch asked.symm.trans meets.noError

/-- A field that fits nothing is expected to be told, and so is the text, which has white space around it. With
an error expected of the filling as well, whatever it is, the test fails. -/
theorem check_exact_trimmed :
    let config : Config := ⟨none, [("x", .text "1"), ("y", .text "2")], some "1\n", none, none,
      some [⟨"'y' is neither", some "root"⟩]⟩
    let source := "<!--rep var=x place=A-->\n A "
    (∃ root, Template.parse source 0 = .ok root ∧ Meets config root) ∧
      check { config with renderError := some "" } source ≠ .ok () := by
  intro config source
  have passes : check config source = .ok () := by decide +kernel
  exact ⟨(check_exact config source).1.1 passes,
    (check_exact { config with renderError := some "" } source).2.2 "" rfl rfl⟩

end Fixture

end Stencil

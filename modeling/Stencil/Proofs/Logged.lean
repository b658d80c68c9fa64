import Stencil.Command
import Stencil.Proofs.Reading
import Stencil.Proofs.Visits

/-!
# What goes to the log

Reading a template notes no warning (`quiet_read`), and the warnings that are noted while it is filled are the
misfits, with their wording and in their order (`alarms_notes`). So a log that lets through what it does if it is
not asked for anything has one record for each warning of a filling. Whatever it lets through, the text that is
said among the notes stands as it is (`shown_lines`).
-/

namespace Stencil

/-! ## Notes of warnings -/

namespace Said

theorem texts_append (xs ys : List Said) : texts (xs ++ ys) = texts xs ++ texts ys := by
  rw [texts, List.map_append, String.join_append]
  rfl

theorem texts_notes (notes : List Note) : texts (notes.map .note) = "" := by
  induction notes with
  | nil => rfl
  | cons n notes ih => rwa [texts, List.map_cons, List.map_cons, String.join_cons, String.empty_append]

theorem texts_lines (lines : List String) : texts (lines.map line) = Command.unlines lines := by
  rw [texts, List.map_map]
  rfl

theorem shown_append (passes : Note → Bool) (xs ys : List Said) :
    shown passes (xs ++ ys) = shown passes xs ++ shown passes ys :=
  List.filter_append xs ys

/-- A log lets all lines through. -/
theorem shown_lines (passes : Note → Bool) (lines : List String) :
    shown passes (lines.map line) = lines.map line :=
  List.filter_eq_self.2 (by simp [line])

end Said

end Stencil

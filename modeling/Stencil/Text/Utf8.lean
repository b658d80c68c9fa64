/-!
# Text as UTF-8 bytes

Sources are scanned as lists of characters, while every position that is reported counts
bytes. `byteCount` measures a text, `dropBytes` moves to a byte position, and `bytes` is
what a sink receives.
-/

namespace Stencil.Text

/-- The number of bytes of a text. -/
def byteCount : List Char → Nat
  | [] => 0
  | c :: cs => c.utf8Size + byteCount cs

@[simp] theorem byteCount_nil : byteCount [] = 0 := rfl

@[simp] theorem byteCount_cons (c : Char) (cs : List Char) :
    byteCount (c :: cs) = c.utf8Size + byteCount cs := rfl

@[simp] theorem byteCount_append (xs ys : List Char) :
    byteCount (xs ++ ys) = byteCount xs + byteCount ys := by
  induction xs with
  | nil => simp
  | cons c cs ih => simp only [List.cons_append, byteCount_cons, ih]; omega

/-- The text behind its first `n` bytes. A position inside a character counts as the end of
that character. -/
def dropBytes : Nat → List Char → List Char
  | 0, cs => cs
  | _ + 1, [] => []
  | n + 1, c :: cs => dropBytes (n + 1 - c.utf8Size) cs

@[simp] theorem dropBytes_zero (cs : List Char) : dropBytes 0 cs = cs := by
  cases cs <;> rfl

/-- Dropping a front part by its size leaves the rest. -/
theorem dropBytes_append (xs ys : List Char) : dropBytes (byteCount xs) (xs ++ ys) = ys := by
  induction xs with
  | nil => simp
  | cons c cs ih =>
    have pos : 0 < c.utf8Size := Char.utf8Size_pos c
    obtain ⟨n, hn⟩ : ∃ n, c.utf8Size + byteCount cs = n + 1 := ⟨c.utf8Size + byteCount cs - 1, by omega⟩
    rw [byteCount_cons, hn, List.cons_append, dropBytes]
    rw [show n + 1 - c.utf8Size = byteCount cs by omega, ih]

/-- The bytes of a text. -/
def bytes (s : String) : List UInt8 :=
  s.toByteArray.data.toList

@[simp] theorem bytes_append (s t : String) : bytes (s ++ t) = bytes s ++ bytes t := by
  simp [bytes, String.toByteArray_append]

theorem bytes_inj {s t : String} : bytes s = bytes t ↔ s = t := by
  refine ⟨fun same => ?_, congrArg bytes⟩
  exact String.toByteArray_inj.1 (ByteArray.ext (Array.toList_inj.1 same))

/-- The text of some bytes, if they are UTF-8. -/
def ofBytes? (bs : List UInt8) : Option String :=
  String.fromUTF8? ⟨bs.toArray⟩

end Stencil.Text

import Stencil.Proofs.Sliced.Attributes

/-!
# Tags by byte positions

The next tag of a source, found by a loop that moves a byte position from comment to comment. Every pass leaves the
position between two characters and further behind (`tagPass_cases`), so the loop ends, with the first tag of the
text behind the position where it began (`tag?_eq`).
-/

namespace Stencil

open Text

namespace Sliced

open Tag

/-- What every comment begins with. -/
def commentMark : List Char := ['<', '!', '-', '-']

/-- What a tag has behind the mark of a comment and the slash of a closing tag. -/
def keyword : List Char := ['r', 'e', 'p']

/-- Which kind of tag goes on like this behind the mark of a comment, and the bytes up to the end of the keyword;
`some none` where it is no tag. -/
def keyword? (rest : List Char) : Option (Option (Opener × Nat)) := do
  let closes ← if rest.head? = some '/' then do
      let behindSlash ← sliceFrom? rest 1
      some (after? keyword behindSlash).isSome
    else some false
  if closes then some (some (.closing, 1 + byteCount keyword))
  else if (after? keyword rest).isSome then some (some (.opening, byteCount keyword))
  else some none

/-- The tag that begins at byte `start` and has its keyword up to byte `keywordEnd`. -/
def completed? (cs : List Char) (o : Opener) (start keywordEnd : Nat) : Option (Except Defect (Option Tag)) := do
  let behind ← sliceFrom? cs keywordEnd
  match offset? closer behind with
  | none => some (.error ⟨.unterminatedTag, start, byteCount cs⟩)
  | some offset =>
    let insideEnd := keywordEnd + offset
    let span : Span := ⟨start, insideEnd + byteCount closer⟩
    match o with
    | .closing => some (.ok (some ⟨.closing, span⟩))
    | .opening => do
      let inside ← slice? cs keywordEnd insideEnd
      match ← attributes? inside with
      | .error fault => some (.error ⟨fault, span⟩)
      | .ok attributes => some (.ok (some ⟨.opening attributes, span⟩))

/-- The comment that begins at byte `start`. Behind a comment that is no tag the search goes on at the next byte. -/
def commentPass (cs : List Char) (start : Nat) : Option (Pass Nat (Except Defect (Option Tag))) := do
  let behindMark := start + byteCount commentMark
  let rest ← sliceFrom? cs behindMark
  match ← keyword? rest with
  | none => some (.again (start + 1))
  | some (o, size) => do
    let behind ← sliceFrom? cs (behindMark + size)
    if wordEnds behind then do
      let result ← completed? cs o start (behindMark + size)
      some (.done result)
    else some (.again (start + 1))

/-- The first comment from byte `search` on. -/
def tagPass (cs : List Char) (search : Nat) : Option (Pass Nat (Except Defect (Option Tag))) := do
  let ahead ← sliceFrom? cs search
  match offset? commentMark ahead with
  | none => some (.done (.ok none))
  | some offset => commentPass cs (search + offset)

/-- The first tag at or behind byte `pos`. -/
def tag? (cs : List Char) (pos : Nat) : Option (Except Defect (Option Tag)) :=
  loop? (tagPass cs) pos

theorem text_append_inj {o o' : Opener} {rest rest' : List Char} (h : o.text ++ rest = o'.text ++ rest') :
    o = o' ∧ rest = rest' := by
  cases o <;> cases o' <;> simp_all [Opener.text]

theorem exists_commentMark (o : Opener) : ∃ more, o.text = commentMark ++ more := by
  cases o
  · exact ⟨keyword, rfl⟩
  · exact ⟨'/' :: keyword, rfl⟩

/-- Behind the mark of a comment a tag goes on, or none does. -/
theorem keyword?_cases (rest : List Char) :
    (∃ o behind, commentMark ++ rest = Opener.text o ++ behind ∧
      ∃ size, byteCount commentMark + size = byteCount o.text ∧ keyword? rest = some (some (o, size))) ∨
    (∀ o behind, commentMark ++ rest ≠ Opener.text o ++ behind) ∧ keyword? rest = some none := by
  by_cases slash : rest.head? = some '/'
  · obtain ⟨more, rfl⟩ := List.head?_eq_some_iff.1 slash
    have behindSlash : sliceFrom? ('/' :: more) 1 = some more := sliceFrom?_append ['/'] more
    have unopened : after? keyword ('/' :: more) = none := rfl
    unfold keyword?
    rw [if_pos slash, behindSlash, unopened]
    cases closes : after? keyword more with
    | some behind =>
      obtain rfl := after?_eq_some_iff.1 closes
      refine .inl ⟨.closing, behind, rfl, 1 + byteCount keyword, rfl, ?_⟩
      simp [closes]
    | none =>
      refine .inr ⟨fun o behind text => ?_, ?_⟩
      · cases o with
        | opening => simp [commentMark, Opener.text] at text
        | closing =>
          have written : more = keyword ++ behind := by simpa [commentMark, Opener.text, keyword] using text
          rw [after?_eq_some_iff.2 written] at closes
          cases closes
      · simp [closes]
  · unfold keyword?
    rw [if_neg slash]
    cases opens : after? keyword rest with
    | some behind =>
      obtain rfl := after?_eq_some_iff.1 opens
      exact .inl ⟨.opening, behind, rfl, byteCount keyword, rfl, rfl⟩
    | none =>
      refine .inr ⟨fun o behind text => ?_, rfl⟩
      cases o with
      | opening =>
        have written : rest = keyword ++ behind := by simpa [commentMark, Opener.text, keyword] using text
        rw [after?_eq_some_iff.2 written] at opens
        cases opens
      | closing =>
        have written : rest = '/' :: (keyword ++ behind) := by simpa [commentMark, Opener.text, keyword] using text
        exact slash (by rw [written]; rfl)

/-- The tag is the one that the opener and the text behind it are completed to. -/
theorem completed?_eq (front : List Char) (o : Opener) (rest : List Char) :
    completed? (front ++ o.text ++ rest) o (byteCount front) (byteCount (front ++ o.text)) =
      some ((complete o (byteCount front) rest).map fun read => some read.1) := by
  unfold completed? offset?
  rw [sliceFrom?_append, Option.bind_eq_bind, Option.bind_some]
  cases cut : cutAt? closer rest with
  | none =>
    rw [complete_of_missing cut, ← byteCount_append, ← List.append_assoc]
    rfl
  | some parts =>
    obtain ⟨inside, behind⟩ := parts
    obtain rfl := cutAt?_eq_some cut
    have between : slice? (front ++ o.text ++ (inside ++ closer ++ behind)) (byteCount (front ++ o.text))
        (byteCount (front ++ o.text) + byteCount inside) = some inside := by
      rw [List.append_assoc inside, ← List.append_assoc]
      exact slice?_append _ _ _
    have stop : byteCount (front ++ o.text) + byteCount inside + byteCount closer =
        byteCount front + byteCount (o.text ++ inside ++ closer) := by
      simp only [byteCount_append]
      omega
    rw [complete_of_cut cut, Option.map_some]
    dsimp only
    rw [stop]
    cases o with
    | closing => rfl
    | opening =>
      dsimp only
      rw [between, Option.bind_some, attributes?_eq, Option.bind_eq_bind, Option.bind_some]
      unfold Opener.kind
      cases Attributes.parse inside <;> rfl

/-- The first tag of a text that stands at byte `pos`, without the text around it. -/
def first (pos : Nat) (cs : List Char) : Except Defect (Option Tag) :=
  (find pos cs).map (Option.map Found.tag)

/-- A character at which no tag begins is passed over. -/
theorem first_cons {pos : Nat} {c : Char} {cs : List Char} (h : opener? (c :: cs) = none) :
    first pos (c :: cs) = first (pos + c.utf8Size) cs := by
  unfold first
  rw [find, h]
  dsimp only
  cases find (pos + c.utf8Size) cs with
  | error d => rfl
  | ok found => cases found <;> rfl

theorem first_of_opener {pos : Nat} {o : Opener} {behind : List Char} (ends : wordEnds behind = true) :
    first pos (o.text ++ behind) = (complete o pos behind).map fun read => some read.1 := by
  obtain ⟨c, cs, text⟩ : ∃ c cs, o.text ++ behind = c :: cs := by cases o <;> exact ⟨_, _, rfl⟩
  have opens : opener? (c :: cs) = some (o, behind) := text ▸ opener?_of_text ends
  unfold first
  rw [text, find, opens]
  dsimp only
  cases complete o pos behind <;> rfl

theorem opener?_eq_none {cs : List Char} (h : ∀ o behind, cs = Opener.text o ++ behind → wordEnds behind = false) :
    opener? cs = none := by
  cases opens : opener? cs with
  | none => rfl
  | some found =>
    obtain ⟨o, behind⟩ := found
    obtain ⟨text, ends⟩ := opener?_eq_some opens
    rw [h o behind text] at ends
    cases ends

theorem opener?_of_unmarked {cs : List Char} (h : after? commentMark cs = none) : opener? cs = none := by
  refine opener?_eq_none fun o behind text => ?_
  obtain ⟨more, mark⟩ := exists_commentMark o
  rw [mark, List.append_assoc] at text
  rw [after?_eq_some_iff.2 text] at h
  cases h

/-- No tag begins in front of the mark of a comment. -/
theorem first_of_cut {pos : Nat} {cs front rest : List Char} (cut : cutAt? commentMark cs = some (front, rest)) :
    first pos cs = first (pos + byteCount front) (commentMark ++ rest) := by
  induction cs generalizing pos front with
  | nil => cases cut
  | cons c cs ih =>
    cases here : after? commentMark (c :: cs) with
    | some behind =>
      rw [cutAt?_of_after? here] at cut
      cases cut
      rw [after?_eq_some_iff.1 here]
      rfl
    | none =>
      rw [cutAt?_cons here, Option.map_eq_some_iff] at cut
      obtain ⟨⟨inner, behind⟩, cut, parts⟩ := cut
      cases parts
      rw [first_cons (opener?_of_unmarked here), ih cut, byteCount_cons, Nat.add_assoc]

theorem first_of_missing {pos : Nat} {cs : List Char} (cut : cutAt? commentMark cs = none) :
    first pos cs = .ok none := by
  induction cs generalizing pos with
  | nil => rfl
  | cons c cs ih =>
    cases here : after? commentMark (c :: cs) with
    | some behind =>
      rw [cutAt?_of_after? here] at cut
      cases cut
    | none =>
      rw [cutAt?_cons here, Option.map_eq_none_iff] at cut
      rw [first_cons (opener?_of_unmarked here), ih cut]

/-- A comment is the tag it is read as, or no tag begins with it. -/
theorem commentPass_cases (before rest : List Char) :
    commentPass (before ++ commentMark ++ rest) (byteCount before) =
        some (.done (first (byteCount before) (commentMark ++ rest))) ∨
      opener? (commentMark ++ rest) = none ∧
        commentPass (before ++ commentMark ++ rest) (byteCount before) = some (.again (byteCount before + 1)) := by
  unfold commentPass
  dsimp only
  rw [← byteCount_append, sliceFrom?_append, Option.bind_eq_bind, Option.bind_some]
  rcases keyword?_cases rest with ⟨o, behind, written, size, sizes, goes⟩ | ⟨unwritten, goes⟩
  · have stands : before ++ commentMark ++ rest = before ++ o.text ++ behind := by
      rw [List.append_assoc, written, ← List.append_assoc]
    have keywordEnd : byteCount (before ++ commentMark) + size = byteCount (before ++ o.text) := by
      rw [byteCount_append, byteCount_append, ← sizes, Nat.add_assoc]
    rw [goes, Option.bind_eq_bind, Option.bind_some]
    dsimp only
    rw [keywordEnd, stands, sliceFrom?_append, Option.bind_some]
    cases ends : wordEnds behind with
    | true =>
      rw [if_pos rfl, completed?_eq, written, first_of_opener ends]
      exact .inl rfl
    | false =>
      rw [if_neg Bool.false_ne_true]
      refine .inr ⟨opener?_eq_none fun o' behind' text => ?_, rfl⟩
      obtain ⟨-, rfl⟩ := text_append_inj (written.symm.trans text)
      exact ends
  · rw [goes]
    exact .inr ⟨opener?_eq_none fun o behind text => absurd text (unwritten o behind), rfl⟩

/-- A pass finds the first tag, or goes on where the first tag is still ahead. -/
theorem tagPass_cases (before after : List Char) :
    tagPass (before ++ after) (byteCount before) = some (.done (first (byteCount before) after)) ∨
      ∃ passed later, after = passed ++ later ∧ 0 < byteCount passed ∧
        tagPass (before ++ after) (byteCount before) = some (.again (byteCount (before ++ passed))) ∧
        first (byteCount (before ++ passed)) later = first (byteCount before) after := by
  unfold tagPass
  rw [sliceFrom?_append, Option.bind_eq_bind, Option.bind_some, offset?]
  cases cut : cutAt? commentMark after with
  | none =>
    rw [first_of_missing cut]
    exact .inl rfl
  | some parts =>
    obtain ⟨front, rest⟩ := parts
    obtain rfl := cutAt?_eq_some cut
    have whole : before ++ (front ++ commentMark ++ rest) = before ++ front ++ commentMark ++ rest := by
      simp only [List.append_assoc]
    rw [first_of_cut cut, Option.map_some, whole]
    dsimp only
    rw [← byteCount_append]
    rcases commentPass_cases (before ++ front) rest with tag | ⟨none_, goes⟩
    · exact .inl tag
    · -- The search goes on behind the first character of the mark.
      have onward : byteCount (before ++ (front ++ ['<'])) = byteCount (before ++ front) + 1 := by
        rw [← List.append_assoc, byteCount_append _ ['<']]
        rfl
      refine .inr ⟨front ++ ['<'], ['!', '-', '-'] ++ rest, ?_, ?_, ?_, ?_⟩
      · simp [commentMark]
      · have mark : 0 < byteCount ['<'] := Nat.one_pos
        rw [byteCount_append]
        omega
      · rw [goes, onward]
      · rw [onward]
        exact (first_cons none_).symm

/-- The search from a boundary on is the search in the text behind it. -/
theorem tag?_eq (before after : List Char) :
    tag? (before ++ after) (byteCount before) = some (first (byteCount before) after) := by
  have found : tag? (before ++ after) (byteCount before) =
      some (first (byteCount before) (dropBytes (byteCount before) (before ++ after))) := by
    refine loop?_eq (fun pos => first pos (dropBytes pos (before ++ after)))
      (fun pos => isBoundary (before ++ after) pos = true) (fun pos => byteCount (before ++ after) - pos) ?_
      (isBoundary_append before after)
    intro pos boundary
    obtain ⟨front, back, whole, rfl⟩ := isBoundary_iff.1 boundary
    rw [whole, dropBytes_append]
    refine (tagPass_cases front back).imp_right ?_
    rintro ⟨passed, later, rfl, positive, next, same⟩
    refine ⟨_, next, ?_, ?_, ?_⟩
    · rw [← List.append_assoc]
      exact isBoundary_append _ later
    · simp only [byteCount_append]
      omega
    · rw [← List.append_assoc, dropBytes_append, same]
  rwa [dropBytes_append] at found

end Sliced

end Stencil

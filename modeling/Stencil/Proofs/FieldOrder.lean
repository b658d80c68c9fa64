import Mathlib.Tactic.SplitIfs
import Stencil.Command

/-!
# The order of fields

UTF-8 keeps the order of texts: compared character by character they stand as their bytes do
(`bytes_lt_iff`). Data keeps its fields in the ascending order of their names, at every depth
(`Fields.Ordered`); so does all data that is read from a file (`ordered_of_renderData`).
-/

namespace Stencil

open Text

namespace Text

theorem bytes_eq_flatMap (s : String) : bytes s = s.toList.flatMap String.utf8EncodeChar := by
  have text : s.toByteArray = s.toList.utf8Encode := by
    rw [← String.toByteArray_ofList, String.ofList_toList]
  unfold bytes
  rw [text]
  exact List.toList_data_toByteArray

/-- Of two characters the smaller one has the smaller bytes, whatever follows them. -/
theorem encode_lt_of_lt {c d : Char} (less : c < d) (xs ys : List UInt8) :
    String.utf8EncodeChar c ++ xs < String.utf8EncodeChar d ++ ys := by
  have less : c.val.toNat < d.val.toNat := less
  have bound : d.val.toNat < 0x110000 := by
    have := d.valid
    unfold UInt32.isValidChar Nat.isValidChar at this
    omega
  unfold String.utf8EncodeChar
  dsimp only
  generalize c.val.toNat = m at less ⊢
  generalize d.val.toNat = n at less bound ⊢
  have byte (k : Nat) (small : k < 256) : (UInt8.ofNat k).toNat = k := by
    rw [UInt8.toNat_ofNat', Nat.mod_eq_of_lt small]
  have digits (k : Nat) : k / 4096 = k / 64 / 64 ∧ k / 262144 = k / 64 / 64 / 64 := by omega
  -- A longer code begins with a larger byte; codes of one length are compared digit by digit.
  split_ifs <;>
    simp (disch := omega) only [List.cons_append, List.nil_append, List.cons_lt_cons_iff, UInt8.lt_iff_toNat_lt,
      ← UInt8.toNat_inj, byte, (digits m).1, (digits m).2, (digits n).1, (digits n).2] <;>
    omega

theorem flatMap_encode_lt {cs ds : List Char} (less : cs < ds) :
    cs.flatMap String.utf8EncodeChar < ds.flatMap String.utf8EncodeChar := by
  induction cs generalizing ds with
  | nil =>
    cases ds with
    | nil => exact absurd less (List.lt_irrefl _)
    | cons d ds =>
      rw [List.flatMap_cons]
      cases h : String.utf8EncodeChar d with
      | nil => exact absurd h String.utf8EncodeChar_ne_nil
      | cons b bs => exact List.nil_lt_cons _ _
  | cons c cs ih =>
    cases ds with
    | nil => exact absurd less (List.not_lt_nil _)
    | cons d ds =>
      rw [List.flatMap_cons, List.flatMap_cons]
      rcases List.cons_lt_cons_iff.1 less with smaller | ⟨rfl, behind⟩
      · exact encode_lt_of_lt smaller _ _
      · exact List.append_left_lt (ih behind)

/-- UTF-8 keeps the order of texts. -/
theorem bytes_lt_iff {s t : String} : bytes s < bytes t ↔ s < t := by
  have keeps {s t : String} (less : s < t) : bytes s < bytes t := by
    rw [bytes_eq_flatMap, bytes_eq_flatMap]
    exact flatMap_encode_lt less
  refine ⟨fun less => Decidable.byContradiction fun other => ?_, keeps⟩
  by_cases same : s = t
  · subst same
    exact List.lt_irrefl _ less
  · have larger : t < s := String.not_le.1 fun le => same (String.le_antisymm le (String.not_lt.1 other))
    exact List.lt_asymm (keeps larger) less

end Text

/-! ## Fields -/

/-- Fields stand in the ascending byte order of their names, and so do those of every pass that their
entries ask for. -/
inductive Fields.Ordered : Fields → Prop where
  | intro {fields : Fields} (ascending : fields.Pairwise fun a b => bytes a.1 < bytes b.1)
      (below : ∀ field ∈ fields, ∀ inner ∈ field.2.passes, Ordered inner) : Ordered fields

namespace Fields

theorem mem_insert {fields : Fields} {name : String} {entry : Entry} {field : String × Entry}
    (h : field ∈ fields.insert name entry) : field = (name, entry) ∨ field ∈ fields := by
  fun_induction insert name entry fields with
  | case1 => exact .inl (List.mem_singleton.1 h)
  | case2 n e rest before => exact List.mem_cons.1 h
  | case3 e rest before =>
    rcases List.mem_cons.1 h with new | old
    · exact .inl new
    · exact .inr (List.mem_cons_of_mem _ old)
  | case4 n e rest before other ih =>
    rcases List.mem_cons.1 h with first | later
    · exact .inr (first ▸ List.mem_cons_self)
    · exact (ih later).imp_right (List.mem_cons_of_mem _)

theorem ascending_insert {fields : Fields} (name : String) (entry : Entry)
    (h : fields.Pairwise fun a b => bytes a.1 < bytes b.1) :
    (fields.insert name entry).Pairwise fun a b => bytes a.1 < bytes b.1 := by
  fun_induction insert name entry fields with
  | case1 => exact List.pairwise_singleton _ _
  | case2 n e rest before =>
    refine List.pairwise_cons.2 ⟨fun field mem => ?_, h⟩
    have first := bytes_lt_iff.2 before
    rcases List.mem_cons.1 mem with rfl | later
    · exact first
    · exact List.lt_trans first ((List.pairwise_cons.1 h).1 field later)
  | case3 e rest before => exact List.pairwise_cons.2 (List.pairwise_cons.1 h)
  | case4 n e rest before other ih =>
    obtain ⟨first, behind⟩ := List.pairwise_cons.1 h
    refine List.pairwise_cons.2 ⟨fun field mem => ?_, ih behind⟩
    rcases mem_insert mem with rfl | old
    · have larger : n < name := String.not_le.1 fun le => other (String.le_antisymm le (String.not_lt.1 before))
      exact bytes_lt_iff.2 larger
    · exact first field old

theorem Ordered.nil : Ordered [] := .intro List.Pairwise.nil nofun

/-- An entry is put in its place. -/
theorem Ordered.insert {fields : Fields} {name : String} {entry : Entry} (h : Ordered fields)
    (below : ∀ inner ∈ entry.passes, Ordered inner) : Ordered (fields.insert name entry) := by
  obtain ⟨ascending, each⟩ := h
  refine .intro (ascending_insert name entry ascending) fun field mem => ?_
  rcases mem_insert mem with rfl | old
  · exact below
  · exact each field old

/-- What stands behind a field has other names. -/
theorem get?_behind {field : String × Entry} {fields : Fields} {name : String}
    (ascending : (field :: fields).Pairwise fun a b => bytes a.1 < bytes b.1) (before : bytes name ≤ bytes field.1) :
    fields.get? name = none := by
  refine List.lookup_eq_none_iff.2 fun other mem => bne_iff_ne.2 ?_
  rintro rfl
  exact before ((List.pairwise_cons.1 ascending).1 other mem)

/-- Fields in order are determined by their entries. -/
theorem Ordered.ext {fields others : Fields} (h : Ordered fields) (h' : Ordered others)
    (same : ∀ name, fields.get? name = others.get? name) : fields = others := by
  obtain ⟨ascending, -⟩ := h
  obtain ⟨ascending', -⟩ := h'
  induction fields generalizing others with
  | nil =>
    cases others with
    | nil => rfl
    | cons other others =>
      have here := same other.1
      rw [get?_cons, if_pos rfl] at here
      cases here
  | cons field fields ih =>
    cases others with
    | nil =>
      have here := same field.1
      rw [get?_cons, if_pos rfl] at here
      cases here
    | cons other others =>
      have own := same field.1
      have theirs := same other.1
      rw [get?_cons, get?_cons] at own theirs
      have names : field.1 = other.1 := by
        refine Decidable.byContradiction fun apart => ?_
        rw [if_pos rfl, if_neg apart] at own
        rw [if_pos rfl, if_neg (Ne.symm apart)] at theirs
        rcases List.le_total (bytes field.1) (bytes other.1) with before | before
        · rw [get?_behind ascending' before] at own
          cases own
        · rw [get?_behind ascending before] at theirs
          cases theirs
      rw [if_pos rfl, if_pos names] at own
      have first : field = other := Prod.ext names (Option.some.inj own)
      subst first
      rw [ih (fun name => ?_) (List.pairwise_cons.1 ascending).2 (List.pairwise_cons.1 ascending').2]
      by_cases here : name = field.1
      · subst here
        rw [get?_behind ascending (List.le_refl _), get?_behind ascending' (List.le_refl _)]
      · have rest := same name
        rwa [get?_cons, get?_cons, if_neg here, if_neg here] at rest

/-- However entries are listed, they become fields in order. -/
theorem ordered_ofList {entries : List (String × Entry)}
    (below : ∀ field ∈ entries, ∀ inner ∈ field.2.passes, Ordered inner) : Ordered (ofList entries) := by
  have onto (fields : Fields) (h : Ordered fields) :
      Ordered (entries.foldl (fun fields field => fields.insert field.1 field.2) fields) := by
    induction entries generalizing fields with
    | nil => exact h
    | cons field entries ih =>
      rw [List.foldl_cons]
      apply ih
      · exact fun later mem => below later (List.mem_cons_of_mem _ mem)
      · exact h.insert (below field List.mem_cons_self)
  exact onto [] .nil

end Fields

/-! ## Data from files -/

namespace Document

/-- What a value asks of a block is in order; so are the entries of a table and the elements of an array. -/
theorem ordered_read :
    (∀ d : Document, ∀ entry, d.entry? = some entry → ∀ inner ∈ entry.passes, Fields.Ordered inner) ∧
    (∀ entries es, entryList? entries = some es → ∀ field ∈ es, ∀ inner ∈ field.2.passes, Fields.Ordered inner) ∧
    ∀ items all, itemFields? items = some all → ∀ inner ∈ all, Fields.Ordered inner := by
  apply entry?.mutual_induct
  case case1 => exact fun entry h => nomatch h
  case case2 | case4 | case5 =>
    intro x entry h inner mem
    cases h
    cases mem
  case case3 =>
    intro b entry h inner mem
    cases h
    cases b
    · cases mem
    · cases List.mem_singleton.1 mem
      exact .nil
  case case6 =>
    intro items ih entry h
    obtain ⟨all, read, rfl⟩ := Option.map_eq_some_iff.1 h
    exact ih all read
  case case7 =>
    intro entries ih entry h inner mem
    obtain ⟨es, read, rfl⟩ := Option.map_eq_some_iff.1 h
    cases List.mem_singleton.1 mem
    exact Fields.ordered_ofList (ih es read)
  case case8 =>
    intro all h
    cases h
    nofun
  case case9 =>
    intro entries rest es more readMore readEntries ihEntries ihRest all h inner mem
    rw [itemFields?, readEntries, readMore] at h
    cases h
    rcases List.mem_cons.1 mem with rfl | later
    · exact Fields.ordered_ofList (ihEntries es readEntries)
    · exact ihRest more readMore inner later
  case case10 =>
    intro entries rest never _ _ all h
    rw [itemFields?] at h
    split at h
    · next es more readEntries readMore => exact absurd readMore (never es more readEntries)
    · cases h
  case case11 =>
    intro head tail other all h
    cases head with
    | table entries => exact absurd rfl (other entries)
    | _ => cases h
  case case12 =>
    intro es h
    cases h
    nofun
  case case13 =>
    intro name d rest e more readMore readEntry ihEntry ihRest es h field mem
    rw [entryList?, readEntry, readMore] at h
    cases h
    rcases List.mem_cons.1 mem with rfl | later
    · exact ihEntry e readEntry
    · exact ihRest more readMore field later
  case case14 =>
    intro name d rest never _ _ es h
    rw [entryList?] at h
    split at h
    · next e more readEntry readMore => exact absurd readMore (never e more readEntry)
    · cases h

/-- What is read as data is in order. -/
theorem ordered_of_fields? {d : Document} {fields : Fields} (h : d.fields? = some fields) : fields.Ordered := by
  cases d with
  | table entries =>
    obtain ⟨es, read, rfl⟩ := Option.map_eq_some_iff.1 h
    exact Fields.ordered_ofList (ordered_read.2.1 entries es read)
  | _ => cases h

end Document

namespace Command

theorem ordered_assignAll {assignments : List String} {fields out : Fields} (h : fields.Ordered)
    (ok : assignAll fields assignments = .ok out) : out.Ordered := by
  induction assignments generalizing fields with
  | nil =>
    cases ok
    exact h
  | cons s rest ih =>
    unfold assignAll at ok
    cases cut : assignment? s with
    | none =>
      rw [cut] at ok
      cases ok
    | some pair =>
      rw [cut] at ok
      refine ih (h.insert ?_) ok
      intro inner mem
      cases mem

theorem ordered_loadData {toml : Toml.Library} {fs : FileSystem} {path : String} {fields : Fields}
    (ok : loadData toml fs path = .ok fields) : fields.Ordered := by
  unfold loadData at ok
  split at ok
  · cases ok
  · next text _ =>
    cases read : (toml.read? text).bind Document.fields? with
    | none =>
      rw [read] at ok
      cases ok
    | some found =>
      rw [read] at ok
      cases ok
      obtain ⟨d, -, whole⟩ := Option.bind_eq_some_iff.1 read
      exact Document.ordered_of_fields? whole

/-- The data that a template is rendered with is in order. -/
theorem ordered_of_renderData {toml : Toml.Library} {fs : FileSystem} {r : RenderRequest} {fields : Fields}
    (ok : renderData toml fs r = .ok fields) : fields.Ordered := by
  unfold renderData at ok
  cases data : r.data with
  | none =>
    rw [data] at ok
    exact ordered_assignAll .nil ok
  | some path =>
    rw [data] at ok
    cases loaded : loadData toml fs path with
    | error e =>
      simp only [loaded] at ok
      cases ok
    | ok found =>
      simp only [loaded] at ok
      exact ordered_assignAll (ordered_loadData loaded) ok

end Command

end Stencil

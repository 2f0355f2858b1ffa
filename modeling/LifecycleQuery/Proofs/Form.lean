import LifecycleQuery.Form
import Mathlib.Data.List.TakeWhile

/-!
# Fields, read and written

The pieces of a text are what stands between its ampersands, less the empty ones
(`pieces_eq_splitOn`). A text is written with kept characters, `+` and `%` alone, among which there
is neither `&` nor `=`. So the fields that were written are the fields read (`decode_encode`).
-/

namespace LifecycleQuery.Form

open Text

/-! ## Cutting at a character -/

section
variable {d : Char} {x : List Char}

theorem bne_of_not_mem (h : d ∉ x) : ∀ c ∈ x, (c != d) = true := by
  intro c hc
  rw [bne_iff_ne]
  rintro rfl
  exact h hc

theorem takeWhile_append_cons (h : d ∉ x) (rest : List Char) :
    (x ++ d :: rest).takeWhile (· != d) = x := by
  rw [List.takeWhile_append_of_pos (bne_of_not_mem h)]
  simp

theorem dropWhile_append_cons (h : d ∉ x) (rest : List Char) :
    (x ++ d :: rest).dropWhile (· != d) = d :: rest := by
  rw [List.dropWhile_append_of_pos (bne_of_not_mem h)]
  simp

end

/-- The pieces are the parts between ampersands that are not empty. -/
theorem pieces_eq_splitOn (text : List Char) :
    pieces text = (text.splitOn '&').filter (!·.isEmpty) := by
  fun_induction pieces text with
  | case1 => rfl
  | case2 rest ih =>
    rw [ih, List.splitOn_cons_eq_if_modifyHead]
    simp
  | case3 c rest hc ih =>
    have hne : '&' ≠ c := fun h => hc h.symm
    rw [ih]
    by_cases hrest : '&' ∈ rest
    · obtain ⟨x, tail, rfl, hx⟩ := List.eq_append_cons_of_mem hrest
      have hcx : '&' ∉ c :: x := List.not_mem_cons_of_ne_of_not_mem hne hx
      rw [takeWhile_append_cons hx, dropWhile_append_cons hx, List.splitOn_cons_eq_if_modifyHead,
        ← List.cons_append, List.splitOn_append_cons_self_of_not_mem hcx]
      simp
    · have hcrest : '&' ∉ c :: rest := List.not_mem_cons_of_ne_of_not_mem hne hrest
      have hall := bne_of_not_mem hrest
      rw [List.takeWhile_eq_self_iff.2 hall, List.dropWhile_eq_nil_iff.2 hall,
        List.splitOn_eq_singleton hcrest]
      simp

/-- Pieces that are not empty and hold no ampersand are found again between ampersands. -/
theorem pieces_intercalate {ps : List (List Char)} (hamp : ∀ p ∈ ps, '&' ∉ p)
    (hne : ∀ p ∈ ps, p ≠ []) : pieces (['&'].intercalate ps) = ps := by
  cases ps with
  | nil => rw [List.intercalate_nil, pieces]
  | cons p ps =>
    rw [pieces_eq_splitOn, List.splitOn_intercalate '&' hamp (List.cons_ne_nil p ps)]
    exact List.filter_eq_self.2 fun q hq => by simpa using hne q hq

/-! ## Written text -/

/-- The characters that written text is made of. -/
def isWritten (c : Char) : Bool := isKept c || c == '+' || c == '%'

theorem isKept_hexUpper : ∀ n < 16, isKept (hexUpper n) = true := by decide

theorem isWritten_escapeByte (b : UInt8) : ∀ c ∈ escapeByte b, isWritten c = true := by
  have hb : b.toNat < 256 := b.toNat_lt
  have hhigh := isKept_hexUpper (b.toNat / 16) (by omega)
  have hlow := isKept_hexUpper (b.toNat % 16) (by omega)
  simp [escapeByte, isWritten, hhigh, hlow]

theorem isWritten_encodeText {text : String} {c : Char} (h : c ∈ encodeText text) :
    isWritten c = true := by
  obtain ⟨d, -, hd⟩ := List.mem_flatMap.1 h
  rw [encodeChar] at hd
  split at hd
  · next hkept =>
    rw [List.mem_singleton.1 hd, isWritten, hkept]
    rfl
  · split at hd
    · rw [List.mem_singleton.1 hd]
      rfl
    · obtain ⟨b, -, hb⟩ := List.mem_flatMap.1 hd
      exact isWritten_escapeByte b c hb

/-- Any other character is escaped: those between fields, keys and values, and a question mark. -/
theorem not_mem_encodeText {c : Char} (hc : isWritten c = false) (text : String) :
    c ∉ encodeText text := by
  intro h
  rw [isWritten_encodeText h] at hc
  cases hc

theorem not_mem_encodeField {c : Char} (hc : isWritten c = false) (hne : c ≠ '=') (f : Field) :
    c ∉ encodeField f := by
  simp [encodeField, not_mem_encodeText hc, hne]

theorem encodeField_ne_nil (f : Field) : encodeField f ≠ [] := by
  simp [encodeField]

theorem not_mem_encode (fields : List Field) : '?' ∉ encode fields := by
  rw [encode]
  induction fields with
  | nil => simp
  | cons f fields ih =>
    have hf : '?' ∉ encodeField f := not_mem_encodeField (by decide) (by decide) f
    cases fields with
    | nil => simpa using hf
    | cons g fields =>
      rw [List.map_cons, List.map_cons, List.intercalate_cons_cons, ← List.map_cons,
        List.mem_append, List.mem_append, not_or, not_or]
      exact ⟨⟨hf, by decide⟩, ih⟩

/-! ## Reading what was written -/

theorem decodeField_encodeField (f : Field) : decodeField (encodeField f) = f := by
  have hkey : '=' ∉ encodeText f.1 := not_mem_encodeText (by decide) f.1
  rw [decodeField, encodeField, takeWhile_append_cons hkey, dropWhile_append_cons hkey,
    List.drop_succ_cons, List.drop_zero, decodeText_encodeText, decodeText_encodeText]

/-- The fields written are the fields read. -/
theorem decode_encode (fields : List Field) : decode (encode fields) = fields := by
  have hpieces : pieces (encode fields) = fields.map encodeField := by
    apply pieces_intercalate
    · intro p hp
      obtain ⟨f, -, rfl⟩ := List.mem_map.1 hp
      exact not_mem_encodeField (by decide) (by decide) f
    · intro p hp
      obtain ⟨f, -, rfl⟩ := List.mem_map.1 hp
      exact encodeField_ne_nil f
  rw [decode, hpieces, List.map_map]
  exact List.map_id'' (f := decodeField ∘ encodeField) decodeField_encodeField fields

end LifecycleQuery.Form

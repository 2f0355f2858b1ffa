/-!
# Blanks and layout

A character is blank when Unicode gives it the property White_Space. A clause made of blanks alone
says nothing, and blanks around a paging value do not count. Between the parts of a clause only the
four layout characters may stand, which is a smaller class.
-/

namespace LifecycleQuery.Text

/-- The code points with the property White_Space, in order. -/
def whiteSpace : List Nat :=
  [0x9, 0xA, 0xB, 0xC, 0xD, 0x20, 0x85, 0xA0, 0x1680, 0x2000, 0x2001, 0x2002, 0x2003, 0x2004,
    0x2005, 0x2006, 0x2007, 0x2008, 0x2009, 0x200A, 0x2028, 0x2029, 0x202F, 0x205F, 0x3000]

def isBlank (c : Char) : Bool := whiteSpace.contains c.toNat

/-- Space, tab, carriage return and line feed. -/
def isLayout (c : Char) : Bool := c == ' ' || c == '\t' || c == '\r' || c == '\n'

theorem isBlank_of_isLayout {c : Char} (h : isLayout c = true) : isBlank c = true := by
  simp only [isLayout, Bool.or_eq_true, beq_iff_eq] at h
  rcases h with ((rfl | rfl) | rfl) | rfl <;> decide

example : whiteSpace.length = 25 ∧ isBlank '\u00a0' ∧ !isLayout '\u00a0' := by decide

/-! ## Cutting blanks off -/

def skipLayout (text : List Char) : List Char := text.dropWhile isLayout

/-- The text without the blanks at its two ends. -/
def trim (text : List Char) : List Char :=
  ((text.dropWhile isBlank).reverse.dropWhile isBlank).reverse

/-- Nothing but blanks. -/
def isBlankText (text : List Char) : Bool := text.all isBlank

theorem dropWhile_eq_nil {p : Char → Bool} {text : List Char} :
    text.dropWhile p = [] ↔ text.all p = true := by
  induction text with
  | nil => simp
  | cons c rest ih => by_cases h : p c <;> simp [h, ih]

theorem trim_eq_nil_iff {text : List Char} : trim text = [] ↔ isBlankText text = true := by
  rw [trim, isBlankText, List.reverse_eq_nil_iff, dropWhile_eq_nil, List.all_reverse]
  induction text with
  | nil => simp
  | cons c rest ih =>
    by_cases h : isBlank c
    · simpa [h] using ih
    · simp [h]

theorem dropWhile_isBlank_eq_self {text : List Char} (h : ∀ c ∈ text, isBlank c = false) :
    text.dropWhile isBlank = text := by
  cases text with
  | nil => rfl
  | cons c rest => exact List.dropWhile_cons_of_neg (by simp [h c List.mem_cons_self])

/-- What has no blanks in it is found between any blanks. -/
theorem trim_padded {gap text gap' : List Char} (hgap : ∀ c ∈ gap, isBlank c = true)
    (h : ∀ c ∈ text, isBlank c = false) (hgap' : ∀ c ∈ gap', isBlank c = true) :
    trim (gap ++ (text ++ gap')) = text := by
  rw [trim, List.dropWhile_append_of_pos hgap]
  cases text with
  | nil => rw [List.nil_append, dropWhile_eq_nil.2 (List.all_eq_true.2 hgap')]; rfl
  | cons c rest =>
    have hc : ¬isBlank c = true := by simp [h c List.mem_cons_self]
    rw [List.cons_append, List.dropWhile_cons_of_neg hc, ← List.cons_append, List.reverse_append,
      List.dropWhile_append_of_pos (by simpa using hgap'), dropWhile_isBlank_eq_self,
      List.reverse_reverse]
    exact fun d hd => h d (List.mem_reverse.1 hd)

/-- A text without blanks stays as it is. -/
theorem trim_eq_self {text : List Char} (h : ∀ c ∈ text, isBlank c = false) : trim text = text := by
  have hpadded := @trim_padded [] text [] (by simp) h (by simp)
  rwa [List.nil_append, List.append_nil] at hpadded

theorem skipLayout_length_le (text : List Char) : (skipLayout text).length ≤ text.length :=
  (List.dropWhile_sublist _).length_le

end LifecycleQuery.Text

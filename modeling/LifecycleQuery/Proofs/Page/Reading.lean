import LifecycleQuery.Page
import LifecycleQuery.Proofs.Grammar.Name
import LifecycleQuery.Proofs.Numeral

/-!
# Reading a page

A count written in decimal digits is read as that count (`readCount_toString`), so the texts of a
page are read as that page (`read_parameters`). Whatever the texts, a page that is read has a number
of at least one, and if the default size is at least one, so is its size (`read_positive`).
-/

namespace LifecycleQuery

open Text

theorem isBlank_of_isDigit {c : Char} (h : c.isDigit = true) : isBlank c = false :=
  Name.isBlank_of_isNameStart (by simp [isNameStart, Char.isAlphanum, h])

namespace Page

/-! ## Counts and flags -/

theorem given?_of_not_blank {text : String} (hne : text.toList ≠ [])
    (h : ∀ c ∈ text.toList, isBlank c = false) : given? (some text) = some text.toList := by
  rw [given?, Option.map_some, trim_eq_self h]
  cases htext : text.toList with
  | nil => exact absurd htext hne
  | cons c rest => rfl

theorem countOf?_digits {text : List Char} (hne : text ≠ [])
    (h : ∀ c ∈ text, c.isDigit = true) (hsize : digitsValue text < UInt64.size) :
    countOf? text = some (UInt64.ofNat (digitsValue text)) := by
  have hplus : ∀ rest, text ≠ '+' :: rest := by
    rintro rest rfl
    exact absurd (h '+' List.mem_cons_self) (by decide)
  rw [countOf?]
  · exact if_pos ⟨hne, List.all_eq_true.2 h, hsize⟩
  · exact hplus

/-- A written count is read. -/
theorem readCount_toString (p : Parameter) (n : UInt64) :
    readCount p (some (toString n.toNat)) = .ok n := by
  have htext : (toString n.toNat).toList = Nat.toDigits 10 n.toNat := by
    rw [Nat.toString_eq_ofList_toDigits, String.toList_ofList]
  have hdigits : ∀ c ∈ Nat.toDigits 10 n.toNat, c.isDigit = true := fun c hc =>
    Nat.isDigit_of_mem_toDigits (by decide) (by decide) hc
  have hvalue := digitsValue_toDigits n.toNat
  have hgiven : given? (some (toString n.toNat)) = some (Nat.toDigits 10 n.toNat) := by
    rw [given?_of_not_blank, htext]
    · rw [htext]
      exact Nat.toDigits_ne_nil
    · rw [htext]
      exact fun c hc => isBlank_of_isDigit (hdigits c hc)
  have hcount : countOf? (Nat.toDigits 10 n.toNat) = some n := by
    rw [countOf?_digits Nat.toDigits_ne_nil hdigits (by rw [hvalue]; exact n.toNat_lt), hvalue,
      UInt64.ofNat_toNat]
  simp only [readCount, hgiven, hcount]

theorem readFlag_true (p : Parameter) : readFlag p (some "true") = .ok true := by
  rfl

/-! ## Pages -/

/-- The page that a flag, a size and a number ask for. -/
def asked (d : UInt64) (wanted : Bool) (size number : UInt64) : Option Page :=
  if !wanted && size == 0 then none
  else some ⟨if size = 0 then d else size, if number = 0 then 1 else number⟩

/-- The three texts are read one after another. -/
theorem read_eq_bind (d : UInt64) (flag size number : Option String) : read d flag size number =
    (readFlag .paging flag).bind fun wanted => (readCount .pageSize size).bind fun m =>
      (readCount .pageNumber number).map fun n => asked d wanted m n := by
  rw [read]
  cases readFlag .paging flag with
  | error fault => rfl
  | ok wanted =>
    cases readCount .pageSize size with
    | error fault => rfl
    | ok m =>
      cases readCount .pageNumber number with
      | error fault => rfl
      | ok n =>
        show (if !wanted && m == 0 then pure none else pure (some _) : Except _ _) = .ok (ite _ _ _)
        split <;> rfl

/-- The page that is read, when the three texts are what they should be. -/
theorem read_ok_iff {d : UInt64} {flag size number : Option String} {page : Option Page} :
    read d flag size number = .ok page ↔ ∃ wanted, readFlag .paging flag = .ok wanted ∧
      ∃ m, readCount .pageSize size = .ok m ∧ ∃ n, readCount .pageNumber number = .ok n ∧
        asked d wanted m n = page := by
  simp only [read_eq_bind, Except.bind_eq_ok_iff, Except.map_eq_ok_iff]

/-- The parameters that ask for the page. -/
def parameters (p : Page) : Parameters :=
  { Parameters.empty with
    paging := some "true"
    pageSize := some (toString p.size.toNat)
    pageNumber := some (toString p.number.toNat) }

/-- A page with no default in it is read from its own parameters, whatever the default size. -/
theorem read_parameters {d : UInt64} {p : Page} (hsize : 1 ≤ p.size) (hnumber : 1 ≤ p.number) :
    read d p.parameters.paging p.parameters.pageSize p.parameters.pageNumber = .ok (some p) := by
  have hs : 0 < p.size := UInt64.lt_of_lt_of_le (by decide) hsize
  have hn : 0 < p.number := UInt64.lt_of_lt_of_le (by decide) hnumber
  refine read_ok_iff.2 ⟨true, readFlag_true _, p.size, readCount_toString _ _, p.number,
    readCount_toString _ _, ?_⟩
  simp [asked, (UInt64.ne_of_lt hs).symm, (UInt64.ne_of_lt hn).symm]

theorem one_le_ite {n d : UInt64} (hd : 1 ≤ d) : 1 ≤ if n = 0 then d else n := by
  split
  · exact hd
  · next hn =>
    have h : n.toNat ≠ 0 := fun h => hn (UInt64.toNat_inj.1 h)
    rw [UInt64.le_iff_toNat_le]
    exact Nat.pos_of_ne_zero h

theorem read_positive {d : UInt64} {flag size number : Option String} {p : Page} (hd : 1 ≤ d)
    (h : read d flag size number = .ok (some p)) : 1 ≤ p.size ∧ 1 ≤ p.number := by
  obtain ⟨wanted, -, m, -, n, -, hpage⟩ := read_ok_iff.1 h
  rw [asked] at hpage
  split at hpage
  · cases hpage
  · cases hpage
    exact ⟨one_le_ite hd, one_le_ite (by decide)⟩

end Page

end LifecycleQuery

import LifecycleQuery.Numeral
import LifecycleQuery.Proofs.Grammar

/-!
# The grammar of numerals

A numeral is well formed when its parts are digits and its exponent is marked by `e` or `E`; its
spelling is then its `text`. `scan` reads the spellings of well-formed numerals and no others.
-/

namespace LifecycleQuery.Numeral

open Text

/-- `DIGIT+` -/
def Digits (ds : List Char) : Prop := ds ≠ [] ∧ ∀ c ∈ ds, c.isDigit = true

/-- `DECIMAL` -/
structure WellFormed (n : Numeral) : Prop where
  whole : Digits n.whole
  fraction : ∀ ds ∈ n.fraction, Digits ds
  exponent : ∀ e ∈ n.exponent, (e.mark = 'e' ∨ e.mark = 'E') ∧ Digits e.digits

/-! ## Digits and signs -/

theorem Digits.head {ds : List Char} (h : Digits ds) (u : List Char) :
    ∃ c rest, ds ++ u = c :: rest ∧ c.isDigit = true := by
  obtain ⟨hne, hall⟩ := h
  cases ds with
  | nil => exact absurd rfl hne
  | cons c rest => exact ⟨c, rest ++ u, rfl, hall c List.mem_cons_self⟩

theorem scanDigits_sound {t ds u : List Char} (h : scanDigits t = some (ds, u)) :
    Digits ds ∧ t = ds ++ u := by
  unfold scanDigits at h
  split at h
  · cases h
  · next hne =>
    cases h
    exact ⟨⟨hne, List.all_eq_true.1 List.all_takeWhile⟩, List.takeWhile_append_dropWhile.symm⟩

/-- Digits end where something else begins. -/
theorem Digits.split {ds u : List Char} (h : Digits ds) (hu : ∀ c ∈ u.head?, (!c.isDigit) = true) :
    (ds ++ u).takeWhile Char.isDigit = ds ∧ (ds ++ u).dropWhile Char.isDigit = u := by
  have hstop : u.takeWhile Char.isDigit = [] ∧ u.dropWhile Char.isDigit = u := by
    cases u with
    | nil => exact ⟨rfl, rfl⟩
    | cons c rest =>
      have hc : c.isDigit = false := by simpa using hu c rfl
      simp [hc]
  constructor
  · rw [List.takeWhile_append_of_pos h.2, hstop.1, List.append_nil]
  · rw [List.dropWhile_append_of_pos h.2, hstop.2]

theorem scanDigits_complete {ds u : List Char} (h : Digits ds)
    (hu : ∀ c ∈ u.head?, (!c.isDigit) = true) : scanDigits (ds ++ u) = some (ds, u) := by
  obtain ⟨ht, hd⟩ := h.split hu
  simp only [scanDigits, ht, hd]
  split
  · exact absurd rfl h.1
  · rfl

theorem scanDigits_eq_none {c : Char} {rest : List Char} (h : c.isDigit = false) :
    scanDigits (c :: rest) = none := by
  simp [scanDigits, h]

theorem sign_scan_sound (t : List Char) : Sign.text (Sign.scan t).1 ++ (Sign.scan t).2 = t := by
  rw [Sign.scan.eq_def]
  split <;> rfl

theorem sign_scan_complete (s : Option Sign) {u : List Char}
    (hu : ∀ c ∈ u.head?, (c != '+' && c != '-') = true) :
    Sign.scan (Sign.text s ++ u) = (s, u) := by
  cases s with
  | none =>
    cases u with
    | nil => rfl
    | cons c rest =>
      have hc := hu c rfl
      simp only [Bool.and_eq_true, bne_iff_ne, ne_eq] at hc
      simp [Sign.text, Sign.scan, hc]
  | some s => cases s <;> rfl

theorem Digits.sign_scan {ds : List Char} (h : Digits ds) (s : Option Sign) (u : List Char) :
    Sign.scan (Sign.text s ++ (ds ++ u)) = (s, ds ++ u) := by
  obtain ⟨c, rest, he, hc⟩ := h.head u
  apply sign_scan_complete
  rw [he]
  rintro _ ⟨⟩
  simp only [Bool.and_eq_true, bne_iff_ne]
  constructor <;> rintro rfl <;> exact absurd hc (by decide)

/-! ## Fraction and exponent -/

theorem scanFraction_sound (t : List Char) :
    (∀ ds ∈ (scanFraction t).1, Digits ds) ∧
      ((scanFraction t).1.map ('.' :: ·)).getD [] ++ (scanFraction t).2 = t := by
  rw [scanFraction.eq_def]
  split
  · split
    · next rest ds left hd =>
      obtain ⟨hds, rfl⟩ := scanDigits_sound hd
      exact ⟨by rintro _ ⟨⟩; exact hds, rfl⟩
    · exact ⟨by simp, rfl⟩
  · exact ⟨by simp, rfl⟩

theorem scanFraction_complete {f : Option (List Char)} (hf : ∀ ds ∈ f, Digits ds) {u : List Char}
    (hu : ∀ c ∈ u.head?, (!c.isDigit && c != '.') = true) :
    scanFraction ((f.map ('.' :: ·)).getD [] ++ u) = (f, u) := by
  cases f with
  | none =>
    cases u with
    | nil => rfl
    | cons c rest =>
      have hc := hu c rfl
      simp only [Bool.and_eq_true, bne_iff_ne, ne_eq] at hc
      simp [scanFraction, hc]
  | some ds =>
    have hd : scanDigits (ds ++ u) = some (ds, u) := by
      apply scanDigits_complete (hf ds rfl)
      intro c hc
      have := hu c hc
      simp only [Bool.and_eq_true] at this
      exact this.1
    simp [scanFraction, hd]

theorem scanExponent_sound (t : List Char) :
    (∀ e ∈ (scanExponent t).1, (e.mark = 'e' ∨ e.mark = 'E') ∧ Digits e.digits) ∧
      ((scanExponent t).1.map Exponent.text).getD [] ++ (scanExponent t).2 = t := by
  cases t with
  | nil => exact ⟨by simp [scanExponent], rfl⟩
  | cons c rest =>
    simp only [scanExponent]
    split
    · next hc =>
      split
      · next ds left hd =>
        obtain ⟨hds, he⟩ := scanDigits_sound hd
        refine ⟨by rintro _ ⟨⟩; exact ⟨hc, hds⟩, ?_⟩
        have hs := sign_scan_sound rest
        rw [he] at hs
        simp [Exponent.text, hs]
      · exact ⟨by simp, rfl⟩
    · exact ⟨by simp, rfl⟩

theorem scanExponent_complete {e : Option Exponent}
    (he : ∀ x ∈ e, (x.mark = 'e' ∨ x.mark = 'E') ∧ Digits x.digits) {u : List Char}
    (hu : ∀ c ∈ u.head?, (!c.isDigit && c != 'e' && c != 'E') = true) :
    scanExponent ((e.map Exponent.text).getD [] ++ u) = (e, u) := by
  cases e with
  | none =>
    cases u with
    | nil => rfl
    | cons c rest =>
      have hc := hu c rfl
      simp only [Bool.and_eq_true, bne_iff_ne, ne_eq] at hc
      simp [scanExponent, hc]
  | some x =>
    obtain ⟨hmark, hds⟩ := he x rfl
    have hd : scanDigits (x.digits ++ u) = some (x.digits, u) := by
      apply scanDigits_complete hds
      intro c hc
      have := hu c hc
      simp only [Bool.and_eq_true] at this
      exact this.1.1
    simp [scanExponent, Exponent.text, hmark, hds.sign_scan, hd]

/-! ## Numerals -/

theorem scan_sound {t u : List Char} {n : Numeral} (h : scan t = some (n, u)) :
    n.WellFormed ∧ t = n.text ++ u := by
  simp only [scan, Option.map_eq_some_iff] at h
  obtain ⟨⟨whole, rest⟩, hw, he⟩ := h
  simp only [Prod.mk.injEq] at he
  obtain ⟨rfl, rfl⟩ := he
  obtain ⟨hwhole, hbody⟩ := scanDigits_sound hw
  obtain ⟨hf, hft⟩ := scanFraction_sound rest
  obtain ⟨hx, hxt⟩ := scanExponent_sound (scanFraction rest).2
  refine ⟨⟨hwhole, hf, hx⟩, ?_⟩
  have hs := sign_scan_sound t
  rw [hbody, ← hft, ← hxt] at hs
  simp only [text, List.append_assoc]
  exact hs.symm

/-- What stands behind the fraction does not go on with it. -/
theorem WellFormed.head_exponent {n : Numeral} (h : n.WellFormed) {u : List Char} (hu : Ends u) :
    ∀ c ∈ ((n.exponent.map Exponent.text).getD [] ++ u).head?, (!c.isDigit && c != '.') = true := by
  cases he : n.exponent with
  | none => exact hu.head (by decide)
  | some e =>
    rintro _ ⟨⟩
    rcases (h.exponent e he).1 with hm | hm <;> rw [hm] <;> decide

theorem WellFormed.head_fraction {n : Numeral} (h : n.WellFormed) {u : List Char} (hu : Ends u) :
    ∀ c ∈ ((n.fraction.map ('.' :: ·)).getD [] ++
      ((n.exponent.map Exponent.text).getD [] ++ u)).head?, (!c.isDigit) = true := by
  cases hf : n.fraction with
  | none =>
    intro c hc
    have := h.head_exponent hu c hc
    simp only [Bool.and_eq_true] at this
    exact this.1
  | some ds =>
    rintro _ ⟨⟩
    decide

theorem scan_complete {n : Numeral} (h : n.WellFormed) {u : List Char} (hu : Ends u) :
    scan (n.text ++ u) = some (n, u) := by
  have hx := scanExponent_complete h.exponent (hu.head (by decide))
  have hf := scanFraction_complete h.fraction (h.head_exponent hu)
  have hw := scanDigits_complete h.whole (h.head_fraction hu)
  simp only [text, List.append_assoc]
  simp only [scan, h.whole.sign_scan, hw, Option.map_some, hf, hx]

/-- A numeral begins with a digit or a sign. -/
theorem WellFormed.head {n : Numeral} (h : n.WellFormed) (u : List Char) :
    ∃ c rest, n.text ++ u = c :: rest ∧ (c.isDigit = true ∨ c = '+' ∨ c = '-') := by
  simp only [text, List.append_assoc]
  obtain ⟨c, rest, he, hc⟩ := h.whole.head
    ((n.fraction.map ('.' :: ·)).getD [] ++ ((n.exponent.map Exponent.text).getD [] ++ u))
  rw [he]
  rcases hs : n.sign with _ | _ | _
  · exact ⟨c, rest, rfl, .inl hc⟩
  · exact ⟨'+', c :: rest, rfl, .inr (.inl rfl)⟩
  · exact ⟨'-', c :: rest, rfl, .inr (.inr rfl)⟩

end LifecycleQuery.Numeral

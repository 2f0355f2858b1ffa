import LifecycleQuery.Proofs.Grammar.Numeral
import LifecycleQuery.Proofs.Page.Reading
import Mathlib.Data.List.Forall2

/-!
# What the parameters of a page say

A parameter that is absent or blank is silent and says its default; any other says what the word
between its blanks means (`Says`). The words of a flag are `true` and `false` in any case of
letters, those of a count are digits that spell less than `UInt64.size`, with a plus sign before
them or none. The first parameter with another word in it is the fault of a page
(`Page.read_error_iff`); if there is none, the three values decide the page
(`Page.read_ok_iff_says`).
-/

namespace LifecycleQuery

open Text

/-! ## Words in any case of letters -/

theorem toNat_toLower (c : Char) : c.toLower.toNat =
    if 65 ≤ c.toNat ∧ c.toNat ≤ 90 then c.toNat + 32 else c.toNat := by
  have hrange : (c.val ≥ 'A'.val ∧ c.val ≤ 'Z'.val) ↔ 65 ≤ c.toNat ∧ c.toNat ≤ 90 :=
    and_congr UInt32.le_iff_toNat_le UInt32.le_iff_toNat_le
  unfold Char.toLower
  by_cases h : 65 ≤ c.toNat ∧ c.toNat ≤ 90
  · rw [dif_pos (hrange.2 h), if_pos h]
    show (c.val + 32).toNat = c.toNat + 32
    rw [UInt32.toNat_add]
    show (c.toNat + 32) % 4294967296 = c.toNat + 32
    omega
  · rw [dif_neg (mt hrange.1 h), if_neg h]

theorem toNat_toUpper (c : Char) : c.toUpper.toNat =
    if 97 ≤ c.toNat ∧ c.toNat ≤ 122 then c.toNat - 32 else c.toNat := by
  have hrange : ('a'.val ≤ c.val ∧ c.val ≤ 'z'.val) ↔ 97 ≤ c.toNat ∧ c.toNat ≤ 122 :=
    and_congr UInt32.le_iff_toNat_le UInt32.le_iff_toNat_le
  unfold Char.toUpper
  by_cases h : 97 ≤ c.toNat ∧ c.toNat ≤ 122
  · rw [dif_pos (hrange.2 h), if_pos h]
    -- The distance is negative, so as a word it is counted from the end.
    show (c.val + ('A'.val - 'a'.val)).toNat = c.toNat - 32
    rw [UInt32.toNat_add]
    show (c.toNat + 4294967264) % 4294967296 = c.toNat - 32
    omega
  · rw [dif_neg (mt hrange.1 h), if_neg h]

theorem isLower_iff_toNat {c : Char} : c.isLower = true ↔ 97 ≤ c.toNat ∧ c.toNat ≤ 122 := by
  unfold Char.isLower
  rw [Bool.and_eq_true, decide_eq_true_iff, decide_eq_true_iff]
  exact and_congr UInt32.le_iff_toNat_le UInt32.le_iff_toNat_le

theorem toLower_eq_iff {w c : Char} (hw : w.isLower = true) :
    c.toLower = w ↔ c = w ∨ c = w.toUpper := by
  have hrange := isLower_iff_toNat.1 hw
  simp only [← Char.toNat_inj, toNat_toLower, toNat_toUpper, if_pos hrange]
  split <;> omega

/-- The text is the word, with each of its letters small or large. -/
def InAnyCase (word text : List Char) : Prop :=
  List.Forall₂ (fun w c => c = w ∨ c = w.toUpper) word text

theorem map_toLower_eq_iff {word text : List Char} (hw : ∀ w ∈ word, w.isLower = true) :
    text.map Char.toLower = word ↔ InAnyCase word text := by
  induction word generalizing text with
  | nil => simp [InAnyCase]
  | cons w word ih =>
    obtain ⟨hw, hword⟩ := List.forall_mem_cons.1 hw
    cases text with
    | nil => simp [InAnyCase]
    | cons c text =>
      rw [InAnyCase, List.forall₂_cons, List.map_cons, List.cons.injEq, toLower_eq_iff hw, ih hword]
      rfl

/-! ## What is said -/

/-- Absent, or nothing but blanks. -/
def Silent (text : Option String) : Prop := ∀ t ∈ text, trim t.toList = []

namespace Page

/-- A silent parameter says the default, any other what the word between its blanks means. -/
inductive Says {α : Type} (Word : List Char → α → Prop) (default : α) (text : Option String) :
    α → Prop
  | silent (h : Silent text) : Says Word default text default
  | word {t : String} {a : α} (ht : text = some t) (hw : Word (trim t.toList) a) :
    Says Word default text a

/-- The parameter says nothing, and what stands between its blanks is the fault. -/
def Fails {α : Type} (S : Option String → α → Prop) (p : Parameter) (text : Option String)
    (fault : PageFault) : Prop :=
  (∀ a, ¬S text a) ∧ ∃ t, text = some t ∧ fault = ⟨p, String.ofList (trim t.toList)⟩

inductive FlagWord (text : List Char) : Bool → Prop
  | on (h : InAnyCase "true".toList text) : FlagWord text true
  | off (h : InAnyCase "false".toList text) : FlagWord text false

inductive CountWord : List Char → UInt64 → Prop
  | digits {sign ds : List Char} (hs : sign = [] ∨ sign = ['+']) (hd : Numeral.Digits ds)
    (hsize : Nat.ofDigitChars 10 ds 0 < UInt64.size) :
    CountWord (sign ++ ds) (.ofNat (Nat.ofDigitChars 10 ds 0))

abbrev SaysFlag : Option String → Bool → Prop := Says FlagWord false

abbrev SaysCount : Option String → UInt64 → Prop := Says CountWord 0

theorem given?_eq_none_iff {text : Option String} : given? text = none ↔ Silent text := by
  cases text with
  | none => simp [given?, Silent]
  | some t => cases ht : trim t.toList <;> simp [given?, Silent, ht]

theorem given?_eq_some_iff {text : Option String} {found : List Char} :
    given? text = some found ↔ found ≠ [] ∧ ∃ t, text = some t ∧ trim t.toList = found := by
  cases text with
  | none => simp [given?]
  | some t =>
    cases ht : trim t.toList with
    | nil => simp [given?, ht, eq_comm]
    | cons c rest => simp +contextual [given?, ht, eq_comm]

/-! ## Reading by words -/

/-- Reads a silent parameter as the default, and any other as a word. -/
def readWord {α : Type} (word? : List Char → Option α) (default : α) (p : Parameter)
    (text : Option String) : Except PageFault α :=
  match given? text with
  | none => .ok default
  | some found =>
    match word? found with
    | some a => .ok a
    | none => .error ⟨p, String.ofList found⟩

section
variable {α : Type} {word? : List Char → Option α} {Word : List Char → α → Prop} {default : α}
  {p : Parameter} {text : Option String}

theorem readWord_ok_iff (hword : ∀ found a, word? found = some a ↔ Word found a)
    (hnil : ∀ a, ¬Word [] a) {a : α} :
    readWord word? default p text = .ok a ↔ Says Word default text a := by
  rw [readWord]
  split
  · next hgiven =>
    have hsilent := given?_eq_none_iff.1 hgiven
    constructor
    · rintro ⟨⟩
      exact .silent hsilent
    · rintro (_ | ⟨ht, hw⟩)
      · rfl
      · rw [hsilent _ ht] at hw
        exact absurd hw (hnil a)
  · next found hgiven =>
    obtain ⟨hne, t, rfl, rfl⟩ := given?_eq_some_iff.1 hgiven
    have hfound : Says Word default (some t) a ↔ word? (trim t.toList) = some a := by
      rw [hword]
      constructor
      · rintro (hsilent | ⟨⟨⟩, hw⟩)
        · exact absurd (hsilent t rfl) hne
        · exact hw
      · exact .word rfl
    rw [hfound]
    cases word? (trim t.toList) <;> simp

theorem readWord_error {fault : PageFault} (h : readWord word? default p text = .error fault) :
    ∃ t, text = some t ∧ fault = ⟨p, String.ofList (trim t.toList)⟩ := by
  rw [readWord] at h
  split at h
  · cases h
  · next found hgiven =>
    obtain ⟨-, t, rfl, rfl⟩ := given?_eq_some_iff.1 hgiven
    split at h
    · cases h
    · cases h
      exact ⟨t, rfl, rfl⟩

theorem readWord_error_iff (hword : ∀ found a, word? found = some a ↔ Word found a)
    (hnil : ∀ a, ¬Word [] a) {fault : PageFault} :
    readWord word? default p text = .error fault ↔ Fails (Says Word default) p text fault := by
  constructor
  · intro h
    refine ⟨fun a ha => ?_, readWord_error h⟩
    rw [(readWord_ok_iff hword hnil).2 ha] at h
    cases h
  · rintro ⟨hnone, t, rfl, rfl⟩
    cases h : readWord word? default p (some t) with
    | ok a => exact absurd ((readWord_ok_iff hword hnil).1 h) (hnone a)
    | error fault =>
      obtain ⟨_, ⟨⟩, rfl⟩ := readWord_error h
      rfl

end

/-! ## Flags and counts -/

def flagOf? (text : List Char) : Option Bool :=
  if text.map Char.toLower = "true".toList then some true
  else if text.map Char.toLower = "false".toList then some false
  else none

theorem readFlag_eq (p : Parameter) (text : Option String) :
    readFlag p text = readWord flagOf? false p text := by
  rw [readFlag, readWord]
  cases given? text with
  | none => rfl
  | some found =>
    simp only [flagOf?]
    split
    · rfl
    · split <;> rfl

theorem readCount_eq (p : Parameter) (text : Option String) :
    readCount p text = readWord countOf? 0 p text := by
  rw [readCount, readWord]
  cases given? text with
  | none => rfl
  | some found =>
    simp only
    cases countOf? found <;> rfl

theorem flagOf?_eq_some_iff (found : List Char) (b : Bool) :
    flagOf? found = some b ↔ FlagWord found b := by
  have htrue := @map_toLower_eq_iff "true".toList found (List.all_eq_true.1 (by decide))
  have hfalse := @map_toLower_eq_iff "false".toList found (List.all_eq_true.1 (by decide))
  have hdistinct : found.map Char.toLower = "false".toList →
      ¬found.map Char.toLower = "true".toList := by
    intro h
    rw [h]
    decide
  rw [flagOf?]
  constructor
  · intro h
    split at h
    · next hon =>
      cases h
      exact .on (htrue.1 hon)
    · split at h
      · next hoff =>
        cases h
        exact .off (hfalse.1 hoff)
      · cases h
  · rintro (h | h)
    · rw [if_pos (htrue.2 h)]
    · rw [if_neg (hdistinct (hfalse.2 h)), if_pos (hfalse.2 h)]

theorem countOf?_eq_some_iff (found : List Char) (n : UInt64) :
    countOf? found = some n ↔ CountWord found n := by
  constructor
  · intro h
    obtain ⟨sign, ds, hsign, rfl, hds⟩ : ∃ sign ds, (sign = [] ∨ sign = ['+']) ∧
        found = sign ++ ds ∧ (if ds ≠ [] ∧ ds.all Char.isDigit ∧ digitsValue ds < UInt64.size then
          some (UInt64.ofNat (digitsValue ds)) else none) = some n := by
      by_cases hplus : ∃ rest, found = '+' :: rest
      · obtain ⟨rest, rfl⟩ := hplus
        exact ⟨['+'], rest, .inr rfl, rfl, h⟩
      · rw [countOf?] at h
        · exact ⟨[], found, .inl rfl, rfl, h⟩
        · exact not_exists.1 hplus
    split at hds
    · next hall =>
      cases hds
      rw [digitsValue_eq_ofDigitChars] at hall ⊢
      exact .digits hsign ⟨hall.1, List.all_eq_true.1 hall.2.1⟩ hall.2.2
    · cases hds
  · rintro ⟨hsign, hd, hsize⟩
    rw [← digitsValue_eq_ofDigitChars] at hsize ⊢
    rcases hsign with rfl | rfl
    · exact countOf?_digits hd.1 hd.2 hsize
    · exact if_pos ⟨hd.1, List.all_eq_true.2 hd.2, hsize⟩

theorem not_flagWord_nil (b : Bool) : ¬FlagWord [] b := by
  rintro (⟨⟨⟩⟩ | ⟨⟨⟩⟩)

theorem not_countWord_nil (n : UInt64) : ¬CountWord [] n := by
  intro h
  have hread := (countOf?_eq_some_iff [] n).2 h
  cases hread

theorem readFlag_ok_iff {p : Parameter} {text : Option String} {b : Bool} :
    readFlag p text = .ok b ↔ SaysFlag text b := by
  rw [readFlag_eq]
  exact readWord_ok_iff flagOf?_eq_some_iff not_flagWord_nil

theorem readFlag_error_iff {p : Parameter} {text : Option String} {fault : PageFault} :
    readFlag p text = .error fault ↔ Fails SaysFlag p text fault := by
  rw [readFlag_eq]
  exact readWord_error_iff flagOf?_eq_some_iff not_flagWord_nil

theorem readCount_ok_iff {p : Parameter} {text : Option String} {n : UInt64} :
    readCount p text = .ok n ↔ SaysCount text n := by
  rw [readCount_eq]
  exact readWord_ok_iff countOf?_eq_some_iff not_countWord_nil

theorem readCount_error_iff {p : Parameter} {text : Option String} {fault : PageFault} :
    readCount p text = .error fault ↔ Fails SaysCount p text fault := by
  rw [readCount_eq]
  exact readWord_error_iff countOf?_eq_some_iff not_countWord_nil

/-! ## Pages -/

/-- The fault of the first parameter that says nothing. -/
inductive FirstFails (flag size number : Option String) (fault : PageFault) : Prop
  | flag (h : Fails SaysFlag .paging flag fault)
  | size {wanted : Bool} (hflag : SaysFlag flag wanted) (h : Fails SaysCount .pageSize size fault)
  | number {wanted : Bool} {m : UInt64} (hflag : SaysFlag flag wanted) (hsize : SaysCount size m)
    (h : Fails SaysCount .pageNumber number fault)

/-- A flag or a size asks for a page; zero stands for the default size, and for the first page. -/
inductive AsksFor (d : UInt64) : Bool → UInt64 → UInt64 → Option Page → Prop
  | off {n : UInt64} : AsksFor d false 0 n none
  | on {wanted : Bool} {m n : UInt64} (h : wanted = true ∨ m ≠ 0) :
    AsksFor d wanted m n (some ⟨if m = 0 then d else m, if n = 0 then 1 else n⟩)

theorem asksFor_iff {d : UInt64} {wanted : Bool} {m n : UInt64} {page : Option Page} :
    AsksFor d wanted m n page ↔ asked d wanted m n = page := by
  rw [asked]
  by_cases hoff : (!wanted && m == 0) = true
  · obtain ⟨rfl, rfl⟩ : wanted = false ∧ m = 0 := by simpa using hoff
    constructor
    · rintro (_ | h)
      · rfl
      · simp at h
    · rintro rfl
      exact .off
  · rw [if_neg hoff]
    constructor
    · rintro (_ | h)
      · simp at hoff
      · rfl
    · rintro rfl
      refine .on ?_
      cases wanted <;> simp_all

theorem read_ok_iff_says {d : UInt64} {flag size number : Option String} {page : Option Page} :
    read d flag size number = .ok page ↔ ∃ wanted m n, SaysFlag flag wanted ∧ SaysCount size m ∧
      SaysCount number n ∧ AsksFor d wanted m n page := by
  simp only [read_ok_iff, readFlag_ok_iff, readCount_ok_iff, asksFor_iff]
  constructor
  · rintro ⟨wanted, hflag, m, hsize, n, hnumber, hpage⟩
    exact ⟨wanted, m, n, hflag, hsize, hnumber, hpage⟩
  · rintro ⟨wanted, m, n, hflag, hsize, hnumber, hpage⟩
    exact ⟨wanted, hflag, m, hsize, n, hnumber, hpage⟩

theorem read_error_iff {d : UInt64} {flag size number : Option String} {fault : PageFault} :
    read d flag size number = .error fault ↔ FirstFails flag size number fault := by
  simp only [read_eq_bind, Except.bind_eq_error_iff, Except.map_eq_error_iff, readFlag_error_iff,
    readCount_error_iff, readFlag_ok_iff, readCount_ok_iff]
  constructor
  · rintro (hflag | ⟨wanted, hflag, hsize | ⟨m, hsize, hnumber⟩⟩)
    · exact .flag hflag
    · exact .size hflag hsize
    · exact .number hflag hsize hnumber
  · rintro (hflag | ⟨hflag, hsize⟩ | ⟨hflag, hsize, hnumber⟩)
    · exact .inl hflag
    · exact .inr ⟨_, hflag, .inl hsize⟩
    · exact .inr ⟨_, hflag, .inr ⟨_, hsize, hnumber⟩⟩

end Page

end LifecycleQuery

import LifecycleQuery.Value.Literal
import LifecycleQuery.Proofs.Grammar.Name
import LifecycleQuery.Proofs.Grammar.Numeral

/-!
# The grammar of literals

`Literal.Spells` is the grammar of values: an IRI, a boolean, a numeral, or a string with what may
follow it. The four kinds begin with different characters, so the order in which `scan` tries them
does not matter. A string ends at the first quote that no backslash stands before; between the
quotes `Content` pairs what is written with what it stands for, by the table of escapes `Escape`.
-/

namespace LifecycleQuery

open Text

namespace Literal

/-! ## Spellings -/

/-- The character written behind a backslash, and the one that the two stand for. -/
inductive Escape : Char → Char → Prop
  | newline : Escape 'n' '\n'
  | tab : Escape 't' '\t'
  | carriageReturn : Escape 'r' '\r'
  | itself {c : Char} : c ≠ 'n' → c ≠ 't' → c ≠ 'r' → Escape c c

/-- What stands between the quotes of `STRING`, and the text that it means. -/
inductive Content : List Char → List Char → Prop
  | nil : Content [] []
  | plain {c : Char} {x s : List Char} : c ≠ '"' → c ≠ '\\' → Content x s →
      Content (c :: x) (c :: s)
  | escaped {c d : Char} {x s : List Char} : Escape c d → Content x s →
      Content ('\\' :: c :: x) (d :: s)

/-- `LANGTAG` without its mark: `LETTER ('-'? (LETTER|DIGIT))*`. -/
def Tag (x : List Char) : Prop :=
  ∃ c cs, x = c :: cs ∧ c.isAlpha = true ∧ Chain '-' Char.isAlphanum cs

inductive SpellsSuffix : List Char → Suffix → Prop
  | none : SpellsSuffix [] .none
  | language {x : List Char} : Tag x → SpellsSuffix ('@' :: x) (.language (String.ofList x))
  | datatype {x : List Char} {n : Name} : Name.SpellsQualified x n →
      SpellsSuffix ('^' :: '^' :: x) (.datatype n)

/-- `VALUE` -/
inductive Spells : List Char → Literal → Prop
  | iri {x i : List Char} : SpellsIri x i → Spells x (iri (String.ofList i))
  | isTrue : Spells "true".toList (boolean true)
  | isFalse : Spells "false".toList (boolean false)
  | number {n : Numeral} : n.WellFormed → Spells n.text (number n)
  | string {x s y : List Char} {suffix : Suffix} : Content x s → SpellsSuffix y suffix →
      Spells ('"' :: x ++ '"' :: y) (string (String.ofList s) suffix)

/-! ## Strings -/

theorem escape_iff {c d : Char} : Escape c d ↔ unescape c = d := by
  constructor
  · intro h
    cases h with
    | newline => rfl
    | tab => rfl
    | carriageReturn => rfl
    | itself hn ht hr => simp only [unescape, hn, ht, hr, if_false]
  · rintro rfl
    unfold unescape
    split
    · next hn => exact hn ▸ .newline
    · next hn =>
      split
      · next ht => exact ht ▸ .tab
      · next ht =>
        split
        · next hr => exact hr ▸ .carriageReturn
        · next hr => exact .itself hn ht hr

theorem scanContent_sound {t s u : List Char} (h : scanContent t = some (s, u)) :
    ∃ x, Content x s ∧ t = x ++ '"' :: u := by
  fun_induction scanContent t generalizing s with
  | case1 => cases h
  | case2 rest =>
    cases h
    exact ⟨[], .nil, rfl⟩
  | case3 c rest ih =>
    obtain ⟨⟨cs, left⟩, hr, he⟩ := Option.map_eq_some_iff.1 h
    cases he
    obtain ⟨x, hx, rfl⟩ := ih hr
    exact ⟨'\\' :: c :: x, .escaped (escape_iff.2 rfl) hx, rfl⟩
  | case4 => cases h
  | case5 c rest hquote hesc hend ih =>
    obtain ⟨⟨cs, left⟩, hr, he⟩ := Option.map_eq_some_iff.1 h
    cases he
    obtain ⟨x, hx, rfl⟩ := ih hr
    -- a lone backslash cannot stand here, as a quote at least comes after it
    have hslash : c ≠ '\\' := by
      rintro rfl
      cases x with
      | nil => exact hesc '"' u rfl rfl
      | cons d x => exact hesc d (x ++ '"' :: u) rfl rfl
    exact ⟨c :: x, .plain (fun hc => hquote hc) hslash hx, rfl⟩

theorem scanContent_plain {c : Char} (rest : List Char) (hq : c ≠ '"') (hs : c ≠ '\\') :
    scanContent (c :: rest) = (scanContent rest).map fun (cs, left) => (c :: cs, left) := by
  rw [scanContent.eq_def]
  split <;> simp_all

theorem scanContent_complete {x s : List Char} (h : Content x s) (u : List Char) :
    scanContent (x ++ '"' :: u) = some (s, u) := by
  induction h with
  | nil => rfl
  | plain hq hs _ ih => rw [List.cons_append, scanContent_plain _ hq hs, ih]; rfl
  | escaped hc _ ih => simp [scanContent, ih, escape_iff.1 hc]

theorem scanLanguage_sound {t x u : List Char} (h : scanLanguage t = some (x, u)) :
    Tag x ∧ t = x ++ u := by
  cases t with
  | nil => simp [scanLanguage] at h
  | cons c rest =>
    simp only [scanLanguage] at h
    split at h
    · next hc =>
      cases h
      refine ⟨⟨c, _, rfl, hc, chain_sound rest⟩, ?_⟩
      rw [List.cons_append, chain_append]
    · cases h

theorem scanLanguage_of_head {x u : List Char} (h : Tag x)
    (hu : ∀ c ∈ u.head?, (!c.isAlphanum && c != '-') = true) :
    scanLanguage (x ++ u) = some (x, u) := by
  obtain ⟨c, cs, rfl, hc, hcs⟩ := h
  simp [scanLanguage, hc, chain_complete (by decide) hcs hu]

theorem scanLanguage_complete {x u : List Char} (h : Tag x) (hu : Ends u) :
    scanLanguage (x ++ u) = some (x, u) :=
  scanLanguage_of_head h (hu.head (by decide))

theorem scanSuffix_sound (t : List Char) :
    ∃ y, SpellsSuffix y (scanSuffix t).1 ∧ t = y ++ (scanSuffix t).2 := by
  rw [scanSuffix.eq_def]
  split
  · split
    · next rest tag left ht =>
      obtain ⟨htag, rfl⟩ := scanLanguage_sound ht
      exact ⟨_, .language htag, rfl⟩
    · exact ⟨[], .none, rfl⟩
  · split
    · next rest x left hx =>
      obtain ⟨hs, rfl⟩ := Name.scanQualified_sound hx
      exact ⟨_, .datatype hs, rfl⟩
    · exact ⟨[], .none, rfl⟩
  · exact ⟨[], .none, rfl⟩

theorem scanSuffix_complete {y u : List Char} {suffix : Suffix} (h : SpellsSuffix y suffix)
    (hu : Ends u) : scanSuffix (y ++ u) = (suffix, u) := by
  cases h with
  | none =>
    rw [List.nil_append, scanSuffix.eq_def]
    split
    · exact absurd (hu '@' rfl) (by decide)
    · exact absurd (hu '^' rfl) (by decide)
    · rfl
  | language ht => simp [scanSuffix, scanLanguage_complete ht hu]
  | datatype hx =>
    obtain ⟨hs, he⟩ := Name.scanQualified_complete hx hu
    simp [scanSuffix, hs, he]

/-! ## Literals -/

theorem scan_sound {t u : List Char} {l : Literal} (h : scan t = some (l, u)) :
    Front Spells t l u := by
  simp only [scan, Option.or_eq_some_iff] at h
  rcases h with (hi | ⟨-, hb⟩) | ⟨-, hn | ⟨-, hs⟩⟩
  · cases hr : scanIri t with
    | read i rest =>
      rw [hr] at hi
      cases hi
      obtain ⟨x, hx, rfl⟩ := scanIri_iff.1 hr
      exact ⟨x, .iri hx, rfl⟩
    | miss rest => rw [hr] at hi; cases hi
    | stop why rest => rw [hr] at hi; cases hi
  · simp only [scanBoolean, Option.or_eq_some_iff, Option.map_eq_some_iff] at hb
    rcases hb with ⟨rest, hw, he⟩ | ⟨-, rest, hw, he⟩
    · cases he
      exact ⟨_, .isTrue, word_sound hw⟩
    · cases he
      exact ⟨_, .isFalse, word_sound hw⟩
  · obtain ⟨⟨n, rest⟩, hr, he⟩ := Option.map_eq_some_iff.1 hn
    cases he
    obtain ⟨hwf, ht⟩ := Numeral.scan_sound hr
    exact ⟨_, .number hwf, ht⟩
  · cases t with
    | nil => simp [scanString] at hs
    | cons c rest =>
      by_cases hc : c = '"'
      · subst hc
        simp only [scanString, Option.map_eq_some_iff] at hs
        obtain ⟨⟨content, left⟩, hcontent, he⟩ := hs
        simp only [Prod.mk.injEq] at he
        obtain ⟨rfl, rfl⟩ := he
        obtain ⟨x, hx, rfl⟩ := scanContent_sound hcontent
        obtain ⟨y, hy, hleft⟩ := scanSuffix_sound left
        refine ⟨_, .string hx hy, ?_⟩
        rw [List.cons_append, List.cons_append, List.append_assoc, List.cons_append, ← hleft]
      · simp [scanString, hc] at hs

theorem scanIri_cons {c : Char} {t : List Char} (h : c ≠ '<') :
    scanIri (c :: t) = .miss (c :: t) := by
  simp [scanIri, h]

theorem scanBoolean_cons {c : Char} {t : List Char} (ht : c ≠ 't') (hf : c ≠ 'f') :
    scanBoolean (c :: t) = none := by
  have h1 : word "true".toList (c :: t) = none := word_eq_none (Ne.symm ht)
  have h2 : word "false".toList (c :: t) = none := word_eq_none (Ne.symm hf)
  simp only [scanBoolean, h1, h2]
  rfl

theorem scan_true (u : List Char) : scan ("true".toList ++ u) = some (boolean true, u) := by
  have hi : scanIri ("true".toList ++ u) = .miss ("true".toList ++ u) := scanIri_cons (by decide)
  rw [scan, hi, scanBoolean, word_complete]
  rfl

theorem scan_false (u : List Char) : scan ("false".toList ++ u) = some (boolean false, u) := by
  have hi : scanIri ("false".toList ++ u) = .miss ("false".toList ++ u) := scanIri_cons (by decide)
  have ht : word "true".toList ("false".toList ++ u) = none := word_eq_none (by decide)
  rw [scan, hi, scanBoolean, ht, word_complete]
  rfl

/-- In front of a numeral nothing but a number is read. -/
theorem scan_number {n m : Numeral} {u v : List Char} (h : n.WellFormed)
    (hr : Numeral.scan (n.text ++ u) = some (m, v)) : scan (n.text ++ u) = some (number m, v) := by
  obtain ⟨c, rest, he, hc⟩ := h.head u
  have hne : ∀ d ∈ ['<', 't', 'f'], c ≠ d := by
    rintro d hd rfl
    revert hc
    revert hd
    simp only [List.mem_cons, List.not_mem_nil, or_false]
    rintro (rfl | rfl | rfl) <;> decide
  rw [he] at hr ⊢
  rw [scan, scanIri_cons (hne '<' (by simp)), scanBoolean_cons (hne 't' (by simp))
    (hne 'f' (by simp)), hr]
  rfl

/-- Behind a quote nothing but a string is read, and then what may follow it. -/
theorem scan_string {x s : List Char} (h : Content x s) (u : List Char) :
    scan ('"' :: (x ++ '"' :: u)) =
      some (string (String.ofList s) (scanSuffix u).1, (scanSuffix u).2) := by
  have hc := scanContent_complete h u
  have hn : Numeral.scan ('"' :: (x ++ '"' :: u)) = none := by
    simp [Numeral.scan, Sign.scan, Numeral.scanDigits_eq_none (c := '"') (by decide)]
  rw [scan, scanIri_cons (by decide), scanBoolean_cons (by decide) (by decide), hn]
  simp [Outcome.map, Outcome.toOption, scanString, hc]

theorem scan_complete {t u : List Char} {l : Literal} (h : Front Spells t l u) (hu : Ends u) :
    scan t = some (l, u) := by
  obtain ⟨x, hx, rfl⟩ := h
  cases hx with
  | iri hi =>
    rw [scan, scanIri_iff.2 ⟨x, hi, rfl⟩]
    rfl
  | isTrue => exact scan_true u
  | isFalse => exact scan_false u
  | number hn => exact scan_number hn (Numeral.scan_complete hn hu)
  | string hcontent hsuffix =>
    simp only [List.cons_append, List.append_assoc]
    rw [scan_string hcontent, scanSuffix_complete hsuffix hu]

/-- The characters that literals begin with. -/
def isStart (c : Char) : Bool :=
  c == '<' || c == 't' || c == 'f' || c.isDigit || c == '+' || c == '-' || c == '"'

theorem isBlank_of_isStart {c : Char} (h : isStart c = true) : isBlank c = false := by
  simp only [isStart, Bool.or_eq_true, beq_iff_eq] at h
  rcases h with (((((rfl | rfl) | rfl) | h) | rfl) | rfl) | rfl
  case inl.inl.inl.inr =>
    exact Name.isBlank_of_isNameStart (by simp [isNameStart, Char.isAlphanum, h])
  all_goals decide

theorem spells_head {x : List Char} {l : Literal} (h : Spells x l) (u : List Char) :
    ∃ c rest, x ++ u = c :: rest ∧ isStart c = true := by
  cases h with
  | iri hi =>
    cases hi
    exact ⟨'<', _, rfl, by decide⟩
  | isTrue => exact ⟨'t', _, rfl, by decide⟩
  | isFalse => exact ⟨'f', _, rfl, by decide⟩
  | number hn =>
    obtain ⟨c, rest, he, hc⟩ := hn.head u
    refine ⟨c, rest, he, ?_⟩
    rcases hc with hc | rfl | rfl
    · simp [isStart, hc]
    · decide
    · decide
  | string hc hs => exact ⟨'"', _, rfl, by decide⟩

theorem spells_proper : Proper (Front Spells) where
  head := by
    rintro t l u ⟨x, hx, rfl⟩
    obtain ⟨c, rest, he, hc⟩ := spells_head hx u
    exact ⟨c, rest, he, isBlank_of_isStart hc⟩
  shorter := by
    rintro t l u ⟨x, hx, rfl⟩
    obtain ⟨c, rest, he, -⟩ := spells_head hx []
    rw [List.append_nil] at he
    rw [he, List.length_append, List.length_cons]
    omega

end Literal

/-! ## Literals on their own -/

/-- A text is read as the one literal that stands in it, with layout around it. -/
theorem Value.readLiteral?_eq_some_iff {t : List Char} {l : Literal} :
    readLiteral? t = some l ↔ Whole (Front Literal.Spells) t l := by
  refine ⟨fun h => ?_, ?_⟩
  · unfold readLiteral? at h
    split at h
    · next l' rest hscan =>
      split at h
      · next hrest =>
        cases h
        exact ⟨_, rest, layout_skipLayout t, Literal.scan_sound hscan, layout_nil_iff.2 hrest⟩
      · cases h
    · cases h
  · rintro ⟨u, v, hu, hl, hv⟩
    have hscan := Literal.scan_complete hl (closes_of_layout_nil hv).ends
    simp only [readLiteral?, hu.skip (Literal.spells_proper.solid hl), hscan,
      layout_nil_iff.1 hv, if_true]

/-! ## Placed literals -/

namespace Placed

/-- A literal together with the text that it begins. -/
def Derives : Derivation Placed := fun t p u => p.start = t ∧ Front Literal.Spells t p.literal u

theorem derives_proper : Proper Derives where
  head h := Literal.spells_proper.head h.2
  shorter h := Literal.spells_proper.shorter h.2

theorem scan_exact : Exact Ends scan Derives where
  sound := by
    intro t p u h
    obtain ⟨⟨l, v⟩, hl, he⟩ := Option.map_eq_some_iff.1 (Outcome.ofOption_eq_read.1 h)
    cases he
    exact ⟨rfl, Literal.scan_sound hl⟩
  complete := by
    rintro t ⟨l, _⟩ u ⟨rfl, h⟩ hu
    simp [scan, Literal.scan_complete h hu, Outcome.ofOption]

/-- `VALUE (',' VALUE)*` -/
abbrev DerivesList : Derivation (List Placed) := SepBy Comma Derives

theorem derivesList_proper : Proper DerivesList := SepBy.proper comma_separates derives_proper

theorem scanList_exact : Exact Closes scanList DerivesList :=
  sepBy1_exact comma_separates derives_proper (scan_exact.mono fun _ h => h.1)

end Placed

end LifecycleQuery

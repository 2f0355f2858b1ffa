import LifecycleQuery.Name
import LifecycleQuery.Proofs.Grammar

/-!
# The grammar of names

Labels, local parts and identifiers as the grammar spells them, and IRIs between angle brackets.
`Name.scan_sound` and `Name.scan_complete` say that the scanner takes one spelling of a name off the
front, the longest, which at the end of a token is the only one.
-/

namespace LifecycleQuery

open Text

/-! ## Chains -/

/-- `(MARK? CHAR)*`: characters of a class, with single marks before some of them. -/
inductive Chain (mark : Char) (ok : Char → Bool) : List Char → Prop
  | nil : Chain mark ok []
  | char {c : Char} {cs : List Char} : ok c = true → Chain mark ok cs → Chain mark ok (c :: cs)
  | marked {c : Char} {cs : List Char} : ok c = true → Chain mark ok cs →
      Chain mark ok (mark :: c :: cs)

section
variable {mark : Char} {ok : Char → Bool}

theorem Chain.ok_or_mark {x : List Char} (h : Chain mark ok x) :
    ∀ c ∈ x, ok c = true ∨ c = mark := by
  induction h with
  | nil => simp
  | char hc _ ih => simpa [hc] using ih
  | marked hc _ ih => simpa [hc] using ih

theorem chain_cons_ok {c : Char} (t : List Char) (hc : ok c = true) :
    chain mark ok (c :: t) = (c :: (chain mark ok t).1, (chain mark ok t).2) := by
  cases t <;> simp [chain, hc]

theorem chain_cons_stop {c : Char} (t : List Char) (hc : ok c = false) (hm : c ≠ mark) :
    chain mark ok (c :: t) = ([], c :: t) := by
  cases t <;> simp [chain, hc, hm]

theorem chain_cons_mark {c : Char} (t : List Char) (hm : ok mark = false) (hc : ok c = true) :
    chain mark ok (mark :: c :: t) = (mark :: c :: (chain mark ok t).1, (chain mark ok t).2) := by
  simp [chain, hm, hc]

theorem chain_sound (t : List Char) : Chain mark ok (chain mark ok t).1 := by
  fun_induction chain mark ok t with
  | case1 => exact .nil
  | case2 c rest hc taken left hr ih => exact .char hc (by simpa [hr] using ih)
  | case3 d rest hd taken left hr hm ih => exact .marked hd (by simpa [hr] using ih)
  | case4 => exact .nil
  | case5 => exact .nil
  | case6 => exact .nil

/-- The whole of a chain is taken when neither a character nor a mark follows. -/
theorem chain_complete (hm : ok mark = false) {x u : List Char} (h : Chain mark ok x)
    (hu : ∀ c ∈ u.head?, (!ok c && c != mark) = true) : chain mark ok (x ++ u) = (x, u) := by
  induction h with
  | nil =>
    cases u with
    | nil => rfl
    | cons c rest =>
      have hc := hu c rfl
      simp only [Bool.and_eq_true, Bool.not_eq_true', bne_iff_ne] at hc
      exact chain_cons_stop rest hc.1 hc.2
  | char hc _ ih => rw [List.cons_append, chain_cons_ok _ hc, ih]
  | marked hc _ ih => rw [List.cons_append, List.cons_append, chain_cons_mark _ hm hc, ih]

end

namespace Name

/-! ## Spellings -/

/-- A character of the class `start` and then `('.'? (LETTER|DIGIT|'_'|'-'))*`. -/
def Part (start : Char → Bool) (x : List Char) : Prop :=
  ∃ c cs, x = c :: cs ∧ start c = true ∧
    Chain '.' (fun d => d.isAlphanum || d == '_' || d == '-') cs

/-- `PN_PREFIX` -/
abbrev Label : List Char → Prop := Part Char.isAlpha

/-- `LOCAL_NAME` -/
abbrev Local : List Char → Prop := Part fun c => c.isAlphanum || c == '_'

/-- `PREFIXED_NAME` -/
inductive SpellsQualified : List Char → Name → Prop
  | intro {l p : List Char} : Label l → Local p →
      SpellsQualified (l ++ ':' :: p) (qualified (String.ofList l) (String.ofList p))

/-- `IDENTIFIER` -/
inductive Spells : List Char → Name → Prop
  | all : Spells ['*'] all
  | qualified {x : List Char} {n : Name} : SpellsQualified x n → Spells x n
  | bare {p : List Char} : Local p → Spells p (qualified "" (String.ofList p))

/-! ## Parts -/

/-- The grammar's classes are those of the scanner. -/
theorem part_iff {start : Char → Bool} {x : List Char} : Part start x ↔
    ∃ c cs, x = c :: cs ∧ start c = true ∧ Chain '.' isNameChar cs := Iff.rfl

theorem isNameChar_of_isNameStart {c : Char} (h : isNameStart c = true) : isNameChar c = true := by
  simp only [isNameStart, isNameChar, Bool.or_eq_true] at h ⊢
  exact .inl h

theorem isNameStart_of_isAlpha {c : Char} (h : c.isAlpha = true) : isNameStart c = true := by
  simp [isNameStart, Char.isAlphanum, h]

theorem Label.isLocal {x : List Char} (h : Label x) : Local x := by
  obtain ⟨c, cs, rfl, hc, hcs⟩ := h
  exact ⟨c, cs, rfl, isNameStart_of_isAlpha hc, hcs⟩

/-- The characters of a name without a label. -/
theorem Local.chars {x : List Char} (h : Local x) : ∀ c ∈ x, isNameChar c = true ∨ c = '.' := by
  obtain ⟨c, cs, rfl, hc, hcs⟩ := part_iff.1 h
  simpa [isNameChar_of_isNameStart hc] using hcs.ok_or_mark

theorem Local.ne_of_mem {x : List Char} (h : Local x) {d : Char} (hd : isNameChar d = false)
    (hdot : d ≠ '.') : ∀ c ∈ x, c ≠ d := by
  rintro c hc rfl
  rcases h.chars c hc with h | h
  · rw [hd] at h; cases h
  · exact hdot h

theorem scanPart_sound {start : Char → Bool} {t x u : List Char}
    (h : scanPart start t = some (x, u)) : Part start x ∧ t = x ++ u := by
  cases t with
  | nil => simp [scanPart] at h
  | cons c rest =>
    simp only [scanPart] at h
    split at h
    · next hc =>
      cases h
      refine ⟨⟨c, _, rfl, hc, chain_sound rest⟩, ?_⟩
      rw [List.cons_append, chain_append]
    · cases h

theorem scanPart_complete {start : Char → Bool} {x u : List Char} (h : Part start x)
    (hu : ∀ c ∈ u.head?, (!isNameChar c && c != '.') = true) :
    scanPart start (x ++ u) = some (x, u) := by
  obtain ⟨c, cs, rfl, hc, hcs⟩ := part_iff.1 h
  simp [scanPart, hc, chain_complete (by decide) hcs hu]

theorem scanLocal_complete {p u : List Char} (h : Local p) (hu : Ends u) :
    scanLocal (p ++ u) = some (p, u) :=
  scanPart_complete h (hu.head (by decide))

/-! ## Identifiers -/

theorem ofText_qualified {l p : List Char} (hl : Label l) :
    ofText (l ++ ':' :: p) = .qualified (String.ofList l) (String.ofList p) := by
  have hne : ∀ c ∈ l, (c != ':') = true := by
    intro c hc
    simpa using Local.ne_of_mem hl.isLocal (by decide) (by decide) c hc
  obtain ⟨c, cs, rfl, hc, -⟩ := hl
  have hstar : c :: cs ++ ':' :: p ≠ ['*'] := by simp
  rw [ofText, if_neg hstar, if_pos (by simp), List.takeWhile_append_of_pos hne,
    List.dropWhile_append_of_pos hne]
  simp

theorem ofText_bare {p : List Char} (hp : Local p) :
    ofText p = .qualified "" (String.ofList p) := by
  have hcolon : ':' ∉ p := fun h => Local.ne_of_mem hp (by decide) (by decide) ':' h rfl
  have hstar : p ≠ ['*'] := by
    rintro rfl
    exact Local.ne_of_mem hp (d := '*') (by decide) (by decide) '*' (by simp) rfl
  simp [ofText, hstar, hcolon]

theorem scanQualified_sound {t x u : List Char} (h : scanQualified t = some (x, u)) :
    SpellsQualified x (ofText x) ∧ t = x ++ u := by
  unfold scanQualified at h
  split at h
  · next label rest hl =>
    obtain ⟨⟨p, v⟩, hp, he⟩ := Option.map_eq_some_iff.1 h
    cases he
    obtain ⟨hlabel, rfl⟩ := scanPart_sound hl
    obtain ⟨hlocal, rfl⟩ := scanPart_sound hp
    rw [ofText_qualified hlabel]
    exact ⟨.intro hlabel hlocal, by simp⟩
  · cases h

theorem scanQualified_complete {x u : List Char} {n : Name} (h : SpellsQualified x n)
    (hu : Ends u) : scanQualified (x ++ u) = some (x, u) ∧ ofText x = n := by
  cases h with
  | @intro l p hl hp =>
    have h1 : scanLabel (l ++ ':' :: (p ++ u)) = some (l, ':' :: (p ++ u)) :=
      scanPart_complete hl (by simp; decide)
    refine ⟨?_, ofText_qualified hl⟩
    simp [scanQualified, h1, scanLocal_complete hp hu]

/-- A name without a label is not the beginning of one with a label. -/
theorem scanQualified_bare {p u : List Char} (hp : Local p) (hu : Ends u) :
    scanQualified (p ++ u) = none := by
  obtain ⟨c, cs, rfl, hc, hcs⟩ := hp
  by_cases ha : c.isAlpha = true
  · have hl : scanLabel (c :: cs ++ u) = some (c :: cs, u) :=
      scanPart_complete ⟨c, cs, rfl, ha, hcs⟩ (hu.head (by decide))
    simp only [scanQualified, hl]
    split
    · next label rest h =>
      cases h
      exact absurd (hu ':' rfl) (by decide)
    · rfl
  · simp [scanQualified, scanLabel, scanPart, ha]

theorem scan_sound {t u : List Char} {n : Name} (h : scan t = some (n, u)) :
    Front Spells t n u := by
  obtain ⟨⟨x, v⟩, hx, he⟩ := Option.map_eq_some_iff.1 h
  cases he
  simp only [scanText] at hx
  split at hx
  · cases hx
    exact ⟨['*'], .all, rfl⟩
  · rcases Option.or_eq_some_iff.1 hx with hq | ⟨-, hl⟩
    · obtain ⟨hs, rfl⟩ := scanQualified_sound hq
      exact ⟨x, .qualified hs, rfl⟩
    · obtain ⟨hs, rfl⟩ := scanPart_sound hl
      rw [ofText_bare hs]
      exact ⟨x, .bare hs, rfl⟩

theorem Local.cons_ne {x u rest : List Char} (h : Local x) : x ++ u ≠ '*' :: rest := by
  obtain ⟨c, cs, rfl, hc, -⟩ := h
  intro he
  cases he
  exact absurd hc (by decide)

theorem scan_complete {t u : List Char} {n : Name} (h : Front Spells t n u) (hu : Ends u) :
    scan t = some (n, u) := by
  obtain ⟨x, hx, rfl⟩ := h
  cases hx with
  | all => rfl
  | qualified hq =>
    obtain ⟨hs, he⟩ := scanQualified_complete hq hu
    cases hq with
    | @intro l p hl hp =>
      rw [List.append_assoc] at hs ⊢
      rw [scan, scanText.eq_2 _ fun _ => hl.isLocal.cons_ne, hs]
      simp [he]
  | bare hp =>
    rw [scan, scanText.eq_2 _ fun _ => hp.cons_ne, scanQualified_bare hp hu,
      scanLocal_complete hp hu]
    simp [ofText_bare hp]

theorem isBlank_of_isNameStart {c : Char} (h : isNameStart c = true) : isBlank c = false := by
  have hall : (whiteSpace.all fun n => !isNameStart (Char.ofNat n)) = true := by decide
  rw [isBlank, List.contains_eq_mem, decide_eq_false_iff_not]
  intro hc
  have hname := List.all_eq_true.1 hall c.toNat hc
  rw [Char.ofNat_toNat, h] at hname
  cases hname

theorem spells_proper : Proper (Front Spells) where
  head := by
    have hpart : ∀ {x u : List Char}, Local x →
        ∃ c rest, x ++ u = c :: rest ∧ isBlank c = false := by
      rintro _ u ⟨c, cs, rfl, hc, -⟩
      exact ⟨c, cs ++ u, rfl, isBlank_of_isNameStart hc⟩
    rintro t n u ⟨x, hx, rfl⟩
    cases hx with
    | all => exact ⟨'*', u, rfl, by decide⟩
    | qualified hq =>
      cases hq with
      | intro hl hp =>
        rw [List.append_assoc]
        exact hpart hl.isLocal
    | bare hp => exact hpart hp
  shorter := by
    rintro t n u ⟨x, hx, rfl⟩
    have hne : x ≠ [] := by
      cases hx with
      | all => simp
      | qualified hq => cases hq; simp
      | bare hp => obtain ⟨c, cs, rfl, -⟩ := hp; simp
    have hpos := List.length_pos_iff.2 hne
    rw [List.length_append]
    omega

end Name

/-! ## IRIs -/

/-- What `IRI_REF` holds between its brackets. -/
def IsIri (x : List Char) : Prop :=
  x ≠ [] ∧ ∀ c ∈ x, c ∉ ['<', '>', '"', '{', '}', '|', '\x60', '\\']

theorem isIri_iff {x : List Char} : IsIri x ↔ x ≠ [] ∧ ∀ c ∈ x, isIriChar c = true := by
  simp [IsIri, isIriChar]

theorem isIri_of_all {x : List Char} (hne : x ≠ []) (h : x.all isIriChar = true) : IsIri x :=
  isIri_iff.2 ⟨hne, List.all_eq_true.1 h⟩

/-- `IRI_REF` -/
inductive SpellsIri : List Char → List Char → Prop
  | intro {x : List Char} : IsIri x → SpellsIri ('<' :: x ++ ['>']) x

theorem scanIri_iff {t x u : List Char} : scanIri t = .read x u ↔ Front SpellsIri t x u := by
  refine ⟨fun h => ?_, ?_⟩
  · cases t with
    | nil => simp [scanIri] at h
    | cons c rest =>
      by_cases hc : c = '<'
      · subst hc
        have hsplit : rest.takeWhile isIriChar ++ rest.dropWhile isIriChar = rest :=
          List.takeWhile_append_dropWhile
        have hall : ∀ c ∈ rest.takeWhile isIriChar, isIriChar c = true :=
          List.all_eq_true.1 List.all_takeWhile
        simp only [scanIri] at h
        split at h
        · cases h
        · next left hleft hne =>
          cases h
          rw [hleft] at hsplit
          exact ⟨_, .intro (isIri_iff.2 ⟨hne, hall⟩), by simp [hsplit]⟩
        · cases h
      · simp [scanIri, hc] at h
  · rintro ⟨_, ⟨hx⟩, rfl⟩
    obtain ⟨-, hall⟩ := isIri_iff.1 hx
    have hne := hx.1
    have ht : (x ++ '>' :: u).takeWhile isIriChar = x := by
      rw [List.takeWhile_append_of_pos hall]
      simp [isIriChar]
    have hd : (x ++ '>' :: u).dropWhile isIriChar = '>' :: u := by
      rw [List.dropWhile_append_of_pos hall]
      simp [isIriChar]
    simp [scanIri, ht, hd]

theorem spellsIri_solid {t x u : List Char} (h : Front SpellsIri t x u) : Solid t := by
  obtain ⟨_, ⟨-⟩, rfl⟩ := h
  rintro _ ⟨⟩
  decide

end LifecycleQuery

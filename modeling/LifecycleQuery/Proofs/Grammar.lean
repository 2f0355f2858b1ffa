import LifecycleQuery.Clause

/-!
# Grammars

A derivation `D text a rest` says that the front of `text` can be derived as `a`, with `rest` behind
it. Derivations do not choose: a text may have several, with different rests. A scanner is `Exact`
for `D` when it reads only what `D` derives, and reads all of it where what follows leaves no other
choice: at a boundary for a token (`Ends`), at a closing bracket or the end for a list (`Closes`).

`SepBy` is the grammar of lists with separators; `sepBy1_exact` and `readList_ok_iff` carry
exactness from the items to the list and on to a whole clause.
-/

namespace LifecycleQuery

open Text

abbrev Derivation (α : Type) := List Char → α → List Char → Prop

/-- What a relation of spellings derives: one of them stands in front. -/
def Front {α : Type} (R : List Char → α → Prop) : Derivation α := fun text a rest =>
  ∃ spelling, R spelling a ∧ text = spelling ++ rest

/-! ## Layout -/

/-- Space, tab, carriage return and line feed. -/
def IsLayout (c : Char) : Prop := c ∈ [' ', '\t', '\r', '\n']

instance : DecidablePred IsLayout := fun c =>
  inferInstanceAs (Decidable (c ∈ [' ', '\t', '\r', '\n']))

/-- Layout, as much as there may be, and then `rest`. -/
def Layout (text rest : List Char) : Prop :=
  ∃ gap, (∀ c ∈ gap, IsLayout c) ∧ text = gap ++ rest

/-- The same with at least one character of it. -/
def Layout1 (text rest : List Char) : Prop :=
  ∃ c gap, IsLayout c ∧ (∀ d ∈ gap, IsLayout d) ∧ text = c :: gap ++ rest

/-- The text does not begin with layout. -/
def Solid (text : List Char) : Prop := ∀ c ∈ text.head?, isLayout c = false

theorem isLayout_iff {c : Char} : isLayout c = true ↔ IsLayout c := by
  simp [isLayout, IsLayout, or_assoc]

theorem isLayout_of_all {gap : List Char} (h : gap.all isLayout = true) : ∀ c ∈ gap, IsLayout c :=
  fun c hc => isLayout_iff.1 (List.all_eq_true.1 h c hc)

theorem IsLayout.isBlank {c : Char} (h : IsLayout c) : isBlank c = true :=
  isBlank_of_isLayout (isLayout_iff.2 h)

theorem Layout1.layout {t u : List Char} (h : Layout1 t u) : Layout t u := by
  obtain ⟨c, gap, hc, hgap, rfl⟩ := h
  exact ⟨c :: gap, by simpa [hc] using hgap, rfl⟩

theorem Layout.length_le {t u : List Char} (h : Layout t u) : u.length ≤ t.length := by
  obtain ⟨gap, -, rfl⟩ := h
  simp

theorem Layout1.length_lt {t u : List Char} (h : Layout1 t u) : u.length < t.length := by
  obtain ⟨c, gap, -, -, rfl⟩ := h
  rw [List.length_append, List.length_cons]
  omega

theorem skipLayout_of_solid {t : List Char} (h : Solid t) : skipLayout t = t := by
  cases t with
  | nil => rfl
  | cons c rest => simp [skipLayout, h c rfl]

theorem layout_skipLayout (t : List Char) : Layout t (skipLayout t) :=
  ⟨t.takeWhile isLayout, isLayout_of_all List.all_takeWhile,
    List.takeWhile_append_dropWhile.symm⟩

theorem Layout.skipLayout_eq {t u : List Char} (h : Layout t u) : skipLayout t = skipLayout u := by
  obtain ⟨gap, hgap, rfl⟩ := h
  induction gap with
  | nil => rfl
  | cons c gap ih =>
    rw [← ih fun d hd => hgap d (List.mem_cons_of_mem _ hd)]
    simp [skipLayout, isLayout_iff.2 (hgap c List.mem_cons_self)]

/-- A scanner that skips layout finds what stands behind it. -/
theorem Layout.skip {t u : List Char} (h : Layout t u) (hu : Solid u) : skipLayout t = u := by
  rw [h.skipLayout_eq, skipLayout_of_solid hu]

theorem Layout.head_ne {t rest : List Char} {c d : Char} (h : Layout t (c :: rest))
    (hc : isLayout c = false) (hd : c ≠ d) : ∀ e ∈ (skipLayout t).head?, e ≠ d := by
  rw [h.skip (by simpa [Solid] using hc)]
  rintro _ ⟨⟩
  exact hd

theorem layout_nil_iff {t : List Char} : Layout t [] ↔ skipLayout t = [] := by
  refine ⟨fun h => ?_, ?_⟩
  · exact h.skip (by simp [Solid])
  · intro h
    rw [← h]
    exact layout_skipLayout t

theorem layout1_sound {t u : List Char} (h : layout1 t = some u) : Layout1 t u := by
  cases t with
  | nil => simp [layout1] at h
  | cons c rest =>
    simp only [layout1] at h
    split at h
    · next hc =>
      cases h
      obtain ⟨gap, hgap, he⟩ := layout_skipLayout rest
      exact ⟨c, gap, isLayout_iff.1 hc, hgap, by rw [List.cons_append, ← he]⟩
    · cases h

theorem layout1_complete {t u : List Char} (h : Layout1 t u) (hu : Solid u) :
    layout1 t = some u := by
  obtain ⟨c, gap, hc, hgap, rfl⟩ := h
  have hl : Layout (gap ++ u) u := ⟨gap, hgap, rfl⟩
  simp [layout1, isLayout_iff.2 hc, hl.skip hu]

theorem Layout1.skip {t u : List Char} (h : Layout1 t u) (hu : Solid u) : skipLayout t = u :=
  h.layout.skip hu

theorem layout1_eq_skipLayout {t u : List Char} (h : layout1 t = some u) : skipLayout t = u := by
  cases t with
  | nil => cases h
  | cons c rest =>
    simp only [layout1] at h
    split at h
    · next hc =>
      cases h
      simp [skipLayout, hc]
    · cases h

theorem word_sound {w t u : List Char} (h : word w t = some u) : t = w ++ u := by
  unfold word at h
  split at h
  · next hp =>
    cases h
    obtain ⟨v, rfl⟩ := List.isPrefixOf_iff_prefix.1 hp
    simp
  · cases h

theorem word_complete (w u : List Char) : word w (w ++ u) = some u := by
  have hp : w.isPrefixOf (w ++ u) = true := List.isPrefixOf_iff_prefix.2 ⟨u, rfl⟩
  simp [word, hp]

theorem word_eq_none {c d : Char} {w t : List Char} (h : c ≠ d) :
    word (c :: w) (d :: t) = none := by
  simp [word, List.isPrefixOf, h]

/-! ## Where a token ends -/

/-- The characters that no name, operator or literal goes on with. -/
def boundaries : List Char :=
  [' ', '\t', '\r', '\n', '{', '}', '[', ']', ',', '!', '<', '>', '=']

/-- A token may end before this text. -/
def Ends (text : List Char) : Prop := ∀ c ∈ text.head?, c ∈ boundaries

/-- An item of a list may end before this text: no brace opens there. -/
def Follows (text : List Char) : Prop :=
  Ends text ∧ ∀ c ∈ (skipLayout text).head?, c ≠ '{'

/-- A list may end before this text: a closing bracket is next, or nothing. -/
def Closes (text : List Char) : Prop := ∀ c ∈ (skipLayout text).head?, c = '}' ∨ c = ']'

theorem IsLayout.mem_boundaries {c : Char} (h : IsLayout c) : c ∈ boundaries :=
  List.mem_append_left ['{', '}', '[', ']', ',', '!', '<', '>', '='] h

theorem ends_cons {c : Char} {rest : List Char} : Ends (c :: rest) ↔ c ∈ boundaries := by
  simp [Ends]

/-- What holds of every boundary holds of the character behind a token. -/
theorem Ends.head {p : Char → Bool} {t : List Char} (h : Ends t)
    (hp : boundaries.all p = true) : ∀ c ∈ t.head?, p c = true :=
  fun c hc => List.all_eq_true.1 hp c (h c hc)

theorem Layout1.ends {t u : List Char} (h : Layout1 t u) : Ends t := by
  obtain ⟨c, gap, hc, -, rfl⟩ := h
  exact ends_cons.2 hc.mem_boundaries

theorem Layout.ends {t u : List Char} (h : Layout t u) (hu : Ends u) : Ends t := by
  obtain ⟨gap, hgap, rfl⟩ := h
  cases gap with
  | nil => exact hu
  | cons c gap => exact ends_cons.2 (hgap c List.mem_cons_self).mem_boundaries

theorem closes_of_layout {t u : List Char} {c : Char} (h : Layout t (c :: u))
    (hc : c = '}' ∨ c = ']') : Closes t := by
  have hs : Solid (c :: u) := by rcases hc with rfl | rfl <;> simp [Solid] <;> decide
  intro d hd
  rw [h.skip hs] at hd
  cases hd
  exact hc

theorem closes_of_layout_nil {t : List Char} (h : Layout t []) : Closes t := by
  intro d hd
  rw [layout_nil_iff.1 h] at hd
  cases hd

theorem Closes.ends {t : List Char} (h : Closes t) : Ends t := by
  intro c hc
  cases t with
  | nil => cases hc
  | cons d rest =>
    cases hc
    by_cases hd : isLayout c = true
    · exact (isLayout_iff.1 hd).mem_boundaries
    · have hs : Solid (c :: rest) := by simpa [Solid] using hd
      rcases h c (by rw [skipLayout_of_solid hs]; rfl) with rfl | rfl <;> decide

theorem Closes.follows {t : List Char} (h : Closes t) : Follows t := by
  refine ⟨h.ends, fun c hc => ?_⟩
  rcases h c hc with rfl | rfl <;> decide

/-! ## Exact scanners -/

/-- What is derived is not empty, and does not begin with a blank. -/
structure Proper {α : Type} (D : Derivation α) : Prop where
  head : ∀ {t a u}, D t a u → ∃ c rest, t = c :: rest ∧ isBlank c = false
  shorter : ∀ {t a u}, D t a u → u.length < t.length

theorem Proper.solid {α : Type} {D : Derivation α} (hD : Proper D) {t u : List Char} {a : α}
    (h : D t a u) : Solid t := by
  obtain ⟨c, rest, rfl, hc⟩ := hD.head h
  intro d hd
  cases hd
  cases hl : isLayout c with
  | false => rfl
  | true => rw [isBlank_of_isLayout hl] at hc; cases hc

/-- The scanner reads what `D` derives, all of it where `Follow` holds of what is left. -/
structure Exact {α : Type} (Follow : List Char → Prop) (scan : Scanner α) (D : Derivation α) :
    Prop where
  sound : ∀ {t a u}, scan t = .read a u → D t a u
  complete : ∀ {t a u}, D t a u → Follow u → scan t = .read a u

theorem Exact.mono {α : Type} {F G : List Char → Prop} {scan : Scanner α} {D : Derivation α}
    (h : Exact G scan D) (hFG : ∀ t, F t → G t) : Exact F scan D where
  sound := h.sound
  complete hd hu := h.complete hd (hFG _ hu)

/-- The same for a separator, which may stand only after the end of an item. -/
structure Separates (sep : List Char → Option (List Char)) (S : List Char → List Char → Prop) :
    Prop where
  sound : ∀ {t u}, sep t = some u → S t u
  complete : ∀ {t u}, S t u → Solid u → sep t = some u
  follows : ∀ {t u}, S t u → Follows t
  shorter : ∀ {t u}, S t u → u.length < t.length
  closed : ∀ {t}, Closes t → sep t = none

/-! ## Separators -/

/-- A comma, with layout on either side. -/
def Comma (text rest : List Char) : Prop := ∃ t, Layout text (',' :: t) ∧ Layout t rest

theorem comma_separates : Separates comma Comma where
  sound := by
    intro t u h
    unfold comma at h
    split at h
    · next rest he =>
      cases h
      exact ⟨rest, he ▸ layout_skipLayout t, layout_skipLayout rest⟩
    · cases h
  complete := by
    rintro t u ⟨v, ht, hv⟩ hu
    simp only [comma, ht.skip (by simp [Solid]; decide), hv.skip hu]
  follows := by
    rintro t u ⟨v, ht, -⟩
    exact ⟨ht.ends (ends_cons.2 (by decide)), ht.head_ne (by decide) (by decide)⟩
  shorter := by
    rintro t u ⟨v, ht, hv⟩
    have h1 := ht.length_le
    have h2 := hv.length_le
    simp at h1
    omega
  closed := by
    intro t h
    simp only [comma]
    split
    · next rest he => exact absurd (h ',' (by rw [he]; rfl)) (by decide)
    · rfl

/-! ## Lists -/

/-- Items with separators between them. -/
inductive SepBy {α : Type} (S : List Char → List Char → Prop) (D : Derivation α) :
    Derivation (List α)
  | one {t u : List Char} {a : α} : D t a u → SepBy S D t [a] u
  | more {t u v w : List Char} {a : α} {as : List α} : D t a u → S u v → SepBy S D v as w →
      SepBy S D t (a :: as) w

section
variable {α : Type} {S : List Char → List Char → Prop} {D : Derivation α}
  {sep : List Char → Option (List Char)} {item : Scanner α}

theorem SepBy.ne_nil {t u : List Char} {as : List α} (h : SepBy S D t as u) : as ≠ [] := by
  cases h <;> simp

theorem SepBy.mono {E : Derivation α} {t u : List Char} {as : List α} (h : SepBy S D t as u)
    (hDE : ∀ t a u, a ∈ as → D t a u → E t a u) : SepBy S E t as u := by
  induction h with
  | one hD => exact .one (hDE _ _ _ (by simp) hD)
  | more hD hS _ ih =>
    exact .more (hDE _ _ _ (by simp) hD) hS
      (ih fun t a u ha => hDE t a u (List.mem_cons_of_mem _ ha))

/-- Two lists with a separator between them are a list. -/
theorem SepBy.append {t u v w : List Char} {as bs : List α} (h : SepBy S D t as u) (hs : S u v)
    (h' : SepBy S D v bs w) : SepBy S D t (as ++ bs) w := by
  induction h with
  | one hD => exact .more hD hs h'
  | more hD hS _ ih => exact .more hD hS (ih hs)

/-- Every item is derived somewhere in the text. -/
theorem SepBy.exists_of_mem {t u : List Char} {as : List α} (h : SepBy S D t as u) {a : α}
    (ha : a ∈ as) : ∃ v w, D v a w := by
  induction h with
  | one hD =>
    rw [List.mem_singleton] at ha
    exact ⟨_, _, ha ▸ hD⟩
  | more hD _ _ ih =>
    rcases List.mem_cons.1 ha with rfl | ha
    · exact ⟨_, _, hD⟩
    · exact ih ha

theorem sepBy_and_iff {P : α → Prop} {t u : List Char} {as : List α} :
    SepBy S (fun t a u => D t a u ∧ P a) t as u ↔ SepBy S D t as u ∧ ∀ a ∈ as, P a := by
  refine ⟨fun h => ?_, ?_⟩
  · refine ⟨h.mono fun _ _ _ _ h => h.1, ?_⟩
    intro a ha
    obtain ⟨v, w, -, hP⟩ := h.exists_of_mem ha
    exact hP
  · rintro ⟨h, hP⟩
    exact h.mono fun t a u ha h => ⟨h, hP a ha⟩

theorem SepBy.shorter (hS : ∀ {t u}, S t u → u.length < t.length)
    (hD : ∀ {t a u}, D t a u → u.length < t.length) {t u : List Char} {as : List α}
    (h : SepBy S D t as u) : u.length < t.length := by
  induction h with
  | one h => exact hD h
  | more h hs _ ih => exact Nat.lt_trans ih (Nat.lt_trans (hS hs) (hD h))

theorem SepBy.proper (hS : Separates sep S) (hD : Proper D) : Proper (SepBy S D) where
  head := by
    intro t as u h
    cases h with
    | one h => exact hD.head h
    | more h _ _ => exact hD.head h
  shorter h := h.shorter hS.shorter hD.shorter

/-- Behind a separator the list goes on as a list of its own. -/
theorem moreItems_eq_sepBy1 {t v w : List Char} {a : α} (hs : sep t = some v)
    (hi : item v = .read a w) (hl : w.length < t.length) :
    moreItems sep item t = sepBy1 sep item v := by
  rw [moreItems]
  simp only [hs, hi, hl, if_true, sepBy1, Outcome.andThen]

/-- A failure of the list behind a separator is a failure of the list before it. -/
theorem moreItems_eq_stop {t v rest : List Char} {why : Stop}
    (hs : sep t = some v) (hlt : v.length < t.length)
    (hshort : ∀ {t a u}, item t = .read a u → u.length < t.length)
    (h : sepBy1 sep item v = .stop why rest) : moreItems sep item t = .stop why rest := by
  cases hi : item v with
  | read a w =>
    have hw := hshort hi
    rw [moreItems_eq_sepBy1 hs hi (by omega)]
    exact h
  | miss w => simp [sepBy1, hi, Outcome.andThen] at h
  | stop why' w =>
    rw [moreItems]
    simp only [hs, hi]
    simpa [sepBy1, hi, Outcome.andThen] using h

theorem moreItems_eq_nil {t : List Char} (hs : sep t = none) :
    moreItems sep item t = .read [] t := by
  rw [moreItems]
  simp only [hs]

theorem Outcome.map_eq_read {β : Type} {f : α → β} {o : Outcome α} {b : β} {u : List Char} :
    o.map f = .read b u ↔ ∃ a, o = .read a u ∧ f a = b := by
  cases o with
  | read a rest =>
    simp only [Outcome.map, Outcome.read.injEq]
    constructor
    · rintro ⟨rfl, rfl⟩
      exact ⟨a, ⟨rfl, rfl⟩, rfl⟩
    · rintro ⟨_, ⟨rfl, rfl⟩, rfl⟩
      exact ⟨rfl, rfl⟩
  | miss rest => simp [Outcome.map]
  | stop why rest => simp [Outcome.map]

theorem Outcome.andThen_eq_read {β : Type} {o : Outcome α} {next : α → Scanner β} {b : β}
    {u : List Char} : o.andThen next = .read b u ↔ ∃ a v, o = .read a v ∧ next a v = .read b u := by
  cases o with
  | read a rest =>
    simp only [Outcome.andThen, Outcome.read.injEq]
    refine ⟨fun h => ?_, ?_⟩
    · exact ⟨a, rest, ⟨rfl, rfl⟩, h⟩
    · rintro ⟨_, _, ⟨rfl, rfl⟩, h⟩
      exact h
  | miss rest => simp [Outcome.andThen]
  | stop why rest => simp [Outcome.andThen]

theorem Outcome.commit_eq_read {o : Outcome α} {a : α} {u : List Char} :
    o.commit = .read a u ↔ o = .read a u := by
  cases o <;> simp [Outcome.commit]

theorem Outcome.ofOption_eq_read {o : Option (α × List Char)} {a : α} {t u : List Char} :
    Outcome.ofOption t o = .read a u ↔ o = some (a, u) := by
  cases o <;> simp [Outcome.ofOption, Prod.ext_iff]

theorem Except.bind_eq_ok_iff {ε β γ : Type} {x : Except ε β} {f : β → Except ε γ} {b : γ} :
    x.bind f = .ok b ↔ ∃ a, x = .ok a ∧ f a = .ok b := by
  cases x <;> simp [Except.bind]

theorem Except.bind_eq_error_iff {ε β γ : Type} {x : Except ε β} {f : β → Except ε γ} {e : ε} :
    x.bind f = .error e ↔ x = .error e ∨ ∃ a, x = .ok a ∧ f a = .error e := by
  cases x <;> simp [Except.bind]

theorem Except.map_eq_ok_iff {ε β γ : Type} {x : Except ε β} {f : β → γ} {b : γ} :
    x.map f = .ok b ↔ ∃ a, x = .ok a ∧ f a = b := by
  cases x <;> simp [Except.map]

theorem Except.map_eq_error_iff {ε β γ : Type} {x : Except ε β} {f : β → γ} {e : ε} :
    x.map f = .error e ↔ x = .error e := by
  cases x <;> simp [Except.map]

theorem Except.mapError_eq_ok_iff {ε ε' α : Type} {f : ε → ε'} {x : Except ε α} {a : α} :
    x.mapError f = .ok a ↔ x = .ok a := by
  constructor
  · intro h
    cases x with
    | error e => cases h
    | ok b =>
      cases h
      rfl
  · rintro rfl
    rfl

theorem Except.mapError_eq_error_iff {ε ε' α : Type} {f : ε → ε'} {x : Except ε α} {e : ε'} :
    x.mapError f = .error e ↔ ∃ e', x = .error e' ∧ f e' = e := by
  cases x with
  | error e' =>
    show Except.error (f e') = .error e ↔ _
    simp
  | ok a =>
    show Except.ok a = .error e ↔ _
    simp

theorem Except.map_bind {ε β γ δ : Type} (x : Except ε β) (f : β → Except ε γ) (g : γ → δ) :
    (x.bind f).map g = x.bind fun b => (f b).map g := by
  cases x <;> rfl

/-- What is read after the first item: nothing, or a separator and a list. -/
theorem moreItems_sound (hsep : ∀ {t u}, sep t = some u → S t u)
    (hitem : ∀ {t a u}, item t = .read a u → D t a u) {t u : List Char} {as : List α}
    (h : moreItems sep item t = .read as u) :
    (as = [] ∧ u = t) ∨ ∃ v, S t v ∧ SepBy S D v as u := by
  fun_induction moreItems sep item t generalizing as with
  | case1 t hs => simp_all
  | case2 t v hs a w hi hl ih =>
    obtain ⟨bs, hm, rfl⟩ := Outcome.map_eq_read.1 h
    refine .inr ⟨v, hsep hs, ?_⟩
    rcases ih hm with ⟨rfl, rfl⟩ | ⟨x, hx, hl⟩
    · exact .one (hitem hi)
    · exact .more (hitem hi) hx hl
  | case3 t v hs a w hi hl => simp_all
  | case4 t v hs w hi => simp_all
  | case5 t v hs why w hi => cases h

/-- A list reads exactly what its grammar derives, up to a closing bracket or the end. -/
theorem sepBy1_exact (hS : Separates sep S) (hD : Proper D) (hi : Exact Follows item D) :
    Exact Closes (sepBy1 sep item) (SepBy S D) where
  sound := by
    intro t as u h
    obtain ⟨a, v, hv, h⟩ := Outcome.andThen_eq_read.1 h
    obtain ⟨bs, hm, rfl⟩ := Outcome.map_eq_read.1 h
    rcases moreItems_sound hS.sound hi.sound hm with ⟨rfl, rfl⟩ | ⟨w, hw, hl⟩
    · exact .one (hi.sound hv)
    · exact .more (hi.sound hv) hw hl
  complete := by
    intro t as u h hu
    induction h with
    | one h =>
      have hr := hi.complete h hu.follows
      simp only [sepBy1, hr, Outcome.andThen, moreItems_eq_nil (hS.closed hu), Outcome.map]
    | @more t u v w a as h hs hl ih =>
      have hr := hi.complete h (hS.follows hs)
      have hsol := (SepBy.proper hS hD).solid hl
      have hm : moreItems sep item u = sepBy1 sep item v := by
        obtain ⟨b, x, hb, -⟩ := Outcome.andThen_eq_read.1 (ih hu)
        have h1 := hD.shorter (hi.sound hb)
        have h2 := hS.shorter hs
        exact moreItems_eq_sepBy1 (hS.complete hs hsol) hb (by omega)
      rw [sepBy1, hr, Outcome.andThen, hm, ih hu]
      rfl

/-! ## Brackets and whole clauses -/

/-- What `D` derives, with layout around it, up to the closing bracket. -/
def Enclosed (D : Derivation α) (close : Char) : Derivation α := fun text a rest =>
  ∃ t u, Layout text t ∧ D t a u ∧ Layout u (close :: rest)

theorem expect_eq_read {c : Char} {t u : List Char} {x : Unit} :
    expect c t = .read x u ↔ t = c :: u := by
  cases t with
  | nil => simp [expect]
  | cons d rest =>
    by_cases h : d = c <;> simp [expect, h]

theorem enclosed_exact {body : Scanner α} {close : Char} (hc : close = '}' ∨ close = ']')
    (hD : Proper D) (hb : Exact Closes body D) :
    Exact (fun _ => True) (enclosed body close) (Enclosed D close) where
  sound := by
    intro t a u h
    obtain ⟨b, v, hv, h⟩ := Outcome.andThen_eq_read.1 (Outcome.commit_eq_read.1 h)
    obtain ⟨x, hx, rfl⟩ := Outcome.map_eq_read.1 h
    refine ⟨_, v, layout_skipLayout t, hb.sound hv, ?_⟩
    rw [← expect_eq_read.1 hx]
    exact layout_skipLayout v
  complete := by
    rintro t a u ⟨v, w, ht, hv, hw⟩ -
    have hs : Solid (close :: u) := by rcases hc with rfl | rfl <;> simp [Solid] <;> decide
    have hr := hb.complete hv (closes_of_layout hw hc)
    rw [enclosed, ht.skip (hD.solid hv), hr]
    simp [Outcome.andThen, hw.skip hs, expect, Outcome.map, Outcome.commit]

/-- What `D` derives, with layout around it, and nothing else. -/
def Whole (D : Derivation α) (text : List Char) (a : α) : Prop :=
  ∃ t u, Layout text t ∧ D t a u ∧ Layout u []

theorem whole_of_spells {R : List Char → α → Prop} {x : List Char} {a : α} (h : R x a) :
    Whole (Front R) x a :=
  ⟨x, [], ⟨[], by simp, rfl⟩, ⟨x, h, (List.append_nil x).symm⟩, [], by simp, rfl⟩

theorem readWhole_ok_iff {scan : Scanner α} (hD : Proper D) (hs : Exact Closes scan D)
    {clause : Clause} {text : List Char} {a : α} :
    readWhole clause scan text = .ok a ↔ Whole D text a := by
  refine ⟨fun h => ?_, ?_⟩
  · unfold readWhole at h
    split at h
    · next b rest hr =>
      split at h
      · next he =>
        cases h
        exact ⟨_, rest, layout_skipLayout text, hs.sound hr, layout_nil_iff.2 he⟩
      · cases h
    · cases h
    · cases h
  · rintro ⟨t, u, ht, hd, hu⟩
    have hr := hs.complete hd (closes_of_layout_nil hu)
    simp [readWhole, ht.skip (hD.solid hd), hr, layout_nil_iff.1 hu]

theorem Whole.not_blank {text : List Char} {a : α} (hD : Proper D) (h : Whole D text a) :
    isBlankText text = false := by
  obtain ⟨t, u, ⟨gap, -, rfl⟩, hd, -⟩ := h
  obtain ⟨c, rest, rfl, hc⟩ := hD.head hd
  simp [isBlankText, hc]

/-- A clause is accepted when it is blank, or derived with layout around it. -/
theorem readList_ok_iff {scan : Scanner (List α)} {D : Derivation (List α)} (hD : Proper D)
    (hs : Exact Closes scan D) {clause : Clause} {text : List Char} {as : List α} :
    readList clause scan text = .ok as ↔ isBlankText text = true ∧ as = [] ∨ Whole D text as := by
  unfold readList
  split
  · next hb =>
    refine ⟨fun h => ?_, ?_⟩
    · cases h
      exact .inl ⟨hb, rfl⟩
    · rintro (⟨-, rfl⟩ | h)
      · rfl
      · rw [h.not_blank hD] at hb
        cases hb
  · next hb =>
    rw [readWhole_ok_iff hD hs]
    simp [hb]

/-- A clause of which this was read is refused before `rest`. -/
inductive Outcome.FailsAt : Outcome α → Stop → List Char → Prop
  /-- Something stands behind what was read. -/
  | behind {a : α} {u : List Char} : FailsAt (read a u) .unexpected (skipLayout u)
  | miss {rest : List Char} : FailsAt (miss rest) .unexpected rest
  | stop {why : Stop} {rest : List Char} : FailsAt (stop why rest) why rest

theorem readList_eq_error {scan : Scanner (List α)} {clause : Clause} {text : List Char}
    {e : QueryError} (h : readList clause scan text = .error e) : ∃ why rest,
      (scan (skipLayout text)).FailsAt why rest ∧
        e = .clause clause (offset text rest) (.ofStop why rest) := by
  unfold readList at h
  split at h
  · cases h
  · unfold readWhole at h
    split at h
    · next as u hr =>
      split at h
      · cases h
      · cases h
        exact ⟨.unexpected, skipLayout u, by rw [hr]; exact .behind, rfl⟩
    · next rest hr =>
      cases h
      exact ⟨.unexpected, rest, by rw [hr]; exact .miss, rfl⟩
    · next why rest hr =>
      cases h
      exact ⟨why, rest, by rw [hr]; exact .stop, rfl⟩

end

end LifecycleQuery

import LifecycleQuery.Proofs.Grammar.Ending
import Mathlib.Data.List.Forall2

/-!
# Lists cut at commas

A list is derived from the left: an item, as much of the text as belongs to it, then a comma. A text
can also be cut at some of its commas, any of them, those inside of an item too. Where the items are
`Separable` the two views agree: a text is a list when it can be cut into pieces each of which is an
item with layout around it (`whole_sepBy_iff`), and then it can be cut so in one way only
(`Separable.cut_unique`). For two such cuts begin with the same piece, as the same item stands in
front, and are then cuts of the same rest.
-/

namespace LifecycleQuery

open Text

/-- The pieces are a text cut at some of its commas, all of them if no piece has one. -/
def Cut (text : List Char) (pieces : List (List Char)) : Prop :=
  pieces ≠ [] ∧ [','].intercalate pieces = text

/-- The pieces, each of them behind a comma. -/
def behindCommas (pieces : List (List Char)) : List Char := pieces.flatMap fun t => ',' :: t

@[simp] theorem behindCommas_nil : behindCommas [] = [] := rfl

@[simp] theorem behindCommas_cons (t : List Char) (ts : List (List Char)) :
    behindCommas (t :: ts) = ',' :: (t ++ behindCommas ts) := by
  simp [behindCommas]

/-- Behind the first piece, every piece has the separator before it. -/
theorem intercalate_cons_flatMap (sep t : List Char) (ts : List (List Char)) :
    sep.intercalate (t :: ts) = t ++ ts.flatMap (sep ++ ·) := by
  induction ts generalizing t with
  | nil => simp
  | cons u ts ih =>
    rw [List.intercalate_cons_cons, ih, List.flatMap_cons, List.append_assoc, List.append_assoc]

theorem intercalate_cons (t : List Char) (ts : List (List Char)) :
    [','].intercalate (t :: ts) = t ++ behindCommas ts :=
  intercalate_cons_flatMap [','] t ts

theorem cut_cons_iff {text t : List Char} {ts : List (List Char)} :
    Cut text (t :: ts) ↔ text = t ++ behindCommas ts := by
  unfold Cut
  rw [intercalate_cons]
  simp [eq_comm]

theorem cut_iff {text : List Char} {ts : List (List Char)} :
    Cut text ts ↔ behindCommas ts = ',' :: text := by
  cases ts with
  | nil => simp [Cut]
  | cons t ts => rw [cut_cons_iff, behindCommas_cons, List.cons.injEq, eq_comm]; simp

theorem ends_behindCommas_append (ts : List (List Char)) {u : List Char} (hu : Ends u) :
    Ends (behindCommas ts ++ u) := by
  cases ts with
  | nil => exact hu
  | cons t ts => exact ends_cons.2 (by decide)

theorem ends_behindCommas (ts : List (List Char)) : Ends (behindCommas ts) := by
  have hnil : Ends [] := by simp [Ends]
  simpa using ends_behindCommas_append ts hnil

theorem solid_behindCommas (ts : List (List Char)) : Solid (behindCommas ts) := by
  cases ts with
  | nil => simp [Solid]
  | cons t ts => simp [Solid]; decide

/-! ## Separable items -/

section
variable {α : Type} {D : Derivation α}

/-- What is derived ends where no more of the text belongs to it, and before a comma at the
latest. -/
structure Separable (D : Derivation α) : Prop where
  proper : Proper D
  sealed : ∀ {t a u}, D t a u → Sealed D t a u
  rest_unique : ∀ {t a u b v}, D t a u → D t b v → Ends u → Ends v → u = v
  head_ne_comma : ∀ {t a u}, ¬D (',' :: t) a u

/-- An item with layout around it is derived before any other text as well. -/
theorem Whole.append (hD : Separable D) {t : List Char} {a : α} (h : Whole D t a)
    (v : List Char) : ∃ p q, Layout (t ++ v) p ∧ D p a q ∧ Layout q v := by
  obtain ⟨p, q, ht, hd, hq⟩ := h
  exact ⟨p ++ v, q ++ v, ht.extend v, (hD.sealed hd).extend v, by simpa using hq.extend v⟩

theorem whole_singleton {S : List Char → List Char → Prop} {t : List Char} {a : α}
    (h : Whole D t a) : Whole (SepBy S D) t [a] := by
  obtain ⟨p, q, ht, hd, hq⟩ := h
  exact ⟨p, q, ht, .one hd, hq⟩

/-- An item, a comma and a list make a list. -/
theorem whole_cons (hD : Separable D) {t text : List Char} {a : α} {as : List α}
    (h : Whole D t a) (hl : Whole (SepBy Comma D) text as) :
    Whole (SepBy Comma D) (t ++ ',' :: text) (a :: as) := by
  obtain ⟨p, q, ht, hd, hq⟩ := h.append hD (',' :: text)
  obtain ⟨v, u, hv, hl, hu⟩ := hl
  exact ⟨p, u, ht, .more hd ⟨text, hq, hv⟩ hl, hu⟩

/-- The item in front of a list is one on its own, with the layout before and behind it. -/
theorem exists_cut_of_sepBy (hD : Separable D) {p u : List Char} {as : List α}
    (h : SepBy Comma D p as u) (hu : Layout u []) {text : List Char} (ht : Layout text p) :
    ∃ ts, Cut text ts ∧ List.Forall₂ (Whole D) ts as := by
  induction h generalizing text with
  | one hd => exact ⟨[text], cut_cons_iff.2 (by simp), .cons ⟨_, _, ht, hd, hu⟩ .nil⟩
  | @more p q v u a as hd hs hl ih =>
    obtain ⟨after, hq, hv⟩ := hs
    obtain ⟨ts, hcut, hts⟩ := ih hu hv
    obtain ⟨gap, hgap, rfl⟩ := ht
    obtain ⟨x, c, hc, rfl, hx⟩ := hD.sealed hd
    obtain ⟨gap', hgap', rfl⟩ := hq
    refine ⟨(gap ++ (x ++ c :: gap')) :: ts, ?_, .cons ?_ hts⟩
    · simp [cut_cons_iff, cut_iff.1 hcut]
    · exact ⟨x ++ c :: gap', gap', ⟨gap, hgap, rfl⟩, hx gap', gap', hgap', by simp⟩

/-- A whole list is a text that can be cut at commas into whole items. -/
theorem whole_sepBy_iff (hD : Separable D) {text : List Char} {as : List α} :
    Whole (SepBy Comma D) text as ↔ ∃ ts, Cut text ts ∧ List.Forall₂ (Whole D) ts as := by
  constructor
  · rintro ⟨p, u, ht, hl, hu⟩
    exact exists_cut_of_sepBy hD hl hu ht
  · rintro ⟨ts, hcut, hts⟩
    induction hts generalizing text with
    | nil => exact absurd rfl hcut.1
    | @cons t a ts as ht hts ih =>
      rw [cut_cons_iff] at hcut
      cases ts with
      | nil =>
        cases hts
        rw [hcut, behindCommas_nil, List.append_nil]
        exact whole_singleton ht
      | cons t' ts =>
        rw [hcut, behindCommas_cons]
        exact whole_cons hD ht (ih (cut_cons_iff.2 rfl))

/-! ## Cuts into items -/

/-- The first of the pieces that are items is told by the text. -/
theorem Separable.first_unique (hD : Separable D) {t u : List Char} {a b : α}
    {ts us : List (List Char)} (ht : Whole D t a) (hu : Whole D u b)
    (h : t ++ behindCommas ts = u ++ behindCommas us) :
    t = u ∧ behindCommas ts = behindCommas us := by
  obtain ⟨p, q, hp, hd, hq⟩ := ht.append hD (behindCommas ts)
  obtain ⟨p', q', hp', hd', hq'⟩ := hu.append hD (behindCommas us)
  have hfront : p = p' := by
    rw [← hp.skip (hD.proper.solid hd), ← hp'.skip (hD.proper.solid hd'), h]
  subst hfront
  have hrest : q = q' :=
    hD.rest_unique hd hd' (hq.ends (ends_behindCommas ts)) (hq'.ends (ends_behindCommas us))
  subst hrest
  have hbehind : behindCommas ts = behindCommas us := by
    rw [← hq.skip (solid_behindCommas ts), ← hq'.skip (solid_behindCommas us)]
  rw [hbehind, List.append_cancel_right_eq] at h
  exact ⟨h, hbehind⟩

/-- Pieces that are items stand at the front of every cut into items. -/
theorem Separable.exists_append (hD : Separable D) {ts rest us : List (List Char)}
    (hts : ∀ t ∈ ts, ∃ a, Whole D t a) (hus : ∀ u ∈ us, ∃ a, Whole D u a)
    (h : behindCommas (ts ++ rest) = behindCommas us) :
    ∃ vs, us = ts ++ vs ∧ behindCommas rest = behindCommas vs := by
  induction ts generalizing us with
  | nil => exact ⟨us, rfl, h⟩
  | cons t ts ih =>
    cases us with
    | nil => simp at h
    | cons u us =>
      rw [List.forall_mem_cons] at hts hus
      obtain ⟨a, ha⟩ := hts.1
      obtain ⟨b, hb⟩ := hus.1
      rw [List.cons_append, behindCommas_cons, behindCommas_cons, List.cons.injEq] at h
      obtain ⟨rfl, hbehind⟩ := hD.first_unique ha hb h.2
      obtain ⟨vs, rfl, hvs⟩ := ih hts.2 hus.2 hbehind
      exact ⟨vs, rfl, hvs⟩

theorem Separable.cut_unique (hD : Separable D) {text : List Char} {ts us : List (List Char)}
    (hts : ∀ t ∈ ts, ∃ a, Whole D t a) (hus : ∀ u ∈ us, ∃ a, Whole D u a) (ht : Cut text ts)
    (hu : Cut text us) : ts = us := by
  have h : behindCommas (ts ++ []) = behindCommas us := by
    rw [List.append_nil, cut_iff.1 ht, cut_iff.1 hu]
  obtain ⟨vs, rfl, hvs⟩ := hD.exists_append hts hus h
  cases vs with
  | nil => rw [List.append_nil]
  | cons v vs => simp at hvs

/-- Behind items no blank piece stands: at the front, between two commas, or as the whole text. -/
theorem Separable.not_blank_piece (hD : Separable D) {text blank : List Char}
    {before after us : List (List Char)} (hbefore : ∀ t ∈ before, ∃ a, Whole D t a)
    (hblank : ∀ c ∈ blank, isBlank c = true) (hcut : Cut text (before ++ blank :: after))
    (hus : ∀ u ∈ us, ∃ a, Whole D u a) : ¬Cut text us := by
  intro hu
  have h : behindCommas (before ++ blank :: after) = behindCommas us := by
    rw [cut_iff.1 hcut, cut_iff.1 hu]
  obtain ⟨vs, rfl, hvs⟩ := hD.exists_append hbefore hus h
  cases vs with
  | nil => simp at hvs
  | cons v vs =>
    obtain ⟨a, ha⟩ := hus v (by simp)
    obtain ⟨p, q, ⟨gap, hgap, hp⟩, hd, -⟩ := ha.append hD (behindCommas vs)
    rw [behindCommas_cons, behindCommas_cons, List.cons.injEq, hp] at hvs
    obtain ⟨c, rest, rfl, hc⟩ := hD.proper.head hd
    obtain ⟨more, rfl, hmore⟩ := blanks_prefix hblank ⟨c, rest, rfl, hc⟩ hvs.2
    -- what stands behind the blanks begins with the comma of the next piece, or not at all
    cases after with
    | nil => simp at hmore
    | cons t after =>
      rw [behindCommas_cons] at hmore
      cases more with
      | nil =>
        rw [List.nil_append, List.cons.injEq] at hmore
        rw [← hmore.1] at hd
        exact hD.head_ne_comma hd
      | cons d more =>
        rw [List.cons_append, List.cons.injEq] at hmore
        rw [← hmore.1] at hgap
        have hcomma : IsLayout ',' := hgap ',' (by simp)
        revert hcomma
        decide

end

/-- The last character of a whole is layout, or the end of something. -/
theorem Whole.last {α : Type} {D : Derivation α} (hD : ∀ {t a u}, D t a u → Sealed D t a u)
    {text : List Char} {c : Char} {a : α} (h : Whole D (text ++ [c]) a) :
    IsLayout c ∨ isFinal c = true := by
  obtain ⟨t, u, ⟨gap, -, he⟩, hd, ⟨gap', hgap', hu⟩⟩ := h
  obtain ⟨x, d, hfinal, rfl, -⟩ := hD hd
  rw [List.append_nil] at hu
  subst hu
  have hlast := congrArg List.getLast? he
  rcases List.eq_nil_or_concat u with rfl | ⟨u, e, rfl⟩
  · simp at hlast
    exact .inr (hlast ▸ hfinal)
  · have hce : c = e := by simpa [List.getLast?_append, List.getLast?_cons] using hlast
    exact .inl (hgap' c (by simp [hce]))

/-- No list ends with a comma, blanks behind it or not. -/
theorem not_whole_of_comma {α : Type} {D : Derivation α} (hD : Separable D)
    {text blank : List Char} (hblank : ∀ c ∈ blank, isBlank c = true) {as : List α} :
    ¬Whole (SepBy Comma D) (text ++ ',' :: blank) as := by
  intro h
  have hsealed : ∀ {t as u}, SepBy Comma D t as u → Sealed (SepBy Comma D) t as u :=
    fun hl => SepBy.sealed comma_movable (hl.mono fun _ _ _ _ hd => hD.sealed hd)
  have hcomma : text ++ ',' :: blank = (text ++ [',']) ++ blank := by simp
  rw [hcomma, whole_append_right_iff hsealed hblank] at h
  have hlast := Whole.last hsealed h.2
  revert hlast
  decide

end LifecycleQuery

import LifecycleQuery.Proofs.Grammar

/-!
# Scopes

The items of a clause may open scopes: lists of such items in braces. The grammars know no limit on
the nesting, the scanners do. `Nests` collects what the scanners of both clauses have in common, and
`list_exact` says of all such scanners that with limit `n` they read the lists of depth at most `n`
and no others. As a derivation is read under a limit that is large enough, no text has two
(`unique`).
-/

namespace LifecycleQuery

open Text

section
variable {α : Type} {sep : List Char → Option (List Char)} {S : List Char → List Char → Prop}
  {D : Derivation α} {depth : α → Nat} {depthAll : List α → Nat}
  {item : Scanner (List α) → Scanner α} {scope : Nat → Scanner (List α)}

/-- What is derived and may stand where `n` braces may still be opened. -/
def Within (D : Derivation α) (depth : α → Nat) (n : Nat) : Derivation α := fun t a u =>
  D t a u ∧ depth a ≤ n

/-- The items behind an opening brace, up to the brace that closes them. -/
def WithinScope (S : List Char → List Char → Prop) (D : Derivation α) (depthAll : List α → Nat)
    (n : Nat) : Derivation (List α) := fun t as u =>
  Enclosed (SepBy S D) '}' t as u ∧ depthAll as < n

/-- Items with separators between them, which `item` reads given a scanner for their scopes. -/
structure Nests (sep : List Char → Option (List Char)) (S : List Char → List Char → Prop)
    (D : Derivation α) (depth : α → Nat) (depthAll : List α → Nat)
    (item : Scanner (List α) → Scanner α) (scope : Nat → Scanner (List α)) : Prop where
  separates : Separates sep S
  proper : Proper D
  depthAll_le_iff : ∀ {as n}, depthAll as ≤ n ↔ ∀ a ∈ as, depth a ≤ n
  scope_zero : ∀ t, scope 0 t = .stop .tooDeep t
  scope_succ : ∀ n t, scope (n + 1) t = enclosed (sepBy1 sep (item (scope n))) '}' t
  item_exact : ∀ {n inner}, Exact (fun _ => True) inner (WithinScope S D depthAll n) →
    Exact Follows (item inner) (Within D depth n)

theorem Proper.within (h : Proper D) (n : Nat) : Proper (Within D depth n) where
  head hd := h.head hd.1
  shorter hd := h.shorter hd.1

namespace Nests

theorem sepBy_within_iff (h : Nests sep S D depth depthAll item scope) {n : Nat}
    {t u : List Char} {as : List α} :
    SepBy S (Within D depth n) t as u ↔ SepBy S D t as u ∧ depthAll as ≤ n := by
  rw [h.depthAll_le_iff]
  exact sepBy_and_iff

theorem scope_exact (h : Nests sep S D depth depthAll item scope) (n : Nat) :
    Exact (fun _ => True) (scope n) (WithinScope S D depthAll n) := by
  induction n with
  | zero =>
    constructor
    · intro t as u hr
      rw [h.scope_zero] at hr
      cases hr
    · intro t as u hd
      exact absurd hd.2 (Nat.not_lt_zero _)
  | succ n ih =>
    have hlist := sepBy1_exact h.separates (h.proper.within n) (h.item_exact ih)
    have henc := enclosed_exact (.inl rfl) (SepBy.proper h.separates (h.proper.within n)) hlist
    constructor
    · intro t as u hr
      rw [h.scope_succ] at hr
      obtain ⟨v, w, hv, hl, hw⟩ := henc.sound hr
      obtain ⟨hl, hd⟩ := h.sepBy_within_iff.1 hl
      exact ⟨⟨v, w, hv, hl, hw⟩, by omega⟩
    · rintro t as u ⟨⟨v, w, hv, hl, hw⟩, hd⟩ -
      rw [h.scope_succ]
      exact henc.complete ⟨v, w, hv, h.sepBy_within_iff.2 ⟨hl, by omega⟩, hw⟩ trivial

theorem item_scope_exact (h : Nests sep S D depth depthAll item scope) (n : Nat) :
    Exact Follows (item (scope n)) (Within D depth n) :=
  h.item_exact (h.scope_exact n)

/-- With limit `n` the lists of depth at most `n` are read. -/
theorem list_exact (h : Nests sep S D depth depthAll item scope) (n : Nat) :
    Exact Closes (sepBy1 sep (item (scope n))) (SepBy S (Within D depth n)) :=
  sepBy1_exact h.separates (h.proper.within n) (h.item_scope_exact n)

theorem list_proper (h : Nests sep S D depth depthAll item scope) : Proper (SepBy S D) :=
  SepBy.proper h.separates h.proper

/-- A clause has the right form when it is blank, or derived and not too deep. -/
theorem readList_ok_iff (h : Nests sep S D depth depthAll item scope) {n : Nat} {clause : Clause}
    {text : List Char} {as : List α} :
    readList clause (sepBy1 sep (item (scope n))) text = .ok as ↔
      isBlankText text = true ∧ as = [] ∨ Whole (SepBy S D) text as ∧ depthAll as ≤ n := by
  rw [LifecycleQuery.readList_ok_iff (SepBy.proper h.separates (h.proper.within n))
    (h.list_exact n)]
  refine or_congr_right ?_
  simp only [h.sepBy_within_iff, Whole]
  constructor
  · rintro ⟨t, u, ht, ⟨hl, hd⟩, hu⟩
    exact ⟨⟨t, u, ht, hl, hu⟩, hd⟩
  · rintro ⟨⟨t, u, ht, hl, hu⟩, hd⟩
    exact ⟨t, u, ht, ⟨hl, hd⟩, hu⟩

/-- What is derived is then resolved; a blank clause has nothing to resolve. -/
theorem bind_ok_iff {β : Type} (h : Nests sep S D depth depthAll item scope) {n : Nat}
    {clause : Clause} {text : List Char} {resolve : List α → Except QueryError (List β)}
    {bs : List β} :
    (readList clause (sepBy1 sep (item (scope n))) text).bind resolve = .ok bs ↔
      isBlankText text = true ∧ resolve [] = .ok bs ∨
        ∃ as, Whole (SepBy S D) text as ∧ depthAll as ≤ n ∧ resolve as = .ok bs := by
  rw [Except.bind_eq_ok_iff]
  simp only [h.readList_ok_iff]
  constructor
  · rintro ⟨as, ⟨hb, rfl⟩ | ⟨hw, hd⟩, hr⟩
    · exact .inl ⟨hb, hr⟩
    · exact .inr ⟨as, hw, hd, hr⟩
  · rintro (⟨hb, hr⟩ | ⟨as, hw, hd, hr⟩)
    · exact ⟨[], .inl ⟨hb, rfl⟩, hr⟩
    · exact ⟨as, .inr ⟨hw, hd⟩, hr⟩

/-- The grammar is unambiguous. -/
theorem unique (h : Nests sep S D depth depthAll item scope) {text : List Char} {as bs : List α}
    (ha : Whole (SepBy S D) text as) (hb : Whole (SepBy S D) text bs) : as = bs := by
  let n := max (depthAll as) (depthAll bs)
  have h1 : readList .conditions (sepBy1 sep (item (scope n))) text = .ok as :=
    h.readList_ok_iff.2 (.inr ⟨ha, Nat.le_max_left _ _⟩)
  have h2 : readList .conditions (sepBy1 sep (item (scope n))) text = .ok bs :=
    h.readList_ok_iff.2 (.inr ⟨hb, Nat.le_max_right _ _⟩)
  rw [h1] at h2
  exact Except.ok.inj h2

end Nests

end

end LifecycleQuery

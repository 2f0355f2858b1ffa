import LifecycleQuery.Page
import Mathlib.Algebra.Order.Floor.Div
import Mathlib.Order.Bounds.Basic

/-!
# Walking through pages

A walk visits items one after another, up to the first where it ends (`Visits`). `Page.Walk` goes
from page to page while members remain. A page `InReach` begins no later than the members end; there
no count is cut off, and the page behind it begins where it ends and is in reach as well. So a walk
from the first page deals out all members, each of them once (`walk_covers`). From any page it leads
to `lastNumber`, the least number from its own on that leaves no member behind (`walk_iff`).
-/

namespace LifecycleQuery

theorem clampCount_lt_iff {n : Nat} {c : UInt64} : clampCount n < c ↔ n < c.toNat := by
  have hc := c.toNat_lt
  rw [UInt64.lt_iff_toNat_lt, toNat_clampCount]
  simp only [UInt64.size]
  omega

theorem toNat_clampCount_of_le {n : Nat} {c : UInt64} (h : n ≤ c.toNat) :
    (clampCount n).toNat = n := by
  have hc := c.toNat_lt
  rw [toNat_clampCount]
  simp only [UInt64.size]
  omega

/-! ## Walks -/

/-- From the given item on, step by step, these items are visited, the last of them where the walk
ends. -/
inductive Visits {α : Type} (Step : α → α → Prop) (Ends : α → Prop) : α → List α → Prop
  | last {a : α} : Ends a → Visits Step Ends a [a]
  | more {a b : α} {as : List α} : Step a b → Visits Step Ends b as → Visits Step Ends a (a :: as)

section
variable {α : Type} {Step : α → α → Prop} {Ends : α → Prop} {a : α} {as bs : List α}

theorem Visits.exists_cons (h : Visits Step Ends a as) : ∃ rest, as = a :: rest := by
  cases h with
  | last _ => exact ⟨[], rfl⟩
  | more _ _ => exact ⟨_, rfl⟩

/-- There is no more than one walk when no item leaves a choice. -/
theorem Visits.unique (hstep : ∀ a b c, Step a b → Step a c → b = c)
    (hends : ∀ a b, Ends a → ¬Step a b) (h : Visits Step Ends a as)
    (h' : Visits Step Ends a bs) : as = bs := by
  induction h generalizing bs with
  | last he =>
    cases h' with
    | last _ => rfl
    | more hs _ => exact absurd hs (hends _ _ he)
  | more hs _ ih =>
    cases h' with
    | last he => exact absurd hs (hends _ _ he)
    | more hs' hw =>
      cases hstep _ _ _ hs hs'
      rw [ih hw]

end

namespace Page

/-- The index behind the last member on the page. -/
def stop (p : Page) (total : UInt64) : Nat := min (p.offset.toNat + p.size.toNat) total.toNat

/-- The indices of the members on the page. -/
def members (p : Page) (total : UInt64) : List Nat :=
  List.range' p.offset.toNat (p.stop total - p.offset.toNat)

/-- From page to page while members remain. -/
abbrev Walk (total : UInt64) : Page → List Page → Prop :=
  Visits (fun p q => p.hasNext total = true ∧ q = p.next) fun p => p.hasNext total = false

variable {p : Page} {total : UInt64} {ps qs : List Page}

/-! ## One step -/

theorem hasNext_iff : p.hasNext total = true ↔ p.number.toNat * p.size.toNat < total.toNat := by
  rw [hasNext, decide_eq_true_iff, clampCount_lt_iff]

theorem hasNext_eq_false_iff :
    p.hasNext total = false ↔ total.toNat ≤ p.number.toNat * p.size.toNat := by
  rw [← Bool.not_eq_true, hasNext_iff, Nat.not_lt]

theorem next_number (hsize : 1 ≤ p.size.toNat) (h : p.hasNext total = true) :
    p.next.number.toNat = p.number.toNat + 1 := by
  have hle : p.number.toNat ≤ p.number.toNat * p.size.toNat := Nat.le_mul_of_pos_right _ hsize
  exact toNat_clampCount_of_le (Nat.lt_of_le_of_lt hle (hasNext_iff.1 h))

/-- The page begins no later than the members end. -/
structure InReach (total : UInt64) (p : Page) : Prop where
  sized : 1 ≤ p.size.toNat
  numbered : 1 ≤ p.number.toNat
  begins : (p.number.toNat - 1) * p.size.toNat ≤ total.toNat

namespace InReach

theorem offset (h : InReach total p) :
    p.offset.toNat = (p.number.toNat - 1) * p.size.toNat :=
  toNat_clampCount_of_le h.begins

/-- Where the page ends, when the counts are not cut off. -/
theorem offset_add_size (h : InReach total p) :
    p.offset.toNat + p.size.toNat = p.number.toNat * p.size.toNat := by
  rw [h.offset, ← Nat.succ_mul, Nat.succ_eq_add_one, Nat.sub_add_cancel h.numbered]

theorem next (h : InReach total p) (hn : p.hasNext total = true) : InReach total p.next := by
  have hnumber := next_number h.sized hn
  refine ⟨h.sized, by omega, ?_⟩
  rw [hnumber, Nat.add_sub_cancel]
  exact Nat.le_of_lt (hasNext_iff.1 hn)

theorem offset_next (h : InReach total p) (hn : p.hasNext total = true) :
    p.next.offset.toNat = p.offset.toNat + p.size.toNat := by
  rw [(h.next hn).offset, h.offset_add_size, next_number h.sized hn, Nat.add_sub_cancel]
  rfl

/-- A page before others is full. -/
theorem stop_eq_offset_next (h : InReach total p) (hn : p.hasNext total = true) :
    p.stop total = p.next.offset.toNat := by
  have hlt := hasNext_iff.1 hn
  rw [h.offset_next hn, stop, h.offset_add_size, Nat.min_eq_left (Nat.le_of_lt hlt)]

/-- The last page ends with the last member. -/
theorem stop_eq_total (h : InReach total p) (hn : p.hasNext total = false) :
    p.stop total = total.toNat := by
  rw [stop, h.offset_add_size, Nat.min_eq_right (hasNext_eq_false_iff.1 hn)]

end InReach

/-! ## Whole walks -/

theorem walk_unique (h : Walk total p ps) (h' : Walk total p qs) : ps = qs := by
  refine Visits.unique ?_ ?_ h h'
  · rintro p q r ⟨-, rfl⟩ ⟨-, rfl⟩
    rfl
  · rintro p q he ⟨hn, -⟩
    rw [he] at hn
    cases hn

theorem inReach_of_walk (h : Walk total p ps) (hp : InReach total p) :
    ∀ q ∈ ps, q.size = p.size ∧ InReach total q := by
  induction h with
  | last _ => simpa using hp
  | @more p _ _ hs _ ih =>
    obtain ⟨hn, rfl⟩ := hs
    intro q hq
    rcases List.mem_cons.1 hq with rfl | hq
    · exact ⟨rfl, hp⟩
    · exact ih (hp.next hn) q hq

/-- What one page has to do with the page behind it. -/
structure Continues (total : UInt64) (p q : Page) : Prop where
  next : q = p.next
  number : q.number.toNat = p.number.toNat + 1
  offset : q.offset.toNat = p.offset.toNat + p.size.toNat
  stop : p.stop total = q.offset.toNat

theorem continues_of_walk (h : Walk total p ps) (hp : InReach total p) :
    ps.IsChain (Continues total) := by
  induction h with
  | last _ => exact .singleton _
  | more hs hw ih =>
    obtain ⟨hn, rfl⟩ := hs
    have hrest := ih (hp.next hn)
    obtain ⟨qs, rfl⟩ := hw.exists_cons
    exact .cons_cons
      ⟨rfl, next_number hp.sized hn, hp.offset_next hn, hp.stop_eq_offset_next hn⟩ hrest

/-- The pages of a walk hold what lies between the beginning of the first and the last member. -/
theorem flatMap_members_of_walk (h : Walk total p ps) (hp : InReach total p) :
    ps.flatMap (members · total) =
      List.range' p.offset.toNat (total.toNat - p.offset.toNat) := by
  induction h with
  | last hn => rw [List.flatMap_singleton, members, hp.stop_eq_total hn]
  | @more p _ _ hs _ ih =>
    obtain ⟨hn, rfl⟩ := hs
    have hnext := hp.offset_next hn
    have hle : p.next.offset.toNat ≤ total.toNat := by
      rw [(hp.next hn).offset]
      exact (hp.next hn).begins
    rw [List.flatMap_cons, ih (hp.next hn), members, hp.stop_eq_offset_next hn, hnext,
      Nat.add_sub_cancel_left]
    have happend := @List.range'_append p.offset.toNat p.size.toNat
      (total.toNat - (p.offset.toNat + p.size.toNat)) 1
    have hlength : p.size.toNat + (total.toNat - (p.offset.toNat + p.size.toNat)) =
        total.toNat - p.offset.toNat := by omega
    rwa [Nat.one_mul, hlength] at happend

theorem disjoint_of_walk (h : Walk total p ps) (hp : InReach total p) :
    ps.Pairwise fun q r => List.Disjoint (q.members total) (r.members total) := by
  have hnodup : (ps.flatMap (members · total)).Nodup := by
    rw [flatMap_members_of_walk h hp]
    exact List.nodup_range'
  exact (List.nodup_flatMap.1 hnodup).2

/-! ## How far a walk leads -/

/-- The least number from the page's own on such that the pages up to it hold all members. -/
def lastNumber (p : Page) (total : UInt64) : Nat :=
  max p.number.toNat (total.toNat ⌈/⌉ p.size.toNat)

/-- The pages of the same size from this one up to the number `n`. -/
def upTo (p : Page) (n : Nat) : List Page :=
  (List.range' p.number.toNat (n + 1 - p.number.toNat)).map fun k => ⟨p.size, UInt64.ofNat k⟩

theorem ceilDiv_le_number_iff (hsize : 1 ≤ p.size.toNat) {n : Nat} :
    total.toNat ⌈/⌉ p.size.toNat ≤ n ↔ total.toNat ≤ n * p.size.toNat := by
  rw [ceilDiv_le_iff_le_mul hsize, Nat.mul_comm]

theorem isLeast_lastNumber (hsize : 1 ≤ p.size.toNat) :
    IsLeast {n | p.number.toNat ≤ n ∧ total.toNat ≤ n * p.size.toNat} (p.lastNumber total) := by
  refine ⟨⟨Nat.le_max_left _ _, (ceilDiv_le_number_iff hsize).1 (Nat.le_max_right _ _)⟩, ?_⟩
  rintro n ⟨hn, htotal⟩
  exact Nat.max_le.2 ⟨hn, (ceilDiv_le_number_iff hsize).2 htotal⟩

/-- No page is numbered beyond the largest count. -/
theorem lastNumber_lt (hsize : 1 ≤ p.size.toNat) : p.lastNumber total < UInt64.size := by
  have hceil : total.toNat ⌈/⌉ p.size.toNat ≤ total.toNat :=
    (ceilDiv_le_number_iff hsize).2 (Nat.le_mul_of_pos_right _ hsize)
  exact Nat.max_lt.2 ⟨p.number.toNat_lt, Nat.lt_of_le_of_lt hceil total.toNat_lt⟩

theorem map_upTo {n : Nat} (hn : n < UInt64.size) :
    (p.upTo n).map (fun q => (q.size, q.number.toNat)) =
      (List.range' p.number.toNat (n + 1 - p.number.toNat)).map fun k => (p.size, k) := by
  rw [upTo, List.map_map]
  refine List.map_congr_left fun k hk => ?_
  have hlt : k < UInt64.size := by
    have hle := (List.mem_range'_1.1 hk).2
    have hnumber := p.number.toNat_lt_size
    omega
  show (p.size, (UInt64.ofNat k).toNat) = (p.size, k)
  rw [UInt64.toNat_ofNat', Nat.mod_eq_of_lt hlt]

theorem upTo_self (p : Page) : p.upTo p.number.toNat = [p] := by
  simp [upTo]

theorem upTo_eq_cons {n : Nat} (hnext : p.next.number.toNat = p.number.toNat + 1)
    (hn : p.number.toNat < n) : p.upTo n = p :: p.next.upTo n := by
  have hlength : n + 1 - p.number.toNat = (n + 1 - (p.number.toNat + 1)) + 1 := by omega
  rw [upTo, hlength, List.range'_succ, List.map_cons, UInt64.ofNat_toNat, ← hnext]
  rfl

theorem walk_upTo (hsize : 1 ≤ p.size.toNat) : Walk total p (p.upTo (p.lastNumber total)) := by
  -- on the number of pages that are still to come
  induction hd : total.toNat ⌈/⌉ p.size.toNat - p.number.toNat generalizing p with
  | zero =>
    have hle : total.toNat ⌈/⌉ p.size.toNat ≤ p.number.toNat := by omega
    rw [lastNumber, Nat.max_eq_left hle, upTo_self]
    exact .last (hasNext_eq_false_iff.2 ((ceilDiv_le_number_iff hsize).1 hle))
  | succ d ih =>
    have hlt : p.number.toNat < total.toNat ⌈/⌉ p.size.toNat := by omega
    have hn : p.hasNext total = true := by
      rw [hasNext_iff, ← Nat.not_le, ← ceilDiv_le_number_iff hsize]
      omega
    have hnumber := next_number hsize hn
    have hlast : p.next.lastNumber total = p.lastNumber total := by
      simp only [lastNumber, hnumber]
      exact (Nat.max_eq_right hlt).trans (Nat.max_eq_right (Nat.le_of_lt hlt)).symm
    have hpages : p.upTo (p.lastNumber total) = p :: p.next.upTo (p.lastNumber total) :=
      upTo_eq_cons hnumber (Nat.lt_of_lt_of_le hlt (Nat.le_max_right _ _))
    rw [hpages, ← hlast]
    refine .more ⟨hn, rfl⟩ (ih hsize ?_)
    rw [hnumber]
    show total.toNat ⌈/⌉ p.size.toNat - (p.number.toNat + 1) = d
    omega

theorem walk_iff (hsize : 1 ≤ p.size.toNat) :
    Walk total p ps ↔ ps = p.upTo (p.lastNumber total) := by
  refine ⟨fun h => walk_unique h (walk_upTo hsize), ?_⟩
  rintro rfl
  exact walk_upTo hsize

/-! ## From the first page -/

/-- The pages deal out the members: they follow one another without a gap, no member is on two of
them, and together they hold them all. -/
structure Covers (size total : UInt64) (ps : List Page) : Prop where
  offsets : ∀ p ∈ ps, p.size = size ∧ p.offset.toNat = (p.number.toNat - 1) * size.toNat
  consecutive : ps.IsChain (Continues total)
  disjoint : ps.Pairwise fun p q => List.Disjoint (p.members total) (q.members total)
  complete : ps.flatMap (members · total) = List.range total.toNat

/-- The walk from the first page ends, and its pages hold every member once. However large the
numbers, a page is followed by another exactly if members remain behind it. -/
theorem walk_covers (size total : UInt64) (hsize : 1 ≤ size) :
    (∃ ps, (∀ qs, Walk total ⟨size, 1⟩ qs ↔ qs = ps) ∧
      ps.length = max 1 (total.toNat ⌈/⌉ size.toNat) ∧ Covers size total ps) ∧
    ∀ p : Page, p.size = size →
      (p.hasNext total = true ↔ p.number.toNat * p.size.toNat < total.toNat) ∧
      (p.hasNext total = true → p.number < p.next.number) := by
  have hpos : 1 ≤ size.toNat := UInt64.le_iff_toNat_le.1 hsize
  constructor
  · have hfirst : InReach total ⟨size, 1⟩ := ⟨hpos, Nat.le_refl 1, by simp⟩
    have hwalk : Walk total ⟨size, 1⟩ (upTo ⟨size, 1⟩ (lastNumber ⟨size, 1⟩ total)) :=
      walk_upTo hpos
    refine ⟨_, fun qs => walk_iff hpos, ?_, ?_, continues_of_walk hwalk hfirst,
      disjoint_of_walk hwalk hfirst, ?_⟩
    · simp [upTo, lastNumber]
    · intro p hp
      obtain ⟨hsize, hreach⟩ := inReach_of_walk hwalk hfirst p hp
      have hoffset := hreach.offset
      rw [hsize] at hoffset
      exact ⟨hsize, hoffset⟩
    · rw [flatMap_members_of_walk hwalk hfirst, hfirst.offset, List.range_eq_range']
      simp
  · rintro p rfl
    refine ⟨hasNext_iff, fun hn => ?_⟩
    rw [UInt64.lt_iff_toNat_lt, next_number hpos hn]
    exact Nat.lt_succ_self _

/-- The product of number and size is too large for a count on the last page but not before it. -/
theorem walk_covers_two : (1 : UInt64) ≤ 0x8000000000000000 ∧
    ∃ ps, (∀ qs, Walk 0xFFFFFFFFFFFFFFFF ⟨0x8000000000000000, 1⟩ qs ↔ qs = ps) ∧
      ps.length = 2 ∧ Covers 0x8000000000000000 0xFFFFFFFFFFFFFFFF ps := by
  have hsize : (1 : UInt64) ≤ 0x8000000000000000 := by decide
  obtain ⟨⟨ps, hwalk, hlength, hcovers⟩, -⟩ :=
    walk_covers 0x8000000000000000 0xFFFFFFFFFFFFFFFF hsize
  exact ⟨hsize, ps, hwalk, hlength.trans (by decide), hcovers⟩

end Page

end LifecycleQuery

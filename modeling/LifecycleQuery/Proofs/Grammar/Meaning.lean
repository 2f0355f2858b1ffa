import LifecycleQuery.Proofs.Acceptance
import LifecycleQuery.Proofs.Grammar.Ending

/-!
# What a clause says

`Condition.Says r` is the grammar of conditions with all names and literals resolved by `r`: the
front of a text says a filter when it is derived as a written condition that resolves to it. In
these terms a clause is read as what it says (`Condition.read_ok_iff_says`), without the written
tree in between. As the places of the literals are gone with that tree, what a text says does not
depend on what stands behind it (`Condition.Says.sealed`), and two clauses with `and` between them
say what both say (`Condition.whole_joined`).
-/

namespace LifecycleQuery

open Text

section
variable {α β : Type} {D : Derivation β} {R : β → α → Prop} {S : List Char → List Char → Prop}

/-- What `D` derives, as the things that `R` takes it for. -/
def Via (D : Derivation β) (R : β → α → Prop) : Derivation α := fun t a u => ∃ b, D t b u ∧ R b a

theorem sepBy_via_iff {t u : List Char} {as : List α} :
    SepBy S (Via D R) t as u ↔ ∃ bs, SepBy S D t bs u ∧ List.Forall₂ R bs as := by
  refine ⟨fun h => h.exists_forall₂, ?_⟩
  rintro ⟨bs, hl, hR⟩
  induction hl generalizing as with
  | one hD =>
    obtain ⟨a, as, ha, hnil, rfl⟩ := List.forall₂_cons_left_iff.1 hR
    rw [List.forall₂_nil_left_iff.1 hnil]
    exact .one ⟨_, hD, ha⟩
  | more hD hs _ ih =>
    obtain ⟨a, as, ha, has, rfl⟩ := List.forall₂_cons_left_iff.1 hR
    exact .more ⟨_, hD, ha⟩ hs (ih has)

end

namespace Condition

/-- The front of the text says the value. -/
abbrev SaysValue (r : Resolver) : Derivation Value :=
  Via Placed.Derives fun p v => p.literal.Means r v

/-- The front of the text says the filter. -/
abbrev Says (r : Resolver) : Derivation Filter :=
  Via Derives (Resolved r.Expands fun p v => p.literal.Means r v)

/-- A clause is read as what it says, if its scopes are not too deep. -/
theorem read_ok_iff_says {r : Resolver} {n : Nat} {text : String} {ds : List Filter} :
    read r n text = .ok ds ↔ isBlankText text.toList = true ∧ ds = [] ∨
      Whole (SepBy AndWord (Says r)) text.toList ds ∧ depthAll ds ≤ n := by
  rw [read_ok_iff]
  refine or_congr_right ?_
  constructor
  · rintro ⟨cs, ⟨t, u, ht, hl, hu⟩, hd, hr⟩
    exact ⟨⟨t, u, ht, sepBy_via_iff.2 ⟨cs, hl, hr⟩, hu⟩, by rwa [depthAll_resolved hr]⟩
  · rintro ⟨⟨t, u, ht, hl, hu⟩, hd⟩
    obtain ⟨cs, hcs, hr⟩ := sepBy_via_iff.1 hl
    exact ⟨cs, ⟨t, u, ht, hcs, hu⟩, by rwa [← depthAll_resolved hr], hr⟩

end Condition

/-! ## What is said in front of any text -/

namespace Condition

variable {r : Resolver}

theorem SaysValue.sealed {t u : List Char} {v : Value} (h : SaysValue r t v u) :
    Sealed (SaysValue r) t v u := by
  obtain ⟨p, ⟨-, hp⟩, hv⟩ := h
  apply (Front.sealed Literal.Spells.endsFinal hp).imp
  intro s w hs
  exact ⟨⟨p.literal, s⟩, ⟨rfl, hs⟩, hv⟩

/-- What is said in front of a text is said in front of any other. -/
theorem Says.sealed {t u : List Char} {d : Filter} (h : Says r t d u) : Sealed (Says r) t d u := by
  obtain ⟨c, hc, hd⟩ := h
  revert d hd
  -- the induction is on the written tree; each of its parts is matched with a part of the filter
  refine Derives.induct (P := fun t c u => ∀ {d}, Resolved r.Expands
    (fun p v => p.literal.Means r v) c d → Sealed (Says r) t d u) ?_ ?_ ?_ hc
  · intro t u v w x y n cs hn ho hb hl hclose d hd
    cases hd with
    | scope hi hds =>
      have hsaid := sepBy_via_iff.2 ⟨cs, hl, hds⟩
      have hlist : Sealed (SepBy AndWord (Says r)) w _ x :=
        SepBy.sealed andWord_movable (hsaid.mono fun _ _ _ _ ⟨_, ⟨_, hP⟩, hd⟩ => hP hd)
      obtain ⟨head, rfl, hhead⟩ := scopeHead_movable hn ho
      apply (Enclosed.sealed '}' (by decide) hb hlist hclose).behind
      rintro s rest ⟨a, b, ha, hl, hb⟩
      obtain ⟨front, hn, ho⟩ := hhead s
      obtain ⟨cs', hcs', hds'⟩ := sepBy_via_iff.1 hl
      exact ⟨_, .scope hn ho ha hcs' hb, .scope hi hds'⟩
  · intro t u v w x y z n ps hn hw ho hb hl hclose d hd
    cases hd with
    | test hi hvs =>
      have hsaid : SepBy Comma (SaysValue r) x _ y := sepBy_via_iff.2 ⟨ps, hl, hvs⟩
      have hlist : Sealed (SepBy Comma (SaysValue r)) x _ y :=
        SepBy.sealed comma_movable (hsaid.mono fun _ _ _ _ h => SaysValue.sealed h)
      obtain ⟨head, rfl, hhead⟩ := bracketHead_movable hn hw ho
      apply (Enclosed.sealed ']' (by decide) hb hlist hclose).behind
      rintro s rest ⟨a, b, ha, hl, hb⟩
      obtain ⟨front, behind, hn, hw, ho⟩ := hhead s
      obtain ⟨ps', hps', hvs'⟩ := sepBy_via_iff.1 hl
      exact ⟨_, .within hn hw ho ha hps' hb, .test hi hvs'⟩
  · intro t u v w x y n op p hn hl ho hr hp d hd
    cases hd with
    | test hi hvs =>
      obtain ⟨value, _, hv, hnil, rfl⟩ := List.forall₂_cons_left_iff.1 hvs
      rw [List.forall₂_nil_left_iff.1 hnil]
      obtain ⟨head, rfl, hhead⟩ := operatorHead_movable hn hl ho hr
      apply (SaysValue.sealed ⟨p, hp, hv⟩).behind
      rintro s rest ⟨p', hp', hv'⟩
      obtain ⟨_, _, _, hn, hl, ho, hr⟩ := hhead s
      exact ⟨_, .compare hn hl ho hr hp', .test hi (.cons hv' .nil)⟩

theorem list_sealed {t u : List Char} {ds : List Filter} (h : SepBy AndWord (Says r) t ds u) :
    Sealed (SepBy AndWord (Says r)) t ds u :=
  SepBy.sealed andWord_movable (h.mono fun _ _ _ _ hd => Says.sealed hd)

/-! ## Joined clauses -/

theorem layout1_space {t u : List Char} (h : Layout t u) : Layout1 (' ' :: t) u := by
  obtain ⟨gap, hgap, rfl⟩ := h
  exact ⟨' ', gap, by decide, hgap, rfl⟩

/-- Layout at the end of a text counts with a space behind it. -/
theorem layout1_behind {t : List Char} (h : Layout t []) (u : List Char) :
    Layout1 (t ++ ' ' :: u) u := by
  obtain ⟨gap, hgap, rfl⟩ := h
  cases gap with
  | nil => exact ⟨' ', [], by decide, by simp, rfl⟩
  | cons c gap =>
    rw [List.forall_mem_cons] at hgap
    refine ⟨c, gap ++ [' '], hgap.1, fun d hd => ?_, by simp⟩
    rcases List.mem_append.1 hd with hd | hd
    · exact hgap.2 d hd
    · rw [List.mem_singleton.1 hd]
      decide

theorem whole_joined {t u : List Char} {ds es : List Filter}
    (h : Whole (SepBy AndWord (Says r)) t ds) (h' : Whole (SepBy AndWord (Says r)) u es) :
    Whole (SepBy AndWord (Says r)) (t ++ (" and ".toList ++ u)) (ds ++ es) := by
  obtain ⟨front, gap, ht, hl, hgap⟩ := h
  obtain ⟨front', gap', hu, hl', hgap'⟩ := h'
  have hand : AndWord (gap ++ (" and ".toList ++ u)) front' :=
    ⟨' ' :: u, layout1_behind hgap ("and".toList ++ ' ' :: u), layout1_space hu⟩
  have hmore : SepBy AndWord (Says r) (front ++ (" and ".toList ++ u)) ds
      (gap ++ (" and ".toList ++ u)) := (list_sealed hl).extend _
  exact ⟨_, gap', ht.extend _, hmore.append hand hl', hgap'⟩

end Condition

end LifecycleQuery

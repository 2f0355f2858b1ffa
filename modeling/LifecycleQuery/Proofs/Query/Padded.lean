import LifecycleQuery.Proofs.Grammar.Meaning
import LifecycleQuery.Proofs.Query.Step

/-!
# Blanks around a clause

`Query.Says q clause` puts the grammars of the three clauses under one name: the front of a text is
derived as the query that taking it makes of `q`. A clause that is not blank is taken as a whole
that says so (`Query.take_ok_iff_whole`). Such a whole may have layout around it, which changes
nothing. Other blanks are no layout, and around a clause that is not blank they are a fault
(`Query.take_padded`).
-/

namespace LifecycleQuery

open Text

theorem Via.proper {α β : Type} {D : Derivation β} {R : β → α → Prop} (hD : Proper D) :
    Proper (Via D R) where
  head := by
    rintro t a u ⟨b, hb, -⟩
    exact hD.head hb
  shorter := by
    rintro t a u ⟨b, hb, -⟩
    exact hD.shorter hb

theorem Via.sealed {α β : Type} {D : Derivation β} {R : β → α → Prop}
    (hD : ∀ {t b u}, D t b u → Sealed D t b u) {t u : List Char} {a : α} (h : Via D R t a u) :
    Sealed (Via D R) t a u := by
  obtain ⟨b, hb, hR⟩ := h
  exact (hD hb).imp fun hs => ⟨b, hs, hR⟩

theorem Condition.says_proper (r : Resolver) : Proper (SepBy AndWord (Says r)) :=
  SepBy.proper andWord_separates (Via.proper derives_proper)

theorem Property.list_sealed {t u : List Char} {ps : List (Property Name)}
    (h : SepBy Comma Derives t ps u) : Sealed (SepBy Comma Derives) t ps u :=
  SepBy.sealed comma_movable (h.mono fun _ _ _ _ hp => derives_sealed hp)

theorem Namespaces.list_sealed {t u : List Char} {bs : List Binding}
    (h : SepBy Comma Derives t bs u) : Sealed (SepBy Comma Derives) t bs u :=
  SepBy.sealed comma_movable (h.mono fun _ _ _ _ hb => derives_sealed hb)

namespace Query

/-- The query with nothing of the given clause. -/
def cleared (q : Query) : Clause → Query
  | .namespaces => { q with namespaces := .empty }
  | .conditions => { q with conditions := [] }
  | .properties => { q with properties := [] }

/-- The front of a text, as the query that taking it leaves behind. -/
def Says (q : Query) : Clause → Derivation Query
  | .namespaces => Via (SepBy Comma Namespaces.Derives) fun bs q' =>
      q' = { q with namespaces := .ofList bs }
  | .conditions => Via (SepBy AndWord (Condition.Says q.resolver)) fun ds q' =>
      Condition.depthAll ds ≤ q.settings.maxNesting ∧ q' = { q with conditions := ds }
  | .properties => Via (SepBy Comma Property.Derives) fun ps q' =>
      Property.depthAll ps ≤ q.settings.maxNesting ∧
        ∃ qs, Property.ResolvedBy q.resolver ps qs ∧ q' = { q with properties := qs }

theorem says_proper (q : Query) (clause : Clause) : Proper (q.Says clause) := by
  cases clause with
  | namespaces => exact Via.proper Namespaces.list_proper
  | conditions => exact Via.proper (Condition.says_proper q.resolver)
  | properties => exact Via.proper Property.nests.list_proper

theorem says_sealed {q q' : Query} {clause : Clause} {t u : List Char}
    (h : q.Says clause t q' u) : Sealed (q.Says clause) t q' u := by
  cases clause with
  | namespaces => exact Via.sealed Namespaces.list_sealed h
  | conditions => exact Via.sealed Condition.list_sealed h
  | properties => exact Via.sealed Property.list_sealed h

/-- A clause is taken when it is blank, which clears its part, and when the whole of it says
something. -/
theorem take_ok_iff_whole {q q' : Query} {clause : Clause} {text : String} :
    q.take clause text = .ok q' ↔ isBlankText text.toList = true ∧ q' = q.cleared clause ∨
      Whole (q.Says clause) text.toList q' := by
  cases clause with
  | namespaces =>
    simp only [take, declare, cleared, Except.map_eq_ok_iff, Namespaces.read_ok_iff]
    constructor
    · rintro ⟨_, ⟨hb, rfl⟩ | ⟨bs, ⟨t, u, ht, hl, hu⟩, rfl⟩, rfl⟩
      · exact .inl ⟨hb, rfl⟩
      · exact .inr ⟨t, u, ht, ⟨bs, hl, rfl⟩, hu⟩
    · rintro (⟨hb, rfl⟩ | ⟨t, u, ht, ⟨bs, hl, rfl⟩, hu⟩)
      · exact ⟨_, .inl ⟨hb, rfl⟩, rfl⟩
      · exact ⟨_, .inr ⟨bs, ⟨t, u, ht, hl, hu⟩, rfl⟩, rfl⟩
  | conditions =>
    simp only [take, filter, cleared, Except.map_eq_ok_iff, Condition.read_ok_iff_says]
    constructor
    · rintro ⟨_, ⟨hb, rfl⟩ | ⟨⟨t, u, ht, hl, hu⟩, hd⟩, rfl⟩
      · exact .inl ⟨hb, rfl⟩
      · exact .inr ⟨t, u, ht, ⟨_, hl, hd, rfl⟩, hu⟩
    · rintro (⟨hb, rfl⟩ | ⟨t, u, ht, ⟨ds, hl, hd, rfl⟩, hu⟩)
      · exact ⟨_, .inl ⟨hb, rfl⟩, rfl⟩
      · exact ⟨ds, .inr ⟨⟨t, u, ht, hl, hu⟩, hd⟩, rfl⟩
  | properties =>
    simp only [take, project, cleared, Except.map_eq_ok_iff, Property.read_ok_iff]
    constructor
    · rintro ⟨_, ⟨hb, rfl⟩ | ⟨ps, ⟨t, u, ht, hl, hu⟩, hd, hr⟩, rfl⟩
      · exact .inl ⟨hb, rfl⟩
      · exact .inr ⟨t, u, ht, ⟨ps, hl, hd, _, hr, rfl⟩, hu⟩
    · rintro (⟨hb, rfl⟩ | ⟨t, u, ht, ⟨ps, hl, hd, qs, hr, rfl⟩, hu⟩)
      · exact ⟨_, .inl ⟨hb, rfl⟩, rfl⟩
      · exact ⟨qs, .inr ⟨ps, ⟨t, u, ht, hl, hu⟩, hd, hr⟩, rfl⟩

/-- Blanks that a clause has no fault for when they stand around it: any if it is blank, and layout
if it is not. -/
def Unnoticed (gap text : List Char) : Prop :=
  isBlankText text = true ∨ ∀ c ∈ gap, IsLayout c

/-- If a padded text is as blank as the text, and a whole exactly when the text is one and the
padding is layout, then it is taken exactly when the text is and the padding is not noticed. -/
theorem padded_iff {q q' : Query} {clause : Clause} {gap text padded : List Char}
    (hblank : isBlankText padded = isBlankText text)
    (hwhole : Whole (q.Says clause) padded q' ↔
      (∀ c ∈ gap, IsLayout c) ∧ Whole (q.Says clause) text q') :
    (isBlankText padded = true ∧ q' = q.cleared clause ∨ Whole (q.Says clause) padded q') ↔
      (isBlankText text = true ∧ q' = q.cleared clause ∨ Whole (q.Says clause) text q') ∧
        Unnoticed gap text := by
  rw [hblank, hwhole]
  constructor
  · rintro (⟨hb, hq⟩ | ⟨hlayout, hw⟩)
    · exact ⟨.inl ⟨hb, hq⟩, .inl hb⟩
    · exact ⟨.inr hw, .inr hlayout⟩
  · rintro ⟨⟨hb, hq⟩ | hw, hun⟩
    · exact .inl ⟨hb, hq⟩
    · rcases hun with hb | hlayout
      · rw [hw.not_blank (says_proper q clause)] at hb
        cases hb
      · exact .inr ⟨hlayout, hw⟩

/-- Blanks before or behind a clause change nothing if the clause is blank or they are layout. With
other blanks around it no clause is taken that is not blank. -/
theorem take_padded (q q' : Query) (clause : Clause) (text gap : String)
    (hgap : isBlankText gap.toList = true) :
    (q.take clause (gap ++ text) = .ok q' ↔
        q.take clause text = .ok q' ∧ Unnoticed gap.toList text.toList) ∧
      (q.take clause (text ++ gap) = .ok q' ↔
        q.take clause text = .ok q' ∧ Unnoticed gap.toList text.toList) := by
  have hall : ∀ c ∈ gap.toList, isBlank c = true := List.all_eq_true.1 hgap
  unfold isBlankText at hgap
  simp only [take_ok_iff_whole, String.toList_append]
  constructor
  · apply padded_iff
    · simp [isBlankText, hgap]
    · exact whole_append_left_iff (says_proper q clause) hall
  · apply padded_iff
    · simp [isBlankText, hgap]
    · exact whole_append_right_iff says_sealed hall

/-- Line ends around a clause that is taken. -/
theorem take_padded_lines :
    let q := ofSettings (.ofDefault "http://example.org/")
    isBlankText "\r\n".toList = true ∧ ∃ q', q.take .conditions "a=1" = .ok q' ∧
      q.take .conditions ("\r\n" ++ "a=1") = .ok q' ∧
      q.take .conditions ("a=1" ++ "\r\n") = .ok q' := by
  intro q
  have hok : (q.take .conditions "a=1").isOk = true := by decide +kernel
  cases htake : q.take .conditions "a=1" with
  | error e =>
    rw [htake] at hok
    cases hok
  | ok q' =>
    have hun : Unnoticed "\r\n".toList "a=1".toList := .inr (isLayout_of_all (by decide))
    obtain ⟨hbefore, hbehind⟩ := take_padded q q' .conditions "a=1" "\r\n" (by decide)
    exact ⟨by decide, q', rfl, hbefore.2 ⟨htake, hun⟩, hbehind.2 ⟨htake, hun⟩⟩

/-- A no-break space is blank, and yet a fault before and behind a clause that is taken. -/
theorem take_noBreakSpace :
    let q := ofSettings (.ofDefault "http://example.org/")
    isBlankText "\u00a0".toList = true ∧ (q.take .conditions "a=1").isOk = true ∧
      (q.take .conditions ("\u00a0" ++ "a=1")).isOk = false ∧
      (q.take .conditions ("a=1" ++ "\u00a0")).isOk = false := by
  intro q
  refine ⟨by decide, ?_, ?_, ?_⟩ <;> decide +kernel

end Query

end LifecycleQuery

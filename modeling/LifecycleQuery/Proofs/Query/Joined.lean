import LifecycleQuery.Proofs.Grammar.Meaning
import LifecycleQuery.Proofs.Value

/-!
# Joined clauses and written values

Two condition clauses with `and` between them are taken as the conditions of the one and then those
of the other (`Query.filter_joined`). A test for a written value is such a clause, so a value can be
put into any clause: whatever it holds, it neither ends early nor takes in what stands behind it
(`Value.read_anywhere`).
-/

namespace LifecycleQuery

open Text

namespace Query

/-- Filters that a clause says, not too deep for the query, become its conditions. -/
theorem filter_of_whole {q : Query} {text : String} {ds : List Filter}
    (h : Whole (SepBy AndWord (Condition.Says q.resolver)) text.toList ds)
    (hd : Condition.depthAll ds ≤ q.settings.maxNesting) :
    q.filter text = .ok { q with conditions := ds } := by
  rw [filter, Condition.read_ok_iff_says.2 (.inr ⟨h, hd⟩)]
  rfl

/-- The conditions that a clause which is not blank leaves behind are those that it says. -/
theorem whole_of_filter {q q' : Query} {text : String} (hb : trim text.toList ≠ [])
    (h : q.filter text = .ok q') : q' = { q with conditions := q'.conditions } ∧
      Whole (SepBy AndWord (Condition.Says q.resolver)) text.toList q'.conditions ∧
      Condition.depthAll q'.conditions ≤ q.settings.maxNesting := by
  obtain ⟨ds, hds, rfl⟩ := Except.map_eq_ok_iff.1 h
  rcases Condition.read_ok_iff_says.1 hds with ⟨hblank, -⟩ | hsays
  · exact absurd (trim_eq_nil_iff.2 hblank) hb
  · exact ⟨rfl, hsays⟩

/-- Clauses that are taken can be joined. -/
theorem filter_joined {q q₁ q₂ : Query} {text more : String} (hb : trim text.toList ≠ [])
    (hb' : trim more.toList ≠ []) (h : q.filter text = .ok q₁) (h' : q.filter more = .ok q₂) :
    q.filter (text ++ " and " ++ more) =
      .ok { q with conditions := q₁.conditions ++ q₂.conditions } := by
  obtain ⟨-, hwhole, hd⟩ := whole_of_filter hb h
  obtain ⟨-, hwhole', hd'⟩ := whole_of_filter hb' h'
  apply filter_of_whole
  · simpa using Condition.whole_joined hwhole hwhole'
  · rw [Condition.depthAll_le_iff] at hd hd' ⊢
    intro c hc
    exact (List.mem_append.1 hc).elim (hd c) (hd' c)

end Query

/-! ## Tests for written values -/

theorem Condition.says_value {v : Value} (hv : v.WellFormed) (hd : v.datatype? = none)
    (r : Resolver) : Says r ('*' :: '=' :: v.text) (.test "*" .equal [v]) [] := by
  obtain ⟨l, hl, hvalue⟩ := Value.exists_literal hv hd
  have hname : Front Name.Spells ('*' :: '=' :: v.text) .all ('=' :: v.text) := ⟨['*'], .all, rfl⟩
  have hop : Front SpellsOperator ('=' :: v.text) .equal v.text := ⟨['='], ⟨by decide, rfl⟩, rfl⟩
  have hplaced : Placed.Derives v.text ⟨l, v.text⟩ [] :=
    ⟨rfl, v.text, hl, (List.append_nil _).symm⟩
  have hnone (t : List Char) : Layout t t := ⟨[], by simp, rfl⟩
  refine ⟨_, .compare hname (hnone _) hop (hnone _) hplaced, .test .all (.cons ?_ .nil)⟩
  exact Literal.means_iff.2 (hvalue r)

theorem Query.filter_value (q : Query) {v : Value} (hv : v.WellFormed) (hd : v.datatype? = none) :
    q.filter ("*=" ++ v.render) = .ok { q with conditions := [.test "*" .equal [v]] } := by
  have htext : ("*=" ++ v.render).toList = '*' :: '=' :: v.text := by simp [Value.render]
  refine filter_of_whole ?_ (Nat.zero_le _)
  rw [htext]
  exact ⟨_, [], ⟨[], by simp, rfl⟩, .one (Condition.says_value hv hd _), ⟨[], by simp, rfl⟩⟩

/-- A written value is read back, whatever the labels are bound to. In a test that is put before or
behind a clause it leaves the conditions of that clause as they are. -/
theorem Value.read_anywhere {v : Value} (hv : v.WellFormed) (hd : v.datatype? = none) :
    (∀ r, read r v.render = .ok v) ∧
      ∀ (q q' : Query) (text : String), trim text.toList ≠ [] → q.filter text = .ok q' →
        q.filter ("*=" ++ v.render ++ " and " ++ text) =
            .ok { q' with conditions := .test "*" .equal [v] :: q'.conditions } ∧
          q.filter (text ++ " and *=" ++ v.render) =
            .ok { q' with conditions := q'.conditions ++ [.test "*" .equal [v]] } := by
  refine ⟨read_render hv hd, fun q q' text hb hq => ?_⟩
  have hvalue := q.filter_value hv hd
  have hstar : trim ("*=" ++ v.render).toList ≠ [] := by
    have hsolid : isBlank '*' = false := by decide
    rw [Ne, trim_eq_nil_iff]
    simp [isBlankText, hsolid]
  have hand : text ++ " and *=" ++ v.render = text ++ " and " ++ ("*=" ++ v.render) := by
    rw [show " and *=" = " and " ++ "*=" by decide]
    simp only [String.append_assoc]
  obtain ⟨hq', -⟩ := Query.whole_of_filter hb hq
  rw [hand, Query.filter_joined hstar hb hvalue hq, Query.filter_joined hb hstar hq hvalue, hq']
  exact ⟨rfl, rfl⟩

/-- A text made to look like the end of its literal, a conjunction and the end of a scope. -/
theorem Value.read_anywhere_quoted :
    let v : Value := .string "\" and a=\\\n\x7d" (some "en-GB") none
    let w : Value := .string " and " none none
    let q := Query.ofSettings (.ofDefault "")
    v.render = "\"\\\" and a=\\\\\\n\x7d\"@en-GB" ∧ (∀ r, read r v.render = .ok v) ∧
      q.filter ("*=" ++ v.render ++ " and " ++ "*=\" and \"") =
        .ok { q with conditions := [.test "*" .equal [v], .test "*" .equal [w]] } ∧
      q.filter ("*=\" and \"" ++ " and *=" ++ v.render) =
        .ok { q with conditions := [.test "*" .equal [w], .test "*" .equal [v]] } := by
  intro v w q
  have htag : Literal.Tag "en-GB".toList :=
    ⟨'e', "n-GB".toList, rfl, by decide, .char (by decide) (.marked (by decide)
      (.char (by decide) .nil))⟩
  have hv : v.WellFormed := ⟨by simp, by rintro _ ⟨⟩; exact htag⟩
  have hw : w.WellFormed := ⟨by simp, by rintro _ ⟨⟩⟩
  have htext : v.render = "\"\\\" and a=\\\\\\n\x7d\"@en-GB" := by decide
  have hmore : "*=" ++ w.render = "*=\" and \"" := by decide
  have hclause := q.filter_value hw rfl
  rw [hmore] at hclause
  obtain ⟨hread, hfilter⟩ := read_anywhere hv rfl
  obtain ⟨hbefore, hbehind⟩ := hfilter q _ "*=\" and \"" (by decide) hclause
  exact ⟨htext, hread, hbefore, hbehind⟩

end LifecycleQuery

import LifecycleQuery.Property.Clause
import LifecycleQuery.Proofs.Grammar.Name
import LifecycleQuery.Proofs.Grammar.Scope
import LifecycleQuery.Proofs.Tree

/-!
# The grammar of properties

`Property.Derives` is the grammar of one property of a property clause: a name, and perhaps a list
of properties in braces. By `nests` its scanner is one of those that `Nests` tells about.
-/

namespace LifecycleQuery

open Text

theorem openScope_eq_some_iff {t u : List Char} : openScope t = some u ↔ Layout t ('{' :: u) := by
  refine ⟨fun h => ?_, ?_⟩
  · unfold openScope at h
    split at h
    · next inner he =>
      cases h
      rw [← he]
      exact layout_skipLayout t
    · cases h
  · intro h
    simp only [openScope, h.skip (by simp [Solid]; decide)]

theorem openScope_eq_none {t : List Char} (h : ∀ c ∈ (skipLayout t).head?, c ≠ '{') :
    openScope t = none := by
  simp only [openScope]
  split
  · next inner he => exact absurd rfl (h '{' (by rw [he]; rfl))
  · rfl

namespace Property

/-- `IDENTIFIER ('{' PROPERTY (',' PROPERTY)* '}')?`, with layout before and inside the braces. -/
inductive Derives : Derivation (Property Name)
  | leaf {t u : List Char} {n : Name} : Front Name.Spells t n u → Derives t (node n []) u
  | scope {t u v w x y : List Char} {n : Name} {ps : List (Property Name)} :
      Front Name.Spells t n u → Layout u ('{' :: v) →
      Layout v w → SepBy Comma Derives w ps x → Layout x ('}' :: y) → Derives t (node n ps) y

abbrev DerivesList : Derivation (List (Property Name)) := SepBy Comma Derives

/-- The properties of a whole clause, with layout around them. -/
abbrev DerivesClause : List Char → List (Property Name) → Prop := Whole DerivesList

/-- Induction on a derivation, with the statement at hand for every property in a scope. -/
theorem Derives.induct {P : Derivation (Property Name)}
    (leaf : ∀ {t u n}, Front Name.Spells t n u → P t (node n []) u)
    (scope : ∀ {t u v w x y n ps}, Front Name.Spells t n u → Layout u ('{' :: v) → Layout v w →
      SepBy Comma (fun t p u => Derives t p u ∧ P t p u) w ps x → Layout x ('}' :: y) →
      P t (node n ps) y)
    {t u : List Char} {p : Property Name} (h : Derives t p u) : P t p u :=
  @Derives.rec (fun t p u _ => P t p u)
    (fun t ps u _ => SepBy Comma (fun t p u => Derives t p u ∧ P t p u) t ps u)
    (fun hn => leaf hn) (fun hn ho hb _ hc ih => scope hn ho hb ih hc)
    (fun h ih => .one ⟨h, ih⟩) (fun h hs _ ih ihs => .more ⟨h, ih⟩ hs ihs) t p u h

theorem derives_shorter {t u : List Char} {p : Property Name} (h : Derives t p u) :
    u.length < t.length := by
  refine Derives.induct (P := fun t _ u => u.length < t.length)
    (fun hn => Name.spells_proper.shorter hn) (fun hn ho hb hl hc => ?_) h
  have h1 := Name.spells_proper.shorter hn
  have h2 := ho.length_le
  have h3 := hb.length_le
  have h4 := hl.shorter comma_separates.shorter fun h => h.2
  have h5 := hc.length_le
  simp only [List.length_cons] at h2 h5
  omega

theorem derives_proper : Proper Derives where
  head h := by
    cases h with
    | leaf hn => exact Name.spells_proper.head hn
    | scope hn _ _ _ _ => exact Name.spells_proper.head hn
  shorter h := derives_shorter h

/-! ## Scanning -/

/-- Behind a name and an opening brace a scope is read. -/
theorem scanOne_brace {inner : Scanner (List (Property Name))} {t u v : List Char} {name : Name}
    (hn : Front Name.Spells t name u) (ho : Layout u ('{' :: v)) :
    scanOne inner t = (inner v).map (node name) := by
  have hname := Name.scan_complete hn (ho.ends (ends_cons.2 (by decide)))
  simp only [scanOne, hname, openScope_eq_some_iff.2 ho]

theorem scanOne_exact {n : Nat} {inner : Scanner (List (Property Name))}
    (hi : Exact (fun _ => True) inner (WithinScope Comma Derives depthAll n)) :
    Exact Follows (scanOne inner) (Within Derives depth n) where
  sound := by
    intro t p u h
    unfold scanOne at h
    split at h
    · cases h
    · next name rest hn =>
      have hname := Name.scan_sound hn
      split at h
      · next body ho =>
        obtain ⟨ps, hb, rfl⟩ := Outcome.map_eq_read.1 h
        obtain ⟨⟨v, w, hv, hl, hw⟩, hd⟩ := hi.sound hb
        refine ⟨.scope hname (openScope_eq_some_iff.1 ho) hv hl hw, ?_⟩
        rw [depth_node hl.ne_nil]
        omega
      · cases h
        exact ⟨.leaf hname, by rw [depth_leaf]; omega⟩
  complete := by
    rintro t p u ⟨h, hd⟩ hu
    cases h with
    | leaf hn =>
      simp only [scanOne, Name.scan_complete hn hu.1, openScope_eq_none hu.2]
    | scope hn ho hb hl hc =>
      rw [depth_node hl.ne_nil] at hd
      rw [scanOne_brace hn ho, hi.complete ⟨⟨_, _, hb, hl, hc⟩, by omega⟩ trivial]
      rfl

theorem nests : Nests comma Comma Derives depth depthAll scanOne scanScope where
  separates := comma_separates
  proper := derives_proper
  depthAll_le_iff := depthAll_le_iff
  scope_zero _ := rfl
  scope_succ _ _ := rfl
  item_exact := scanOne_exact

end Property

end LifecycleQuery

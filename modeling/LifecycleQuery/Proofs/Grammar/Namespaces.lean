import LifecycleQuery.Namespaces
import LifecycleQuery.Proofs.Grammar.Name

/-!
# The grammar of namespaces

A binding is a label, `=` and an IRI in angle brackets. The table of a clause holds nothing but the
bindings that the clause makes.
-/

namespace LifecycleQuery

open Text

namespace Namespaces

/-- `PN_PREFIX '=' IRI_REF`, with layout around the sign. -/
inductive Derives : Derivation Binding
  | intro {u v w x label space : List Char} : Name.Label label → Layout u ('=' :: v) →
      Layout v w → Front SpellsIri w space x →
      Derives (label ++ u) (String.ofList label, String.ofList space) x

theorem derives_proper : Proper Derives where
  head h := by
    obtain ⟨hl, -, -, -⟩ := h
    exact Name.spells_proper.head ⟨_, .bare hl.isLocal, rfl⟩
  shorter h := by
    obtain ⟨hl, hu, hv, hw⟩ := h
    obtain ⟨_, ⟨-⟩, rfl⟩ := hw
    have h1 := hu.length_le
    have h2 := hv.length_le
    simp only [List.length_append, List.length_cons] at h1 h2 ⊢
    omega

theorem scanBinding_exact : Exact (fun _ => True) scanBinding Derives where
  sound := by
    intro t b u h
    unfold scanBinding at h
    split at h
    · cases h
    · next label rest hl =>
      obtain ⟨_, v, hv, h⟩ := Outcome.andThen_eq_read.1 h
      obtain ⟨space, hs, rfl⟩ := Outcome.map_eq_read.1 h
      obtain ⟨hlabel, rfl⟩ := Name.scanPart_sound hl
      have hsign := layout_skipLayout rest
      rw [expect_eq_read.1 hv] at hsign
      exact .intro hlabel hsign (layout_skipLayout v) (scanIri_iff.1 hs)
  complete := by
    rintro _ _ x ⟨hl, hu, hv, hw⟩ -
    have hlabel := Name.scanPart_complete hl ((hu.ends (ends_cons.2 (by decide))).head (by decide))
    simp only [scanBinding, Name.scanLabel, hlabel, hu.skip (by simp [Solid]; decide),
      hv.skip (spellsIri_solid hw), scanIri_iff.2 hw, expect, if_true, Outcome.andThen, Outcome.map]

/-- A clause of bindings with commas between them. -/
abbrev DerivesClause : List Char → List Binding → Prop := Whole (SepBy Comma Derives)

theorem list_proper : Proper (SepBy Comma Derives) :=
  SepBy.proper comma_separates derives_proper

theorem list_exact : Exact Closes (sepBy1 comma scanBinding) (SepBy Comma Derives) :=
  sepBy1_exact comma_separates derives_proper (scanBinding_exact.mono fun _ _ => trivial)

theorem read_ok_iff {text : String} {t : Namespaces} : read text = .ok t ↔
    isBlankText text.toList = true ∧ t = empty ∨
      ∃ bindings, DerivesClause text.toList bindings ∧ t = ofList bindings := by
  simp only [read, Except.map_eq_ok_iff, readList_ok_iff list_proper list_exact]
  constructor
  · rintro ⟨bindings, ⟨hb, rfl⟩ | h, rfl⟩
    · exact .inl ⟨hb, rfl⟩
    · exact .inr ⟨bindings, h, rfl⟩
  · rintro (⟨hb, rfl⟩ | ⟨bindings, h, rfl⟩)
    · exact ⟨[], .inl ⟨hb, rfl⟩, rfl⟩
    · exact ⟨bindings, .inr h, rfl⟩

/-! ## Tables -/

theorem mem_bindLabel {b : Binding} {label space : String} {entries : List Binding}
    (h : b ∈ bindLabel label space entries) : b = (label, space) ∨ b ∈ entries := by
  induction entries with
  | nil => simpa [bindLabel] using h
  | cons e rest ih =>
    obtain ⟨l, s⟩ := e
    by_cases hl : l = label
    · simp only [bindLabel, hl, if_true, List.mem_cons] at h
      rcases h with rfl | h
      · exact .inl rfl
      · exact .inr (List.mem_cons_of_mem _ h)
    · simp only [bindLabel, hl, if_false, List.mem_cons] at h
      rcases h with rfl | h
      · exact .inr List.mem_cons_self
      · exact (ih h).imp_right (List.mem_cons_of_mem _)

theorem mem_insertAll {b : Binding} {t : Namespaces} {bindings : List Binding}
    (h : b ∈ (t.insertAll bindings).entries) : b ∈ t.entries ∨ b ∈ bindings := by
  induction bindings generalizing t with
  | nil => exact .inl h
  | cons c rest ih =>
    rcases ih h with h | h
    · rcases mem_bindLabel h with rfl | h
      · exact .inr List.mem_cons_self
      · exact .inl h
    · exact .inr (List.mem_cons_of_mem _ h)

theorem mem_ofList {b : Binding} {bindings : List Binding} (h : b ∈ (ofList bindings).entries) :
    b ∈ bindings :=
  (mem_insertAll h).resolve_left List.not_mem_nil

/-- A table that was read holds labels and IRIs. -/
theorem read_bindings {text : String} {t : Namespaces} (h : read text = .ok t) :
    ∀ b ∈ t.entries, Name.Label b.1.toList ∧ IsIri b.2.toList := by
  rcases read_ok_iff.1 h with ⟨-, rfl⟩ | ⟨bindings, ⟨_, _, -, hl, -⟩, rfl⟩
  · simp [empty]
  · intro b hb
    obtain ⟨_, _, hd⟩ := hl.exists_of_mem (mem_ofList hb)
    obtain ⟨hlabel, -, -, _, ⟨hspace⟩, -⟩ := hd
    simpa using ⟨hlabel, hspace⟩

end Namespaces

end LifecycleQuery

import LifecycleQuery.Proofs.Grammar.Property
import LifecycleQuery.Proofs.Resolution

/-!
# Braces behind names

`Property.Sited` is the grammar of properties with each name kept beside the text behind it. All
that the grammar derives can be sited in this way, and in a clause a property then has children
exactly if a brace opens behind its name (`exists_sitedClause`): a scope is never empty, and a bare
name is followed by a comma, a closing brace or the end.
-/

namespace LifecycleQuery

open Text

section
variable {α β : Type} {S : List Char → List Char → Prop}

/-- An item of a list is followed by a separator, or by what follows the list. -/
theorem SepBy.followed (hS : ∀ {t u}, S t u → Follows t) {D : Derivation α} {t u : List Char}
    {as : List α} (h : SepBy S (fun t a u => Follows u → D t a u) t as u) (hu : Follows u) :
    SepBy S D t as u := by
  induction h with
  | one hD => exact .one (hD hu)
  | more hD hs _ ih => exact .more (hD (hS hs)) hs (ih hu)

/-- Items that are each derived in another way make a list derived in that way. -/
theorem SepBy.exists_forall₂ {E : Derivation β} {R : β → α → Prop} {t u : List Char}
    {as : List α} (h : SepBy S (fun t a u => ∃ b, E t b u ∧ R b a) t as u) :
    ∃ bs, SepBy S E t bs u ∧ List.Forall₂ R bs as := by
  induction h with
  | one hD =>
    obtain ⟨b, hE, hR⟩ := hD
    exact ⟨[b], .one hE, .cons hR .nil⟩
  | more hD hs _ ih =>
    obtain ⟨b, hE, hR⟩ := hD
    obtain ⟨bs, hl, hRs⟩ := ih
    exact ⟨b :: bs, .more hE hs hl, .cons hR hRs⟩

end

theorem Follows.no_brace {t : List Char} (h : Follows t) (body : List Char) :
    ¬Layout t ('{' :: body) := by
  intro hl
  have hskip : skipLayout t = '{' :: body := hl.skip (by simp [Solid]; decide)
  exact h.2 '{' (by rw [hskip]; rfl) rfl

namespace Property

/-- A name of a clause, and the text behind it. -/
structure Site where
  name : Name
  behind : List Char

/-- The next thing behind the name is an opening brace. -/
def Site.Opens (s : Site) : Prop := ∃ body, Layout s.behind ('{' :: body)

inductive Sited : Derivation (Property Site)
  | leaf {t u : List Char} {n : Name} : Front Name.Spells t n u → Sited t (node ⟨n, u⟩ []) u
  | scope {t u v w x y : List Char} {n : Name} {ss : List (Property Site)} :
      Front Name.Spells t n u → Layout u ('{' :: v) →
      Layout v w → SepBy Comma Sited w ss x → Layout x ('}' :: y) → Sited t (node ⟨n, u⟩ ss) y

/-- The sited properties of a whole clause, with layout around them. -/
abbrev SitedClause : List Char → List (Property Site) → Prop := Whole (SepBy Comma Sited)

/-- The same trees, one with the sites of the names of the other. -/
abbrev SitesOf : Property Site → Property Name → Prop := Resolved fun s n => s.name = n

/-- A brace opens behind the name of a property just if it has children. -/
def Braced (p : Property Site) : Prop := p.children = [] ↔ ¬p.name.Opens

/-- Properties that are sited one by one, each with what follows it, are sited as a list. -/
theorem exists_sitedList {t u : List Char} {ps : List (Property Name)}
    (h : SepBy Comma (fun t p u => Follows u →
      ∃ s, Sited t s u ∧ SitesOf s p ∧ ∀ o ∈ nodes s, Braced o) t ps u) (hu : Follows u) :
    ∃ ss, SepBy Comma Sited t ss u ∧ List.Forall₂ SitesOf ss ps ∧ ∀ o ∈ nodesAll ss, Braced o := by
  obtain ⟨ss, hss, hsites⟩ := (h.followed comma_separates.follows hu).exists_forall₂
  refine ⟨ss, hss, hsites.imp fun _ _ h => h.1, fun o ho => ?_⟩
  obtain ⟨s, hs, hm⟩ := mem_nodesAll.1 ho
  obtain ⟨p, -, -, hbraced⟩ := exists_of_mem_right hsites.flip hs
  exact hbraced o hm

theorem exists_sited {t u : List Char} {p : Property Name} (h : Derives t p u) (hu : Follows u) :
    ∃ s, Sited t s u ∧ SitesOf s p ∧ ∀ o ∈ nodes s, Braced o := by
  revert hu
  refine Derives.induct (P := fun t p u => Follows u →
    ∃ s, Sited t s u ∧ SitesOf s p ∧ ∀ o ∈ nodes s, Braced o) ?_ ?_ h
  · intro t u n hn hu
    refine ⟨node ⟨n, u⟩ [], .leaf hn, .node rfl .nil, fun o ho => ?_⟩
    rcases mem_nodes_node.1 ho with rfl | ⟨q, hq, -⟩
    · exact iff_of_true rfl fun ⟨body, hb⟩ => hu.no_brace body hb
    · cases hq
  · intro t u v w x y n ps hn ho hb hl hc _
    have hx : Follows x := (closes_of_layout hc (.inl rfl)).follows
    obtain ⟨ss, hss, hsites, hbraced⟩ := exists_sitedList (hl.mono fun _ _ _ _ h => h.2) hx
    refine ⟨node ⟨n, u⟩ ss, .scope hn ho hb hss hc, .node rfl hsites, fun o hm => ?_⟩
    rcases mem_nodes_node.1 hm with rfl | hm
    · exact iff_of_false hss.ne_nil fun hno => hno ⟨v, ho⟩
    · exact hbraced o (mem_nodesAll.2 hm)

/-- In a clause the braces opened are those of the properties with children. -/
theorem exists_sitedClause {text : List Char} {ps : List (Property Name)}
    (h : DerivesClause text ps) : ∃ ss, SitedClause text ss ∧ List.Forall₂ SitesOf ss ps ∧
      ∀ o ∈ nodesAll ss, Braced o := by
  obtain ⟨t, u, ht, hl, hu⟩ := h
  obtain ⟨ss, hss, hsites, hbraced⟩ := exists_sitedList
    (hl.mono fun _ _ _ _ h => exists_sited h) (closes_of_layout_nil hu).follows
  exact ⟨ss, ⟨t, u, ht, hss, hu⟩, hsites, hbraced⟩

end Property

end LifecycleQuery

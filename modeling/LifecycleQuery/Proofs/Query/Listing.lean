import LifecycleQuery.Proofs.Acceptance
import LifecycleQuery.Proofs.Grammar.Ending

/-!
# Names in the order of the text

A property clause is read as a tree, whose names are then listed in pre-order. A flat scan that
knows nothing of nesting finds the same names: `spellings` cuts the text at every comma and brace
and keeps what is left of the pieces without the blanks around them. The induction is on the
derivation, with the statement for all blanks around the part of the text that is derived
(`Lists`): two such parts with a comma or a brace between them list what both list (`Lists.join`).
-/

namespace LifecycleQuery

open Text

namespace Name

/-- The characters that names are spelled with. -/
theorem Spells.chars {x : List Char} {n : Name} (h : Spells x n) :
    ∀ c ∈ x, isNameChar c = true ∨ c ∈ ['.', ':', '*'] := by
  have hlocal : ∀ {p : List Char}, Local p → ∀ c ∈ p, isNameChar c = true ∨ c ∈ ['.', ':', '*'] := by
    intro p hp c hc
    rcases hp.chars c hc with h | rfl
    · exact .inl h
    · exact .inr (by decide)
  cases h with
  | all => simp
  | qualified hq =>
    cases hq with
    | intro hl hp =>
      intro c hc
      rcases List.mem_append.1 hc with hc | hc
      · exact hlocal hl.isLocal c hc
      · rcases List.mem_cons.1 hc with rfl | hc
        · exact .inr (by decide)
        · exact hlocal hp c hc
  | bare hp => exact hlocal hp

theorem Spells.ne_nil {x : List Char} {n : Name} (h : Spells x n) : x ≠ [] := by
  rintro rfl
  have hlt := spells_proper.shorter (⟨[], h, rfl⟩ : Front Spells [] n [])
  exact Nat.lt_irrefl _ hlt

/-- What spells a name is that name when read by itself. -/
theorem Spells.ofText_eq {x : List Char} {n : Name} (h : Spells x n) : ofText x = n := by
  cases h with
  | all => rfl
  | qualified hq =>
    cases hq with
    | intro hl hp => exact ofText_qualified hl
  | bare hp => exact ofText_bare hp

end Name

namespace Property

/-! ## The flat scan -/

/-- A comma or a brace. -/
def isDivider (c : Char) : Bool := c == ',' || c == '{' || c == '}'

/-- What stands between commas and braces, without the blanks around it, if anything is left. -/
def spellings (text : List Char) : List (List Char) :=
  ((text.splitOnP isDivider).map trim).filter (!·.isEmpty)

theorem spellings_append {c : Char} (hc : isDivider c = true) (t u : List Char) :
    spellings (t ++ c :: u) = spellings t ++ spellings u := by
  rw [spellings, List.splitOnP_append_cons t u hc, List.map_append, List.filter_append]
  rfl

/-- A text without dividers is one piece. -/
theorem spellings_piece {t : List Char} (h : ∀ c ∈ t, isDivider c = false) :
    spellings t = if trim t = [] then [] else [trim t] := by
  rw [spellings, List.splitOnP_eq_singleton h, List.map_singleton, List.filter_singleton]
  cases trim t <;> simp

theorem isDivider_of_isBlank {c : Char} (h : isBlank c = true) : isDivider c = false := by
  cases hc : isDivider c with
  | false => rfl
  | true =>
    simp only [isDivider, Bool.or_eq_true, beq_iff_eq] at hc
    rcases hc with (rfl | rfl) | rfl <;> exact absurd h (by decide)

theorem spellings_blank {t : List Char} (h : isBlankText t = true) : spellings t = [] := by
  rw [spellings_piece fun c hc => isDivider_of_isBlank (List.all_eq_true.1 h c hc),
    if_pos (trim_eq_nil_iff.2 h)]

/-- No character of a name is a divider or a blank. -/
theorem solid_of_spells {x : List Char} {n : Name} (h : Name.Spells x n) :
    ∀ c ∈ x, isDivider c = false ∧ isBlank c = false := by
  intro c hc
  rcases h.chars c hc with hname | hsign
  · refine ⟨?_, isBlank_of_isFinal (isFinal_of_isNameChar hname)⟩
    cases hd : isDivider c with
    | false => rfl
    | true =>
      simp only [isDivider, Bool.or_eq_true, beq_iff_eq] at hd
      rcases hd with (rfl | rfl) | rfl <;> exact absurd hname (by decide)
  · simp only [List.mem_cons, List.not_mem_nil, or_false] at hsign
    rcases hsign with rfl | rfl | rfl <;> decide

/-- A name is found between any layout. -/
theorem spellings_name {gap x gap' : List Char} {n : Name} (hx : Name.Spells x n)
    (hgap : ∀ c ∈ gap, IsLayout c) (hgap' : ∀ c ∈ gap', IsLayout c) :
    spellings (gap ++ (x ++ gap')) = [x] := by
  have hblank : ∀ c ∈ gap, isBlank c = true := fun c hc => (hgap c hc).isBlank
  have hblank' : ∀ c ∈ gap', isBlank c = true := fun c hc => (hgap' c hc).isBlank
  have htrim := trim_padded hblank (fun c hc => (solid_of_spells hx c hc).2) hblank'
  rw [spellings_piece, htrim, if_neg hx.ne_nil]
  simp only [List.mem_append]
  rintro c (hc | hc | hc)
  · exact isDivider_of_isBlank (hblank c hc)
  · exact (solid_of_spells hx c hc).1
  · exact isDivider_of_isBlank (hblank' c hc)

/-! ## What a derivation lists -/

/-- Between `t` and `u` the flat scan finds the names, whatever layout stands around. -/
def Lists (t : List Char) (ns : List Name) (u : List Char) : Prop :=
  ∃ x, t = x ++ u ∧ ∀ gap gap', (∀ c ∈ gap, IsLayout c) → (∀ c ∈ gap', IsLayout c) →
    (spellings (gap ++ (x ++ gap'))).map Name.ofText = ns

theorem Lists.name {t u : List Char} {n : Name} (h : Front Name.Spells t n u) : Lists t [n] u := by
  obtain ⟨x, hx, rfl⟩ := h
  refine ⟨x, rfl, fun gap gap' hgap hgap' => ?_⟩
  rw [spellings_name hx hgap hgap', List.map_singleton, hx.ofText_eq]

theorem Lists.nothing (t : List Char) : Lists t [] t := by
  refine ⟨[], rfl, fun gap gap' hgap hgap' => ?_⟩
  have hall : ∀ c ∈ gap ++ gap', isBlank c = true := by
    intro c hc
    rcases List.mem_append.1 hc with hc | hc
    · exact (hgap c hc).isBlank
    · exact (hgap' c hc).isBlank
  rw [List.nil_append, spellings_blank (List.all_eq_true.2 hall), List.map_nil]

/-- Two parts with a divider between them list what both list. -/
theorem Lists.join {c : Char} (hc : isDivider c = true) {t u v w y : List Char} {ns ms : List Name}
    (h : Lists t ns u) (hu : Layout u (c :: v)) (hv : Layout v w) (h' : Lists w ms y) :
    Lists t (ns ++ ms) y := by
  obtain ⟨x, rfl, hx⟩ := h
  obtain ⟨before, hbefore, rfl⟩ := hu
  obtain ⟨behind, hbehind, rfl⟩ := hv
  obtain ⟨z, rfl, hz⟩ := h'
  refine ⟨x ++ (before ++ c :: (behind ++ z)), by simp, fun gap gap' hgap hgap' => ?_⟩
  have hsplit : gap ++ (x ++ (before ++ c :: (behind ++ z)) ++ gap') =
      gap ++ (x ++ before) ++ c :: (behind ++ (z ++ gap')) := by simp
  rw [hsplit, spellings_append hc, List.map_append, hx gap before hgap hbefore,
    hz behind gap' hbehind hgap']

theorem Lists.list {t u : List Char} {ps : List (Property Name)}
    (h : SepBy Comma (fun t p u => Derives t p u ∧ Lists t p.names u) t ps u) :
    Lists t (namesAll ps) u := by
  induction h with
  | one hp =>
    rw [namesAll, namesAll, List.append_nil]
    exact hp.2
  | more hp hs _ ih =>
    obtain ⟨v, hv, hv'⟩ := hs
    rw [namesAll]
    exact hp.2.join (by decide) hv hv' ih

/-- The flat scan of a property finds its names in pre-order. -/
theorem derives_lists {t u : List Char} {p : Property Name} (h : Derives t p u) :
    Lists t p.names u := by
  refine Derives.induct (P := fun t p u => Lists t p.names u) (fun hn => ?_)
    (fun hn ho hb hl hc => ?_) h
  · rw [names, namesAll]
    exact .name hn
  · rw [names]
    have hinner := (Lists.name hn).join (by decide) ho hb (.list hl)
    have hscope := hinner.join (by decide) hc ⟨[], by simp, rfl⟩ (.nothing _)
    rwa [List.append_nil] at hscope

/-- The flat scan of a clause finds the names of its tree. -/
theorem clause_lists {text : List Char} {ps : List (Property Name)} (h : DerivesClause text ps) :
    (spellings text).map Name.ofText = namesAll ps := by
  obtain ⟨t, u, ⟨gap, hgap, rfl⟩, hl, ⟨gap', hgap', rfl⟩⟩ := h
  obtain ⟨x, rfl, hx⟩ := Lists.list (hl.mono fun _ _ _ _ hp => ⟨hp, derives_lists hp⟩)
  rw [List.append_nil]
  exact hx gap gap' hgap hgap'

/-! ## Resolved names -/

section
variable {ν μ : Type} {R : ν → μ → Prop}

theorem namesAll_related {ps : List (Property ν)} {qs : List (Property μ)}
    (h : List.Forall₂ (fun p q => List.Forall₂ R p.names q.names) ps qs) :
    List.Forall₂ R (namesAll ps) (namesAll qs) := by
  induction h with
  | nil =>
    rw [namesAll, namesAll]
    exact .nil
  | cons hp _ ih =>
    rw [namesAll, namesAll]
    exact List.rel_append hp ih

/-- A resolved tree has the names of the tree, resolved one by one. -/
theorem Resolved.names {p : Property ν} {q : Property μ} (h : Resolved R p q) :
    List.Forall₂ R p.names q.names := by
  induction p using Property.induct generalizing q with
  | node n ps ih =>
    cases h with
    | node hm hqs =>
      rw [Property.names, Property.names]
      exact .cons hm (namesAll_related (forall₂_imp_mem hqs fun p hp q h => ih p hp h))

theorem resolved_namesAll {ps : List (Property ν)} {qs : List (Property μ)}
    (h : List.Forall₂ (Resolved R) ps qs) : List.Forall₂ R (namesAll ps) (namesAll qs) :=
  namesAll_related (h.imp fun _ _ hpq => hpq.names)

end

end Property

/-- The names that a clause asks for are those of a flat scan of its text, resolved in their order:
none is lost, taken twice or moved. -/
theorem Query.project_lists (q q' : Query) (text : String) (h : q.project text = .ok q') :
    ((Property.spellings text.toList).map String.ofList).mapM q'.resolver.resolveText =
      .ok q'.propertyNames := by
  obtain ⟨qs, hread, rfl⟩ := Except.map_eq_ok_iff.1 h
  have hnames : List.Forall₂ q.resolver.Expands
      ((Property.spellings text.toList).map Name.ofText) (Property.namesAll qs) := by
    rcases Property.read_ok_iff.1 hread with ⟨hblank, rfl⟩ | ⟨ps, hps, -, hqs⟩
    · rw [Property.spellings_blank hblank]
      exact .nil
    · rw [Property.clause_lists hps]
      exact Property.resolved_namesAll hqs
  rw [mapM_eq_ok_iff, List.forall₂_map_left_iff]
  refine (List.forall₂_map_left_iff.1 hnames).imp fun x i hi => ?_
  rw [Resolver.resolveText, String.toList_ofList]
  exact Resolver.expands_iff.1 hi

/-- A name with names in two scopes behind it, and layout around all of them. -/
theorem Query.project_lists_nested :
    let text := " a { b,c {*} } ,\td "
    ∃ q', (ofSettings (.ofDefault "x:")).project text = .ok q' ∧
      q'.propertyNames = ["x:a", "x:b", "x:c", "*", "x:d"] ∧
      ((Property.spellings text.toList).map String.ofList).mapM q'.resolver.resolveText =
        .ok q'.propertyNames := by
  intro text
  have hnames : ((ofSettings (.ofDefault "x:")).project text).toOption.map propertyNames =
      some ["x:a", "x:b", "x:c", "*", "x:d"] := by decide +kernel
  cases hproject : (ofSettings (.ofDefault "x:")).project text with
  | error e =>
    rw [hproject] at hnames
    cases hnames
  | ok q' =>
    rw [hproject] at hnames
    exact ⟨q', rfl, Option.some.inj hnames, project_lists _ q' text hproject⟩

end LifecycleQuery

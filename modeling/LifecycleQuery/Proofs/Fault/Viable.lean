import LifecycleQuery.Proofs.Grammar.Ending

/-!
# Texts that may still be derived

A text is `Viable` for a grammar when more text makes a derivation of it. An outcome is `Justified`
by a grammar when what has been read is derived, and what stands before the place of a failure is
viable; a failure for depth claims nothing but a place in the text. Each scanner is justified by its
own grammar, so none fails behind the first character that no derivation can have there.
-/

namespace LifecycleQuery

open Text

section
variable {α β γ : Type} {D : Derivation α} {E : Derivation β}

/-- With more text behind it `x` is derived, and may stand before any other text. -/
def Viable (D : Derivation α) (x : List Char) : Prop := ∃ y, ∀ v, ∃ a, D (x ++ (y ++ v)) a v

/-- What stands before `rest` is viable. -/
def ViableUpTo (D : Derivation α) (t rest : List Char) : Prop := ∃ x, t = x ++ rest ∧ Viable D x

theorem viableUpTo_start {t : List Char} (y : List Char) (hy : ∀ v, ∃ a, D (y ++ v) a v) :
    ViableUpTo D t t :=
  ⟨[], rfl, y, hy⟩

/-- A part that is viable makes a viable whole, given what may surround a derivation of it. -/
theorem ViableUpTo.extend {x z s rest : List Char} (h : ViableUpTo D s rest)
    (hx : ∀ {s a u}, D s a (z ++ u) → ∃ b, E (x ++ s) b u) : ViableUpTo E (x ++ s) rest := by
  obtain ⟨p, rfl, y, hy⟩ := h
  refine ⟨x ++ p, by rw [List.append_assoc], y ++ z, fun v => ?_⟩
  obtain ⟨a, ha⟩ := hy (z ++ v)
  rw [List.append_assoc, List.append_assoc]
  exact hx ha

theorem ViableUpTo.behind {x s rest : List Char} (h : ViableUpTo D s rest)
    (hx : ∀ {s a u}, D s a u → ∃ b, E (x ++ s) b u) : ViableUpTo E (x ++ s) rest :=
  h.extend (z := []) hx

/-- Behind what is derived a text is viable as far as a beginning of what comes next may stand. -/
theorem Movable.viableUpTo {x z t u v : List Char} (h : Movable D t u) (hu : Layout u v)
    (hz : ∀ {s a u w}, D s a u → Layout u (z ++ w) → ∃ b, E (x ++ s) b w) :
    ViableUpTo E (x ++ t) v := by
  obtain ⟨y, rfl, hy⟩ := h
  obtain ⟨gap, hgap, rfl⟩ := hu
  refine ⟨x ++ (y ++ gap), by simp, z, fun w => ?_⟩
  obtain ⟨a, ha⟩ := hy (gap ++ (z ++ w))
  rw [List.append_assoc, List.append_assoc]
  exact hz ha ⟨gap, hgap, rfl⟩

namespace Outcome

/-- What was read of `t` is derived, or what stands before the place of the failure is viable. -/
def Justified (D : Derivation α) (t : List Char) : Outcome β → Prop
  | read _ u => Movable D t u
  | miss rest => ViableUpTo D t rest
  | stop .unexpected rest => ViableUpTo D t rest
  | stop .tooDeep rest => rest <:+ t

theorem Justified.behind {o : Outcome γ} {x s : List Char} (h : o.Justified D s)
    (hx : ∀ {s a u}, D s a u → ∃ b, E (x ++ s) b u) : o.Justified E (x ++ s) := by
  cases o with
  | read c u => exact Movable.behind h hx
  | miss rest => exact ViableUpTo.behind h hx
  | stop why rest =>
    cases why with
    | unexpected => exact ViableUpTo.behind h hx
    | tooDeep => exact List.IsSuffix.trans h (List.suffix_append x s)

theorem Justified.imp {o : Outcome γ} {t : List Char} (h : o.Justified D t)
    (hDE : ∀ {s a u}, D s a u → ∃ b, E s b u) : o.Justified E t :=
  h.behind (x := []) hDE

/-- It does not matter what would have been read. -/
theorem Justified.of_stop {why : Stop} {t rest : List Char}
    (h : (stop why rest : Outcome β).Justified D t) :
    (stop why rest : Outcome γ).Justified D t := by
  cases why <;> exact h

theorem justified_map {f : β → γ} {o : Outcome β} {t : List Char} :
    (o.map f).Justified D t ↔ o.Justified D t := by
  cases o with
  | read b u => exact Iff.rfl
  | miss rest => exact Iff.rfl
  | stop why rest => cases why <;> exact Iff.rfl

theorem justified_commit {o : Outcome β} {t : List Char} :
    o.commit.Justified D t ↔ o.Justified D t := by
  cases o <;> exact Iff.rfl

/-- A failure lies in the text, and so does what is left. -/
theorem Justified.suffix {o : Outcome β} {t : List Char} (h : o.Justified D t) :
    (∀ b u, o = read b u → u <:+ t) ∧ ∀ why rest, o = stop why rest → rest <:+ t := by
  constructor
  · intro b u he
    subst he
    exact Movable.suffix h
  · intro why rest he
    subst he
    cases why with
    | unexpected =>
      obtain ⟨x, rfl, -⟩ := h
      exact List.suffix_append x rest
    | tooDeep => exact h

end Outcome

/-! ## Lists and brackets -/

variable {S : List Char → List Char → Prop} {sep : List Char → Option (List Char)}

theorem moreItems_justified {item : Scanner α} (hS : MovableSep S)
    (hsep : ∀ {t u}, sep t = some u → S t u) (hitem : ∀ t, (item t).Justified D t)
    {t u : List Char} (hm : Movable D t u) : (moreItems sep item u).Justified (SepBy S D) t := by
  have hone : ∀ {s a v}, D s a v → ∃ as, SepBy S D s as v := fun hd => ⟨_, .one hd⟩
  -- `t` is where the last item began: a separator and another item move it on
  fun_induction moreItems sep item u generalizing t with
  | case1 u hs => exact hm.imp hone
  | case2 u v hs a w hi hl ih =>
    have hread := hitem v
    rw [hi] at hread
    obtain ⟨x, rfl, hx⟩ := SepBy.behind_item hS hm (hsep hs)
    rw [Outcome.justified_map]
    exact (ih hread).behind hx
  | case3 u v hs a w hi hl => exact hm.imp hone
  | case4 u v hs w hi => exact hm.imp hone
  | case5 u v hs why w hi =>
    have hstop := hitem v
    rw [hi] at hstop
    obtain ⟨x, rfl, hx⟩ := SepBy.behind_item hS hm (hsep hs)
    exact (Outcome.Justified.of_stop (hstop.imp hone)).behind hx

theorem sepBy1_justified {item : Scanner α} (hS : MovableSep S)
    (hsep : ∀ {t u}, sep t = some u → S t u) (hitem : ∀ t, (item t).Justified D t)
    (t : List Char) : (sepBy1 sep item t).Justified (SepBy S D) t := by
  have hfirst := hitem t
  unfold sepBy1
  cases hi : item t with
  | read a u =>
    rw [hi] at hfirst
    exact Outcome.justified_map.2 (moreItems_justified hS hsep hitem hfirst)
  | miss rest =>
    rw [hi] at hfirst
    exact Outcome.Justified.imp (o := .miss rest) hfirst fun hd => ⟨_, .one hd⟩
  | stop why rest =>
    rw [hi] at hfirst
    exact Outcome.Justified.of_stop (hfirst.imp fun hd => ⟨_, .one hd⟩)

/-- One character is read, or it is missing right here. -/
theorem expect_cases (c : Char) (t : List Char) :
    (∃ u, t = c :: u ∧ expect c t = .read () u) ∨ expect c t = .miss t := by
  cases t with
  | nil => exact .inr rfl
  | cons d u =>
    by_cases h : d = c
    · subst h
      exact .inl ⟨u, rfl, by simp [expect]⟩
    · exact .inr (by simp [expect, h])

/-- Without its closing bracket a text is viable: the bracket is what may come next. -/
theorem enclosed_justified {body : Scanner β} {close : Char}
    (hbody : ∀ t, (body t).Justified D t) (t : List Char) :
    (enclosed body close t).Justified (Enclosed D close) t := by
  have hinner := hbody (skipLayout t)
  obtain ⟨gap, hgap, ht⟩ := layout_skipLayout t
  have hbehind : ∀ {s a u v}, D s a u → Layout u ([close] ++ v) →
      ∃ b, Enclosed D close (gap ++ s) b v := by
    intro s a u v hd hu
    exact ⟨a, s, u, ⟨gap, hgap, rfl⟩, hd, hu⟩
  have hextend : ∀ {s a u}, D s a ([close] ++ u) → ∃ b, Enclosed D close (gap ++ s) b u :=
    fun hd => hbehind hd ⟨[], by simp, rfl⟩
  unfold enclosed
  rw [Outcome.justified_commit]
  cases hr : body (skipLayout t) with
  | read b u =>
    rw [hr] at hinner
    apply Outcome.justified_map.2
    rcases expect_cases close (skipLayout u) with ⟨v, hv, he⟩ | he
    · rw [he]
      exact Enclosed.movable (layout_skipLayout t) hinner (hv ▸ layout_skipLayout u)
    · rw [he, ht]
      exact Movable.viableUpTo hinner (layout_skipLayout u) hbehind
  | miss rest =>
    rw [hr] at hinner
    rw [ht]
    exact ViableUpTo.extend hinner hextend
  | stop why rest =>
    rw [hr] at hinner
    cases why with
    | unexpected =>
      rw [ht]
      exact ViableUpTo.extend hinner hextend
    | tooDeep => exact List.IsSuffix.trans hinner (skipLayout_suffix t)

variable {depth : α → Nat} {depthAll : List α → Nat} {item : Scanner (List α) → Scanner α}
  {scope : Nat → Scanner (List α)}

theorem Nests.scope_justified (h : Nests sep S D depth depthAll item scope) (hS : MovableSep S)
    (hitem : ∀ {n inner}, (∀ t, (inner t).Justified (WithinScope S D depthAll n) t) →
      ∀ t, (item inner t).Justified (Within D depth n) t) (n : Nat) (t : List Char) :
    (scope n t).Justified (WithinScope S D depthAll n) t := by
  induction n generalizing t with
  | zero =>
    rw [h.scope_zero]
    exact List.suffix_refl t
  | succ n ih =>
    rw [h.scope_succ]
    apply (enclosed_justified (sepBy1_justified hS h.separates.sound (hitem ih)) t).imp
    intro s as u he
    exact ⟨as, h.withinScope_succ_iff.2 he⟩

end

/-! ## Tokens -/

theorem Name.front_letter (u : List Char) : Front Spells ('a' :: u) (qualified "" "a") u :=
  ⟨['a'], .bare ⟨'a', [], rfl, by decide, .nil⟩, rfl⟩

theorem front_iri (u : List Char) : Front SpellsIri ("<a>".toList ++ u) ['a'] u :=
  ⟨_, .intro (isIri_of_all (List.cons_ne_nil _ _) rfl), rfl⟩

/-- A bracket with characters behind it is viable: more of them may come, and the closing one. -/
theorem viable_iri {x : List Char} (hx : ∀ c ∈ x, isIriChar c = true) :
    Viable (Front SpellsIri) ('<' :: x) := by
  refine ⟨['a', '>'], fun v =>
    ⟨x ++ ['a'], '<' :: (x ++ ['a']) ++ ['>'], .intro (isIri_iff.2 ⟨by simp, ?_⟩), ?_⟩⟩
  · intro c hc
    rcases List.mem_append.1 hc with hc | hc
    · exact hx c hc
    · cases List.mem_singleton.1 hc
      decide
  · simp

theorem scanIri_justified (t : List Char) : (scanIri t).Justified (Front SpellsIri) t := by
  by_cases ht : ∃ rest, t = '<' :: rest
  · obtain ⟨rest, rfl⟩ := ht
    have hsplit : rest.takeWhile isIriChar ++ rest.dropWhile isIriChar = rest :=
      List.takeWhile_append_dropWhile
    have hall : ∀ c ∈ rest.takeWhile isIriChar, isIriChar c = true :=
      List.all_eq_true.1 List.all_takeWhile
    have hmiss : ViableUpTo (Front SpellsIri) ('<' :: rest) (rest.dropWhile isIriChar) := by
      refine ⟨_, ?_, viable_iri hall⟩
      rw [List.cons_append, hsplit]
    cases hr : scanIri ('<' :: rest) with
    | read i u => exact (scanIri_iff.1 hr).movable
    | miss u =>
      have hu : u = rest.dropWhile isIriChar := by
        simp only [scanIri] at hr
        split at hr <;> cases hr <;> rfl
      rw [hu]
      exact hmiss
    | stop why u =>
      simp only [scanIri] at hr
      split at hr <;> cases hr
  · have hr : scanIri t = .miss t := by
      unfold scanIri
      split
      · next rest => exact absurd ⟨rest, rfl⟩ ht
      · rfl
    rw [hr]
    exact viableUpTo_start "<a>".toList fun v => ⟨['a'], front_iri v⟩

namespace Placed

theorem derives_digit (u : List Char) : ∃ p, Derives ('1' :: u) p u := by
  have hwf : Numeral.WellFormed ⟨none, ['1'], none, none⟩ :=
    ⟨⟨List.cons_ne_nil _ _, List.forall_mem_singleton.2 rfl⟩, by simp, by simp⟩
  exact ⟨⟨_, _⟩, rfl, _, .number hwf, rfl⟩

theorem scan_justified (t : List Char) : (scan t).Justified Derives t := by
  cases hl : Literal.scan t with
  | none =>
    have hs : scan t = .miss t := by
      rw [scan, hl]
      rfl
    rw [hs]
    exact viableUpTo_start ['1'] derives_digit
  | some p =>
    have hs : scan t = .read ⟨p.1, t⟩ p.2 := by
      rw [scan, hl]
      rfl
    rw [hs]
    exact derives_movable (scan_exact.sound hs)

theorem scanList_justified (t : List Char) : (scanList t).Justified DerivesList t :=
  sepBy1_justified comma_movable comma_separates.sound scan_justified t

end Placed

/-! ## Items -/

namespace Property

theorem scanOne_justified {n : Nat} {inner : Scanner (List (Property Name))}
    (hi : ∀ t, (inner t).Justified (WithinScope Comma Derives depthAll n) t) (t : List Char) :
    (scanOne inner t).Justified (Within Derives depth n) t := by
  unfold scanOne
  split
  · exact viableUpTo_start ['a'] fun v => ⟨_, within_leaf (Name.front_letter v)⟩
  · next name rest hn =>
    have hname := Name.scan_sound hn
    split
    · next body ho =>
      obtain ⟨x, rfl, hx⟩ := behind_brace hname (openScope_eq_some_iff.1 ho)
      apply Outcome.justified_map.2
      exact (hi body).behind fun hs => ⟨_, hx hs⟩
    · exact hname.movable.imp fun hs => ⟨_, within_leaf hs⟩

theorem scanScope_justified (n : Nat) (t : List Char) :
    (scanScope n t).Justified (WithinScope Comma Derives depthAll n) t :=
  nests.scope_justified comma_movable scanOne_justified n t

end Property

namespace Condition

theorem derives_equal {n : Nat} {t u v : List Char} {name : Name} (hn : Front Name.Spells t name u)
    (hu : Layout u ("=1".toList ++ v)) : ∃ c, Within Derives depth n t c v := by
  obtain ⟨p, hp⟩ := Placed.derives_digit v
  have ho : Front SpellsOperator ("=1".toList ++ v) .equal ('1' :: v) :=
    ⟨['='], ⟨by decide, rfl⟩, rfl⟩
  exact ⟨_, .compare hn hu ho ⟨[], by simp, rfl⟩ hp, Nat.zero_le n⟩

theorem scanTest_justified {n : Nat} {s t : List Char} {name : Name}
    (hname : Front Name.Spells s name t) :
    (scanTest name t).Justified (Within Derives depth n) s := by
  unfold scanTest
  split
  · next inner hi =>
    obtain ⟨v, hv, hw⟩ := openList_eq_some_iff.1 hi
    obtain ⟨x, rfl, hx⟩ := behind_bracket hname hv hw
    apply Outcome.justified_map.2
    exact (enclosed_justified Placed.scanList_justified inner).behind fun hs => ⟨_, hx hs⟩
  · simp only [scanComparison]
    split
    · exact Movable.viableUpTo (x := []) hname.movable (layout_skipLayout t) derives_equal
    · next op rest ho =>
      obtain ⟨x, rfl, hx⟩ := behind_operator hname (layout_skipLayout t) (scanOperator_sound ho)
        (layout_skipLayout rest)
      apply Outcome.justified_commit.2
      apply Outcome.justified_map.2
      exact (Placed.scan_justified _).behind fun hp => ⟨_, hx hp⟩

theorem scanTerm_justified {n : Nat} {inner : Scanner (List Written)}
    (hi : ∀ t, (inner t).Justified (WithinScope AndWord Derives depthAll n) t) (t : List Char) :
    (scanTerm inner t).Justified (Within Derives depth n) t := by
  unfold scanTerm
  split
  · apply viableUpTo_start "a=1".toList
    intro v
    exact derives_equal (Name.front_letter ("=1".toList ++ v)) ⟨[], by simp, rfl⟩
  · next name rest hn =>
    have hname := Name.scan_sound hn
    split
    · next body ho =>
      obtain ⟨x, rfl, hx⟩ := behind_brace hname (openScope_eq_some_iff.1 ho)
      apply Outcome.justified_map.2
      exact (hi body).behind fun hs => ⟨_, hx hs⟩
    · exact scanTest_justified hname

theorem scanScope_justified (n : Nat) (t : List Char) :
    (scanScope n t).Justified (WithinScope AndWord Derives depthAll n) t :=
  nests.scope_justified andWord_movable scanTerm_justified n t

end Condition

namespace Namespaces

theorem derives_signed {label u v : List Char} (hl : Name.Label label)
    (hu : Layout u ("=<a>".toList ++ v)) : ∃ b, Derives (label ++ u) b v := by
  exact ⟨_, .intro hl hu ⟨[], by simp, rfl⟩ (front_iri v)⟩

theorem scanBinding_justified (t : List Char) : (scanBinding t).Justified Derives t := by
  unfold scanBinding
  split
  · apply viableUpTo_start "a=<a>".toList
    intro v
    have hlabel : Name.Label ['a'] := ⟨'a', [], rfl, by decide, .nil⟩
    show ∃ b, Derives (['a'] ++ ("=<a>".toList ++ v)) b v
    exact derives_signed hlabel ⟨[], by simp, rfl⟩
  · next label rest hl =>
    obtain ⟨hlabel, rfl⟩ := Name.scanPart_sound hl
    rcases expect_cases '=' (skipLayout rest) with ⟨u, hu, he⟩ | he
    · obtain ⟨x, hx, hbehind⟩ :=
        behind_sign hlabel (hu ▸ layout_skipLayout rest) (layout_skipLayout u)
      rw [he, hx]
      apply Outcome.justified_map.2
      exact (scanIri_justified _).behind fun hs => ⟨_, hbehind hs⟩
    · rw [he]
      obtain ⟨gap, hgap, hrest⟩ := layout_skipLayout rest
      refine ⟨label ++ gap, ?_, "=<a>".toList, fun v => ?_⟩
      · rw [List.append_assoc, ← hrest]
      · rw [List.append_assoc]
        exact derives_signed hlabel ⟨gap, hgap, rfl⟩

end Namespaces

end LifecycleQuery

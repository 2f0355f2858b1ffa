import LifecycleQuery.Proofs.Fault.Viable

/-!
# How far a reading gets

What has been derived stays read whatever comes behind it: a scanner takes the longest name or
numeral, so with more text behind it a token may only grow. A reading `Passes` what stands before
`w` when it leaves an end of `w`, and an outcome `Reaches w` when it is not a miss and neither what
is left nor the place of a failure lies before `w`, layout aside. Every scanner reaches what follows
a derivation of its grammar, so no failure lies before the end of a part that is accepted by itself.
-/

namespace LifecycleQuery

open Text

/-! ## Tokens -/

/-- All that stands before `w` is read, and perhaps more. -/
def Passes {β : Type} (o : Option (β × List Char)) (w : List Char) : Prop :=
  ∃ b rest, o = some (b, rest) ∧ rest <:+ w

theorem Chain.rest_suffix {mark : Char} {ok : Char → Bool} {x : List Char} (h : Chain mark ok x)
    (hm : ok mark = false) (w : List Char) : (chain mark ok (x ++ w)).2 <:+ w := by
  induction h with
  | nil => exact ⟨_, chain_append mark ok w⟩
  | char hc _ ih =>
    rw [List.cons_append, chain_cons_ok _ hc]
    exact ih
  | marked hc _ ih =>
    rw [List.cons_append, List.cons_append, chain_cons_mark _ hm hc]
    exact ih

namespace Name

theorem Part.passes {start : Char → Bool} {x : List Char} (h : Part start x) (w : List Char) :
    Passes (scanPart start (x ++ w)) w := by
  obtain ⟨c, cs, rfl, hc, hcs⟩ := part_iff.1 h
  exact ⟨c :: (chain '.' isNameChar (cs ++ w)).1, _, by simp [scanPart, hc],
    hcs.rest_suffix (by decide) w⟩

theorem SpellsQualified.passes {x : List Char} {n : Name} (h : SpellsQualified x n)
    (w : List Char) : Passes (scanQualified (x ++ w)) w := by
  cases h with
  | @intro l p hl hp =>
    have hlabel : scanLabel (l ++ ':' :: (p ++ w)) = some (l, ':' :: (p ++ w)) :=
      scanPart_complete hl (by simp; decide)
    obtain ⟨part, rest, hrest, hw⟩ := hp.passes w
    have hlocal : scanLocal (p ++ w) = some (part, rest) := hrest
    exact ⟨l ++ ':' :: part, rest, by simp [scanQualified, hlabel, hlocal], hw⟩

/-- A label that begins like a local part ends behind it. -/
theorem Local.scanQualified_rest {p x w rest : List Char} (hp : Local p)
    (h : scanQualified (p ++ w) = some (x, rest)) : rest <:+ w := by
  obtain ⟨c, cs, rfl, -, hcs⟩ := part_iff.1 hp
  unfold scanQualified at h
  split at h
  · next label behind hl =>
    obtain ⟨⟨part, v⟩, hv, he⟩ := Option.map_eq_some_iff.1 h
    cases he
    obtain ⟨-, rfl⟩ := scanPart_sound hv
    have hbehind : ':' :: (part ++ rest) <:+ w := by
      simp only [List.cons_append, scanLabel, scanPart] at hl
      split at hl
      · have he : (chain '.' isNameChar (cs ++ w)).2 = ':' :: (part ++ rest) :=
          congrArg Prod.snd (Option.some.inj hl)
        rw [← he]
        exact hcs.rest_suffix (by decide) w
      · cases hl
    exact ((List.suffix_append part rest).trans (List.suffix_cons ':' _)).trans hbehind
  · cases h

theorem Spells.passes {x : List Char} {n : Name} (h : Spells x n) (w : List Char) :
    Passes (scan (x ++ w)) w := by
  have htext : ∀ {y rest}, scanText (x ++ w) = some (y, rest) → rest <:+ w →
      Passes (scan (x ++ w)) w := by
    intro y rest hy hw
    exact ⟨ofText y, rest, by rw [scan, hy]; rfl, hw⟩
  cases h with
  | all => exact htext (y := ['*']) rfl (List.suffix_refl w)
  | qualified hq =>
    obtain ⟨y, rest, hy, hw⟩ := hq.passes w
    refine htext (y := y) ?_ hw
    cases hq with
    | intro hl hp =>
      rw [List.append_assoc] at hy ⊢
      rw [scanText.eq_2 _ fun _ => hl.isLocal.cons_ne, hy]
      rfl
  | bare hp =>
    have hscan : scanText (x ++ w) = (scanQualified (x ++ w)).or (scanLocal (x ++ w)) :=
      scanText.eq_2 _ fun _ => hp.cons_ne
    cases hq : scanQualified (x ++ w) with
    | some r =>
      rw [hq] at hscan
      exact htext hscan (hp.scanQualified_rest hq)
    | none =>
      obtain ⟨y, rest, hy, hw⟩ := hp.passes w
      rw [hq, Option.none_or] at hscan
      exact htext (hscan.trans hy) hw

end Name

namespace Numeral

theorem Digits.passes {ds : List Char} (h : Digits ds) (w : List Char) :
    Passes (scanDigits (ds ++ w)) w := by
  have ht : (ds ++ w).takeWhile Char.isDigit = ds ++ w.takeWhile Char.isDigit :=
    List.takeWhile_append_of_pos h.2
  have hd : (ds ++ w).dropWhile Char.isDigit = w.dropWhile Char.isDigit :=
    List.dropWhile_append_of_pos h.2
  refine ⟨ds ++ w.takeWhile Char.isDigit, w.dropWhile Char.isDigit, ?_, List.dropWhile_suffix _⟩
  simp only [scanDigits, ht, hd]
  split
  · next he => exact absurd (List.append_eq_nil_iff.1 he).1 h.1
  · rfl

theorem scanFraction_suffix (t : List Char) : (scanFraction t).2 <:+ t :=
  ⟨_, (scanFraction_sound t).2⟩

theorem scanExponent_suffix (t : List Char) : (scanExponent t).2 <:+ t :=
  ⟨_, (scanExponent_sound t).2⟩

theorem fraction_rest_suffix {f : Option (List Char)} (hf : ∀ ds ∈ f, Digits ds) (w : List Char) :
    (scanFraction ((f.map ('.' :: ·)).getD [] ++ w)).2 <:+ w := by
  cases f with
  | none => exact scanFraction_suffix w
  | some ds =>
    obtain ⟨digits, rest, hr, hw⟩ := (hf ds rfl).passes w
    show (scanFraction ('.' :: (ds ++ w))).2 <:+ w
    simp only [scanFraction, hr]
    exact hw

theorem exponent_rest_suffix {e : Option Exponent}
    (he : ∀ x ∈ e, (x.mark = 'e' ∨ x.mark = 'E') ∧ Digits x.digits) (w : List Char) :
    (scanExponent ((e.map Exponent.text).getD [] ++ w)).2 <:+ w := by
  cases e with
  | none => exact scanExponent_suffix w
  | some x =>
    obtain ⟨hmark, hds⟩ := he x rfl
    obtain ⟨digits, rest, hr, hw⟩ := hds.passes w
    have htext : (Option.map Exponent.text (some x)).getD [] ++ w =
        x.mark :: (Sign.text x.sign ++ (x.digits ++ w)) := by
      simp [Exponent.text]
    rw [htext]
    simp only [scanExponent, hmark, if_true, hds.sign_scan, hr]
    exact hw

/-- Digits before the other parts of a numeral: only where there are none can they go on. -/
theorem Digits.before {ds x : List Char} (h : Digits ds)
    (hx : ∀ c ∈ x.head?, (!c.isDigit) = true) (w : List Char) : ∃ digits rest,
      scanDigits (ds ++ (x ++ w)) = some (digits, rest) ∧ (rest = x ++ w ∨ x = [] ∧ rest <:+ w) := by
  cases x with
  | nil =>
    obtain ⟨digits, rest, hr, hw⟩ := h.passes w
    exact ⟨digits, rest, hr, .inr ⟨rfl, hw⟩⟩
  | cons c x => exact ⟨ds, c :: x ++ w, scanDigits_complete h hx, .inl rfl⟩

theorem fraction_before {f : Option (List Char)} (hf : ∀ ds ∈ f, Digits ds) {x : List Char}
    (hx : ∀ c ∈ x.head?, (!c.isDigit && c != '.') = true) (w : List Char) :
    (scanFraction ((f.map ('.' :: ·)).getD [] ++ (x ++ w))).2 = x ++ w ∨
      x = [] ∧ (scanFraction ((f.map ('.' :: ·)).getD [] ++ (x ++ w))).2 <:+ w := by
  cases x with
  | nil => exact .inr ⟨rfl, fraction_rest_suffix hf w⟩
  | cons c x => exact .inl (congrArg Prod.snd (scanFraction_complete hf (u := c :: x ++ w) hx))

theorem WellFormed.passes {n : Numeral} (h : n.WellFormed) (w : List Char) :
    Passes (scan (n.text ++ w)) w := by
  have hend : Ends [] := by simp [Ends]
  have hfraction := h.head_fraction hend
  have hexponent := h.head_exponent hend
  rw [List.append_nil] at hfraction hexponent
  obtain ⟨digits, rest, hd, hrest⟩ := h.whole.before hfraction w
  have hscan : scan (n.text ++ w) = some (⟨n.sign, digits, (scanFraction rest).1,
      (scanExponent (scanFraction rest).2).1⟩, (scanExponent (scanFraction rest).2).2) := by
    rw [List.append_assoc] at hd
    simp only [scan, text, List.append_assoc, h.whole.sign_scan, hd, Option.map_some]
  refine ⟨_, _, hscan, ?_⟩
  rcases hrest with rfl | ⟨-, hw⟩
  · rw [List.append_assoc]
    rcases fraction_before h.fraction hexponent w with he | ⟨-, hw⟩
    · rw [he]
      exact exponent_rest_suffix h.exponent w
    · exact (scanExponent_suffix _).trans hw
  · exact ((scanExponent_suffix _).trans (scanFraction_suffix _)).trans hw

end Numeral

namespace Literal

theorem scanSuffix_suffix (t : List Char) : (scanSuffix t).2 <:+ t := by
  obtain ⟨y, -, he⟩ := scanSuffix_sound t
  exact ⟨y, he.symm⟩

theorem SpellsSuffix.rest_suffix {y : List Char} {suffix : Suffix} (h : SpellsSuffix y suffix)
    (w : List Char) : (scanSuffix (y ++ w)).2 <:+ w := by
  cases h with
  | none => exact scanSuffix_suffix w
  | language ht =>
    obtain ⟨c, cs, rfl, hc, hcs⟩ := ht
    have hrest := hcs.rest_suffix (by decide) w
    simpa [scanSuffix, scanLanguage, hc] using hrest
  | datatype hq =>
    obtain ⟨z, rest, hz, hw⟩ := hq.passes w
    simpa [scanSuffix, hz] using hw

theorem Spells.passes {x : List Char} {l : Literal} (h : Spells x l) (w : List Char) :
    Passes (scan (x ++ w)) w := by
  cases h with
  | iri hi => exact ⟨_, w, by rw [scan, scanIri_iff.2 ⟨x, hi, rfl⟩]; rfl, List.suffix_refl w⟩
  | isTrue => exact ⟨_, w, scan_true w, List.suffix_refl w⟩
  | isFalse => exact ⟨_, w, scan_false w, List.suffix_refl w⟩
  | number hn =>
    obtain ⟨m, rest, hr, hw⟩ := hn.passes w
    exact ⟨_, rest, scan_number hn hr, hw⟩
  | string hc hs =>
    simp only [List.cons_append, List.append_assoc]
    exact ⟨_, _, scan_string hc _, hs.rest_suffix w⟩

end Literal

/-! ## Outcomes -/

theorem skipLayout_length_le_of_suffix {t w : List Char} (h : t <:+ w) :
    (skipLayout t).length ≤ (skipLayout w).length := by
  obtain ⟨x, rfl⟩ := h
  induction x with
  | nil => exact Nat.le_refl _
  | cons c x ih =>
    by_cases hc : isLayout c = true
    · simpa [skipLayout, hc] using ih
    · have ht := skipLayout_length_le t
      simp [skipLayout, hc] at ht ⊢
      omega

namespace Outcome

variable {α β γ : Type} {D : Derivation α}

/-- Neither what is left nor the place of a failure lies before `w`, layout aside. -/
def Reaches (w : List Char) : Outcome β → Prop
  | read _ u => (skipLayout u).length ≤ (skipLayout w).length
  | miss _ => False
  | stop _ rest => rest.length ≤ (skipLayout w).length

theorem reaches_map {f : β → γ} {o : Outcome β} {w : List Char} :
    (o.map f).Reaches w ↔ o.Reaches w := by
  cases o <;> exact Iff.rfl

theorem Reaches.mono {o : Outcome β} {v w : List Char} (h : o.Reaches v)
    (hvw : (skipLayout v).length ≤ (skipLayout w).length) : o.Reaches w := by
  cases o with
  | read b u => exact Nat.le_trans h hvw
  | miss rest => exact h
  | stop why rest => exact Nat.le_trans h hvw

/-- What starts behind `w` reaches it, unless it is a miss. -/
theorem Justified.reaches {o : Outcome β} {t w : List Char} (h : o.Justified D t)
    (hmiss : ∀ rest, o ≠ miss rest) (ht : t.length ≤ (skipLayout w).length) : o.Reaches w := by
  cases o with
  | read b u =>
    have hu := (h.suffix.1 b u rfl).length_le
    have hskip := skipLayout_length_le u
    show (skipLayout u).length ≤ (skipLayout w).length
    omega
  | miss rest => exact absurd rfl (hmiss rest)
  | stop why rest =>
    have hrest := (h.suffix.2 why rest rfl).length_le
    show rest.length ≤ (skipLayout w).length
    omega

theorem commit_ne_miss (o : Outcome β) (rest : List Char) : o.commit ≠ miss rest := by
  cases o <;> simp [commit]

end Outcome

/-! ## Lists -/

section
variable {α : Type} {sep : List Char → Option (List Char)} {S : List Char → List Char → Prop}
  {item : Scanner α} {D : Derivation α}

/-- What a list needs to know of its separators and items to tell where a text goes wrong. -/
structure Tracked (sep : List Char → Option (List Char)) (S : List Char → List Char → Prop)
    (item : Scanner α) (D : Derivation α) : Prop where
  separates : Separates sep S
  proper : Proper D
  exact : Exact Follows item D
  sep_movable : MovableSep S
  movable : ∀ {t a u}, D t a u → Movable D t u
  sep_le : ∀ {t u}, sep t = some u → u.length ≤ (skipLayout t).length
  justified : ∀ t, (item t).Justified D t
  reaches : ∀ {x a u}, D (x ++ u) a u → ∀ w, (item (x ++ w)).Reaches w

namespace Tracked

theorem moreItems_reaches (h : Tracked sep S item D) (t : List Char) :
    (moreItems sep item t).Reaches t := by
  fun_induction moreItems sep item t with
  | case1 t hs => exact Nat.le_refl _
  | case2 t v hs a w hi hl ih =>
    have hv := h.sep_le hs
    have hw := ((h.justified v).suffix.1 a w hi).length_le
    have hskip := skipLayout_length_le w
    rw [Outcome.reaches_map]
    exact ih.mono (by omega)
  | case3 t v hs a w hi hl => exact Nat.le_refl _
  | case4 t v hs w hi => exact Nat.le_refl _
  | case5 t v hs why w hi =>
    have hv := h.sep_le hs
    have hw := ((h.justified v).suffix.2 why w hi).length_le
    show w.length ≤ (skipLayout t).length
    omega

theorem list_proper (h : Tracked sep S item D) : Proper (SepBy S D) :=
  SepBy.proper h.separates h.proper

theorem list_exact (h : Tracked sep S item D) : Exact Closes (sepBy1 sep item) (SepBy S D) :=
  sepBy1_exact h.separates h.proper h.exact

theorem list_movable (h : Tracked sep S item D) {t u : List Char} {as : List α}
    (hl : SepBy S D t as u) : Movable (SepBy S D) t u :=
  SepBy.movable h.sep_movable (hl.mono fun _ _ _ _ hd => h.movable hd)

theorem list_justified (h : Tracked sep S item D) (t : List Char) :
    (sepBy1 sep item t).Justified (SepBy S D) t :=
  sepBy1_justified h.sep_movable h.separates.sound h.justified t

/-- All items but the last are read as they were derived, as a separator comes behind them. -/
theorem list_reaches (h : Tracked sep S item D) {x u : List Char} {as : List α}
    (hl : SepBy S D (x ++ u) as u) (w : List Char) : (sepBy1 sep item (x ++ w)).Reaches w := by
  generalize ht : x ++ u = t at hl
  induction hl generalizing x with
  | one hd =>
    subst ht
    have hfirst := h.reaches hd w
    unfold sepBy1
    cases hi : item (x ++ w) with
    | read a v =>
      rw [hi] at hfirst
      exact Outcome.reaches_map.2 ((h.moreItems_reaches v).mono hfirst)
    | miss rest =>
      rw [hi] at hfirst
      exact hfirst
    | stop why rest =>
      rw [hi] at hfirst
      exact hfirst
  | more hd hs hl ih =>
    obtain ⟨y, rfl, hy⟩ := h.movable hd
    obtain ⟨z, rfl, hz⟩ := h.sep_movable hs
    obtain ⟨x', rfl, hx'⟩ := h.list_movable hl
    have hx : x = y ++ z ++ x' := by
      rw [← List.append_assoc, ← List.append_assoc] at ht
      exact List.append_cancel_right ht
    subst hx
    have hrest : (sepBy1 sep item (x' ++ w)).Reaches w := ih rfl
    obtain ⟨a, ha⟩ := hy (z ++ (x' ++ w))
    obtain ⟨bs, hbs⟩ := hx' w
    have hsep := hz (x' ++ w)
    have hread := h.exact.complete ha (h.separates.follows hsep)
    have hnext := h.separates.complete hsep (h.list_proper.solid hbs)
    have hlt := h.separates.shorter hsep
    have hshort : ∀ {t a u}, item t = .read a u → u.length < t.length :=
      fun hr => h.proper.shorter (h.exact.sound hr)
    rw [List.append_assoc, List.append_assoc, sepBy1, hread]
    apply Outcome.reaches_map.2
    -- the loop behind the separator does what a list there does, as that is no miss
    cases hr : sepBy1 sep item (x' ++ w) with
    | read cs v =>
      obtain ⟨c, v', hc, -⟩ := Outcome.andThen_eq_read.1 hr
      have hv := hshort hc
      rw [moreItems_eq_sepBy1 hnext hc (by omega)]
      exact hrest
    | miss rest =>
      rw [hr] at hrest
      exact hrest.elim
    | stop why rest =>
      rw [moreItems_eq_stop hnext hlt hshort hr]
      rw [hr] at hrest
      exact hrest

end Tracked

variable {depth : α → Nat} {depthAll : List α → Nat} {nested : Scanner (List α) → Scanner α}
  {scope : Nat → Scanner (List α)}

theorem Nests.scope_ne_miss (h : Nests sep S D depth depthAll nested scope) (n : Nat)
    (t rest : List Char) : scope n t ≠ .miss rest := by
  cases n with
  | zero =>
    rw [h.scope_zero]
    intro he
    cases he
  | succ n =>
    rw [h.scope_succ]
    exact Outcome.commit_ne_miss _ rest

/-- Behind a name and a brace a scope that has been derived is read, whatever comes behind it. -/
theorem Nests.scope_reads (h : Nests sep S D depth depthAll nested scope) (hS : MovableSep S)
    {n : Nat} {t u v w x y : List Char} {name : Name} {as : List α}
    (hn : Front Name.Spells t name u) (ho : Layout u ('{' :: v)) (hb : Layout v w)
    (hl : SepBy S (fun t a u => ∀ n, depth a ≤ n → Movable (Within D depth n) t u) w as x)
    (hc : Layout x ('}' :: y)) (hd : depthAll as < n) : ∃ z, t = z ++ y ∧ ∀ s, ∃ r body bs,
      Front Name.Spells (z ++ s) name r ∧ Layout r ('{' :: body) ∧ scope n body = .read bs s := by
  obtain ⟨p, rfl, hp⟩ := scopeHead_movable hn ho
  obtain ⟨q, rfl, hq⟩ := h.scope_movable hS hb hl hc hd
  refine ⟨p ++ q, by rw [List.append_assoc], fun s => ?_⟩
  obtain ⟨bs, hbs⟩ := hq s
  obtain ⟨r, hr, hopen⟩ := hp (q ++ s)
  rw [List.append_assoc]
  exact ⟨r, q ++ s, bs, hr, hopen, (h.scope_exact n).complete hbs trivial⟩

end

theorem comma_le {t u : List Char} (h : comma t = some u) : u.length ≤ (skipLayout t).length := by
  unfold comma at h
  split at h
  · next rest he =>
    cases h
    have hrest := skipLayout_length_le rest
    rw [he, List.length_cons]
    omega
  · cases h

theorem andWord_le {t u : List Char} (h : andWord t = some u) :
    u.length ≤ (skipLayout t).length := by
  simp only [andWord, Option.bind_eq_some_iff] at h
  obtain ⟨v, ⟨w, hw, hv⟩, hu⟩ := h
  have hlayout := (layout1_sound hu).length_lt
  rw [layout1_eq_skipLayout hw, word_sound hv, List.length_append]
  omega

/-! ## Clauses -/

namespace Property

theorem scanOne_reaches {n : Nat} {x u : List Char} {p : Property Name}
    (h : Within Derives depth n (x ++ u) p u) (w : List Char) :
    (scanOne (scanScope n) (x ++ w)).Reaches w := by
  obtain ⟨h, hd⟩ := h
  generalize ht : x ++ u = t at h
  cases h with
  | leaf hn =>
    obtain ⟨y, hy, he⟩ := hn
    have hx : x = y := List.append_cancel_right (ht.trans he)
    subst hx
    obtain ⟨name, rest, hr, hw⟩ := hy.passes w
    unfold scanOne
    simp only [hr]
    cases ho : openScope rest with
    | none => exact skipLayout_length_le_of_suffix hw
    | some body =>
      -- more text may open a scope behind the name; it begins behind `w`
      have hbody : body.length ≤ (skipLayout w).length := by
        have hskip := skipLayout_length_le_of_suffix hw
        rw [(openScope_eq_some_iff.1 ho).skip (by simp [Solid]; decide), List.length_cons] at hskip
        omega
      apply Outcome.reaches_map.2
      exact (scanScope_justified n body).reaches (nests.scope_ne_miss n body) hbody
  | scope hn ho hb hl hc =>
    rw [depth_node hl.ne_nil] at hd
    obtain ⟨z, hz, hreads⟩ := nests.scope_reads comma_movable hn ho hb
      (hl.mono fun _ _ _ _ hp => derives_movable hp) hc hd
    have hx : x = z := List.append_cancel_right (ht.trans hz)
    subst hx
    obtain ⟨r, body, ps, hr, hopen, hread⟩ := hreads w
    rw [scanOne_brace hr hopen, hread]
    exact Nat.le_refl _

theorem tracked (n : Nat) :
    Tracked comma Comma (scanOne (scanScope n)) (Within Derives depth n) where
  separates := comma_separates
  proper := derives_proper.within n
  exact := nests.item_scope_exact n
  sep_movable := comma_movable
  movable h := derives_movable h.1 n h.2
  sep_le := comma_le
  justified := scanOne_justified (scanScope_justified n)
  reaches := scanOne_reaches

end Property

namespace Condition

theorem scanTerm_reaches {n : Nat} {x u : List Char} {c : Written}
    (h : Within Derives depth n (x ++ u) c u) (w : List Char) :
    (scanTerm (scanScope n) (x ++ w)).Reaches w := by
  obtain ⟨h, hd⟩ := h
  generalize ht : x ++ u = t at h
  cases h with
  | scope hn ho hb hl hc =>
    obtain ⟨z, hz, hreads⟩ := nests.scope_reads andWord_movable hn ho hb
      (hl.mono fun _ _ _ _ hp => derives_movable hp) hc hd
    have hx : x = z := List.append_cancel_right (ht.trans hz)
    subst hx
    obtain ⟨r, body, cs, hr, hopen, hread⟩ := hreads w
    rw [scanTerm_brace hr hopen, hread]
    exact Nat.le_refl _
  | within hn hi ho hb hl hc =>
    obtain ⟨y, rfl, hy⟩ := bracketHead_movable hn hi ho
    obtain ⟨z, rfl, hz⟩ := Enclosed.movable hb (Placed.derivesList_movable hl) hc
    have hx : x = y ++ z := by
      rw [← List.append_assoc] at ht
      exact List.append_cancel_right ht
    subst hx
    obtain ⟨ps, hps⟩ := hz w
    obtain ⟨r, v, hr, hv, hopen⟩ := hy (z ++ w)
    rw [List.append_assoc, scanTerm_bracket hr hv hopen, enclosedValues_exact.complete hps trivial]
    exact Nat.le_refl _
  | compare hn hl ho hr hp =>
    obtain ⟨y, rfl, hy⟩ := operatorHead_movable hn hl ho hr
    obtain ⟨-, z, hz, rfl⟩ := hp
    have hx : x = y ++ z := by
      rw [← List.append_assoc] at ht
      exact List.append_cancel_right ht
    subst hx
    obtain ⟨l, rest, hscan, hw⟩ := hz.passes w
    obtain ⟨r, v, v', hn, hl, ho, hr⟩ := hy (z ++ w)
    have hread : Placed.scan (z ++ w) = .read ⟨l, z ++ w⟩ rest := by
      rw [Placed.scan, hscan]
      rfl
    have hvalue : Placed.Derives (z ++ w) ⟨_, z ++ w⟩ w := ⟨rfl, z, hz, rfl⟩
    rw [List.append_assoc, scanTerm_operator hn hl ho hr hvalue, hread]
    exact skipLayout_length_le_of_suffix hw

theorem tracked (n : Nat) :
    Tracked andWord AndWord (scanTerm (scanScope n)) (Within Derives depth n) where
  separates := andWord_separates
  proper := derives_proper.within n
  exact := nests.item_scope_exact n
  sep_movable := andWord_movable
  movable h := derives_movable h.1 n h.2
  sep_le := andWord_le
  justified := scanTerm_justified (scanScope_justified n)
  reaches := scanTerm_reaches

end Condition

namespace Namespaces

/-- A binding ends with a bracket, so what comes behind it does not matter. -/
theorem scanBinding_reaches {x u : List Char} {b : Binding} (h : Derives (x ++ u) b u)
    (w : List Char) : (scanBinding (x ++ w)).Reaches w := by
  obtain ⟨y, hy, hmove⟩ := derives_movable h
  have hx : x = y := List.append_cancel_right hy
  subst hx
  obtain ⟨c, hc⟩ := hmove w
  rw [scanBinding_exact.complete hc trivial]
  exact Nat.le_refl _

theorem tracked : Tracked comma Comma scanBinding Derives where
  separates := comma_separates
  proper := derives_proper
  exact := scanBinding_exact.mono fun _ _ => trivial
  sep_movable := comma_movable
  movable := derives_movable
  sep_le := comma_le
  justified := scanBinding_justified
  reaches := scanBinding_reaches

end Namespaces

end LifecycleQuery

import LifecycleQuery.Proofs.Grammar.Frame

/-!
# Where derivations end

Every name, literal, list and scope ends with a character that belongs to it: a character of a name,
or one that closes something. `Sealed D t a u` says so of what is derived between `t` and `u`, and
that it is derived as the same thing before any other text. As no such character is a blank, the
blanks around a clause are outside of what is derived, and a clause is a whole with them exactly
when they are layout and it is a whole without them (`whole_append_left_iff`,
`whole_append_right_iff`).
-/

namespace LifecycleQuery

open Text

/-! ## Last characters -/

/-- The characters that names, literals, lists and scopes end with. -/
def isFinal (c : Char) : Bool :=
  isNameChar c || c == '*' || c == '>' || c == '"' || c == ']' || c == '}'

theorem isFinal_of_isNameChar {c : Char} (h : isNameChar c = true) : isFinal c = true := by
  simp [isFinal, h]

theorem isFinal_of_isAlphanum {c : Char} (h : c.isAlphanum = true) : isFinal c = true :=
  isFinal_of_isNameChar (by simp [isNameChar, h])

theorem isBlank_of_isFinal {c : Char} (h : isFinal c = true) : isBlank c = false := by
  simp only [isFinal, isNameChar, Bool.or_eq_true, beq_iff_eq] at h
  rcases h with (((((((h | h) | rfl) | rfl) | rfl) | rfl) | rfl) | rfl)
  · exact Name.isBlank_of_isNameStart (by simp [isNameStart, h])
  · exact Name.isBlank_of_isNameStart (by simp [isNameStart, h])
  all_goals decide

/-- The text has a last character, and that is a final one. -/
def EndsFinal (x : List Char) : Prop := ∃ y c, x = y ++ [c] ∧ isFinal c = true

theorem EndsFinal.append {x : List Char} (h : EndsFinal x) (y : List Char) :
    EndsFinal (y ++ x) := by
  obtain ⟨z, c, rfl, hc⟩ := h
  exact ⟨y ++ z, c, (List.append_assoc _ _ _).symm, hc⟩

theorem EndsFinal.cons {x : List Char} (h : EndsFinal x) (c : Char) : EndsFinal (c :: x) :=
  h.append [c]

theorem endsFinal_singleton {c : Char} (h : isFinal c = true) : EndsFinal [c] := ⟨[], c, rfl, h⟩

theorem endsFinal_of_all {x : List Char} (hne : x ≠ []) (h : ∀ c ∈ x, isFinal c = true) :
    EndsFinal x :=
  ⟨x.dropLast, x.getLast hne, (List.dropLast_concat_getLast hne).symm, h _ (List.getLast_mem hne)⟩

/-- A mark is never the last character of a chain. -/
theorem Chain.endsFinal {mark : Char} {ok : Char → Bool}
    (hok : ∀ {c}, ok c = true → isFinal c = true) {x : List Char} (h : Chain mark ok x) :
    x = [] ∨ EndsFinal x := by
  induction h with
  | nil => exact .inl rfl
  | char hc _ ih =>
    rcases ih with rfl | ih
    · exact .inr (endsFinal_singleton (hok hc))
    · exact .inr (ih.cons _)
  | marked hc _ ih =>
    rcases ih with rfl | ih
    · exact .inr ((endsFinal_singleton (hok hc)).cons _)
    · exact .inr ((ih.cons _).cons _)

theorem Chain.endsFinal_cons {mark : Char} {ok : Char → Bool}
    (hok : ∀ {c}, ok c = true → isFinal c = true) {c : Char} {x : List Char}
    (h : Chain mark ok x) (hc : isFinal c = true) : EndsFinal (c :: x) := by
  rcases h.endsFinal hok with rfl | hx
  · exact endsFinal_singleton hc
  · exact hx.cons c

namespace Name

theorem Local.endsFinal {x : List Char} (h : Local x) : EndsFinal x := by
  obtain ⟨c, cs, rfl, hc, hcs⟩ := h
  exact hcs.endsFinal_cons isFinal_of_isNameChar
    (isFinal_of_isNameChar (isNameChar_of_isNameStart hc))

theorem SpellsQualified.endsFinal {x : List Char} {n : Name} (h : SpellsQualified x n) :
    EndsFinal x := by
  obtain ⟨-, hp⟩ := h
  exact (hp.endsFinal.cons ':').append _

theorem Spells.endsFinal {x : List Char} {n : Name} (h : Spells x n) : EndsFinal x := by
  cases h with
  | all => exact endsFinal_singleton (by decide)
  | qualified hq => exact hq.endsFinal
  | bare hp => exact hp.endsFinal

end Name

theorem SpellsIri.endsFinal {x i : List Char} (h : SpellsIri x i) : EndsFinal x := by
  obtain ⟨-⟩ := h
  exact (endsFinal_singleton (by decide)).append _

theorem Numeral.Digits.endsFinal {ds : List Char} (h : Digits ds) : EndsFinal ds :=
  endsFinal_of_all h.1 fun c hc => isFinal_of_isAlphanum (by simp [Char.isAlphanum, h.2 c hc])

/-- The digits of the last part that a numeral has. -/
theorem Numeral.WellFormed.endsFinal {n : Numeral} (h : n.WellFormed) : EndsFinal n.text := by
  unfold text
  cases he : n.exponent with
  | some e => exact (((h.exponent e he).2.endsFinal.append (Sign.text e.sign)).cons e.mark).append _
  | none =>
    rw [Option.map_none, Option.getD_none, List.append_nil]
    cases hf : n.fraction with
    | some ds => exact ((h.fraction ds hf).endsFinal.cons '.').append _
    | none =>
      rw [Option.map_none, Option.getD_none, List.append_nil]
      exact h.whole.endsFinal.append _

namespace Literal

theorem SpellsSuffix.endsFinal {y : List Char} {suffix : Suffix} (h : SpellsSuffix y suffix) :
    EndsFinal ('"' :: y) := by
  cases h with
  | none => exact endsFinal_singleton (by decide)
  | language ht =>
    obtain ⟨c, cs, rfl, hc, hcs⟩ := ht
    have hfinal : isFinal c = true := isFinal_of_isAlphanum (by simp [Char.isAlphanum, hc])
    have htag := hcs.endsFinal_cons isFinal_of_isAlphanum hfinal
    exact (htag.cons '@').cons '"'
  | datatype hx => exact ((hx.endsFinal.cons '^').cons '^').cons '"'

theorem Spells.endsFinal {x : List Char} {l : Literal} (h : Spells x l) : EndsFinal x := by
  cases h with
  | iri hi => exact hi.endsFinal
  | isTrue => exact ⟨['t', 'r', 'u'], 'e', rfl, by decide⟩
  | isFalse => exact ⟨['f', 'a', 'l', 's'], 'e', rfl, by decide⟩
  | number hn => exact hn.endsFinal
  | string hc hs => exact hs.endsFinal.append _

end Literal

/-! ## Sealed derivations -/

section
variable {α β : Type} {D : Derivation α} {E : Derivation β} {S : List Char → List Char → Prop}

/-- What stands between `t` and `u` ends with a final character, and is derived as the same thing
before any other text. -/
def Sealed (D : Derivation α) : Derivation α := fun t a u =>
  ∃ x c, isFinal c = true ∧ t = x ++ c :: u ∧ ∀ v, D (x ++ c :: v) a v

theorem Front.sealed {R : List Char → α → Prop} {t u : List Char} {a : α}
    (hR : ∀ {x}, R x a → EndsFinal x) (h : Front R t a u) : Sealed (Front R) t a u := by
  obtain ⟨x, hx, rfl⟩ := h
  obtain ⟨y, c, rfl, hc⟩ := hR hx
  exact ⟨y, c, hc, by simp, fun v => ⟨y ++ [c], hx, by simp⟩⟩

theorem Sealed.imp {t u : List Char} {a : α} {b : β} (h : Sealed D t a u)
    (hDE : ∀ {s v}, D s a v → E s b v) : Sealed E t b u := by
  obtain ⟨x, c, hc, rfl, hx⟩ := h
  exact ⟨x, c, hc, rfl, fun v => hDE (hx v)⟩

/-- What is derived behind a beginning makes a whole with it. -/
theorem Sealed.behind {x v u : List Char} {a : α} {b : β} (h : Sealed D v a u)
    (hx : ∀ {s w}, D s a w → E (x ++ s) b w) : Sealed E (x ++ v) b u := by
  obtain ⟨y, c, hc, rfl, hy⟩ := h
  refine ⟨x ++ y, c, hc, (List.append_assoc _ _ _).symm, fun w => ?_⟩
  rw [List.append_assoc]
  exact hx (hy w)

/-- Text may be put behind that stands behind what is derived. -/
theorem Sealed.extend {t u : List Char} {a : α} (h : Sealed D t a u) (e : List Char) :
    D (t ++ e) a (u ++ e) := by
  obtain ⟨x, c, -, rfl, hx⟩ := h
  rw [List.append_assoc, List.cons_append]
  exact hx (u ++ e)

theorem Sealed.movable {t u : List Char} {a : α} (h : Sealed D t a u) : Movable D t u := by
  obtain ⟨x, c, -, rfl, hx⟩ := h
  refine ⟨x ++ [c], by simp, fun v => ⟨a, ?_⟩⟩
  rw [List.append_assoc]
  exact hx v

theorem SepBy.sealed (hS : MovableSep S) {t u : List Char} {as : List α}
    (h : SepBy S (Sealed D) t as u) : Sealed (SepBy S D) t as u := by
  induction h with
  | one hd => exact hd.imp .one
  | @more t u v w a as hd hs _ ih =>
    obtain ⟨x, c, hc, rfl, hx⟩ := hd
    obtain ⟨y, rfl, hy⟩ := hS hs
    have hsplit : x ++ c :: (y ++ v) = (x ++ c :: y) ++ v := by simp
    rw [hsplit]
    apply ih.behind
    intro s w' hl
    rw [List.append_assoc, List.cons_append]
    exact .more (hx (y ++ s)) (hy s) hl

theorem Enclosed.sealed (close : Char) (hclose : isFinal close = true) {t u v w : List Char} {a : α}
    (ht : Layout t u) (h : Sealed D u a v) (hv : Layout v (close :: w)) :
    Sealed (Enclosed D close) t a w := by
  obtain ⟨gap, hgap, rfl⟩ := ht
  obtain ⟨x, c, -, rfl, hx⟩ := h
  obtain ⟨gap', hgap', rfl⟩ := hv
  refine ⟨gap ++ (x ++ c :: gap'), close, hclose, by simp, fun s => ?_⟩
  exact ⟨x ++ c :: (gap' ++ close :: s), gap' ++ close :: s, ⟨gap, hgap, by simp⟩, hx _,
    gap', hgap', rfl⟩

end

theorem Property.derives_sealed {t u : List Char} {p : Property Name} (h : Derives t p u) :
    Sealed Derives t p u := by
  refine Derives.induct (P := fun t p u => Sealed Derives t p u) (fun hn => ?_)
    (fun hn ho hb hl hc => ?_) h
  · exact (Front.sealed Name.Spells.endsFinal hn).imp .leaf
  · have hlist : Sealed (SepBy Comma Derives) _ _ _ :=
      SepBy.sealed comma_movable (hl.mono fun _ _ _ _ hi => hi.2)
    have hscope := Enclosed.sealed '}' (by decide) hb hlist hc
    obtain ⟨x, rfl, hx⟩ := scopeHead_movable hn ho
    apply hscope.behind
    rintro s w ⟨y, z, hy, hl, hz⟩
    obtain ⟨r, hr, hopen⟩ := hx s
    exact .scope hr hopen hy hl hz

theorem Property.derives_movable {t u : List Char} {p : Property Name} (h : Derives t p u) (n : Nat)
    (hn : depth p ≤ n) : Movable (Within Derives depth n) t u := by
  have hsealed : Sealed (Within Derives depth n) t p u :=
    (derives_sealed h).imp fun hs => ⟨hs, hn⟩
  exact hsealed.movable

theorem Namespaces.derives_sealed {t u : List Char} {b : Binding} (h : Derives t b u) :
    Sealed Derives t b u := by
  obtain ⟨hl, hu, hv, hi⟩ := h
  obtain ⟨x, he, hx⟩ := behind_sign hl hu hv
  rw [he]
  exact (Front.sealed SpellsIri.endsFinal hi).behind hx

theorem Namespaces.derives_movable {t u : List Char} {b : Binding} (h : Derives t b u) :
    Movable Derives t u :=
  (derives_sealed h).movable

/-! ## Blanks around a whole -/

section
variable {α : Type} {D : Derivation α}

/-- Of two ways to divide a text into blanks and a rest, the one whose rest does not begin with a
blank has the longer blanks. -/
theorem blanks_prefix {gap gap' t u : List Char} (hgap : ∀ c ∈ gap, isBlank c = true)
    (hu : ∃ c rest, u = c :: rest ∧ isBlank c = false) (h : gap ++ t = gap' ++ u) :
    ∃ more, gap' = gap ++ more ∧ t = more ++ u := by
  rcases List.append_eq_append_iff.1 h with ⟨more, hmore⟩ | ⟨more, rfl, hmore⟩
  · exact ⟨more, hmore⟩
  · obtain ⟨c, rest, rfl, hc⟩ := hu
    cases more with
    | nil => exact ⟨[], by simp, by simpa using hmore.symm⟩
    | cons d more =>
      cases hmore
      rw [hgap c (by simp)] at hc
      cases hc

theorem Layout.extend {t u : List Char} (h : Layout t u) (e : List Char) :
    Layout (t ++ e) (u ++ e) := by
  obtain ⟨gap, hgap, rfl⟩ := h
  exact ⟨gap, hgap, List.append_assoc _ _ _⟩

theorem whole_append_left_iff (hD : Proper D) {gap text : List Char}
    (hgap : ∀ c ∈ gap, isBlank c = true) {a : α} :
    Whole D (gap ++ text) a ↔ (∀ c ∈ gap, IsLayout c) ∧ Whole D text a := by
  constructor
  · rintro ⟨t, u, ⟨gap', hgap', he⟩, hd, hu⟩
    obtain ⟨more, rfl, rfl⟩ := blanks_prefix hgap (hD.head hd) he
    rw [List.forall_mem_append] at hgap'
    exact ⟨hgap'.1, t, u, ⟨more, hgap'.2, rfl⟩, hd, hu⟩
  · rintro ⟨hlayout, t, u, ⟨gap', hgap', rfl⟩, hd, hu⟩
    refine ⟨t, u, ⟨gap ++ gap', ?_, by simp⟩, hd, hu⟩
    exact List.forall_mem_append.2 ⟨hlayout, hgap'⟩

theorem whole_append_right_iff (hD : ∀ {t a u}, D t a u → Sealed D t a u) {gap text : List Char}
    (hgap : ∀ c ∈ gap, isBlank c = true) {a : α} :
    Whole D (text ++ gap) a ↔ (∀ c ∈ gap, IsLayout c) ∧ Whole D text a := by
  constructor
  · rintro ⟨t, u, ⟨before, hbefore, he⟩, hd, ⟨gap', hgap', hu⟩⟩
    obtain ⟨x, c, hc, rfl, hx⟩ := hD hd
    rw [List.append_nil] at hu
    subst hu
    -- seen from the end of the text, the blanks come first
    have hreverse : gap.reverse ++ text.reverse = u.reverse ++ (c :: (before ++ x).reverse) := by
      rw [← List.reverse_append, he]
      simp
    obtain ⟨more, hmore, htext⟩ := blanks_prefix (by simpa using hgap)
      ⟨c, _, rfl, isBlank_of_isFinal hc⟩ hreverse
    have hgap'' : u = more.reverse ++ gap := by simpa using congrArg List.reverse hmore
    have htext' : text = before ++ (x ++ c :: more.reverse) := by
      simpa using congrArg List.reverse htext
    rw [hgap'', List.forall_mem_append] at hgap'
    refine ⟨hgap'.2, x ++ c :: more.reverse, more.reverse, ⟨before, hbefore, htext'⟩, hx _, ?_⟩
    exact ⟨more.reverse, hgap'.1, (List.append_nil _).symm⟩
  · rintro ⟨hlayout, t, u, ⟨before, hbefore, rfl⟩, hd, ⟨gap', hgap', hu⟩⟩
    rw [List.append_nil] at hu
    subst hu
    have ht : Layout (before ++ t) t := ⟨before, hbefore, rfl⟩
    refine ⟨t ++ gap, u ++ gap, ht.extend gap, (hD hd).extend gap, ?_⟩
    exact ⟨u ++ gap, List.forall_mem_append.2 ⟨hgap', hlayout⟩, (List.append_nil _).symm⟩

end

end LifecycleQuery

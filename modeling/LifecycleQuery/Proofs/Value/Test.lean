import LifecycleQuery.Proofs.Value.List

/-!
# Values in tests

A text means the same on its own and behind `*=` in a condition clause, and a list of values the
same on its own and between the brackets of `* in []`: where the one is read, the other is a test
for what was read, and nothing besides (`Value.read_tested`). Behind the name and the operator the
grammar leaves no choice (`Condition.derives_equal_iff`, `Condition.derives_within_iff`), and the
bracket at the end of the text can only be the one that closes the list, as a list ends with a
character of its own. A literal without a value is refused in both places, in the clause at the byte
where it begins.
-/

namespace LifecycleQuery

open Text

/-! ## Texts with one reading -/

theorem Layout.eq_of_solid {t u : List Char} (h : Layout t u) (ht : Solid t) : u = t := by
  obtain ⟨gap, hgap, rfl⟩ := h
  cases gap with
  | nil => rfl
  | cons c gap =>
    have hc : isLayout c = false := ht c rfl
    rw [isLayout_iff.2 (hgap c List.mem_cons_self)] at hc
    cases hc

section
variable {α : Type} {S : List Char → List Char → Prop} {D : Derivation α}

theorem sepBy_singleton_iff {t u : List Char} {a : α} : SepBy S D t [a] u ↔ D t a u := by
  constructor
  · intro h
    cases h with
    | one hD => exact hD
    | more _ _ hl => exact absurd rfl hl.ne_nil
  · exact .one

/-- Without layout in front the whole begins at once. -/
theorem whole_iff_of_solid {t : List Char} (ht : Solid t) {a : α} :
    Whole D t a ↔ ∃ u, D t a u ∧ Layout u [] := by
  constructor
  · rintro ⟨v, u, hv, hD, hu⟩
    rw [hv.eq_of_solid ht] at hD
    exact ⟨u, hD, hu⟩
  · rintro ⟨u, hD, hu⟩
    exact ⟨t, u, ⟨[], by simp, rfl⟩, hD, hu⟩

/-- The bracket at the end of the text closes what is derived up to some bracket with nothing but
layout behind it. -/
theorem enclosed_end_iff {close : Char} (hclose : ¬IsLayout close)
    (hD : ∀ {t a u}, D t a u → Sealed D t a u) {t : List Char} {a : α} :
    (∃ u, Enclosed D close (t ++ [close]) a u ∧ Layout u []) ↔ Whole D t a := by
  constructor
  · rintro ⟨u, ⟨v, w, ⟨gap, hgap, hv⟩, hd, ⟨gap', hgap', hw⟩⟩, hu⟩
    obtain ⟨x, c, -, rfl, hx⟩ := hD hd
    obtain ⟨last, hlast, he⟩ := hu
    rw [List.append_nil] at he
    subst he
    -- were there layout behind the bracket, the text would end with it
    have hnil : u = [] := by
      rcases List.eq_nil_or_concat u with rfl | ⟨before, d, rfl⟩
      · rfl
      · have hd : close = d := by
          have := congrArg List.getLast? hv
          simpa [hw, List.getLast?_append, List.getLast?_cons] using this
        exact absurd (hlast d (by simp)) (hd ▸ hclose)
    subst hnil
    have ht : t = gap ++ (x ++ c :: gap') := by
      have htext : t ++ [close] = gap ++ (x ++ c :: gap') ++ [close] := by simp [hv, hw]
      exact List.append_cancel_right htext
    exact ⟨x ++ c :: gap', gap', ⟨gap, hgap, ht⟩, hx gap', gap', hgap', (List.append_nil _).symm⟩
  · rintro ⟨v, u, hv, hd, hu⟩
    refine ⟨[], ⟨v ++ [close], u ++ [close], hv.extend _, (hD hd).extend _, ?_⟩, [], by simp, rfl⟩
    exact hu.extend [close]

end

/-- A star in front is the wildcard and nothing more. -/
theorem Name.front_star_iff {t u : List Char} {n : Name} :
    Front Spells ('*' :: t) n u ↔ n = .all ∧ u = t := by
  constructor
  · rintro ⟨x, hx, he⟩
    cases hx with
    | all =>
      cases he
      exact ⟨rfl, rfl⟩
    | qualified hq =>
      obtain ⟨hl, -⟩ := hq
      rw [List.append_assoc] at he
      exact absurd he.symm hl.isLocal.cons_ne
    | bare hp => exact absurd he.symm hp.cons_ne
  · rintro ⟨rfl, rfl⟩
    exact ⟨['*'], .all, rfl⟩

namespace Condition

/-- No operator is longer than this one. -/
theorem front_equal_iff {t u : List Char} {op : Operator} :
    Front SpellsOperator ('=' :: t) op u ↔ op = .equal ∧ u = t := by
  constructor
  · rintro ⟨x, ⟨hne, rfl⟩, he⟩
    cases op
    case equal =>
      cases he
      exact ⟨rfl, rfl⟩
    case within => exact absurd rfl hne
    all_goals cases he
  · rintro ⟨rfl, rfl⟩
    exact ⟨['='], ⟨by decide, rfl⟩, rfl⟩

/-! ## Tests of the wildcard -/

theorem derives_equal_iff {t u : List Char} {c : Written} : Derives ('*' :: '=' :: t) c u ↔
    ∃ x p, Layout t x ∧ Placed.Derives x p u ∧ c = .test .all .equal [p] := by
  have hsolid : Solid ('=' :: t) := by
    rintro _ ⟨⟩
    decide
  constructor
  · intro h
    cases h with
    | scope hn ho _ _ _ =>
      obtain ⟨-, rfl⟩ := Name.front_star_iff.1 hn
      cases ho.eq_of_solid hsolid
    | within hn hi _ _ _ _ =>
      obtain ⟨-, rfl⟩ := Name.front_star_iff.1 hn
      cases hi.layout.eq_of_solid hsolid
    | compare hn hl ho hr hp =>
      obtain ⟨rfl, rfl⟩ := Name.front_star_iff.1 hn
      rw [hl.eq_of_solid hsolid] at ho
      obtain ⟨rfl, rfl⟩ := front_equal_iff.1 ho
      exact ⟨_, _, hr, hp, rfl⟩
  · rintro ⟨x, p, hx, hp, rfl⟩
    exact .compare (Name.front_star_iff.2 ⟨rfl, rfl⟩) ⟨[], by simp, rfl⟩
      (front_equal_iff.2 ⟨rfl, rfl⟩) hx hp

theorem derives_within_iff {t u : List Char} {c : Written} :
    Derives ('*' :: ' ' :: ("in".toList ++ ' ' :: '[' :: t)) c u ↔
      ∃ ps, Enclosed Placed.DerivesList ']' t ps u ∧ c = .test .all .within ps := by
  have hskip : skipLayout (' ' :: ("in".toList ++ ' ' :: '[' :: t)) =
      'i' :: 'n' :: ' ' :: '[' :: t := rfl
  constructor
  · intro h
    cases h with
    | scope hn ho _ _ _ =>
      obtain ⟨-, rfl⟩ := Name.front_star_iff.1 hn
      have hopen := ho.skip (by rintro _ ⟨⟩; decide)
      cases hskip.symm.trans hopen
    | within hn hi ho hb hl hc =>
      obtain ⟨rfl, rfl⟩ := Name.front_star_iff.1 hn
      have hword := hi.skip (by rintro _ ⟨⟩; decide)
      cases hskip.symm.trans hword
      have hopen := ho.skip (by rintro _ ⟨⟩; decide)
      cases hopen
      exact ⟨_, ⟨_, _, hb, hl, hc⟩, rfl⟩
    | compare hn hl ho _ _ =>
      obtain ⟨-, rfl⟩ := Name.front_star_iff.1 hn
      obtain ⟨x, hx, rfl⟩ := ho
      obtain ⟨d, rest, hd, hstart⟩ := spellsOperator_head hx _
      rw [hd] at hl
      have hop := hl.skip (by rintro _ ⟨⟩; exact (operator_start d hstart).2.1)
      cases hskip.symm.trans hop
      exact absurd rfl (operator_start 'i' hstart).2.2.2
  · rintro ⟨ps, ⟨x, y, hx, hl, hy⟩, rfl⟩
    have hword : Layout1 (' ' :: ("in".toList ++ ' ' :: '[' :: t))
        ("in".toList ++ ' ' :: '[' :: t) := ⟨' ', [], by decide, by simp, rfl⟩
    have hopen : Layout (' ' :: '[' :: t) ('[' :: t) := ⟨[' '], by simp; decide, rfl⟩
    exact .within (Name.front_star_iff.2 ⟨rfl, rfl⟩) hword hopen hx hl hy

/-! ## What a test says -/

section
variable {r : Resolver}

theorem says_equal_iff {t u : List Char} {d : Filter} : Says r ('*' :: '=' :: t) d u ↔
    ∃ x v, Layout t x ∧ SaysValue r x v u ∧ d = .test "*" .equal [v] := by
  constructor
  · rintro ⟨c, hc, hd⟩
    obtain ⟨x, p, hx, hp, rfl⟩ := derives_equal_iff.1 hc
    cases hd with
    | test hi hvs =>
      cases hi
      obtain ⟨v, _, hv, hnil, rfl⟩ := List.forall₂_cons_left_iff.1 hvs
      rw [List.forall₂_nil_left_iff.1 hnil]
      exact ⟨x, v, hx, ⟨p, hp, hv⟩, rfl⟩
  · rintro ⟨x, v, hx, ⟨p, hp, hv⟩, rfl⟩
    exact ⟨_, derives_equal_iff.2 ⟨x, p, hx, hp, rfl⟩, .test .all (.cons hv .nil)⟩

theorem says_within_iff {t u : List Char} {d : Filter} :
    Says r ('*' :: ' ' :: ("in".toList ++ ' ' :: '[' :: t)) d u ↔
      ∃ vs, Enclosed (SepBy Comma (SaysValue r)) ']' t vs u ∧ d = .test "*" .within vs := by
  constructor
  · rintro ⟨c, hc, hd⟩
    obtain ⟨ps, ⟨x, y, hx, hps, hy⟩, rfl⟩ := derives_within_iff.1 hc
    cases hd with
    | test hi hvs =>
      cases hi
      exact ⟨_, ⟨x, y, hx, sepBy_via_iff.2 ⟨ps, hps, hvs⟩, hy⟩, rfl⟩
  · rintro ⟨vs, ⟨x, y, hx, hl, hy⟩, rfl⟩
    obtain ⟨ps, hps, hvs⟩ := sepBy_via_iff.1 hl
    exact ⟨_, derives_within_iff.2 ⟨ps, ⟨x, y, hx, hps, hy⟩, rfl⟩, .test .all hvs⟩

theorem saysValues_sealed {t u : List Char} {vs : List Value}
    (h : SepBy Comma (SaysValue r) t vs u) : Sealed (SepBy Comma (SaysValue r)) t vs u :=
  SepBy.sealed comma_movable (h.mono fun _ _ _ _ hv => SaysValue.sealed hv)

/-- A clause that begins with the wildcard is not blank. -/
theorem read_star_iff {n : Nat} {t : List Char} {d : Filter} (hd : depth d = 0) :
    read r n (String.ofList ('*' :: t)) = .ok [d] ↔ ∃ u, Says r ('*' :: t) d u ∧ Layout u [] := by
  have hsolid : Solid ('*' :: t) := by
    rintro _ ⟨⟩
    decide
  have hdepth : depthAll [d] ≤ n := by
    rw [depthAll, hd]
    exact Nat.zero_le n
  refine read_ok_iff_says.trans ?_
  rw [String.toList_ofList, whole_iff_of_solid hsolid]
  simp [sepBy_singleton_iff, hdepth]

theorem read_equal_iff {n : Nat} {t : List Char} {v : Value} :
    read r n (String.ofList ('*' :: '=' :: t)) = .ok [.test "*" .equal [v]] ↔
      Whole (SaysValue r) t v := by
  rw [read_star_iff rfl]
  simp only [says_equal_iff]
  constructor
  · rintro ⟨u, ⟨x, w, hx, hw, he⟩, hu⟩
    cases he
    exact ⟨x, u, hx, hw, hu⟩
  · rintro ⟨x, u, hx, hv, hu⟩
    exact ⟨u, ⟨x, v, hx, hv, rfl⟩, hu⟩

theorem read_within_iff {n : Nat} {t : List Char} {vs : List Value} :
    read r n (String.ofList ('*' :: ' ' :: ("in".toList ++ ' ' :: '[' :: (t ++ [']'])))) =
        .ok [.test "*" .within vs] ↔
      Whole (SepBy Comma (SaysValue r)) t vs := by
  have hclose : ¬IsLayout ']' := by decide
  rw [read_star_iff rfl, ← enclosed_end_iff hclose saysValues_sealed]
  simp only [says_within_iff]
  constructor
  · rintro ⟨u, ⟨ws, hws, he⟩, hu⟩
    cases he
    exact ⟨u, hws, hu⟩
  · rintro ⟨u, hvs, hu⟩
    exact ⟨u, ⟨vs, hvs, rfl⟩, hu⟩

end

/-! ## Literals without a value -/

section
variable {r : Resolver} {source start : List Char} {l : Literal}

/-- A test of the wildcard fails with its one value. -/
theorem read_test_eq_error {n : Nat} {t : List Char} {op : Operator} {p : Placed} {e : QueryError}
    (hc : DerivesClause t [.test .all op [p]]) (he : valueIn r t p = .error e) :
    read r n (String.ofList t) = .error e := by
  have hvalues : [p].mapM (valueIn r t) = .error e := by
    rw [List.mapM_cons, he]
    rfl
  have htest : resolveTest r.resolve (valueIn r t) .all op [p] = .error e := by
    unfold resolveTest
    split
    · rw [hvalues]
      rfl
    · rw [hvalues]
      rfl
  rw [← String.toList_ofList (l := t)] at hc
  rw [read_of_derives hc (Nat.zero_le n), String.toList_ofList, resolveAll, resolve, htest]

theorem derivesClause_equal {t : List Char} (h : Whole (Front Literal.Spells) t l) :
    DerivesClause ('*' :: '=' :: t) [.test .all .equal [⟨l, skipLayout t⟩]] := by
  obtain ⟨x, u, hx, hl, hu⟩ := h
  rw [hx.skip (Literal.spells_proper.solid hl)]
  exact ⟨_, u, ⟨[], by simp, rfl⟩, .one (derives_equal_iff.2 ⟨x, _, hx, ⟨rfl, hl⟩, rfl⟩), hu⟩

theorem derivesClause_within {t : List Char} (h : Whole (Front Literal.Spells) t l) :
    DerivesClause ('*' :: ' ' :: ("in".toList ++ ' ' :: '[' :: (t ++ [']'])))
      [.test .all .within [⟨l, skipLayout t ++ [']']⟩]] := by
  obtain ⟨x, u, hx, hl, hu⟩ := h
  have hextended : Front Literal.Spells (x ++ [']']) l (u ++ [']']) :=
    (Front.sealed Literal.Spells.endsFinal hl).extend [']']
  have hlist : Placed.DerivesList (x ++ [']']) [⟨l, x ++ [']']⟩] (u ++ [']']) :=
    .one ⟨rfl, hextended⟩
  have henclosed : Enclosed Placed.DerivesList ']' (t ++ [']']) [⟨l, x ++ [']']⟩] [] :=
    ⟨_, _, hx.extend [']'], hlist, hu.extend [']']⟩
  rw [hx.skip (Literal.spells_proper.solid hl)]
  have htest := derives_within_iff.2 ⟨_, henclosed, rfl⟩
  exact ⟨_, [], ⟨[], by simp, rfl⟩, .one htest, [], by simp, rfl⟩

end

end Condition

namespace Value

variable {r : Resolver}

/-! ## Values on their own -/

theorem saysValue_eq :
    Condition.SaysValue r = Via (Front Literal.Spells) fun l v => l.value r = .ok v := by
  funext t v u
  refine propext ⟨?_, ?_⟩
  · rintro ⟨p, ⟨-, hl⟩, hv⟩
    exact ⟨p.literal, hl, Literal.means_iff.1 hv⟩
  · rintro ⟨l, hl, hv⟩
    exact ⟨⟨l, t⟩, ⟨rfl, hl⟩, Literal.means_iff.2 hv⟩

theorem read_ok_iff_whole {text : String} {v : Value} :
    read r text = .ok v ↔ Whole (Condition.SaysValue r) text.toList v := by
  rw [read_eq_iff (by simp), saysValue_eq]
  constructor
  · rintro ⟨l, ⟨t, u, ht, hl, hu⟩, hv⟩
    exact ⟨t, u, ht, ⟨l, hl, hv⟩, hu⟩
  · rintro ⟨t, u, ht, ⟨l, hl, hv⟩, hu⟩
    exact ⟨l, ⟨t, u, ht, hl, hu⟩, hv⟩

theorem readAll_ok_iff_whole {text : String} {vs : List Value} :
    readAll r text = .ok vs ↔ Whole (SepBy Comma (Condition.SaysValue r)) text.toList vs := by
  rw [saysValue_eq]
  constructor
  · intro h
    obtain ⟨ls, hls⟩ := exists_whole_of_readAll h
    rw [readAll_of_whole hls, mapM_eq_ok_iff] at h
    obtain ⟨t, u, ht, hl, hu⟩ := hls
    exact ⟨t, u, ht, sepBy_via_iff.2 ⟨ls, hl, h⟩, hu⟩
  · rintro ⟨t, u, ht, hl, hu⟩
    obtain ⟨ls, hls, hvs⟩ := sepBy_via_iff.1 hl
    rw [readAll_of_whole ⟨t, u, ht, hls, hu⟩, mapM_eq_ok_iff]
    exact hvs

/-! ## Values in tests -/

theorem equal_text (text : String) : "*=" ++ text = String.ofList ('*' :: '=' :: text.toList) := by
  simp [← String.toList_inj]

theorem within_text (text : String) : "* in [" ++ text ++ "]" =
    String.ofList ('*' :: ' ' :: ("in".toList ++ ' ' :: '[' :: (text.toList ++ [']']))) := by
  simp [← String.toList_inj]

/-- What goes wrong with a literal goes wrong with both tests for it. -/
theorem tested_eq_error {text : String} {l : Literal} {e e' : QueryError}
    (hl : Whole (Front Literal.Spells) text.toList l)
    (hequal : Condition.valueIn r ("*=".toList ++ text.toList) ⟨l, skipLayout text.toList⟩ =
      .error e)
    (hwithin : Condition.valueIn r ("* in [".toList ++ (text.toList ++ [']']))
      ⟨l, skipLayout text.toList ++ [']']⟩ = .error e') (n : Nat) :
    Condition.read r n ("*=" ++ text) = .error e ∧
      Condition.read r n ("* in [" ++ text ++ "]") = .error e' := by
  rw [equal_text, within_text]
  constructor
  · exact Condition.read_test_eq_error (Condition.derivesClause_equal hl) hequal
  · exact Condition.read_test_eq_error (Condition.derivesClause_within hl) hwithin

/-- A text is read as a value exactly when it makes a test for that value and nothing else, and as a
list when it makes a test for that list. Where its datatype has a label that is not known, neither
test is read, for the same label; and where it is a literal without a value, the clause is refused
for the same fault at the first byte of the literal, behind the layout in front of it. -/
theorem read_tested (r : Resolver) (n : Nat) (text : String) :
    (∀ v, Condition.read r n ("*=" ++ text) = .ok [.test "*" .equal [v]] ↔ read r text = .ok v) ∧
    (∀ vs, Condition.read r n ("* in [" ++ text ++ "]") = .ok [.test "*" .within vs] ↔
      readAll r text = .ok vs) ∧
    (∀ label, read r text = .error (.unknownLabel label) →
      Condition.read r n ("*=" ++ text) = .error (.unknownLabel label) ∧
      Condition.read r n ("* in [" ++ text ++ "]") = .error (.unknownLabel label)) ∧
    ∀ gap literal fault, text.toList = gap ++ literal → (∀ c ∈ gap, IsLayout c) →
      (∀ c ∈ literal.head?, ¬IsLayout c) → IsLiteral text →
      read r text = .error (.value fault) →
      Condition.read r n ("*=" ++ text) =
        .error (.clause .conditions ("*=" ++ String.ofList gap).utf8ByteSize (.value fault)) ∧
      Condition.read r n ("* in [" ++ text ++ "]") =
        .error (.clause .conditions ("* in [" ++ String.ofList gap).utf8ByteSize (.value fault)) ∧
      (ClauseFault.value fault).detail = "malformed value: " ++ fault.detail := by
  refine ⟨fun v => ?_, fun vs => ?_, fun label hread => ?_, ?_⟩
  · rw [equal_text, Condition.read_equal_iff, read_ok_iff_whole]
  · rw [within_text, Condition.read_within_iff, readAll_ok_iff_whole]
  · obtain ⟨l, hl, hvalue⟩ := (read_eq_iff (by simp)).1 hread
    exact tested_eq_error hl (Condition.valueIn_unknownLabel hvalue)
      (Condition.valueIn_unknownLabel hvalue) n
  · rintro gap literal fault htext hgap hliteral ⟨l, hl⟩ hread
    rw [read_of_whole hl] at hread
    have hlayout : Layout text.toList literal := ⟨gap, hgap, htext⟩
    have hsolid : Solid literal := by
      intro c hc
      rw [← Bool.not_eq_true, isLayout_iff]
      exact hliteral c hc
    have hstart : skipLayout text.toList = literal := hlayout.skip hsolid
    have hsize (front : String) : (front ++ String.ofList gap).utf8ByteSize =
        byteSize (front.toList ++ gap) := by
      rw [utf8ByteSize_eq, String.toList_append, String.toList_ofList]
    have hequal : offset ("*=".toList ++ text.toList) literal =
        ("*=" ++ String.ofList gap).utf8ByteSize := by
      rw [htext, ← List.append_assoc, offset_append, hsize]
    have hwithin : offset ("* in [".toList ++ (text.toList ++ [']'])) (literal ++ [']']) =
        ("* in [" ++ String.ofList gap).utf8ByteSize := by
      rw [htext, List.append_assoc, ← List.append_assoc, offset_append, hsize]
    obtain ⟨h, h'⟩ := tested_eq_error hl (Condition.valueIn_fault hread)
      (Condition.valueIn_fault hread) n
    rw [hstart, hequal] at h
    rw [hstart, hwithin] at h'
    exact ⟨h, h', rfl⟩

/-- A datatype with a label that nothing binds, and an integer too large behind a line feed. -/
theorem read_tested_refused :
    let r : Resolver := ⟨.empty, .empty, .reject⟩
    let tooLarge : ValueFault := .integerRange "9223372036854775808"
    Condition.read r 0 "*=\"x\"^^a:b" = .error (.unknownLabel "a") ∧
    Condition.read r 0 "* in [\"x\"^^a:b]" = .error (.unknownLabel "a") ∧
    Condition.read r 0 "*=\n9223372036854775808" =
      .error (.clause .conditions 3 (.value tooLarge)) ∧
    Condition.read r 0 "* in [\n9223372036854775808]" =
      .error (.clause .conditions 7 (.value tooLarge)) := by
  intro r tooLarge
  obtain ⟨-, -, hlabel, -⟩ := read_tested r 0 "\"x\"^^a:b"
  obtain ⟨-, -, -, hfault⟩ := read_tested r 0 "\n9223372036854775808"
  obtain ⟨hequal, hwithin⟩ := hlabel "a" (by decide +kernel)
  obtain ⟨hequal', hwithin', -⟩ := hfault ['\n'] "9223372036854775808".toList tooLarge
    (by decide) (isLayout_of_all (by decide)) (by rintro _ ⟨⟩; decide) (by decide)
    (by decide +kernel)
  exact ⟨hequal, hwithin, hequal', hwithin'⟩

end Value

end LifecycleQuery

import LifecycleQuery.Proofs.Acceptance
import LifecycleQuery.Proofs.Fault.Position
import LifecycleQuery.Proofs.Mention

/-!
# Numbers out of range

A condition clause that the grammar derives, and that is not too deep, is resolved; where a server
falls back to a namespace for labels that it does not know, only a number can go wrong in that.
Resolution goes through the tree scope by scope and stops at the first failure. When no name fails,
this is the first failure among the values in the order of the tree (`failure?_resolveAll`), and the
grammar derives the values in the order of the text (`Derives.inOrder`). So a clause is refused at
the leftmost number out of range, however deep that lies (`Query.filter_refused`).
-/

namespace LifecycleQuery

open Text

/-! ## The first failure -/

section
variable {ε α β : Type}

/-- What goes wrong, if anything does. -/
def failure? : Except ε α → Option ε
  | .error e => some e
  | .ok _ => none

theorem failure?_eq_some_iff {x : Except ε α} {e : ε} : failure? x = some e ↔ x = .error e := by
  cases x <;> simp [failure?]

theorem failure?_eq_none_iff {x : Except ε α} : failure? x = none ↔ ∃ a, x = .ok a := by
  cases x <;> simp [failure?]

theorem failure?_map (x : Except ε α) (f : α → β) : failure? (x.map f) = failure? x := by
  cases x <;> rfl

/-- The first attempt comes first. -/
theorem failure?_bind {x : Except ε α} {f : α → Except ε β} {o : Option ε}
    (h : ∀ a, failure? (f a) = o) : failure? (x.bind f) = (failure? x).or o := by
  cases x with
  | error e => rfl
  | ok a => exact h a

theorem failure?_mapM (f : α → Except ε β) (as : List α) :
    failure? (as.mapM f) = as.findSome? fun a => failure? (f a) := by
  induction as with
  | nil => rfl
  | cons a as ih =>
    have hrest : ∀ b, failure? ((as.mapM f).bind fun bs => .ok (b :: bs)) =
        as.findSome? fun a => failure? (f a) := by
      intro b
      rw [← ih]
      cases as.mapM f <;> rfl
    rw [List.mapM_cons, List.findSome?_cons]
    refine (failure?_bind hrest).trans ?_
    cases failure? (f a) <;> rfl

end

namespace Condition

section
variable {ν μ ω υ : Type}

/-- The values of the condition and of those in its scope, in the order of the tree. -/
def leaves (c : Condition ν ω) : List ω := (nodes c).flatMap values

def leavesAll (cs : List (Condition ν ω)) : List ω := cs.flatMap leaves

theorem mem_leavesAll {v : ω} {cs : List (Condition ν ω)} :
    v ∈ leavesAll cs ↔ ∃ c ∈ nodesAll cs, v ∈ c.values := by
  simp only [leavesAll, leaves, List.mem_flatMap, mem_nodesAll]
  constructor
  · rintro ⟨d, hd, c, hc, hv⟩
    exact ⟨c, ⟨d, hd, hc⟩, hv⟩
  · rintro ⟨c, ⟨d, hd, hc⟩, hv⟩
    exact ⟨d, hd, c, hc, hv⟩

/-- The scope itself has no values. -/
theorem leaves_scope (n : ν) (cs : List (Condition ν ω)) : leaves (scope n cs) = leavesAll cs := by
  rw [leaves, nodes, nodesAll_eq_flatMap, List.flatMap_cons, List.flatMap_assoc]
  rfl

theorem leaves_test (n : ν) (op : Operator) (vs : List ω) : leaves (test n op vs) = vs := by
  rw [leaves, nodes, List.flatMap_singleton]
  rfl

variable {f : ν → Except QueryError μ} {g : ω → Except QueryError υ}

/-- Whether the name comes first or the values is no matter, as the name does not fail. -/
theorem failure?_resolveTest {n : ν} (hn : failure? (f n) = none) (op : Operator) (vs : List ω) :
    failure? (resolveTest f g n op vs) = vs.findSome? fun v => failure? (g v) := by
  unfold resolveTest
  split
  · rw [failure?_bind fun ws => (failure?_map _ _).trans hn, failure?_mapM, Option.or_none]
  · rw [failure?_bind fun m => (failure?_map _ _).trans (failure?_mapM g vs), hn, Option.none_or]

/-- What each condition fails with decides what the list fails with. -/
theorem failure?_resolveAll_of_forall {cs : List (Condition ν ω)}
    (h : ∀ c ∈ cs, failure? (resolve f g c) = (leaves c).findSome? fun v => failure? (g v)) :
    failure? (resolveAll f g cs) = (leavesAll cs).findSome? fun v => failure? (g v) := by
  rw [resolveAll_eq_mapM, failure?_mapM]
  induction cs with
  | nil => rfl
  | cons c cs ih =>
    rw [List.forall_mem_cons] at h
    rw [leavesAll, List.flatMap_cons, List.findSome?_append, ← leavesAll, ← ih h.2, ← h.1,
      List.findSome?_cons]
    cases failure? (resolve f g c) <;> rfl

theorem failure?_resolve (c : Condition ν ω) (h : ∀ o ∈ nodes c, failure? (f o.name) = none) :
    failure? (resolve f g c) = (leaves c).findSome? fun v => failure? (g v) := by
  induction c using Condition.induct with
  | scope n cs ih =>
    have hn : failure? (f n) = none := h _ (mem_nodes_scope.2 (.inl rfl))
    have hinner := failure?_resolveAll_of_forall fun c hc =>
      ih c hc fun o ho => h o (mem_nodes_scope.2 (.inr ⟨c, hc, ho⟩))
    rw [resolve_scope, failure?_bind fun ds => (failure?_map _ _).trans hn, Option.or_none,
      leaves_scope, hinner]
  | test n op vs =>
    have hn : failure? (f n) = none := h _ (mem_nodes_test.2 rfl)
    rw [resolve, leaves_test, failure?_resolveTest hn]

/-- When no name fails, the conditions fail with the first of their values that fails. -/
theorem failure?_resolveAll {cs : List (Condition ν ω)}
    (h : ∀ o ∈ nodesAll cs, failure? (f o.name) = none) :
    failure? (resolveAll f g cs) = (leavesAll cs).findSome? fun v => failure? (g v) :=
  failure?_resolveAll_of_forall fun c hc =>
    failure?_resolve c fun o ho => h o (mem_nodesAll.2 ⟨c, hc, ho⟩)

end

end Condition

/-! ## The order of the text -/

namespace Placed

/-- The literals begin in `t`, each behind the end of the one before it, and end before `u`. -/
inductive InOrder : Derivation (List Placed)
  | nil {t u : List Char} : u <:+ t → InOrder t [] u
  | cons {t u v : List Char} {p : Placed} {ps : List Placed} : p.start <:+ t →
      Front Literal.Spells p.start p.literal u → InOrder u ps v → InOrder t (p :: ps) v

namespace InOrder

variable {t u v : List Char} {p q : Placed} {ps qs : List Placed}

theorem mono_left (h : InOrder u ps v) (hu : u <:+ t) : InOrder t ps v := by
  cases h with
  | nil hv => exact .nil (hv.trans hu)
  | cons hp hl hps => exact .cons (hp.trans hu) hl hps

theorem mono_right (h : InOrder t ps u) (hv : v <:+ u) : InOrder t ps v := by
  induction h with
  | nil hu => exact .nil (hv.trans hu)
  | cons hp hl _ ih => exact .cons hp hl (ih hv)

theorem append (h : InOrder t ps u) (h' : InOrder u qs v) : InOrder t (ps ++ qs) v := by
  induction h with
  | nil hu => exact h'.mono_left hu
  | cons hp hl _ ih => exact .cons hp hl (ih h')

theorem of_derives (h : Derives t p u) : InOrder t [p] u := by
  obtain ⟨rfl, hl⟩ := h
  exact .cons (List.suffix_refl _) hl (.nil (List.suffix_refl _))

/-- Lists are derived from left to right. -/
theorem of_sepBy {α : Type} {S : List Char → List Char → Prop} (hS : MovableSep S)
    {f : α → List Placed} {as : List α} (h : SepBy S (fun t a u => InOrder t (f a) u) t as u) :
    InOrder t (as.flatMap f) u := by
  induction h with
  | one ha => simpa using ha
  | more ha hs _ ih => exact ha.append (ih.mono_left (hS.suffix hs))

theorem spelled (h : InOrder t ps u) (hp : p ∈ ps) :
    p.start <:+ t ∧ ∃ w, Front Literal.Spells p.start p.literal w := by
  induction h with
  | nil => cases hp
  | cons hq hl _ ih =>
    rcases List.mem_cons.1 hp with rfl | hp
    · exact ⟨hq, _, hl⟩
    · obtain ⟨hstart, hspelled⟩ := ih hp
      exact ⟨hstart.trans (hl.suffix.trans hq), hspelled⟩

/-- A later literal begins further to the right. -/
theorem suffix_of_append (h : InOrder t (ps ++ p :: qs) u) (hq : q ∈ p :: qs) :
    q.start <:+ p.start := by
  induction ps generalizing t with
  | nil =>
    cases h with
    | cons _ hl hqs =>
      rcases List.mem_cons.1 hq with rfl | hq
      · exact List.suffix_refl _
      · exact (hqs.spelled hq).1.trans hl.suffix
  | cons _ ps ih =>
    cases h with
    | cons _ _ hrest => exact ih hrest

end InOrder

theorem DerivesList.inOrder {t u : List Char} {ps : List Placed} (h : DerivesList t ps u) :
    InOrder t ps u := by
  have hitems : SepBy Comma (fun t p u => InOrder t [p] u) t ps u :=
    h.mono fun _ _ _ _ hp => .of_derives hp
  simpa using InOrder.of_sepBy comma_movable hitems

end Placed

namespace Condition

theorem Derives.inOrder {t u : List Char} {c : Written} (h : Derives t c u) :
    Placed.InOrder t (leaves c) u := by
  refine Derives.induct (P := fun t c u => Placed.InOrder t (leaves c) u)
    (fun hn ho hb hl hc => ?_) (fun hn hw ho hb hl hc => ?_) (fun hn hl ho hr hp => ?_) h
  · rw [leaves_scope]
    have hlist := Placed.InOrder.of_sepBy andWord_movable (hl.mono fun _ _ _ _ hd => hd.2)
    exact (hlist.mono_left (scopeBody_suffix hn ho hb)).mono_right
      ((List.suffix_cons _ _).trans hc.suffix)
  · rw [leaves_test]
    exact (hl.inOrder.mono_left (listBody_suffix hn hw ho hb)).mono_right
      ((List.suffix_cons _ _).trans hc.suffix)
  · rw [leaves_test]
    have hvalue := hr.suffix.trans (ho.suffix.trans (hl.suffix.trans hn.suffix))
    exact (Placed.InOrder.of_derives hp).mono_left hvalue

theorem DerivesClause.inOrder {text : List Char} {cs : List Written} (h : DerivesClause text cs) :
    Placed.InOrder text (leavesAll cs) [] := by
  obtain ⟨t, u, ht, hl, -⟩ := h
  have hlist := Placed.InOrder.of_sepBy andWord_movable (hl.mono fun _ _ _ _ hd => hd.inOrder)
  exact (hlist.mono_left ht.suffix).mono_right List.nil_suffix

end Condition

/-! ## Numbers -/

namespace Literal

/-- A server with a fallback finds fault with numbers alone. -/
theorem exists_value_iff_inRange {r : Resolver} {space : String} (hr : r.unknown = .fallback space)
    {l : Literal} : (∃ v, l.value r = .ok v) ↔ l.InRange := by
  rw [exists_value_iff, hr]
  simp

/-- What is wrong with a number out of range. -/
def rangeFault (n : Numeral) : ValueFault :=
  if n.isInteger then .integerRange n.render else .decimalRange n.render

theorem value_eq_rangeFault {r : Resolver} {n : Numeral} (h : ¬(number n).InRange) :
    (number n).value r = .error (.value (rangeFault n)) := by
  rw [inRange_number_iff] at h
  have hnumber : numberOf n = .error (rangeFault n) := by
    unfold numberOf rangeFault
    by_cases hi : n.isInteger = true
    · rw [if_pos hi] at h ⊢
      rw [if_pos hi, Number.ofInt?, if_neg h]
    · rw [if_neg hi] at h ⊢
      rw [if_neg hi]
      exact if_neg h
  rw [value, hnumber]
  rfl

theorem rangeFault_detail (n : Numeral) : (rangeFault n).detail =
    (if n.isInteger then "integer '" else "decimal '") ++ n.render ++ "' is out of range" := by
  unfold rangeFault
  split <;> rfl

/-- A label is unknown to a strict server, if nothing binds it. -/
theorem value_eq_unknownLabel {r : Resolver} {l : Literal} {label : String}
    (h : l.value r = .error (.unknownLabel label)) : r.unknown = .reject ∧ ¬r.Binds label := by
  cases l with
  | string s suffix =>
    cases suffix with
    | datatype name =>
      rw [value, Except.map_eq_error_iff] at h
      obtain ⟨l, -, he, hunbound, hpolicy⟩ := Resolver.resolve_eq_error h
      cases he
      exact ⟨hpolicy, hunbound⟩
    | _ => cases h
  | number n =>
    rw [value, Except.map_eq_error_iff, Except.mapError_eq_error_iff] at h
    obtain ⟨fault, -, he⟩ := h
    cases he
  | _ => cases h

end Literal

namespace Condition

/-- Behind `before` the number stands in the clause, as a value of one of its conditions. -/
def NumberIn (text before : List Char) (n : Numeral) : Prop :=
  ∃ cs, DerivesClause text cs ∧ ∃ c ∈ nodesAll cs, ∃ after,
    text = before ++ (n.text ++ after) ∧ ⟨.number n, n.text ++ after⟩ ∈ c.values

/-- And it is out of range. -/
def OutOfRangeIn (text before : List Char) (n : Numeral) : Prop :=
  NumberIn text before n ∧ ¬(Literal.number n).InRange

section
variable {r : Resolver} {space : String} {text : List Char} {cs : List Written}

theorem failure?_valueIn_eq_none_iff (hr : r.unknown = .fallback space) {p : Placed} :
    failure? (valueIn r text p) = none ↔ p.literal.InRange := by
  simp only [failure?_eq_none_iff, valueIn_ok_iff, Literal.exists_value_iff_inRange hr]

/-- A number among the values stands where it begins. -/
theorem numberIn_of_mem (h : DerivesClause text cs) {n : Numeral} {start : List Char}
    (hp : ⟨.number n, start⟩ ∈ leavesAll cs) :
    ∃ before, text = before ++ start ∧ NumberIn text before n := by
  obtain ⟨⟨before, rfl⟩, after, x, hx, rfl⟩ := h.inOrder.spelled hp
  cases hx with
  | number hwf =>
    obtain ⟨c, hc, hmem⟩ := mem_leavesAll.1 hp
    exact ⟨before, rfl, cs, h, c, hc, after, rfl, hmem⟩

/-- The clause has one derivation at most, so the number is among its values. -/
theorem NumberIn.mem (h : DerivesClause text cs) {before : List Char} {n : Numeral}
    (hn : NumberIn text before n) :
    ∃ start, text = before ++ start ∧ ⟨.number n, start⟩ ∈ leavesAll cs := by
  obtain ⟨cs', h', c, hc, after, htext, hmem⟩ := hn
  rw [nests.unique h' h] at hc
  exact ⟨_, htext, mem_leavesAll.2 ⟨c, hc, hmem⟩⟩

/-- With a fallback the first of the values to fail is the leftmost number out of range. -/
theorem first_outOfRange (hr : r.unknown = .fallback space) (h : DerivesClause text cs)
    {e : QueryError}
    (he : (leavesAll cs).findSome? (fun p => failure? (valueIn r text p)) = some e) :
    ∃ before n, OutOfRangeIn text before n ∧
      (∀ before' n', OutOfRangeIn text before' n' → before <+: before') ∧
      e = .clause .conditions (byteSize before) (.value (Literal.rangeFault n)) := by
  obtain ⟨ps, ⟨l, start⟩, qs, hcs, hp, hps⟩ := List.findSome?_eq_some_iff.1 he
  have hrange : ¬l.InRange := by
    intro hl
    rw [(failure?_valueIn_eq_none_iff hr).2 hl] at hp
    cases hp
  obtain ⟨n, rfl⟩ : ∃ n, l = .number n := by
    cases l with
    | number n => exact ⟨n, rfl⟩
    | _ => exact absurd trivial hrange
  have horder := h.inOrder
  rw [hcs] at horder
  have hmem : ⟨.number n, start⟩ ∈ leavesAll cs := by
    rw [hcs]
    simp
  obtain ⟨before, htext, hn⟩ := numberIn_of_mem h hmem
  refine ⟨before, n, ⟨hn, hrange⟩, ?_, ?_⟩
  · rintro before' n' ⟨hn', hrange'⟩
    obtain ⟨start', htext', hmem⟩ := hn'.mem h
    rw [hcs, List.mem_append] at hmem
    rcases hmem with hmem | hmem
    · exact absurd ((failure?_valueIn_eq_none_iff hr).1 (hps _ hmem)) hrange'
    · obtain ⟨x, hx⟩ : start' <:+ start := horder.suffix_of_append hmem
      rw [htext, ← hx, ← List.append_assoc] at htext'
      exact ⟨x, List.append_cancel_right htext'⟩
  · rw [failure?_eq_some_iff, valueIn_fault (Literal.value_eq_rangeFault hrange)] at hp
    rw [← Except.error.inj hp, htext, offset_append]

theorem outOfRange_fails (hr : r.unknown = .fallback space) (h : DerivesClause text cs)
    {before : List Char} {n : Numeral} (hn : OutOfRangeIn text before n) :
    ∃ e, (leavesAll cs).findSome? (fun p => failure? (valueIn r text p)) = some e := by
  obtain ⟨start, -, hmem⟩ := hn.1.mem h
  apply Option.ne_none_iff_exists'.1
  intro hnone
  exact hn.2 ((failure?_valueIn_eq_none_iff hr).1 (List.findSome?_eq_none_iff.1 hnone _ hmem))

/-- With a fallback a clause that is not too deep fails as its values do. -/
theorem failure?_read (hr : r.unknown = .fallback space) {source : String} {n : Nat}
    (h : DerivesClause source.toList cs) (hd : depthAll cs ≤ n) : failure? (read r n source) =
      (leavesAll cs).findSome? fun p => failure? (valueIn r source.toList p) := by
  rw [read_of_derives h hd, failure?_resolveAll]
  intro o _
  rw [failure?_eq_none_iff, Resolver.exists_resolve_iff, hr]
  simp

end

/-- A value fails at the place of its literal, or for the label of its datatype. -/
theorem valueIn_eq_error {r : Resolver} {source : List Char} {p : Placed} {e : QueryError}
    (h : valueIn r source p = .error e) :
    (∃ position fault, e = .clause .conditions position fault) ∨
      ∃ label, e = .unknownLabel label ∧ r.unknown = .reject ∧ ¬r.Binds label := by
  obtain ⟨l, start⟩ := p
  cases hvalue : l.value r with
  | ok v =>
    rw [valueIn_ok_iff.2 hvalue] at h
    cases h
  | error d =>
    rcases Literal.value_eq_error hvalue with ⟨fault, rfl⟩ | ⟨label, rfl⟩
    · rw [valueIn_fault hvalue] at h
      cases h
      exact .inl ⟨_, _, rfl⟩
    · rw [valueIn_unknownLabel hvalue] at h
      cases h
      obtain ⟨hpolicy, hunbound⟩ := Literal.value_eq_unknownLabel hvalue
      exact .inr ⟨label, rfl, hpolicy, hunbound⟩

theorem read_eq_error {r : Resolver} {n : Nat} {text : String} {e : QueryError}
    (h : read r n text = .error e) : (∃ position fault, e = .clause .conditions position fault) ∨
      ∃ label, e = .unknownLabel label ∧ r.unknown = .reject ∧ ¬r.Binds label := by
  rw [read] at h
  cases hread : readList .conditions (scanList n) text.toList with
  | error d =>
    rw [hread] at h
    cases h
    obtain ⟨why, rest, -, rfl⟩ := readList_eq_error hread
    exact .inl ⟨_, _, rfl⟩
  | ok cs =>
    rw [hread] at h
    obtain ⟨o, -, hname | ⟨p, -, hvalue⟩⟩ := resolveAll_eq_error h
    · obtain ⟨label, -, rfl, hunbound, hpolicy⟩ := Resolver.resolve_eq_error hname
      exact .inr ⟨label, rfl, hpolicy, hunbound⟩
    · exact valueIn_eq_error hvalue

end Condition

/-- A condition clause is refused at a place of its own, or for a label that nothing binds, if the
server is strict. Of a clause that the grammar derives, and that is not too deep, a server with a
fallback refuses nothing but a number out of range: there is an error exactly when there is such a
number, at whatever depth and place in a list, and the error is at the byte where the leftmost of
them begins, and quotes it. -/
theorem Query.filter_refused (q : Query) (text : String) :
    (∀ e, q.filter text = .error e → (∃ position fault, e = .clause .conditions position fault) ∨
      ∃ label, e = .unknownLabel label ∧ q.settings.unknown = .reject ∧ ¬q.resolver.Binds label) ∧
    ∀ space, q.settings.unknown = .fallback space →
      (trim text.toList = [] ∨ ∃ cs, Condition.DerivesClause text.toList cs ∧
        Condition.depthAll cs ≤ q.settings.maxNesting) →
      ((∃ e, q.filter text = .error e) ↔
        ∃ before n, Condition.OutOfRangeIn text.toList before n) ∧
      ∀ e, q.filter text = .error e → ∃ before n fault,
        Condition.OutOfRangeIn text.toList before n ∧
        (∀ before' n', Condition.OutOfRangeIn text.toList before' n' → before <+: before') ∧
        e = .clause .conditions (String.ofList before).utf8ByteSize fault ∧
        fault.detail = "malformed value: " ++ ((if n.isInteger then "integer '" else "decimal '") ++
          n.render ++ "' is out of range") := by
  simp only [filter, Except.map_eq_error_iff]
  refine ⟨fun e => Condition.read_eq_error, fun space hr => ?_⟩
  rintro (hblank | ⟨cs, hcs, hd⟩)
  · have hnone : ∀ before n, ¬Condition.OutOfRangeIn text.toList before n := by
      rintro before n ⟨⟨cs, hcs, -⟩, -⟩
      rw [trim_eq_nil_iff, hcs.not_blank Condition.nests.list_proper] at hblank
      cases hblank
    have hok : Condition.read q.resolver q.settings.maxNesting text = .ok [] :=
      Condition.read_ok_iff.2 (.inl ⟨trim_eq_nil_iff.1 hblank, rfl⟩)
    simp [hok, hnone]
  · have hread : failure? (Condition.read q.resolver q.settings.maxNesting text) = _ :=
      Condition.failure?_read hr hcs hd
    simp only [← failure?_eq_some_iff, hread]
    refine ⟨⟨?_, ?_⟩, ?_⟩
    · rintro ⟨e, he⟩
      obtain ⟨before, n, hn, -⟩ := Condition.first_outOfRange hr hcs he
      exact ⟨before, n, hn⟩
    · rintro ⟨before, n, hn⟩
      exact Condition.outOfRange_fails hr hcs hn
    · intro e he
      obtain ⟨before, n, hn, hfirst, rfl⟩ := Condition.first_outOfRange hr hcs he
      refine ⟨before, n, _, hn, hfirst, by rw [utf8ByteSize_ofList], ?_⟩
      rw [← Literal.rangeFault_detail]
      rfl

/-- Two numbers out of range, the first of them in the list of a scope. -/
theorem Query.filter_refused_leftmost :
    let q := ofSettings (.ofDefault "")
    let text := "a\x7bb in [1,-1e999]\x7d and c=99999999999999999999"
    q.filter text = .error (.clause .conditions 10 (.value (.decimalRange "-1e999"))) ∧
      ∃ before n, Condition.OutOfRangeIn text.toList before n ∧
        (∀ before' n', Condition.OutOfRangeIn text.toList before' n' → before <+: before') ∧
        (String.ofList before).utf8ByteSize = 10 := by
  intro q text
  have hresult : q.filter text =
      .error (.clause .conditions 10 (.value (.decimalRange "-1e999"))) := by
    rw [filter, Except.map_eq_error_iff, ← failure?_eq_some_iff]
    decide +kernel
  obtain ⟨cs, hcs⟩ : ∃ cs, readList .conditions (Condition.scanList 32) text.toList = .ok cs := by
    rw [← failure?_eq_none_iff]
    decide +kernel
  obtain ⟨hclause, hd⟩ : Condition.DerivesClause text.toList cs ∧ Condition.depthAll cs ≤ 32 := by
    rcases Condition.nests.readList_ok_iff.1 hcs with ⟨hblank, -⟩ | h
    · exact absurd hblank (by decide)
    · exact h
  obtain ⟨-, hfallback⟩ := filter_refused q text
  obtain ⟨before, n, fault, hn, hfirst, he, -⟩ :=
    (hfallback "" rfl (.inr ⟨cs, hclause, hd⟩)).2 _ hresult
  injection he with _ hposition _
  exact ⟨hresult, before, n, hn, hfirst, hposition.symm⟩

end LifecycleQuery

import LifecycleQuery.Proofs.Fault.Reach
import LifecycleQuery.Proofs.Resolution.Related
import LifecycleQuery.Query

/-!
# The place of a fault of form

A clause of the wrong form is refused at a byte that lies between two others. It does not lie before
the end of any part of the text that is a clause by itself, as a reading reaches that far. It does
not lie behind the first mistake, as what stands before it is viable: with another ending it is a
clause. The message tells what stands at the byte. A scope too deep is no mistake of the grammar,
and only the first of the two bounds holds for it.
-/

namespace LifecycleQuery

open Text

/-! ## Lists -/

section
variable {α : Type} {sep : List Char → Option (List Char)} {S : List Char → List Char → Prop}
  {item : Scanner α} {D : Derivation α}

theorem whole_of_viableUpTo {gap t rest : List Char} (hgap : ∀ c ∈ gap, IsLayout c)
    (h : ViableUpTo D t rest) :
    ∃ before more a, gap ++ t = before ++ rest ∧ Whole D (before ++ more) a := by
  obtain ⟨x, rfl, y, hy⟩ := h
  obtain ⟨a, ha⟩ := hy []
  refine ⟨gap ++ x, y, a, by rw [List.append_assoc], x ++ (y ++ []), [], ⟨gap, hgap, by simp⟩, ha, ?_⟩
  exact ⟨[], by simp, rfl⟩

theorem whole_of_movable {gap t u : List Char} (hgap : ∀ c ∈ gap, IsLayout c)
    (h : Movable D t u) : ∃ before a, gap ++ t = before ++ skipLayout u ∧ Whole D before a := by
  obtain ⟨x, rfl, hx⟩ := h
  obtain ⟨gap', hgap', hu⟩ := layout_skipLayout u
  obtain ⟨a, ha⟩ := hx gap'
  refine ⟨gap ++ (x ++ gap'), a, ?_, x ++ gap', gap', ⟨gap, hgap, rfl⟩, ha, gap', hgap', by simp⟩
  rw [List.append_assoc, List.append_assoc, ← hu]

/-- What stands before the place of the failure is a clause, or the beginning of one. -/
theorem Outcome.Justified.whole {β : Type} {o : Outcome β} {gap t rest : List Char} {why : Stop}
    (h : o.Justified D t) (hf : o.FailsAt why rest) (hgap : ∀ c ∈ gap, IsLayout c) :
    ∃ before, gap ++ t = before ++ rest ∧
      (why = .unexpected → ∃ more a, Whole D (before ++ more) a) := by
  cases hf with
  | behind =>
    obtain ⟨before, a, he, hw⟩ := whole_of_movable hgap h
    exact ⟨before, he, fun _ => ⟨[], a, by rw [List.append_nil]; exact hw⟩⟩
  | miss =>
    obtain ⟨before, more, a, he, hw⟩ := whole_of_viableUpTo hgap h
    exact ⟨before, he, fun _ => ⟨more, a, hw⟩⟩
  | stop =>
    cases why with
    | unexpected =>
      obtain ⟨before, more, a, he, hw⟩ := whole_of_viableUpTo hgap h
      exact ⟨before, he, fun _ => ⟨more, a, hw⟩⟩
    | tooDeep =>
      obtain ⟨x, rfl⟩ := h
      refine ⟨gap ++ x, by rw [List.append_assoc], fun hwhy => ?_⟩
      cases hwhy

theorem Outcome.Reaches.length_le {β : Type} {o : Outcome β} {w rest : List Char} {why : Stop}
    (h : o.Reaches w) (hf : o.FailsAt why rest) : rest.length ≤ w.length := by
  have hw := skipLayout_length_le w
  cases hf with
  | behind => exact Nat.le_trans h hw
  | miss => exact h.elim
  | stop => exact Nat.le_trans h hw

namespace Tracked

theorem readList_ok_iff (h : Tracked sep S item D) {clause : Clause} {text : List Char}
    {as : List α} : readList clause (sepBy1 sep item) text = .ok as ↔
      isBlankText text = true ∧ as = [] ∨ Whole (SepBy S D) text as :=
  LifecycleQuery.readList_ok_iff h.list_proper h.list_exact

/-- A list that has been derived is reached by a reading of any longer text. -/
theorem reaches_of_whole (h : Tracked sep S item D) {left right : List Char} {as : List α}
    (hw : Whole (SepBy S D) left as) :
    (sepBy1 sep item (skipLayout (left ++ right))).Reaches right := by
  obtain ⟨t, u, ⟨gap, hgap, rfl⟩, hl, gap', hgap', rfl⟩ := hw
  obtain ⟨x, rfl, hx⟩ := h.list_movable hl
  obtain ⟨bs, hbs⟩ := hx (gap' ++ [] ++ right)
  have hskip : Layout (gap ++ (x ++ (gap' ++ [])) ++ right) (x ++ (gap' ++ [] ++ right)) :=
    ⟨gap, hgap, by simp⟩
  have hright : Layout (gap' ++ [] ++ right) right := ⟨gap', hgap', by simp⟩
  rw [hskip.skip (h.list_proper.solid hbs)]
  exact (h.list_reaches hl _).mono (Nat.le_of_eq (congrArg List.length hright.skipLayout_eq))

/-- A list fails no sooner than at the end of a part that is a list by itself, and no later than
behind the beginning of a list, unless it goes too deep. -/
theorem readList_error (h : Tracked sep S item D) {clause : Clause} {text : List Char}
    {e : QueryError} (he : readList clause (sepBy1 sep item) text = .error e) :
    ∃ before rest why, text = before ++ rest ∧
      e = .clause clause (byteSize before) (.ofStop why rest) ∧
      (∀ left right as, text = left ++ right → isBlankText left = false →
        readList clause (sepBy1 sep item) left = .ok as → left <+: before) ∧
      (why = .unexpected →
        ∃ more as, readList clause (sepBy1 sep item) (before ++ more) = .ok as) := by
  obtain ⟨why, rest, hf, rfl⟩ := readList_eq_error he
  obtain ⟨gap, hgap, htext⟩ := layout_skipLayout text
  obtain ⟨before, hsplit, hviable⟩ := (h.list_justified _).whole hf hgap
  rw [← htext] at hsplit
  refine ⟨before, rest, why, hsplit, by rw [hsplit, offset_append], ?_, fun hwhy => ?_⟩
  · intro left right as hleft hblank hread
    rcases h.readList_ok_iff.1 hread with ⟨hb, -⟩ | hw
    · rw [hblank] at hb
      cases hb
    · have hreach : (sepBy1 sep item (skipLayout (left ++ right))).Reaches right :=
        h.reaches_of_whole hw
      rw [← hleft] at hreach
      have hlen := hreach.length_le hf
      have hboth := congrArg List.length (hleft.symm.trans hsplit)
      rw [List.length_append, List.length_append] at hboth
      have hl : left <+: text := hleft ▸ List.prefix_append left right
      have hb : before <+: text := hsplit ▸ List.prefix_append before rest
      exact List.prefix_of_prefix_length_le hl hb (by omega)
  · obtain ⟨more, as, hw⟩ := hviable hwhy
    exact ⟨more, as, h.readList_ok_iff.2 (.inr hw)⟩

end Tracked

end

/-! ## Messages -/

/-- The error is about the form of a clause, and not about a value in it. -/
def QueryError.OfForm : QueryError → Prop
  | clause _ _ fault => ¬"malformed value: ".toList <+: fault.detail.toList
  | _ => False

theorem ClauseFault.detail_before {rest : List Char} (h : rest ≠ []) :
    (before rest).detail = "unexpected input at: '" ++ String.ofList (rest.take 20) ++ "'" := by
  cases rest with
  | nil => exact absurd rfl h
  | cons c rest => rfl

theorem ClauseFault.detail_eq_end_iff {rest : List Char} :
    (before rest).detail = "unexpected end of input" ↔ rest = [] := by
  constructor
  · intro h
    by_contra hrest
    rw [detail_before hrest] at h
    have hc := congrArg (fun s => s.toList[11]?) h
    simp at hc
  · intro h
    subst h
    rfl

theorem byteSize_eq_zero_iff {text : List Char} : byteSize text = 0 ↔ text = [] := by
  cases text with
  | nil => simp
  | cons c rest =>
    have hc := Char.utf8Size_pos c
    simp
    omega

/-- The message tells the end of the text from a place within it, of which it shows a little. -/
theorem ClauseFault.detail_at {text start rest : List Char} (h : text = start ++ rest) :
    ((before rest).detail = "unexpected end of input" ↔ byteSize start = byteSize text) ∧
      (byteSize start ≠ byteSize text → (before rest).detail =
        "unexpected input at: '" ++ String.ofList (rest.take 20) ++ "'") := by
  have hend : rest = [] ↔ byteSize start = byteSize text := by
    rw [h, byteSize_append, ← byteSize_eq_zero_iff]
    omega
  rw [detail_eq_end_iff]
  exact ⟨hend, fun hne => detail_before fun hrest => hne (hend.1 hrest)⟩

theorem ClauseFault.ofStop_ofForm (c : Clause) (position : Nat) (why : Stop) (rest : List Char) :
    (QueryError.clause c position (ofStop why rest)).OfForm := by
  show ¬"malformed value: ".toList <+: (ofStop why rest).detail.toList
  cases why with
  | tooDeep =>
    show ¬"malformed value: ".toList <+: "scopes nested too deeply".toList
    decide
  | unexpected =>
    show ¬"malformed value: ".toList <+: (before rest).detail.toList
    by_cases h : rest = []
    · subst h
      decide
    · rw [detail_before h, String.toList_append, String.toList_append]
      intro hp
      exact absurd (List.cons_prefix_cons.1 hp).1 (by decide)

theorem Literal.value_eq_error {r : Resolver} {l : Literal} {e : QueryError}
    (h : l.value r = .error e) :
    (∃ fault, e = .value fault) ∨ ∃ label, e = .unknownLabel label := by
  cases l with
  | iri i => cases h
  | boolean b => cases h
  | number n =>
    rw [value] at h
    cases hn : numberOf n with
    | error fault =>
      rw [hn] at h
      cases h
      exact .inl ⟨fault, rfl⟩
    | ok x =>
      rw [hn] at h
      cases h
  | string s suffix =>
    cases suffix with
    | none => cases h
    | language tag => cases h
    | datatype name =>
      rw [value] at h
      cases hr : r.resolve name with
      | error d =>
        rw [hr] at h
        cases h
        obtain ⟨label, -, rfl, -⟩ := Resolver.resolve_eq_error hr
        exact .inr ⟨label, rfl⟩
      | ok i =>
        rw [hr] at h
        cases h

theorem Resolver.resolve_not_ofForm {r : Resolver} {n : Name} (e : QueryError)
    (h : r.resolve n = .error e) : ¬e.OfForm := by
  obtain ⟨label, -, rfl, -⟩ := resolve_eq_error h
  exact id

theorem Condition.valueIn_not_ofForm {r : Resolver} {source : List Char} {p : Placed}
    (e : QueryError) (h : valueIn r source p = .error e) : ¬e.OfForm := by
  unfold valueIn at h
  split at h
  · next fault hv =>
    cases h
    show ¬¬"malformed value: ".toList <+: ("malformed value: " ++ fault.detail).toList
    rw [String.toList_append]
    exact not_not_intro (List.prefix_append _ _)
  · next hv =>
    rcases Literal.value_eq_error h with ⟨fault, rfl⟩ | ⟨label, rfl⟩
    · exact absurd h (hv fault)
    · exact id

/-! ## Queries -/

namespace Query

/-- Nothing is wrong with the form of the text. -/
def WellFormed (q : Query) (clause : Clause) (text : String) : Prop :=
  ∀ e, q.take clause text = .error e → ¬e.OfForm

/-- The clause is read as a list, and whatever becomes of its items has nothing to do with form. -/
def TakesList {α : Type} (q : Query) (clause : Clause) (scan : Scanner (List α)) : Prop :=
  ∀ text, ∃ f : List α → Except QueryError Query,
    q.take clause text = (readList clause scan text.toList).bind f ∧
      ∀ as e, f as = .error e → ¬e.OfForm

theorem takesList (q : Query) (clause : Clause) :
    ∃ (α : Type) (sep : List Char → Option (List Char)) (S : List Char → List Char → Prop)
      (item : Scanner α) (D : Derivation α),
      Tracked sep S item D ∧ q.TakesList clause (sepBy1 sep item) := by
  cases clause with
  | namespaces =>
    refine ⟨_, _, _, _, _, Namespaces.tracked, fun text => ?_⟩
    refine ⟨fun bs => .ok { q with namespaces := .ofList bs }, ?_, fun bs e h => ?_⟩
    · show (Namespaces.read text).map _ = _
      unfold Namespaces.read
      cases readList .namespaces (sepBy1 comma Namespaces.scanBinding) text.toList <;> rfl
    · cases h
  | conditions =>
    refine ⟨_, _, _, _, _, Condition.tracked q.settings.maxNesting, fun text => ?_⟩
    refine ⟨_, Except.map_bind _ _ _, fun cs e h => ?_⟩
    obtain ⟨o, -, hname | ⟨v, -, hvalue⟩⟩ :=
      Condition.resolveAll_eq_error (Except.map_eq_error_iff.1 h)
    · exact Resolver.resolve_not_ofForm e hname
    · exact Condition.valueIn_not_ofForm e hvalue
  | properties =>
    refine ⟨_, _, _, _, _, Property.tracked q.settings.maxNesting, fun text => ?_⟩
    refine ⟨_, Except.map_bind _ _ _, fun ps e h => ?_⟩
    obtain ⟨o, -, hname⟩ := Property.resolveAll_eq_error (Except.map_eq_error_iff.1 h)
    exact Resolver.resolve_not_ofForm e hname

/-- The faults of form are those of the list. -/
theorem TakesList.error_iff {α : Type} {q : Query} {clause : Clause} {scan : Scanner (List α)}
    (h : q.TakesList clause scan) {text : String} {e : QueryError} :
    q.take clause text = .error e ∧ e.OfForm ↔ readList clause scan text.toList = .error e := by
  obtain ⟨f, htake, hf⟩ := h text
  rw [htake]
  cases hread : readList clause scan text.toList with
  | error d =>
    obtain ⟨why, rest, -, rfl⟩ := readList_eq_error hread
    constructor
    · intro he
      exact congrArg Except.error (Except.error.inj he.1)
    · intro he
      cases he
      exact ⟨rfl, ClauseFault.ofStop_ofForm clause _ why rest⟩
  | ok as =>
    constructor
    · intro he
      exact absurd he.2 (hf as e he.1)
    · intro he
      cases he

theorem TakesList.wellFormed_iff {α : Type} {q : Query} {clause : Clause}
    {scan : Scanner (List α)} (h : q.TakesList clause scan) {text : String} :
    q.WellFormed clause text ↔ ∃ as, readList clause scan text.toList = .ok as := by
  have hwell : q.WellFormed clause text ↔ ∀ e, readList clause scan text.toList ≠ .error e := by
    simp only [WellFormed, Ne, ← h.error_iff, not_and]
  rw [hwell]
  cases readList clause scan text.toList <;> simp

/-- A fault of form is reported between two characters: behind every part of the text that is a
clause by itself, and, unless the scopes go too deep, not behind the first mistake. The message
shows what stands there. -/
theorem form_position {q : Query} {clause c : Clause} {text : String} {position : Nat}
    {fault : ClauseFault} (h : q.take clause text = .error (.clause c position fault))
    (hform : (QueryError.clause c position fault).OfForm) :
    ∃ before rest : String, text = before ++ rest ∧ position = before.utf8ByteSize ∧
      position ≤ text.utf8ByteSize ∧
      (∀ left right : String, text = left ++ right → trim left.toList ≠ [] →
        q.WellFormed clause left → left.utf8ByteSize ≤ position) ∧
      (fault.detail ≠ "scopes nested too deeply" →
        (∃ more, q.WellFormed clause (before ++ more)) ∧
        (fault.detail = "unexpected end of input" ↔ position = text.utf8ByteSize) ∧
        (position ≠ text.utf8ByteSize → fault.detail =
          "unexpected input at: '" ++ String.ofList (rest.toList.take 20) ++ "'")) := by
  obtain ⟨α, sep, S, item, D, htracked, htake⟩ := q.takesList clause
  obtain ⟨before, rest, why, hsplit, he, hreach, hviable⟩ :=
    htracked.readList_error (htake.error_iff.1 ⟨h, hform⟩)
  cases he
  have htext : text = String.ofList before ++ String.ofList rest := by
    rw [← String.ofList_append, ← hsplit, String.ofList_toList]
  refine ⟨String.ofList before, String.ofList rest, htext, (utf8ByteSize_ofList before).symm,
    ?_, ?_, fun hdeep => ?_⟩
  · rw [utf8ByteSize_eq, hsplit, byteSize_append]
    omega
  · intro left right hleft hblank hwell
    obtain ⟨as, has⟩ := htake.wellFormed_iff.1 hwell
    have hnot : isBlankText left.toList = false := by
      rw [Ne, trim_eq_nil_iff] at hblank
      exact Bool.eq_false_iff.2 hblank
    have hlist : text.toList = left.toList ++ right.toList := by rw [hleft, String.toList_append]
    obtain ⟨y, rfl⟩ := hreach left.toList right.toList as hlist hnot has
    rw [utf8ByteSize_eq, byteSize_append]
    omega
  · cases why with
    | tooDeep => exact absurd rfl hdeep
    | unexpected =>
      obtain ⟨more, as, has⟩ := hviable rfl
      rw [← String.toList_ofList (l := before ++ more), String.ofList_append] at has
      rw [utf8ByteSize_eq, String.toList_ofList]
      exact ⟨⟨String.ofList more, htake.wellFormed_iff.2 ⟨as, has⟩⟩, ClauseFault.detail_at hsplit⟩

/-- In an open scope a name comes last: up to the end the text is the beginning of a clause. -/
theorem form_position_unfinished : ∃ before rest, "a\x7bb" = before ++ rest ∧
    3 = before.utf8ByteSize ∧
    ∃ more, (ofSettings (.ofDefault "")).WellFormed .conditions (before ++ more) := by
  have hread : (ofSettings (.ofDefault "")).take .conditions "a\x7bb" =
      .error (.clause .conditions 3 .endOfInput) := rfl
  have hform : (QueryError.clause .conditions 3 .endOfInput).OfForm :=
    ClauseFault.ofStop_ofForm .conditions 3 .unexpected []
  obtain ⟨before, rest, hsplit, hposition, -, -, hmessage⟩ := form_position hread hform
  exact ⟨before, rest, hsplit, hposition, (hmessage (by decide)).1⟩

end Query

end LifecycleQuery

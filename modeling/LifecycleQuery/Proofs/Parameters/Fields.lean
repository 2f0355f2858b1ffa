import LifecycleQuery.Proofs.Parameters
import Mathlib.Data.List.Duplicate
import Mathlib.Data.List.Forall2
import Mathlib.Data.List.Induction

/-!
# Which query strings are read

The fields of a query string are what its pieces stand for, and the six parameters are found among
them by their keys, however these are spelled. A query string is refused exactly when one of the six
keys comes twice, and the key that first does so is the error; otherwise each parameter has the
value of the one field with its key (`collect_cases`). So nothing matters but the pieces with one of
these keys, and their order only for which of several repeated keys is named (`read_by_fields`,
`read_permuted`).
-/

namespace LifecycleQuery

open Text

namespace Form

/-! ## Pieces and fields -/

/-- A piece as key and value; the key ends at the first `=`, and without one there is no value. -/
inductive Cut : List Char → List Char → List Char → Prop
  | bare {key : List Char} : '=' ∉ key → Cut key key []
  | valued {key value : List Char} : '=' ∉ key → Cut (key ++ '=' :: value) key value

/-- What the key and the value of the piece are decoded to. -/
def StandsFor (piece : List Char) (f : Field) : Prop :=
  ∃ key value, Cut piece key value ∧ f = (decodeText key, decodeText value)

/-- The fields that the pieces between ampersands stand for, the empty pieces left out. -/
def FieldsOf (text : List Char) (fs : List Field) : Prop :=
  List.Forall₂ StandsFor ((text.splitOn '&').filter (!·.isEmpty)) fs

theorem decodeField_of_cut {piece key value : List Char} (h : Cut piece key value) :
    decodeField piece = (decodeText key, decodeText value) := by
  cases h with
  | bare hkey =>
    have hall := bne_of_not_mem hkey
    rw [decodeField, List.takeWhile_eq_self_iff.2 hall, List.dropWhile_eq_nil_iff.2 hall]
    rfl
  | valued hkey =>
    rw [decodeField, takeWhile_append_cons hkey, dropWhile_append_cons hkey]
    rfl

theorem exists_cut (piece : List Char) : ∃ key value, Cut piece key value := by
  by_cases h : '=' ∈ piece
  · obtain ⟨key, value, rfl, hkey⟩ := List.eq_append_cons_of_mem h
    exact ⟨key, value, .valued hkey⟩
  · exact ⟨piece, [], .bare h⟩

theorem standsFor_iff {piece : List Char} {f : Field} :
    StandsFor piece f ↔ decodeField piece = f := by
  constructor
  · rintro ⟨key, value, hcut, rfl⟩
    exact decodeField_of_cut hcut
  · rintro rfl
    obtain ⟨key, value, hcut⟩ := exists_cut piece
    exact ⟨key, value, hcut, decodeField_of_cut hcut⟩

theorem fieldsOf_iff {text : List Char} {fs : List Field} :
    FieldsOf text fs ↔ decode text = fs := by
  have hstands : StandsFor = fun piece f => decodeField piece = f := by
    funext piece f
    exact propext standsFor_iff
  rw [FieldsOf, hstands, decode, pieces_eq_splitOn, ← List.forall₂_map_left_iff (R := Eq),
    List.forall₂_eq_eq_eq]

/-! ## Spellings -/

/-- Each byte as `%` and two hex digits, of either case. -/
inductive Escapes : List Char → List UInt8 → Prop
  | nil : Escapes [] []
  | byte {c d : Char} {b : UInt8} {x : List Char} {bs : List UInt8} : escaped? c d = some b →
      Escapes x bs → Escapes ('%' :: c :: d :: x) (b :: bs)

/-- The spellings of a text: a character other than `+` and `%` may stand for itself, a space may be
a plus sign, and any character may be escaped. -/
inductive Spells : List Char → List Char → Prop
  | nil : Spells [] []
  | kept {c : Char} {x s : List Char} : c ≠ '+' → c ≠ '%' → Spells x s → Spells (c :: x) (c :: s)
  | plus {x s : List Char} : Spells x s → Spells ('+' :: x) (' ' :: s)
  | escaped {c : Char} {e x s : List Char} : Escapes e (Utf8.encodeChar c) → Spells x s →
      Spells (e ++ x) (c :: s)

theorem decodeBytes_escapes {e : List Char} {bs : List UInt8} (h : Escapes e bs)
    (rest : List Char) : decodeBytes (e ++ rest) = bs ++ decodeBytes rest := by
  induction h with
  | nil => rfl
  | byte hb _ ih =>
    rw [List.cons_append, List.cons_append, List.cons_append, decodeBytes, hb]
    exact congrArg _ ih

theorem decodeText_of_spells {x s : List Char} (h : Spells x s) :
    decodeText x = String.ofList s := by
  have hbytes : decodeBytes x = Utf8.encode s := by
    induction h with
    | nil => rw [decodeBytes]; rfl
    | kept hp he _ ih => rw [decodeBytes_cons _ hp he, ih]; rfl
    | plus _ ih => rw [decodeBytes, ih]; rfl
    | escaped he _ ih => rw [decodeBytes_escapes he, ih]; rfl
  rw [decodeText, hbytes, Utf8.decode_encode]

end Form

namespace Parameter

theorem ofKey?_eq_some_iff {key : String} {p : Parameter} : ofKey? key = some p ↔ key = p.key := by
  constructor
  · intro h
    have hkey := List.find?_some h
    exact (beq_iff_eq.1 hkey).symm
  · rintro rfl
    exact ofKey?_key p

theorem ofKey?_eq_none_iff {key : String} : ofKey? key = none ↔ ∀ p : Parameter, key ≠ p.key := by
  rw [Option.eq_none_iff_forall_ne_some]
  exact forall_congr' fun p => not_congr ofKey?_eq_some_iff

theorem key_inj {p q : Parameter} (h : p.key = q.key) : p = q := by
  have hp := ofKey?_key p
  rw [h, ofKey?_key] at hp
  exact (Option.some.inj hp).symm

end Parameter

namespace Parameters

/-! ## Repeated keys -/

/-- Two of the fields have the parameter's key. -/
def Repeated (fs : List Form.Field) (p : Parameter) : Prop :=
  List.Duplicate p.key (fs.map Prod.fst)

/-- The parameter's key comes a second time before any other of the six keys does. -/
def FirstRepeated (fs : List Form.Field) (p : Parameter) : Prop :=
  ∃ before f after, fs = before ++ f :: after ∧ f.1 = p.key ∧ p.key ∈ before.map Prod.fst ∧
    ∀ q, ¬Repeated before q

section
variable {fs gs : List Form.Field} {f : Form.Field} {p q : Parameter}

theorem repeated_concat_iff :
    Repeated (fs ++ [f]) p ↔ Repeated fs p ∨ f.1 = p.key ∧ p.key ∈ fs.map Prod.fst := by
  rw [Repeated, Repeated, List.map_append, List.map_singleton, List.duplicate_iff_two_le_count,
    List.duplicate_iff_two_le_count, List.count_append, List.count_singleton, ← List.count_pos_iff]
  by_cases h : f.1 = p.key
  · simp only [h, beq_self_eq_true, if_true, true_and]
    omega
  · simp [h]

theorem Repeated.append_right (h : Repeated fs p) (gs : List Form.Field) :
    Repeated (fs ++ gs) p := by
  rw [Repeated, List.map_append]
  exact h.mono_sublist (List.sublist_append_left _ _)

theorem FirstRepeated.repeated (h : FirstRepeated fs p) : Repeated fs p := by
  obtain ⟨before, f, after, rfl, hf, hmem, -⟩ := h
  have hconcat : Repeated (before ++ [f]) p := repeated_concat_iff.2 (.inr ⟨hf, hmem⟩)
  rw [List.append_cons]
  exact hconcat.append_right after

theorem FirstRepeated.append_right (h : FirstRepeated fs p) (gs : List Form.Field) :
    FirstRepeated (fs ++ gs) p := by
  obtain ⟨before, f, after, rfl, h⟩ := h
  exact ⟨before, f, after ++ gs, by simp, h⟩

/-- Of two places where a key first comes again, neither is before the other. -/
theorem FirstRepeated.unique (hp : FirstRepeated fs p) (hq : FirstRepeated fs q) : p = q := by
  obtain ⟨before, f, after, rfl, hf, hmem, hfree⟩ := hp
  obtain ⟨before', f', after', he, hf', hmem', hfree'⟩ := hq
  rcases List.append_eq_append_iff.1 he with ⟨as, rfl, has⟩ | ⟨as, rfl, has⟩
  · cases as with
    | nil =>
      cases has
      exact Parameter.key_inj (hf.symm.trans hf')
    | cons g as =>
      cases has
      have hrep : Repeated (before ++ [f]) p := repeated_concat_iff.2 (.inr ⟨hf, hmem⟩)
      rw [List.append_cons] at hfree'
      exact absurd (hrep.append_right as) (hfree' p)
  · cases as with
    | nil =>
      cases has
      exact Parameter.key_inj (hf.symm.trans hf')
    | cons g as =>
      cases has
      have hrep : Repeated (before' ++ [f']) q := repeated_concat_iff.2 (.inr ⟨hf', hmem'⟩)
      rw [List.append_cons] at hfree
      exact absurd (hrep.append_right as) (hfree q)

end

/-! ## Collecting -/

theorem collect_append (ps : Parameters) (fs gs : List Form.Field) :
    collect ps (fs ++ gs) = (collect ps fs).bind fun qs => collect qs gs := by
  induction fs generalizing ps with
  | nil => rfl
  | cons f fs ih =>
    obtain ⟨key, value⟩ := f
    rw [List.cons_append, collect, collect]
    split
    · exact ih ps
    · split
      · rfl
      · exact ih _

/-- The parameters have the values of the fields with their keys. -/
def ValuesOf (fs : List Form.Field) (ps : Parameters) : Prop :=
  ∀ p value, ps.get? p = some value ↔ (p.key, value) ∈ fs

section
variable {fs : List Form.Field} {ps : Parameters} {p : Parameter}

theorem ValuesOf.isSome_iff (h : ValuesOf fs ps) (p : Parameter) :
    (ps.get? p).isSome = true ↔ p.key ∈ fs.map Prod.fst := by
  rw [Option.isSome_iff_exists, List.mem_map]
  constructor
  · rintro ⟨value, hvalue⟩
    exact ⟨(p.key, value), (h p value).1 hvalue, rfl⟩
  · rintro ⟨⟨_, value⟩, hmem, rfl⟩
    exact ⟨value, (h p value).2 hmem⟩

/-- A field with another key changes nothing. -/
theorem ValuesOf.concat_other (h : ValuesOf fs ps) {key value : String}
    (hkey : ∀ p : Parameter, key ≠ p.key) : ValuesOf (fs ++ [(key, value)]) ps := by
  intro p v
  have hne : (p.key, v) ≠ (key, value) := fun he => hkey p (congrArg Prod.fst he).symm
  rw [h p v, List.mem_append, List.mem_singleton]
  simp [hne]

/-- A field whose key is new sets its parameter. -/
theorem ValuesOf.concat_set (h : ValuesOf fs ps) (hnew : p.key ∉ fs.map Prod.fst) (value : String) :
    ValuesOf (fs ++ [(p.key, value)]) (ps.set p (some value)) := by
  intro q v
  rw [get?_set, List.mem_append, List.mem_singleton]
  split
  · next hq =>
    subst hq
    have hout : (q.key, v) ∉ fs := fun hmem => hnew (List.mem_map.2 ⟨_, hmem, rfl⟩)
    simp [hout, eq_comm]
  · next hq =>
    have hne : (q.key, v) ≠ (p.key, value) := by
      intro he
      exact hq (Parameter.key_inj (congrArg Prod.fst he))
    rw [h q v]
    simp [hne]

/-- Either no key of the six is repeated and all fields are taken up, or the first that is repeated
is the error. -/
theorem collect_cases (fs : List Form.Field) :
    (∃ ps, collect empty fs = .ok ps ∧ (∀ p, ¬Repeated fs p) ∧ ValuesOf fs ps) ∨
      ∃ p, collect empty fs = .error p ∧ FirstRepeated fs p := by
  induction fs using List.reverseRecOn with
  | nil =>
    refine .inl ⟨empty, rfl, fun p h => List.not_duplicate_nil _ h, fun p value => ?_⟩
    simp [get?_empty]
  | append_singleton fs f ih =>
    rw [collect_append]
    rcases ih with ⟨ps, hps, hfree, hvalues⟩ | ⟨p, hp, hfirst⟩
    · obtain ⟨key, value⟩ := f
      rw [hps]
      show (∃ qs, collect ps [(key, value)] = .ok qs ∧ _) ∨
        ∃ p, collect ps [(key, value)] = .error p ∧ _
      cases hkey : Parameter.ofKey? key with
      | none =>
        have hother := Parameter.ofKey?_eq_none_iff.1 hkey
        refine .inl ⟨ps, by simp [collect, hkey], fun p hp => ?_, hvalues.concat_other hother⟩
        rcases repeated_concat_iff.1 hp with hp | ⟨hp, -⟩
        · exact hfree p hp
        · exact hother p hp
      | some p =>
        have he := Parameter.ofKey?_eq_some_iff.1 hkey
        subst he
        by_cases hmem : p.key ∈ fs.map Prod.fst
        · have hset := (hvalues.isSome_iff p).2 hmem
          exact .inr ⟨p, by simp [collect, hkey, hset], fs, (p.key, value), [], rfl, rfl, hmem,
            hfree⟩
        · have hset : ¬(ps.get? p).isSome = true := fun h => hmem ((hvalues.isSome_iff p).1 h)
          refine .inl ⟨ps.set p (some value), by simp [collect, hkey, hset], fun q hq => ?_,
            hvalues.concat_set hmem value⟩
          rcases repeated_concat_iff.1 hq with hq | ⟨hq, hq'⟩
          · exact hfree q hq
          · rw [← hq] at hq'
            exact hmem hq'
    · rw [hp]
      exact .inr ⟨p, rfl, hfirst.append_right [f]⟩

theorem collect_ok_iff :
    collect empty fs = .ok ps ↔ (∀ p, ¬Repeated fs p) ∧ ValuesOf fs ps := by
  rcases collect_cases fs with ⟨qs, hqs, hfree, hvalues⟩ | ⟨p, hp, hfirst⟩
  · rw [hqs]
    constructor
    · rintro ⟨⟩
      exact ⟨hfree, hvalues⟩
    · rintro ⟨-, hps⟩
      have heq : qs = ps := by
        apply ext_get?
        intro p
        apply Option.ext
        intro value
        rw [hvalues p value, hps p value]
      rw [heq]
  · rw [hp]
    constructor
    · rintro ⟨⟩
    · rintro ⟨hfree, -⟩
      exact absurd hfirst.repeated (hfree p)

theorem collect_error_iff : collect empty fs = .error p ↔ FirstRepeated fs p := by
  rcases collect_cases fs with ⟨qs, hqs, hfree, -⟩ | ⟨q, hq, hfirst⟩
  · rw [hqs]
    constructor
    · rintro ⟨⟩
    · intro h
      exact absurd h.repeated (hfree p)
  · rw [hq]
    constructor
    · rintro ⟨⟩
      exact hfirst
    · intro h
      rw [hfirst.unique h]

theorem collect_fails_iff : (∃ p, collect empty fs = .error p) ↔ ∃ p, Repeated fs p := by
  rcases collect_cases fs with ⟨qs, hqs, hfree, -⟩ | ⟨q, hq, hfirst⟩
  · rw [hqs]
    constructor
    · rintro ⟨p, ⟨⟩⟩
    · rintro ⟨p, hp⟩
      exact absurd hp (hfree p)
  · exact ⟨fun _ => ⟨q, hfirst.repeated⟩, fun _ => ⟨q, hq⟩⟩

end

/-! ## Fields that do not matter -/

/-- The field's key is one of the six. -/
def isKnown (f : Form.Field) : Bool := (Parameter.ofKey? f.1).isSome

theorem collect_filter (ps : Parameters) (fs : List Form.Field) :
    collect ps (fs.filter isKnown) = collect ps fs := by
  induction fs generalizing ps with
  | nil => rfl
  | cons f fs ih =>
    obtain ⟨key, value⟩ := f
    cases hkey : Parameter.ofKey? key with
    | none =>
      have hf : ¬isKnown (key, value) = true := by simp [isKnown, hkey]
      rw [List.filter_cons_of_neg hf, ih]
      simp [collect, hkey]
    | some p =>
      have hf : isKnown (key, value) = true := by simp [isKnown, hkey]
      rw [List.filter_cons_of_pos hf, collect, collect, hkey]
      simp only [ih]

theorem repeated_perm {fs gs : List Form.Field} (h : fs.Perm gs) {p : Parameter} :
    Repeated fs p ↔ Repeated gs p := by
  rw [Repeated, Repeated, List.duplicate_iff_two_le_count, List.duplicate_iff_two_le_count,
    (h.map Prod.fst).count_eq]

theorem collect_ok_perm {fs gs : List Form.Field} (h : fs.Perm gs) {ps : Parameters} :
    collect empty fs = .ok ps ↔ collect empty gs = .ok ps := by
  simp only [collect_ok_iff, repeated_perm h, ValuesOf, h.mem_iff]

/-- If one key at most is repeated, the order of the fields does not matter. -/
theorem collect_perm {fs gs : List Form.Field} (h : fs.Perm gs)
    (hone : ∀ p q, Repeated fs p → Repeated fs q → p = q) :
    collect empty fs = collect empty gs := by
  rcases collect_cases fs with ⟨ps, hps, -⟩ | ⟨p, hp, hfirst⟩
  · rw [hps, (collect_ok_perm h).1 hps]
  · rcases collect_cases gs with ⟨qs, hqs, -⟩ | ⟨q, hq, hfirst'⟩
    · rw [(collect_ok_perm h).2 hqs] at hp
      cases hp
    · rw [hp, hq, hone p q hfirst.repeated ((repeated_perm h).2 hfirst'.repeated)]

/-! ## Query strings -/

/-- The pieces whose key is one of the six; all others are left out, the empty ones among them. -/
def relevant (query : String) : List (List Char) :=
  ((body query).splitOn '&').filter fun piece => isKnown (Form.decodeField piece)

theorem filter_decode (query : String) :
    (Form.decode (body query)).filter isKnown = (relevant query).map Form.decodeField := by
  have hempty : ∀ piece, (isKnown (Form.decodeField piece) && !piece.isEmpty) =
      isKnown (Form.decodeField piece) := by
    intro piece
    cases piece with
    | nil => decide +kernel
    | cons c rest => exact Bool.and_true _
  rw [Form.decode, Form.pieces_eq_splitOn, List.filter_map, List.filter_filter, relevant]
  simp only [Function.comp_apply, hempty]

theorem read_eq_relevant (query : String) :
    read query = collect empty ((relevant query).map Form.decodeField) := by
  rw [← filter_decode, collect_filter, read_eq_collect]

theorem repeated_relevant (query : String) {p : Parameter} :
    Repeated ((relevant query).map Form.decodeField) p ↔ Repeated (Form.decode (body query)) p := by
  have hkeys : ∀ fs : List Form.Field,
      List.count p.key ((fs.filter isKnown).map Prod.fst) = List.count p.key (fs.map Prod.fst) := by
    intro fs
    have hknown : isKnown (p.key, "") = true := by rw [isKnown, Parameter.ofKey?_key]; rfl
    induction fs with
    | nil => rfl
    | cons f fs ih =>
      by_cases hf : isKnown f = true
      · rw [List.filter_cons_of_pos hf, List.map_cons, List.map_cons, List.count_cons,
          List.count_cons, ih]
      · have hne : f.1 ≠ p.key := by
          intro he
          rw [isKnown, he, Parameter.ofKey?_key] at hf
          exact hf rfl
        rw [List.filter_cons_of_neg hf, List.map_cons, List.count_cons_of_ne hne, ih]
  rw [← filter_decode, Repeated, Repeated, List.duplicate_iff_two_le_count,
    List.duplicate_iff_two_le_count, hkeys]

/-- A query string is refused when two of its fields have one of the six keys, however the key is
spelled, and the key that first comes again is the error; else each parameter has the value of its
field. The pieces with other keys, and the empty ones, do not matter. Nor does the order of the
pieces, but for which of several repeated keys is the error. -/
theorem read_by_fields :
    (∀ query, ∃ fs, Form.FieldsOf (body query) fs ∧
      ((∃ p, read query = .error p) ↔ ∃ p, Repeated fs p) ∧
      (∀ p, read query = .error p ↔ FirstRepeated fs p) ∧
      (∀ ps, read query = .ok ps ↔ (∀ p, ¬Repeated fs p) ∧
        ∀ p value, ps.get? p = some value ↔ (p.key, value) ∈ fs)) ∧
    (∀ (p : Parameter) key value piece f, Form.Spells key p.key.toList → Form.Cut piece key value →
      Form.StandsFor piece f → f.1 = p.key) ∧
    (∀ query query', relevant query = relevant query' → read query = read query') ∧
    ∀ query query', (relevant query).Perm (relevant query') →
      (∀ ps, read query = .ok ps ↔ read query' = .ok ps) ∧
      ∀ fs, Form.FieldsOf (body query) fs → (∀ p q, Repeated fs p → Repeated fs q → p = q) →
        read query = read query' := by
  refine ⟨fun query => ⟨_, Form.fieldsOf_iff.2 rfl, ?_, fun p => ?_, fun ps => ?_⟩,
    fun p key value piece f hkey hcut hf => ?_, fun query query' h => ?_,
    fun query query' h => ⟨fun ps => ?_, fun fs hfs hone => ?_⟩⟩
  · exact collect_fails_iff
  · exact collect_error_iff
  · exact collect_ok_iff
  · rw [← Form.standsFor_iff.1 hf, Form.decodeField_of_cut hcut, Form.decodeText_of_spells hkey,
      String.ofList_toList]
  · rw [read_eq_relevant, read_eq_relevant, h]
  · rw [read_eq_relevant, read_eq_relevant]
    exact collect_ok_perm (h.map _)
  · rw [← Form.fieldsOf_iff.1 hfs] at hone
    rw [read_eq_relevant, read_eq_relevant]
    refine collect_perm (h.map _) fun p q hp hq => ?_
    exact hone p q ((repeated_relevant query).1 hp) ((repeated_relevant query).1 hq)

/-- The error is the one of several repeated keys that first comes again, so it may change with the
order of the pieces. -/
theorem read_permuted :
    ((body "oslc.select=1&oslc.where=2&oslc.select=3&oslc.where=4").splitOn '&').Perm
      ((body "oslc.select=1&oslc.where=2&oslc.where=4&oslc.select=3").splitOn '&') ∧
    read "oslc.select=1&oslc.where=2&oslc.select=3&oslc.where=4" = .error .properties ∧
    read "oslc.select=1&oslc.where=2&oslc.where=4&oslc.select=3" = .error .conditions := by
  decide +kernel

end Parameters

end LifecycleQuery

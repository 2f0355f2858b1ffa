import LifecycleQuery.Json.Decode
import LifecycleQuery.Proofs.Grammar.Table
import LifecycleQuery.Proofs.Json.Encode

/-!
# Queries are decoded as they were encoded

A record has the fields that it was written with, and a kind has its content, so decoding undoes
encoding part by part. What can get in the way are the levels: a value takes two, a property two for
itself and two for every scope around it, and a condition six and three. A decimal has to be finite,
and to be read from the numeral that it is written as (`Value.Kept`).
-/

namespace LifecycleQuery

open Json

theorem mapM_map_eq_some {α β : Type} {f : β → Option α} {g : α → β} {as : List α}
    (h : ∀ a ∈ as, f (g a) = some a) : (as.map g).mapM f = some as := by
  induction as with
  | nil => rfl
  | cons a as ih =>
    rw [List.forall_mem_cons] at h
    rw [List.map_cons, List.mapM_cons, h.1, ih h.2]
    rfl

/-! ## Records -/

namespace Json

/-- The member that stands for a field. -/
abbrev memberOf (f : String × Json) : Member := (some f.1, f.2)

theorem lookup_memberOf {fields : List (String × Json)} (h : (fields.map Prod.fst).Nodup)
    {f : String × Json} (hf : f ∈ fields) :
    (fields.map memberOf).lookup (some f.1) = some f.2 := by
  induction fields with
  | nil => cases hf
  | cons g fields ih =>
    rw [List.map_cons, List.nodup_cons] at h
    rw [List.map_cons, List.lookup_cons]
    rcases List.mem_cons.1 hf with rfl | hf
    · simp
    · have hne : f.1 ≠ g.1 := by
        intro he
        exact h.1 (he ▸ List.mem_map_of_mem hf)
      have hbeq : (some f.1 == some g.1) = false := beq_false_of_ne (by simpa using hne)
      rw [hbeq]
      exact ih h.2 hf

theorem filter_memberOf_length (fields : List (String × Json)) (k : String) :
    ((fields.map memberOf).filter fun m => m.1 == some k).length =
      (fields.map Prod.fst).count k := by
  rw [← List.countP_eq_length_filter, List.countP_map, List.count, List.countP_map]
  apply List.countP_congr
  simp

/-- A record has the fields that it was written with. -/
theorem fields?_record (fields : List (String × Json)) (h : (fields.map Prod.fst).Nodup) :
    fields? (fields.map Prod.fst) (record fields) = some (fields.map fun f => some f.2) := by
  have honce : ∀ k ∈ fields.map Prod.fst,
      ((fields.map memberOf).filter fun m => m.1 == some k).length ≤ 1 := by
    intro k _
    rw [filter_memberOf_length]
    exact List.nodup_iff_count_le_one.1 h k
  have hall : (fields.map memberOf).all (fun m => m.1.isSome) = true ∧
      (fields.map Prod.fst).all (fun k =>
        ((fields.map memberOf).filter fun m => m.1 == some k).length ≤ 1) = true :=
    ⟨by simp, List.all_eq_true.2 fun k hk => decide_eq_true (honce k hk)⟩
  show (if _ then _ else _) = _
  rw [if_pos hall, List.map_map]
  exact congrArg some (List.map_congr_left fun f hf => lookup_memberOf h hf)

theorem fields?_pair {k l : String} (h : k ≠ l) (x y : Json) :
    fields? [k, l] (record [(k, x), (l, y)]) = some [some x, some y] :=
  fields?_record [(k, x), (l, y)] (by simp [h])

theorem text?_ofText (s : String) : (ofText s).text? = some s := rfl

theorem variant?_variant (kind : String) (content : Json) :
    variant? (variant kind content) = some (kind, content) := rfl

theorem optional?_ofText? (s : Option String) : optional? (some (ofText? s)) = some s := by
  cases s <;> rfl

end Json

/-! ## Values -/

/-- The double is read from the numeral that it is written as. -/
def Double.Reread (x : Double) : Prop := ∀ n ∈ Notation.json.numeral? x, Double.stepwise n = x

/-- A decimal is finite and read back. -/
def Number.Kept : Number → Prop
  | integer _ => True
  | decimal x => x.isFinite = true ∧ x.Reread

def Value.Kept : Value → Prop
  | number a => a.Kept
  | _ => True

theorem Number.ofJson?_toJson {a : Number} (h : a.Kept) : ofJson? a.toJson = some a := by
  cases a with
  | integer n =>
    have hsign : ¬((integerNumeral n).negative = true ∧ n.toInt = 0) := by
      rintro ⟨hneg, hzero⟩
      have hpos : ¬n.toInt < 0 := by omega
      simp [integerNumeral, Numeral.negative, hpos] at hneg
    have hinteger : (integerNumeral n).isInteger = true := rfl
    simp only [ofJson?, toJson, ofInt_toInt, variant?_variant, integerValue_integerNumeral]
    rw [if_pos ⟨hinteger, hsign⟩, ofInt?_toInt]
  | decimal x =>
    obtain ⟨hfinite, hread⟩ := h
    cases x with
    | infinite negative => cases hfinite
    | nan => cases hfinite
    | finite negative place =>
      have hstep := hread _ rfl
      have hdouble : Json.ofDouble (.finite negative place) =
          .number (Notation.json.numeral negative place) := rfl
      simp only [ofJson?, toJson, hdouble, variant?_variant, hstep, hfinite, if_true]

theorem Value.ofJson?_toJson {v : Value} (h : v.Kept) (n : Nat) :
    ofJson? (n + 2) v.toJson = some v := by
  cases v with
  | iri i => rfl
  | boolean b => rfl
  | number a =>
    simp only [ofJson?, toJson, variant?_variant, Number.ofJson?_toJson h]
    rfl
  | string s language datatype =>
    have hfields : fields? ["text", "language", "datatype"] _ = some _ :=
      fields?_record [("text", ofText s), ("language", ofText? language),
        ("datatype", ofText? datatype)] (by simp)
    simp only [List.map_cons, List.map_nil] at hfields
    simp [ofJson?, toJson, variant?_variant, hfields, ofFields?, text?_ofText, optional?_ofText?]

theorem Operator.ofJson?_kind (op : Operator) (n : Nat) : ofJson? n (ofText op.kind) = some op := by
  cases op <;> rfl

/-! ## Tables -/

theorem Namespaces.ofJson?_toJson (t : Namespaces) : ofJson? t.toJson = some t := by
  have hmembers : (t.entries.map fun e => memberOf (e.1, ofText e.2)).mapM binding? =
      some t.entries := mapM_map_eq_some fun _ _ => rfl
  unfold toJson record ofJson?
  rw [List.map_map]
  show (List.mapM binding? (t.entries.map fun e => memberOf (e.1, ofText e.2))).map ofList = some t
  rw [hmembers, Option.map_some, ofList_entries]

/-! ## Properties and conditions -/

theorem Property.ofJson?_toJson {p : Projection} {n : Nat} (hn : 2 * depth p + 2 ≤ n) :
    ofJson? n (toJson p) = some p := by
  induction p using induct generalizing n with
  | node name ps ih =>
    obtain ⟨m, rfl⟩ : ∃ m, n = m + 2 := ⟨n - 2, by omega⟩
    have hchildren : (toJsons ps).mapM (ofJson? m) = some ps := by
      rw [toJsons_eq]
      apply mapM_map_eq_some
      intro p hp
      have hdepth := depthAll_le_iff.1 (Nat.le_refl (depthAll ps)) p hp
      rw [depth_node (List.ne_nil_of_mem hp)] at hn
      exact ih p hp (by omega)
    have hname : ofText name = .string (some name) := rfl
    simp (disch := decide) only [toJson, ofJson?, fields?_pair, hname, hchildren]
    rfl

namespace Condition

/-- Every decimal in the condition is finite and read back. -/
def Kept (c : Filter) : Prop := ∀ d ∈ nodes c, ∀ v ∈ d.values, v.Kept

theorem ofJson?_test {name : Iri} {op : Operator} {vs : List Value} (h : ∀ v ∈ vs, v.Kept)
    (n : Nat) : ofJson? (n + 6) (toJson (.test name op vs)) = some (.test name op vs) := by
  have hvalues : (vs.map Value.toJson).mapM (Value.ofJson? (n + 2)) = some vs :=
    mapM_map_eq_some fun v hv => Value.ofJson?_toJson (h v hv) n
  have hname : ofText name = .string (some name) := rfl
  simp (disch := decide) only [toJson, ofJson?, fields?_pair, hname, variant?_variant,
    Operator.ofJson?_kind]
  simp [hvalues]

theorem ofJson?_scope {name : Iri} {cs : List Filter} {n : Nat}
    (h : ∀ c ∈ cs, ofJson? n (toJson c) = some c) :
    ofJson? (n + 3) (toJson (.scope name cs)) = some (.scope name cs) := by
  have hinner : (toJsons cs).mapM (ofJson? n) = some cs := by
    rw [toJsons_eq]
    exact mapM_map_eq_some h
  have hname : ofText name = .string (some name) := rfl
  simp (disch := decide) only [toJson, ofJson?, fields?_pair, hname, variant?_variant, hinner]
  rfl

theorem ofJson?_toJson {c : Filter} (h : Kept c) {n : Nat} (hn : 3 * depth c + 6 ≤ n) :
    ofJson? n (toJson c) = some c := by
  induction c using induct generalizing n with
  | scope name cs ih =>
    rw [depth] at hn
    obtain ⟨m, rfl⟩ : ∃ m, n = m + 3 := ⟨n - 3, by omega⟩
    apply ofJson?_scope
    intro c hc
    have hdepth := depthAll_le_iff.1 (Nat.le_refl (depthAll cs)) c hc
    exact ih c hc (fun d hd => h d (mem_nodes_scope.2 (.inr ⟨c, hc, hd⟩))) (by omega)
  | test name op vs =>
    obtain ⟨m, rfl⟩ : ∃ m, n = m + 6 := ⟨n - 6, by omega⟩
    exact ofJson?_test (h _ (mem_nodes_test.2 rfl)) m

end Condition

end LifecycleQuery

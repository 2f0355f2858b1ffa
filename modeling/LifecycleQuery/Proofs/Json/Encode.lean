import LifecycleQuery.Json.Encode
import LifecycleQuery.Proofs.Double.Notation
import LifecycleQuery.Proofs.Json.Text
import LifecycleQuery.Proofs.Tree
import LifecycleQuery.Proofs.Value

/-!
# Queries are written as canonical JSON

The numerals that an encoder writes are those of integers and of finite doubles, and neither has a
plus sign or a needless zero in front. So everything that is encoded is `Json.Canonical`, and the
text of it is read back as the JSON value that was encoded.
-/

namespace LifecycleQuery

/-! ## Numerals -/

theorem Number.integerNumeral_canonical (n : Int64) : (integerNumeral n).Canonical where
  wellFormed := integerNumeral_wellFormed n
  sign := by
    unfold integerNumeral
    split <;> simp
  whole := by
    intro hzero
    unfold integerNumeral at hzero ⊢
    by_cases hn : n.toInt.natAbs = 0
    · simp [hn]
    · exact absurd hzero (head?_toDigits hn)

namespace Notation

variable {f : Notation} {s : Option Sign} {digits : List Char} {top : Int}

/-- Arranged digits have a zero in front only when nothing else stands before the point. -/
theorem arrange_whole (hne : digits ≠ []) (hhead : digits.head? ≠ some '0') :
    (f.arrange s digits top).whole.head? = some '0' →
      (f.arrange s digits top).whole.length ≤ 1 := by
  obtain ⟨d, ds, rfl⟩ := List.exists_cons_of_ne_nil hne
  unfold arrange
  split
  · split
    · simp
    · intro hzero
      exact absurd hzero (by simpa using hhead)
  · simp

theorem dropZeros_head? (h : dropZeros digits ≠ []) :
    (dropZeros digits).head? = digits.head? := by
  obtain ⟨n, hn⟩ := dropZeros_append digits
  obtain ⟨d, ds, hd⟩ := List.exists_cons_of_ne_nil h
  have hhead := congrArg List.head? hn
  rw [hd] at hhead ⊢
  rw [hhead]
  rfl

theorem numeral_canonical (hf : f.exponentSign ≠ some .minus) (negative : Bool) (place : Nat) :
    (f.numeral negative place).Canonical := by
  obtain ⟨x, hwrites, -⟩ := numeral_writes hf negative place
  refine ⟨hwrites.wellFormed, ?_, ?_⟩
  · rw [hwrites.sign]
    split <;> simp
  · unfold numeral
    dsimp only
    split
    · simp
    · next hne =>
      have hnonzero := Decimal.shortest_ne_zero f.tie hne
      have hdigits := dropZeros_digits (Numeral.digits_toDigits _)
        (by rwa [digitsValue_toDigits] : digitsValue (Nat.toDigits 10 _) ≠ 0)
      apply arrange_whole hdigits.1
      rw [dropZeros_head? hdigits.1]
      exact head?_toDigits hnonzero

end Notation

/-! ## Encoded values -/

namespace Json

theorem canonical_record {fields : List (String × Json)} (h : ∀ f ∈ fields, f.2.Canonical) :
    (record fields).Canonical := by
  apply Canonical.object
  rw [List.forall_mem_map]
  exact h

theorem canonical_pair {k l : String} {x y : Json} (hx : x.Canonical) (hy : y.Canonical) :
    (record [(k, x), (l, y)]).Canonical :=
  canonical_record (List.forall_mem_cons.2 ⟨hx, List.forall_mem_singleton.2 hy⟩)

theorem canonical_variant (kind : String) {content : Json} (h : content.Canonical) :
    (variant kind content).Canonical :=
  canonical_record (List.forall_mem_singleton.2 h)

theorem canonical_ofText? (s : Option String) : (ofText? s).Canonical := by
  cases s with
  | none => exact .null
  | some s => exact .string _

theorem ofInt_toInt (n : Int64) : ofInt n.toInt = number (Number.integerNumeral n) := rfl

theorem canonical_ofDouble (x : Double) : (ofDouble x).Canonical := by
  cases x with
  | finite negative place => exact .number (Notation.numeral_canonical (by decide) _ _)
  | infinite negative => exact .null
  | nan => exact .null

end Json

open Json

theorem Namespaces.canonical_toJson (t : Namespaces) : t.toJson.Canonical := by
  apply canonical_record
  rw [List.forall_mem_map]
  intro e _
  exact .string _

theorem Number.canonical_toJson (a : Number) : a.toJson.Canonical := by
  cases a with
  | integer n => exact canonical_variant _ (.number (integerNumeral_canonical n))
  | decimal x => exact canonical_variant _ (canonical_ofDouble x)

theorem Value.canonical_toJson (v : Value) : v.toJson.Canonical := by
  cases v with
  | iri i => exact canonical_variant _ (.string _)
  | boolean b => exact canonical_variant _ (.boolean b)
  | number a => exact canonical_variant _ a.canonical_toJson
  | string s language datatype =>
    apply canonical_variant
    apply canonical_record
    have hoptional : ∀ f ∈ [("language", ofText? language), ("datatype", ofText? datatype)],
        f.2.Canonical :=
      List.forall_mem_cons.2
        ⟨canonical_ofText? language, List.forall_mem_singleton.2 (canonical_ofText? datatype)⟩
    exact List.forall_mem_cons.2 ⟨.string _, hoptional⟩

namespace Property

theorem toJsons_eq (ps : List Projection) : toJsons ps = ps.map toJson := by
  induction ps with
  | nil => rfl
  | cons p ps ih => rw [toJsons, ih, List.map_cons]

theorem canonical_toJson (p : Projection) : (toJson p).Canonical := by
  induction p using induct with
  | node n ps ih =>
    have hchildren : (array (toJsons ps)).Canonical := by
      rw [toJsons_eq]
      exact .array (List.forall_mem_map.2 ih)
    rw [toJson]
    exact canonical_pair (.string _) hchildren

end Property

namespace Condition

theorem toJsons_eq (cs : List Filter) : toJsons cs = cs.map toJson := by
  induction cs with
  | nil => rfl
  | cons c cs ih => rw [toJsons, ih, List.map_cons]

theorem canonical_toJson (c : Filter) : (toJson c).Canonical := by
  induction c using induct with
  | scope n cs ih =>
    have hinner : (array (toJsons cs)).Canonical := by
      rw [toJsons_eq]
      exact .array (List.forall_mem_map.2 ih)
    rw [toJson]
    exact canonical_pair (.string _) (canonical_variant _ hinner)
  | test n op vs =>
    have hvalues : (array (vs.map Value.toJson)).Canonical :=
      .array (List.forall_mem_map.2 fun v _ => v.canonical_toJson)
    rw [toJson]
    exact canonical_pair (.string _) (canonical_variant _ (canonical_pair (.string _) hvalues))

end Condition

end LifecycleQuery

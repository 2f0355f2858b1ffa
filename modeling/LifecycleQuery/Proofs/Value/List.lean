import LifecycleQuery.Proofs.Grammar.Cut
import LifecycleQuery.Proofs.Grammar.Meaning
import LifecycleQuery.Proofs.Value.Reading

/-!
# Lists of values

A text is read as a list by reading literals from the left. `Value.readAll_of_cut` says the same
without a scanner: whenever the text can be cut at commas into pieces that are literals, the list
is read piece by piece, as each would be read on its own. So a list has as many values as pieces,
the first piece that has no value decides the error, and no piece is blank
(`Value.readAll_elementwise`). Commas in strings and IRIs do no harm, as a text can be cut into
literals in one way only.
-/

namespace LifecycleQuery

open Text

theorem Literal.separable : Separable (Front Spells) where
  proper := spells_proper
  sealed := Front.sealed Spells.endsFinal
  rest_unique := by
    intro t l u l' v h h' hu hv
    have hscan := scan_complete h hu
    rw [scan_complete h' hv] at hscan
    cases hscan
    rfl
  head_ne_comma := by
    rintro t l u ⟨x, hx, he⟩
    obtain ⟨c, rest, hc, hstart⟩ := spells_head hx u
    rw [hc] at he
    cases he
    revert hstart
    decide

/-- The text is one literal, with layout around it. It may still have no value. -/
def IsLiteral (text : String) : Prop := ∃ l, Whole (Front Literal.Spells) text.toList l

theorem isLiteral_iff {text : String} :
    IsLiteral text ↔ (Value.readLiteral? text.toList).isSome = true := by
  unfold IsLiteral
  simp only [← Value.readLiteral?_eq_some_iff, Option.isSome_iff_exists]

instance (text : String) : Decidable (IsLiteral text) := decidable_of_iff _ isLiteral_iff.symm

/-- The text is cut at some of its commas into the pieces. -/
def CutAtCommas (text : String) (pieces : List String) : Prop :=
  pieces ≠ [] ∧ ",".intercalate pieces = text

instance (text : String) (pieces : List String) : Decidable (CutAtCommas text pieces) :=
  inferInstanceAs (Decidable (_ ∧ _))

theorem cutAtCommas_iff {text : String} {pieces : List String} :
    CutAtCommas text pieces ↔ Cut text.toList (pieces.map String.toList) := by
  unfold CutAtCommas Cut
  rw [← String.toList_inj, String.toList_intercalate]
  simp

theorem exists_whole_of_isLiteral {pieces : List String} (h : ∀ t ∈ pieces, IsLiteral t) :
    ∀ t ∈ pieces.map String.toList, ∃ l, Whole (Front Literal.Spells) t l := by
  rw [List.forall_mem_map]
  exact h

namespace Value

variable {r : Resolver} {text : String}

/-! ## Literals in a list -/

theorem sepBy_front_iff {t u : List Char} {ls : List Literal} :
    SepBy Comma (Front Literal.Spells) t ls u ↔
      ∃ ps, Placed.DerivesList t ps u ∧ ps.map Placed.literal = ls := by
  have hvia : Front Literal.Spells = Via Placed.Derives fun p l => p.literal = l := by
    funext t l u
    refine propext ⟨fun h => ⟨⟨l, t⟩, ⟨rfl, h⟩, rfl⟩, ?_⟩
    rintro ⟨p, ⟨-, h⟩, rfl⟩
    exact h
  have hmap (ps : List Placed) :
      List.Forall₂ (fun p l => p.literal = l) ps ls ↔ ps.map Placed.literal = ls := by
    rw [← List.forall₂_map_left_iff (R := Eq), List.forall₂_eq_eq_eq]
  rw [hvia, sepBy_via_iff]
  simp only [hmap]

/-- The literals of a list are evaluated in order. -/
theorem readAll_of_whole {ls : List Literal}
    (h : Whole (SepBy Comma (Front Literal.Spells)) text.toList ls) :
    readAll r text = ls.mapM fun l => l.value r := by
  obtain ⟨t, u, ht, hl, hu⟩ := h
  obtain ⟨ps, hps, rfl⟩ := sepBy_front_iff.1 hl
  have hscan := Placed.scanList_exact.complete hps (closes_of_layout_nil hu)
  unfold readAll
  simp only [ht.skip (Placed.derivesList_proper.solid hps), hscan, layout_nil_iff.1 hu, if_true,
    List.mapM_map]
  rfl

theorem exists_whole_of_readAll {vs : List Value} (h : readAll r text = .ok vs) :
    ∃ ls, Whole (SepBy Comma (Front Literal.Spells)) text.toList ls := by
  unfold readAll at h
  split at h
  · next ps rest hscan =>
    split at h
    · next hrest =>
      have hl := sepBy_front_iff.2 ⟨ps, Placed.scanList_exact.sound hscan, rfl⟩
      exact ⟨_, _, rest, layout_skipLayout _, hl, layout_nil_iff.2 hrest⟩
    · cases h
  · cases h

/-! ## Pieces of a list -/

/-- A list is read piece by piece, as each would be read on its own. -/
theorem readAll_of_cut {ts : List String} (hcut : CutAtCommas text ts)
    (hts : ∀ t ∈ ts, IsLiteral t) : readAll r text = ts.mapM (read r) := by
  rw [cutAtCommas_iff] at hcut
  obtain ⟨ls, hls⟩ := exists_forall₂_iff.2 (exists_whole_of_isLiteral hts)
  rw [readAll_of_whole ((whole_sepBy_iff Literal.separable).2 ⟨_, hcut, hls⟩)]
  rw [List.forall₂_map_left_iff] at hls
  clear hcut hts
  induction hls with
  | nil => rfl
  | cons hl _ ih => rw [List.mapM_cons, List.mapM_cons, ih, read_of_whole hl]

theorem exists_cut_of_readAll {vs : List Value} (h : readAll r text = .ok vs) :
    ∃ ts, CutAtCommas text ts ∧ ∀ t ∈ ts, IsLiteral t := by
  obtain ⟨ls, hls⟩ := exists_whole_of_readAll h
  obtain ⟨ts, hcut, hts⟩ := (whole_sepBy_iff Literal.separable).1 hls
  refine ⟨ts.map String.ofList, cutAtCommas_iff.2 ?_, ?_⟩
  · simpa [Function.comp_def] using hcut
  · rw [List.forall_mem_map]
    intro t ht
    obtain ⟨l, hl⟩ := exists_forall₂_iff.1 ⟨ls, hts⟩ t ht
    exact ⟨l, by simpa using hl⟩

theorem isLiteral_of_read {v : Value} (h : read r text = .ok v) : IsLiteral text := by
  obtain ⟨l, hl, -⟩ := (read_eq_iff (by simp)).1 h
  exact ⟨l, hl⟩

/-- The first piece that has no value decides the error. -/
theorem mapM_read_eq_error {before after : List String} {t : String} {e : QueryError}
    (hbefore : ∀ u ∈ before, ∃ v, read r u = .ok v) (ht : read r t = .error e) :
    (before ++ t :: after).mapM (read r) = .error e := by
  induction before with
  | nil =>
    rw [List.nil_append, List.mapM_cons, ht]
    rfl
  | cons u before ih =>
    rw [List.forall_mem_cons] at hbefore
    obtain ⟨v, hv⟩ := hbefore.1
    rw [List.cons_append, List.mapM_cons, hv, ih hbefore.2]
    rfl

theorem readAll_ok_iff {vs : List Value} : readAll r text = .ok vs ↔
    ∃ ts, CutAtCommas text ts ∧ List.Forall₂ (fun t v => read r t = .ok v) ts vs := by
  constructor
  · intro h
    obtain ⟨ts, hcut, hts⟩ := exists_cut_of_readAll h
    rw [readAll_of_cut hcut hts, mapM_eq_ok_iff] at h
    exact ⟨ts, hcut, h⟩
  · rintro ⟨ts, hcut, hvs⟩
    have hts : ∀ t ∈ ts, IsLiteral t := by
      intro t ht
      obtain ⟨v, hv⟩ := exists_forall₂_iff.1 ⟨vs, hvs⟩ t ht
      exact isLiteral_of_read hv
    rw [readAll_of_cut hcut hts, mapM_eq_ok_iff]
    exact hvs

/-- A text is read as a list exactly when it can be cut at commas into pieces that are read as the
values of the list, in order. It can be cut into literals in one way at most, and a piece without a
value is then an error, the first of them the error of the list. Nothing is read of a text with a
blank piece behind literals: a blank text, or one with a comma at the front, or two commas in a row.
Nor is it of a text with a comma at the end. -/
theorem readAll_elementwise (r : Resolver) (text : String) :
    (∀ vs, readAll r text = .ok vs ↔
      ∃ ts, CutAtCommas text ts ∧ List.Forall₂ (fun t v => read r t = .ok v) ts vs) ∧
    (∀ ts us, CutAtCommas text ts → CutAtCommas text us → (∀ t ∈ ts, IsLiteral t) →
      (∀ u ∈ us, IsLiteral u) → ts = us) ∧
    (∀ before t after e, CutAtCommas text (before ++ t :: after) →
      (∀ u ∈ before ++ t :: after, IsLiteral u) → (∀ u ∈ before, ∃ v, read r u = .ok v) →
      read r t = .error e → readAll r text = .error e) ∧
    (∀ before (blank : String) after, CutAtCommas text (before ++ blank :: after) →
      (∀ u ∈ before, IsLiteral u) → trim blank.toList = [] → ∀ vs, readAll r text ≠ .ok vs) ∧
    ∀ rest blank : String, text = rest ++ "," ++ blank → trim blank.toList = [] →
      ∀ vs, readAll r text ≠ .ok vs := by
  simp only [trim_eq_nil_iff, isBlankText, List.all_eq_true]
  refine ⟨fun vs => readAll_ok_iff, ?_, ?_, ?_, ?_⟩
  · intro ts us hts hus hliterals hliterals'
    rw [cutAtCommas_iff] at hts hus
    have hmap := Literal.separable.cut_unique (exists_whole_of_isLiteral hliterals)
      (exists_whole_of_isLiteral hliterals') hts hus
    exact List.map_injective_iff.2 (fun _ _ => String.toList_inj.1) hmap
  · intro before t after e hcut hts hbefore ht
    rw [readAll_of_cut hcut hts, mapM_read_eq_error hbefore ht]
  · intro before blank after hcut hbefore hblank vs hvs
    obtain ⟨ts, hcut', hts⟩ := exists_cut_of_readAll hvs
    rw [cutAtCommas_iff] at hcut hcut'
    rw [List.map_append, List.map_cons] at hcut
    exact Literal.separable.not_blank_piece (exists_whole_of_isLiteral hbefore) hblank hcut
      (exists_whole_of_isLiteral hts) hcut'
  · rintro rest blank rfl hblank vs hvs
    obtain ⟨ls, hls⟩ := exists_whole_of_readAll hvs
    have htext : (rest ++ "," ++ blank).toList = rest.toList ++ ',' :: blank.toList := by simp
    rw [htext] at hls
    exact not_whole_of_comma Literal.separable hblank hls

/-- A string with a comma in it, a label that nothing binds, two commas in a row, and a comma at the
end. -/
theorem readAll_elementwise_commas :
    let r : Resolver := ⟨.empty, .empty, .reject⟩
    (readAll r "true, \"a,b\"" = .ok [.boolean true, .string "a,b" none none] ∧
      ∀ ts, CutAtCommas "true, \"a,b\"" ts → (∀ t ∈ ts, IsLiteral t) →
        ts = ["true", " \"a,b\""]) ∧
    readAll r "true,\"x\"^^a:b,9223372036854775808" = .error (.unknownLabel "a") ∧
    (∀ vs, readAll r "true,,false" ≠ .ok vs) ∧ ∀ vs, readAll r "true, " ≠ .ok vs := by
  intro r
  obtain ⟨hok, hunique, -⟩ := readAll_elementwise r "true, \"a,b\""
  obtain ⟨-, -, herror, -⟩ := readAll_elementwise r "true,\"x\"^^a:b,9223372036854775808"
  obtain ⟨-, -, -, hblank, -⟩ := readAll_elementwise r "true,,false"
  obtain ⟨-, -, -, -, hend⟩ := readAll_elementwise r "true, "
  have htrue : read r "true" = .ok (.boolean true) := rfl
  have hbefore : ∀ u ∈ ["true"], ∃ v, read r u = .ok v := by
    intro u hu
    rw [List.mem_singleton.1 hu]
    exact ⟨_, htrue⟩
  have hlabel : read r "\"x\"^^a:b" = .error (.unknownLabel "a") := by decide +kernel
  refine ⟨⟨(hok _).2 ⟨["true", " \"a,b\""], ?_, ?_⟩, fun ts hcut hts => ?_⟩, ?_, ?_, ?_⟩
  · decide
  · exact .cons htrue (.cons rfl .nil)
  · exact hunique _ _ hcut (by decide) hts (by decide)
  · exact herror ["true"] "\"x\"^^a:b" ["9223372036854775808"] _ (by decide) (by decide +kernel)
      hbefore hlabel
  · exact hblank ["true"] "" ["false"] (by decide) (by decide) (by decide)
  · exact hend "true" " " (by decide) (by decide)

end Value

end LifecycleQuery

import Mathlib.Data.List.Induction
import LifecycleQuery.Proofs.Grammar.Namespaces

/-!
# Tables made of bindings

A table is made by bindings one after another, of which the later ones win. `get?_insertAll` says
this of a lookup, `get?_ofList_eq_some_iff` names the binding that counts, and the labels keep the
order in which they were bound first (`labels_ofList`). The bindings of a table make that table
again (`ofList_entries`). A table of labels and IRIs is written as a list of bindings that the
grammar derives, whatever comes behind it (`derives_bindings`).
-/

namespace LifecycleQuery.Namespaces

open Text

/-! ## Lookups -/

@[simp] theorem get?_empty (label : String) : empty.get? label = none := rfl

/-- The bindings made later hide those made before. -/
theorem get?_insertAll (t : Namespaces) (bs : List Binding) (label : String) :
    (t.insertAll bs).get? label = ((ofList bs).get? label).or (t.get? label) := by
  induction bs generalizing t with
  | nil => rfl
  | cons b bs ih =>
    have hcons : ∀ u : Namespaces, u.insertAll (b :: bs) = (u.insert b.1 b.2).insertAll bs :=
      fun _ => rfl
    rw [ofList, hcons, hcons, ih, ih, get?_insert, get?_insert, get?_empty, Option.or_assoc]
    by_cases h : label = b.1
    · simp [h]
    · simp [h]

theorem get?_ofList_append (as bs : List Binding) (label : String) :
    (ofList (as ++ bs)).get? label = ((ofList bs).get? label).or ((ofList as).get? label) := by
  have happend : ofList (as ++ bs) = (ofList as).insertAll bs := List.foldl_append
  rw [happend, get?_insertAll]

/-- The last binding of a label is the one that counts. -/
theorem get?_ofList (bs : List Binding) (label : String) :
    (ofList bs).get? label = bs.reverse.lookup label := by
  induction bs with
  | nil => rfl
  | cons b bs ih =>
    have hfirst : (ofList [b]).get? label = [b].lookup label :=
      (get?_insert empty b.1 b.2 label).trans (lookup_bindLabel b.1 b.2 label []).symm
    rw [List.reverse_cons, List.lookup_append, ← ih, ← hfirst]
    exact get?_ofList_append [b] bs label

theorem get?_ofList_eq_some_iff {bs : List Binding} {label space : String} :
    (ofList bs).get? label = some space ↔
      ∃ before after, bs = before ++ (label, space) :: after ∧ label ∉ after.map Prod.fst := by
  rw [get?_ofList, List.lookup_eq_some_iff]
  constructor
  · rintro ⟨after, before, hbs, hafter⟩
    refine ⟨before.reverse, after.reverse, by simpa using congrArg List.reverse hbs, fun h => ?_⟩
    obtain ⟨b, hb, rfl⟩ := List.mem_map.1 h
    simpa using hafter b (List.mem_reverse.1 hb)
  · rintro ⟨before, after, rfl, hafter⟩
    refine ⟨after.reverse, before.reverse, by simp, fun b hb => ?_⟩
    rw [bne_iff_ne]
    rintro rfl
    exact hafter (List.mem_map_of_mem (List.mem_reverse.1 hb))

/-! ## The bindings of a table -/

theorem bindLabel_of_not_mem {label space : String} {entries : List Binding}
    (h : label ∉ entries.map Prod.fst) :
    bindLabel label space entries = entries ++ [(label, space)] := by
  induction entries with
  | nil => rfl
  | cons e entries ih =>
    obtain ⟨l, s⟩ := e
    rw [List.map_cons, List.mem_cons, not_or] at h
    have hl : ¬l = label := fun he => h.1 he.symm
    rw [bindLabel, if_neg hl, ih h.2]
    rfl

/-- Bindings of new labels are put behind the others. -/
theorem entries_insertAll {t : Namespaces} {bs : List Binding}
    (h : ((t.entries ++ bs).map Prod.fst).Nodup) : (t.insertAll bs).entries = t.entries ++ bs := by
  induction bs generalizing t with
  | nil => exact (List.append_nil _).symm
  | cons b bs ih =>
    have hnew : b.1 ∉ t.entries.map Prod.fst := by
      intro hmem
      rw [List.map_append, List.nodup_append] at h
      exact h.2.2 b.1 hmem b.1 (by simp) rfl
    have hentries : (t.insert b.1 b.2).entries = t.entries ++ [b] := bindLabel_of_not_mem hnew
    have hsplit : t.entries ++ b :: bs = (t.insert b.1 b.2).entries ++ bs := by
      rw [hentries]
      simp
    rw [hsplit] at h ⊢
    exact ih h

/-- The labels stand in the order in which they were bound first. -/
theorem labels_ofList (bs : List Binding) :
    (ofList bs).entries.map Prod.fst = (bs.map Prod.fst).eraseDups := by
  induction bs using List.reverseRecOn with
  | nil => rfl
  | append_singleton bs b ih =>
    have hlast : (ofList (bs ++ [b])).entries = bindLabel b.1 b.2 (ofList bs).entries :=
      congrArg entries List.foldl_append
    rw [hlast, labels_bindLabel, ih, List.map_append, List.eraseDups_append, List.map_singleton]
    by_cases hb : b.1 ∈ bs.map Prod.fst <;> simp [List.removeAll, hb, List.eraseDups_cons]

theorem ofList_entries (t : Namespaces) : ofList t.entries = t := by
  have h : (ofList t.entries).entries = t.entries := entries_insertAll t.distinct
  cases t
  cases ho : ofList _
  rw [ho] at h
  cases h
  rfl

/-! ## Written form -/

/-- The bindings are made of labels and IRIs as the grammar has them. -/
def Writable (bs : List Binding) : Prop := ∀ b ∈ bs, Name.Label b.1.toList ∧ IsIri b.2.toList

theorem derives_bindingText {b : Binding} (hl : Name.Label b.1.toList) (hi : IsIri b.2.toList)
    (u : List Char) : Derives (bindingText b ++ u) b u := by
  have hspace : Front SpellsIri ('<' :: b.2.toList ++ ['>'] ++ u) b.2.toList u :=
    ⟨_, .intro hi, rfl⟩
  have hd := Derives.intro hl (u := '=' :: ('<' :: b.2.toList ++ ['>'] ++ u)) ⟨[], by simp, rfl⟩
    ⟨[], by simp, rfl⟩ hspace
  rw [String.ofList_toList, String.ofList_toList] at hd
  have htext : bindingText b ++ u =
      b.1.toList ++ '=' :: ('<' :: b.2.toList ++ ['>'] ++ u) := by
    simp [bindingText]
  rw [htext]
  exact hd

/-- Bindings with commas between them, before any rest. -/
theorem derives_bindings {bs : List Binding} (hne : bs ≠ []) (hbs : Writable bs) (u : List Char) :
    SepBy Comma Derives ([','].intercalate (bs.map bindingText) ++ u) bs u := by
  induction bs with
  | nil => exact absurd rfl hne
  | cons b bs ih =>
    obtain ⟨⟨hl, hi⟩, hbs⟩ := List.forall_mem_cons.1 hbs
    cases bs with
    | nil =>
      rw [List.map_singleton, List.intercalate_singleton]
      exact .one (derives_bindingText hl hi u)
    | cons c bs =>
      have hrest := ih (List.cons_ne_nil _ _) hbs
      rw [List.map_cons] at hrest
      rw [List.map_cons, List.map_cons, List.intercalate_cons_cons, List.append_assoc,
        List.append_assoc]
      have hcomma : Comma ([','] ++ ([','].intercalate (bindingText c :: bs.map bindingText) ++ u))
          ([','].intercalate (bindingText c :: bs.map bindingText) ++ u) :=
        ⟨_, ⟨[], by simp, rfl⟩, [], by simp, rfl⟩
      exact .more (derives_bindingText hl hi _) hcomma hrest

/-- A written table, a comma and a clause that is not blank make a clause with the bindings of
both. -/
theorem read_text_append {t : Namespaces} (hne : t.entries ≠ []) (ht : Writable t.entries)
    {text : String} {bs : List Binding} (h : DerivesClause text.toList bs) :
    read (t.render ++ "," ++ text) = .ok (ofList (t.entries ++ bs)) := by
  obtain ⟨u, v, hu, hl, hv⟩ := h
  have hcomma : Comma (',' :: text.toList) u := ⟨text.toList, ⟨[], by simp, rfl⟩, hu⟩
  have hall := (derives_bindings hne ht _).append hcomma hl
  have htext : (t.render ++ "," ++ text).toList = t.text ++ ',' :: text.toList := by
    rw [String.toList_append, String.toList_append, render, String.toList_ofList]
    simp
  apply read_ok_iff.2
  refine .inr ⟨t.entries ++ bs, ⟨t.text ++ ',' :: text.toList, v, ⟨[], by simp, ?_⟩, hall, hv⟩, rfl⟩
  exact htext

end LifecycleQuery.Namespaces

import LifecycleQuery.Proofs.Form
import LifecycleQuery.Service

/-!
# Parameters, read and written

Written parameters are fields with different keys, and collecting them sets each parameter that is
present and no other (`collect_present`). So a query string that was written is read back, absent
parameters and empty texts told apart, and a service takes it for the parameters themselves
(`Service.read_query`).
-/

namespace LifecycleQuery

namespace Parameters

theorem get?_empty (p : Parameter) : empty.get? p = none := by
  cases p <;> rfl

theorem collect_cons {qs : Parameters} {p : Parameter} (h : qs.get? p = none) (value : String)
    (rest : List Form.Field) :
    collect qs ((p.key, value) :: rest) = collect (qs.set p (some value)) rest := by
  simp [collect, Parameter.ofKey?_key, h]

/-- The field of a parameter, if it is present. -/
def field? (ps : Parameters) (p : Parameter) : Option Form.Field :=
  (ps.get? p).map fun value => (p.key, value)

theorem collect_present (ps : Parameters) {qs : Parameters} {l : List Parameter} (hl : l.Nodup)
    (hfree : ∀ p ∈ l, qs.get? p = none) :
    ∃ rs, collect qs (l.filterMap ps.field?) = .ok rs ∧
      ∀ p, rs.get? p = if p ∈ l then ps.get? p else qs.get? p := by
  induction l generalizing qs with
  | nil => exact ⟨qs, rfl, fun _ => by simp⟩
  | cons p l ih =>
    obtain ⟨hp, hl⟩ := List.nodup_cons.1 hl
    obtain ⟨hpfree, hfree⟩ := List.forall_mem_cons.1 hfree
    cases hvalue : ps.get? p with
    | none =>
      have hfield : ps.field? p = none := by rw [field?, hvalue]; rfl
      obtain ⟨rs, hrs, hget⟩ := ih hl hfree
      refine ⟨rs, by rw [List.filterMap_cons_none hfield, hrs], fun q => ?_⟩
      by_cases hq : q = p
      · subst hq
        simp [hget, hp, hpfree, hvalue]
      · simp [hget, hq]
    | some value =>
      have hfield : ps.field? p = some (p.key, value) := by rw [field?, hvalue]; rfl
      have hfree' : ∀ q ∈ l, (qs.set p (some value)).get? q = none := by
        intro q hq
        have hne : q ≠ p := by
          rintro rfl
          exact hp hq
        rw [get?_set, if_neg hne, hfree q hq]
      obtain ⟨rs, hrs, hget⟩ := ih hl hfree'
      refine ⟨rs, by rw [List.filterMap_cons_some hfield, collect_cons hpfree, hrs], fun q => ?_⟩
      by_cases hq : q = p
      · subst hq
        simp [hget, hp, get?_set, hvalue]
      · simp [hget, hq, get?_set]

theorem collect_fields (ps : Parameters) : collect empty ps.fields = .ok ps := by
  have hdistinct : Parameter.every.Nodup := by decide
  obtain ⟨rs, hrs, hget⟩ := collect_present ps hdistinct fun p _ => get?_empty p
  have hps : rs = ps := ext_get? fun p => by rw [hget, if_pos (Parameter.mem_every p)]
  rwa [hps] at hrs

/-- The text of a query string, one question mark before it left out. -/
def body (query : String) : List Char :=
  match query.toList with
  | '?' :: rest => rest
  | text => text

theorem read_eq_collect (query : String) : read query = collect empty (Form.decode (body query)) :=
  rfl

theorem body_of_head_ne {query : String} (h : ∀ c ∈ query.toList.head?, c ≠ '?') :
    body query = query.toList := by
  rw [body]
  split
  · next rest htext => exact absurd rfl (h '?' (by rw [htext]; rfl))
  · rfl

/-- Written fields are read back and collected. -/
theorem read_encode (fs : List Form.Field) :
    read (String.ofList (Form.encode fs)) = collect empty fs := by
  have htext : (String.ofList (Form.encode fs)).toList = Form.encode fs := String.toList_ofList
  rw [read_eq_collect, body_of_head_ne, htext, Form.decode_encode]
  rintro c hc rfl
  rw [htext] at hc
  exact Form.not_mem_encode fs (List.mem_of_mem_head? hc)

theorem read_render (ps : Parameters) : read ps.render = .ok ps := by
  rw [render, read_encode, collect_fields]

end Parameters

namespace Service

/-- What a query string is read as is what the service answers. -/
theorem read_of_parameters {s : Service} {query : String} {ps : Parameters}
    (h : Parameters.read query = .ok ps) : s.read query = s.readParameters ps := by
  rw [read, h]
  rfl

/-- Whatever texts the parameters have, their query string is read back as these parameters, and the
service answers it as it answers them. -/
theorem read_query (ps : Parameters) :
    Parameters.read ps.render = .ok ps ∧ ∀ s : Service, s.read ps.render = s.readParameters ps :=
  ⟨ps.read_render, fun _ => read_of_parameters ps.read_render⟩

end Service

end LifecycleQuery

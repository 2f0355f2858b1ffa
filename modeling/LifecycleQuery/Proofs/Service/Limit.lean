import LifecycleQuery.Proofs.Query.History
import LifecycleQuery.Proofs.Service
import Mathlib.Data.List.Basic

/-!
# What decides a request

A request passes three checks, in this order: the lengths of its clauses, its paging, and its
clauses as a run of a fresh query. `checkLengths_cases` and `takeClauses_ok_iff` say what the first
and the last of them find. Only the first looks at the limit, so a larger limit changes nothing for
a request that a smaller one lets through (`limits_agree`).
-/

namespace LifecycleQuery

open Text

namespace Parameters

/-- The clause is present and longer than the limit. -/
def Exceeds (ps : Parameters) (limit : Nat) (c : Clause) : Prop :=
  ∃ text, ps.clause? c = some text ∧ limit < text.utf8ByteSize

/-- Those of the clauses that are present, as the steps of a query. -/
def steps (ps : Parameters) (clauses : List Clause) : List (Clause × String) :=
  clauses.filterMap fun c => (ps.clause? c).map fun text => (c, text)

section
variable {ps : Parameters} {c : Clause} {text : String}

theorem exceeds_iff {limit : Nat} : ps.Exceeds limit c ↔
    limit < byteSize ((ps.clause? c).getD "").toList := by
  rw [Exceeds]
  cases ps.clause? c with
  | none => simp
  | some text => simp [utf8ByteSize_eq]

theorem steps_absent (h : ps.clause? c = none) (rest : List Clause) :
    ps.steps (c :: rest) = ps.steps rest :=
  List.filterMap_cons_none (by rw [h]; rfl)

theorem steps_present (h : ps.clause? c = some text) (rest : List Clause) :
    ps.steps (c :: rest) = (c, text) :: ps.steps rest :=
  List.filterMap_cons_some (by rw [h]; rfl)

end

theorem steps_congr {ps ps' : Parameters} {clauses : List Clause}
    (h : ∀ c ∈ clauses, ps'.clause? c = ps.clause? c) : ps'.steps clauses = ps.steps clauses :=
  List.filterMap_congr fun c hc => by rw [h c hc]

end Parameters

/-! ## Runs with a fault -/

namespace Query

/-- The steps before some step are accepted, and that step has the fault. -/
def FirstFault (q : Query) (steps : List (Clause × String)) (e : QueryError) : Prop :=
  ∃ before st after, steps = before ++ st :: after ∧ q.accepted before = before ∧
    (q.run before).take st.1 st.2 = .error e

variable {q q' : Query} {st : Clause × String} {steps : List (Clause × String)}

theorem accepted_cons_of_ok (h : q.take st.1 st.2 = .ok q') :
    q.accepted (st :: steps) = st :: q'.accepted steps := by
  rw [accepted, h]

theorem length_accepted_le (q : Query) (steps : List (Clause × String)) :
    (q.accepted steps).length ≤ steps.length := by
  induction steps generalizing q with
  | nil => exact Nat.le_refl 0
  | cons st steps ih =>
    rw [accepted]
    split
    · next q' _ => exact Nat.succ_le_succ (ih q')
    · exact Nat.le_succ_of_le (ih q)

/-- A run is accepted when its first step is, and then the others. -/
theorem accepted_cons_eq_iff : q.accepted (st :: steps) = st :: steps ↔
    ∃ q', q.take st.1 st.2 = .ok q' ∧ q'.accepted steps = steps := by
  cases h : q.take st.1 st.2 with
  | ok q' => simp [accepted_cons_of_ok h]
  | error e =>
    have hshort := length_accepted_le q steps
    have hne : q.accepted (st :: steps) ≠ st :: steps := by
      intro he
      have hskip : q.accepted (st :: steps) = q.accepted steps := by rw [accepted, h]
      rw [← hskip, he, List.length_cons] at hshort
      omega
    simp [hne]

theorem firstFault_nil {e : QueryError} : ¬q.FirstFault [] e := by
  rintro ⟨before, st, after, he, -, -⟩
  simp at he

theorem firstFault_cons {e : QueryError} : q.FirstFault (st :: steps) e ↔
    q.take st.1 st.2 = .error e ∨ ∃ q', q.take st.1 st.2 = .ok q' ∧ q'.FirstFault steps e := by
  constructor
  · rintro ⟨before, st', after, he, haccepted, hfault⟩
    cases before with
    | nil =>
      cases he
      exact .inl hfault
    | cons b before =>
      cases he
      obtain ⟨q', hq', hbefore⟩ := accepted_cons_eq_iff.1 haccepted
      rw [run_cons, step_eq_of_ok hq'] at hfault
      exact .inr ⟨q', hq', before, st', after, rfl, hbefore, hfault⟩
  · rintro (hfault | ⟨q', hq', before, st', after, rfl, haccepted, hfault⟩)
    · exact ⟨[], st, steps, rfl, rfl, hfault⟩
    · refine ⟨st :: before, st', after, rfl, accepted_cons_eq_iff.2 ⟨q', hq', haccepted⟩, ?_⟩
      rw [run_cons, step_eq_of_ok hq']
      exact hfault

end Query

namespace Service

/-- The service with another limit. -/
def limited (s : Service) (limit : Nat) : Service := { s with clauseLimit := limit }

/-! ## The three checks -/

theorem checkLengths_of_short {s : Service} {ps : Parameters} {c : Clause}
    (h : ¬ps.Exceeds s.clauseLimit c) (rest : List Clause) :
    s.checkLengths ps (c :: rest) = s.checkLengths ps rest := by
  rw [checkLengths]
  exact if_neg fun hlong => h (Parameters.exceeds_iff.2 hlong)

/-- Either no clause is too long, or the first that is decides. -/
theorem checkLengths_cases (s : Service) (ps : Parameters) (clauses : List Clause) :
    ((∀ c ∈ clauses, ¬ps.Exceeds s.clauseLimit c) ∧ s.checkLengths ps clauses = .ok ()) ∨
      ∃ before c after text, clauses = before ++ c :: after ∧
        (∀ b ∈ before, ¬ps.Exceeds s.clauseLimit b) ∧ ps.clause? c = some text ∧
        s.clauseLimit < text.utf8ByteSize ∧ s.checkLengths ps clauses =
          .error (.tooLong c text.utf8ByteSize s.clauseLimit) := by
  induction clauses with
  | nil => exact .inl ⟨by simp, rfl⟩
  | cons c rest ih =>
    by_cases hc : ps.Exceeds s.clauseLimit c
    · have hlength := Parameters.exceeds_iff.1 hc
      obtain ⟨text, htext, hlong⟩ := hc
      rw [htext] at hlength
      refine .inr ⟨[], c, rest, text, rfl, by simp, htext, hlong, ?_⟩
      rw [checkLengths, htext, utf8ByteSize_eq]
      exact if_pos hlength
    · rw [checkLengths_of_short hc]
      rcases ih with ⟨hshort, hok⟩ | ⟨before, d, after, text, rfl, hbefore, hd⟩
      · exact .inl ⟨List.forall_mem_cons.2 ⟨hc, hshort⟩, hok⟩
      · exact .inr ⟨c :: before, d, after, text, rfl, List.forall_mem_cons.2 ⟨hc, hbefore⟩, hd⟩

section
variable {ps : Parameters} {clauses : List Clause} {q : Query}

theorem takeClauses_absent {c : Clause} (h : ps.clause? c = none) (rest : List Clause) :
    takeClauses ps q (c :: rest) = takeClauses ps q rest := by
  rw [takeClauses, h]

theorem takeClauses_present {c : Clause} {text : String} (h : ps.clause? c = some text)
    (rest : List Clause) : takeClauses ps q (c :: rest) =
      (q.take c text).bind fun q' => takeClauses ps q' rest := by
  rw [takeClauses, h]

/-- The clauses lead where the run of their steps leads, if all of these are accepted. -/
theorem takeClauses_ok_iff {q' : Query} : takeClauses ps q clauses = .ok q' ↔
    q.accepted (ps.steps clauses) = ps.steps clauses ∧ q.run (ps.steps clauses) = q' := by
  induction clauses generalizing q with
  | nil =>
    show Except.ok q = .ok q' ↔ q.accepted [] = [] ∧ q = q'
    simp [Query.accepted]
  | cons c rest ih =>
    cases hc : ps.clause? c with
    | none =>
      rw [takeClauses_absent hc, Parameters.steps_absent hc]
      exact ih
    | some text =>
      rw [takeClauses_present hc, Parameters.steps_present hc, Query.accepted_cons_eq_iff,
        Query.run_cons]
      simp only [Except.bind_eq_ok_iff, ih]
      constructor
      · rintro ⟨p, hp, haccepted, hrun⟩
        exact ⟨⟨p, hp, haccepted⟩, by rw [Query.step_eq_of_ok hp, hrun]⟩
      · rintro ⟨⟨p, hp, haccepted⟩, hrun⟩
        rw [Query.step_eq_of_ok hp] at hrun
        exact ⟨p, hp, haccepted, hrun⟩

theorem takeClauses_error_iff {e : QueryError} :
    takeClauses ps q clauses = .error e ↔ q.FirstFault (ps.steps clauses) e := by
  induction clauses generalizing q with
  | nil => simp [takeClauses, Parameters.steps, Query.firstFault_nil]
  | cons c rest ih =>
    cases hc : ps.clause? c with
    | none =>
      rw [takeClauses_absent hc, Parameters.steps_absent hc]
      exact ih
    | some text =>
      rw [takeClauses_present hc, Parameters.steps_present hc, Query.firstFault_cons]
      simp only [Except.bind_eq_error_iff, ih]

end

section
variable {s : Service} {ps : Parameters} {limit : Nat}

/-- Behind the length check the limit does not matter. -/
theorem readParameters_of_short (h : ∀ c, ¬ps.Exceeds s.clauseLimit c) :
    s.readParameters ps =
      ((Page.read s.defaultPageSize ps.paging ps.pageSize ps.pageNumber).mapError .paging).bind
        fun page => ((takeClauses ps (.ofSettings s.settings) Clause.every).mapError .query).map
          fun q => ⟨q, page⟩ := by
  have hlengths : s.checkLengths ps Clause.every = .ok () := by
    rcases s.checkLengths_cases ps Clause.every with
      ⟨-, hok⟩ | ⟨-, c, -, text, -, -, htext, hlong, -⟩
    · exact hok
    · exact absurd ⟨text, htext, hlong⟩ (h c)
  rw [readParameters, hlengths]
  cases Page.read s.defaultPageSize ps.paging ps.pageSize ps.pageNumber with
  | error fault => rfl
  | ok page => cases takeClauses ps (.ofSettings s.settings) Clause.every <;> rfl

/-- A request with short clauses and a page is answered as its clauses are taken. -/
theorem readParameters_of_page (h : ∀ c, ¬ps.Exceeds s.clauseLimit c) {page : Option Page}
    (hpage : Page.read s.defaultPageSize ps.paging ps.pageSize ps.pageNumber = .ok page) :
    s.readParameters ps =
      ((takeClauses ps (.ofSettings s.settings) Clause.every).mapError .query).map
        fun q => ⟨q, page⟩ := by
  rw [readParameters_of_short h, hpage]
  rfl

/-- If each clause is accepted where it comes, the answer is the run of them all. -/
theorem ok_iff_of_page (h : ∀ c, ¬ps.Exceeds s.clauseLimit c) {page : Option Page}
    (hpage : Page.read s.defaultPageSize ps.paging ps.pageSize ps.pageNumber = .ok page)
    {r : Request} : s.readParameters ps = .ok r ↔
      (Query.ofSettings s.settings).accepted (ps.steps Clause.every) = ps.steps Clause.every ∧
        r = ⟨(Query.ofSettings s.settings).run (ps.steps Clause.every), page⟩ := by
  rw [readParameters_of_page h hpage, Except.map_eq_ok_iff]
  simp only [Except.mapError_eq_ok_iff, takeClauses_ok_iff]
  constructor
  · rintro ⟨q, ⟨haccepted, rfl⟩, rfl⟩
    exact ⟨haccepted, rfl⟩
  · rintro ⟨haccepted, rfl⟩
    exact ⟨_, ⟨haccepted, rfl⟩, rfl⟩

/-- The first clause that is not accepted decides the error. -/
theorem error_iff_of_page (h : ∀ c, ¬ps.Exceeds s.clauseLimit c) {page : Option Page}
    (hpage : Page.read s.defaultPageSize ps.paging ps.pageSize ps.pageNumber = .ok page)
    {e : RequestError} : s.readParameters ps = .error e ↔ ∃ fault, e = .query fault ∧
      (Query.ofSettings s.settings).FirstFault (ps.steps Clause.every) fault := by
  rw [readParameters_of_page h hpage, Except.map_eq_error_iff, Except.mapError_eq_error_iff]
  simp only [takeClauses_error_iff]
  constructor
  · rintro ⟨fault, hfault, rfl⟩
    exact ⟨fault, rfl, hfault⟩
  · rintro ⟨fault, rfl, hfault⟩
    exact ⟨fault, hfault, rfl⟩

theorem readParameters_of_long (h : ∃ c, ps.Exceeds s.clauseLimit c) :
    ∃ before c after text, Clause.every = before ++ c :: after ∧
      (∀ b ∈ before, ¬ps.Exceeds s.clauseLimit b) ∧ ps.clause? c = some text ∧
      s.clauseLimit < text.utf8ByteSize ∧
      s.readParameters ps = .error (.tooLong c text.utf8ByteSize s.clauseLimit) := by
  obtain ⟨d, hd⟩ := h
  have hmem : d ∈ Clause.every := by cases d <;> decide
  rcases s.checkLengths_cases ps Clause.every with
    ⟨hshort, -⟩ | ⟨before, c, after, text, hsplit, hbefore, htext, hlong, herror⟩
  · exact absurd hd (hshort d hmem)
  · refine ⟨before, c, after, text, hsplit, hbefore, htext, hlong, ?_⟩
    rw [readParameters, herror]
    rfl

/-- An accepted request is answered with the run of its clauses. -/
theorem query_of_readParameters {r : Request} (h : s.readParameters ps = .ok r) :
    r.query = (Query.ofSettings s.settings).run (ps.steps Clause.every) := by
  obtain ⟨-, page, -, q, hq, rfl⟩ := readParameters_ok_iff.1 h
  exact (takeClauses_ok_iff.1 hq).2.symm

/-- The property clause, which comes last, touches neither namespaces nor conditions. -/
theorem run_steps_eq (q : Query) (ps : Parameters) :
    (q.run (ps.steps Clause.every)).namespaces =
        (q.run (ps.steps [.namespaces, .conditions])).namespaces ∧
      (q.run (ps.steps Clause.every)).conditions =
        (q.run (ps.steps [.namespaces, .conditions])).conditions := by
  have hsplit : ps.steps Clause.every =
      ps.steps [.namespaces, .conditions] ++ ps.steps [.properties] := by
    rw [Parameters.steps, Parameters.steps, Parameters.steps, ← List.filterMap_append]
    rfl
  rw [hsplit, Query.run_append]
  cases hc : ps.clause? .properties with
  | none =>
    rw [Parameters.steps_absent hc]
    exact ⟨rfl, rfl⟩
  | some text =>
    rw [Parameters.steps_present hc, Query.run_cons, Query.step_properties]
    exact ⟨rfl, rfl⟩

/-- Two accepted requests with the same namespaces and conditions declare and filter the same. -/
theorem query_congr {ps' : Parameters} (hn : ps'.namespaces = ps.namespaces)
    (hc : ps'.conditions = ps.conditions) {r r' : Request} (h : s.readParameters ps = .ok r)
    (h' : s.readParameters ps' = .ok r') :
    r'.query.namespaces = r.query.namespaces ∧ r'.query.conditions = r.query.conditions := by
  have hsteps : ps'.steps [.namespaces, .conditions] = ps.steps [.namespaces, .conditions] := by
    apply Parameters.steps_congr
    simp only [List.forall_mem_cons, List.not_mem_nil, false_implies, implies_true, and_true]
    exact ⟨hn, hc⟩
  rw [query_of_readParameters h, query_of_readParameters h', (run_steps_eq _ ps).1,
    (run_steps_eq _ ps).2, (run_steps_eq _ ps').1, (run_steps_eq _ ps').2, hsteps]
  exact ⟨rfl, rfl⟩

end

/-- A limit decides by the lengths of the clauses alone: the first that is too long is the answer,
whatever else is wrong, and if none is, a larger limit gives the same answer. Then a fault of the
paging comes first, and behind it the first fault of the clauses taken one after another. What is
declared and filtered does not depend on the other parameters. -/
theorem limits_agree (s : Service) (ps : Parameters) {limit limit' : Nat} (h : limit ≤ limit') :
    (∀ r, (s.limited limit).readParameters ps = .ok r →
      (s.limited limit').readParameters ps = .ok r) ∧
    ((∃ c, ps.Exceeds limit c) → ∃ before c after text,
      [.namespaces, .conditions, .properties] = before ++ c :: after ∧
      (∀ b ∈ before, ¬ps.Exceeds limit b) ∧ ps.clause? c = some text ∧
      limit < text.utf8ByteSize ∧
      (s.limited limit).readParameters ps = .error (.tooLong c text.utf8ByteSize limit)) ∧
    ((∀ c, ¬ps.Exceeds limit c) →
      (s.limited limit).readParameters ps = (s.limited limit').readParameters ps ∧
      (∀ fault, Page.read s.defaultPageSize ps.paging ps.pageSize ps.pageNumber = .error fault →
        (s.limited limit).readParameters ps = .error (.paging fault)) ∧
      ∀ page, Page.read s.defaultPageSize ps.paging ps.pageSize ps.pageNumber = .ok page →
        let q := Query.ofSettings s.settings
        let steps := ps.steps [.namespaces, .conditions, .properties]
        (∀ r, (s.limited limit).readParameters ps = .ok r ↔
          q.accepted steps = steps ∧ r = ⟨q.run steps, page⟩) ∧
        ∀ e, (s.limited limit).readParameters ps = .error e ↔
          ∃ fault, e = .query fault ∧ q.FirstFault steps fault) ∧
    ∀ ps' : Parameters, ps'.namespaces = ps.namespaces → ps'.conditions = ps.conditions →
      ∀ r r', (s.limited limit).readParameters ps = .ok r →
        (s.limited limit).readParameters ps' = .ok r' →
        r'.query.namespaces = r.query.namespaces ∧ r'.query.conditions = r.query.conditions := by
  have hsame : (∀ c, ¬ps.Exceeds limit c) →
      (s.limited limit).readParameters ps = (s.limited limit').readParameters ps := by
    intro hshort
    have hshort' : ∀ c, ¬ps.Exceeds limit' c := by
      rintro c ⟨text, htext, hlong⟩
      exact hshort c ⟨text, htext, Nat.lt_of_le_of_lt h hlong⟩
    rw [readParameters_of_short hshort, readParameters_of_short hshort']
    rfl
  refine ⟨fun r hr => ?_, fun hlong => readParameters_of_long (s := s.limited limit) hlong,
    fun hshort => ⟨hsame hshort, fun fault hfault => ?_,
      fun page hpage => ⟨fun r => ?_, fun e => ?_⟩⟩,
    fun ps' hn hc r r' hr hr' => query_congr hn hc hr hr'⟩
  · by_cases hlong : ∃ c, ps.Exceeds limit c
    · obtain ⟨_, _, _, _, -, -, -, -, herror⟩ := readParameters_of_long (s := s.limited limit) hlong
      rw [herror] at hr
      cases hr
    · rw [← hsame (not_exists.1 hlong), hr]
  · rw [readParameters_of_short (s := s.limited limit) hshort]
    simp only [limited, hfault]
    rfl
  · exact ok_iff_of_page (s := s.limited limit) hshort hpage
  · exact error_iff_of_page (s := s.limited limit) hshort hpage

/-- A condition clause of just the length that the smaller limit allows. -/
theorem limits_agree_at_limit : 3 ≤ 4 ∧ ∃ r,
    ((ofDefault "x:/").limited 3).readParameters { Parameters.empty with conditions := some "*=1" } =
      .ok r ∧
    ((ofDefault "x:/").limited 4).readParameters { Parameters.empty with conditions := some "*=1" } =
      .ok r := by
  have hok : (((ofDefault "x:/").limited 3).readParameters
      { Parameters.empty with conditions := some "*=1" }).isOk = true := by
    decide +kernel
  cases hread : ((ofDefault "x:/").limited 3).readParameters
      { Parameters.empty with conditions := some "*=1" } with
  | error e =>
    rw [hread] at hok
    cases hok
  | ok r => exact ⟨by decide, r, rfl, (limits_agree _ _ (by decide)).1 r hread⟩

end Service

end LifecycleQuery

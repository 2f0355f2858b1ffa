import LifecycleQuery.Proofs.Page.Says
import LifecycleQuery.Proofs.Query.Padded
import LifecycleQuery.Proofs.Service.Link

/-!
# What a request says

The paging of a request is what its three parameters say, and a service that was built answers only
with pages that have members and a number (`pages_asked`). A parameter that is silent says as much as
one that is absent, in whatever combination with the others (`readParameters_silent`): a blank clause
is taken as the empty one that a fresh query has, and a blank flag or count is its default.
-/

namespace LifecycleQuery

open Text

namespace Page

variable {p : Parameter} {text text' : Option String}

/-- Silent texts are read alike, and so is a text and itself. -/
theorem given?_congr (h : text' = text ∨ Silent text ∧ Silent text') :
    given? text' = given? text := by
  rcases h with rfl | ⟨h, h'⟩
  · rfl
  · rw [given?_eq_none_iff.2 h, given?_eq_none_iff.2 h']

theorem readFlag_congr (h : given? text' = given? text) : readFlag p text' = readFlag p text := by
  rw [readFlag, readFlag, h]

theorem readCount_congr (h : given? text' = given? text) : readCount p text' = readCount p text := by
  rw [readCount, readCount, h]

theorem read_congr {d : UInt64} {flag flag' size size' number number' : Option String}
    (hflag : given? flag' = given? flag) (hsize : given? size' = given? size)
    (hnumber : given? number' = given? number) :
    read d flag' size' number' = read d flag size number := by
  rw [read, read, readFlag_congr hflag, readCount_congr hsize, readCount_congr hnumber]

end Page

namespace Service

/-- The texts of a page are checked in order, and the first that says nothing is the fault, also when
paging is off; if there is none, what they say decides the page. The pages of a service that was
built have members and a number. -/
theorem pages_asked :
    (∀ (d : UInt64) (flag size number : Option String),
      (∀ fault, Page.read d flag size number = .error fault ↔
        Page.FirstFails flag size number fault) ∧
      ∀ page, Page.read d flag size number = .ok page ↔ ∃ wanted m n, Page.SaysFlag flag wanted ∧
        Page.SaysCount size m ∧ Page.SaysCount number n ∧ Page.AsksFor d wanted m n page) ∧
    ∀ (space : String) (changes : List Change) (r : Request) (p : Page),
      (build space changes).Answers r → r.page = some p → 1 ≤ p.size ∧ 1 ≤ p.number := by
  refine ⟨fun d flag size number => ⟨fun _ => Page.read_error_iff, fun _ => Page.read_ok_iff_says⟩,
    fun space changes r p hanswers hp => ?_⟩
  obtain ⟨ps, hps⟩ := hanswers.exists_parameters
  exact page_positive (build_pageSize space changes) hps hp

/-- Small and large letters, a plus sign and zeros before a size, and a blank number; a size with a
sign alone, before a number that is no better; and a service whose page size was set to zero. -/
theorem pages_asked_padded :
    Page.read 50 (some " TruE\t") (some "\u00a0+007\n") (some "") = .ok (some ⟨7, 1⟩) ∧
    Page.read 50 none (some "+ ") (some "-1") = .error ⟨.pageSize, "+"⟩ ∧
    ∃ r p, (build "x:/" [.pageSize 0]).read "oslc.paging=true" = .ok r ∧ r.page = some p ∧
      1 ≤ p.size ∧ 1 ≤ p.number := by
  have hflag : Page.SaysFlag (some " TruE\t") true :=
    .word rfl (.on ((map_toLower_eq_iff (List.all_eq_true.1 (by decide))).1 (by decide)))
  have hdigits : Numeral.Digits ['0', '0', '7'] := ⟨by decide, List.all_eq_true.1 (by decide)⟩
  have hword : Page.CountWord (trim "\u00a0+007\n".toList) 7 :=
    @Page.CountWord.digits ['+'] _ (.inr rfl) hdigits (by decide)
  have hblank : Page.SaysCount (some "") 0 := .silent (by rintro _ ⟨⟩; decide)
  have hpage : Page.AsksFor 50 true 7 0 (some ⟨7, 1⟩) := .on (.inl rfl)
  have habsent : Page.SaysFlag none false := .silent (by rintro _ ⟨⟩)
  have hsign : Page.Fails Page.SaysCount .pageSize (some "+ ") ⟨.pageSize, "+"⟩ :=
    Page.readCount_error_iff.1 (by decide)
  refine ⟨((pages_asked.1 _ _ _ _).2 _).2 ⟨_, _, _, hflag, .word rfl hword, hblank, hpage⟩,
    ((pages_asked.1 _ _ _ _).1 _).2 (.size habsent hsign), ?_⟩
  have hpaged : ((build "x:/" [.pageSize 0]).read "oslc.paging=true").toOption.bind Request.page =
      some ⟨1, 1⟩ := by
    decide +kernel
  cases hread : (build "x:/" [.pageSize 0]).read "oslc.paging=true" with
  | error e =>
    rw [hread] at hpaged
    cases hpaged
  | ok r =>
    rw [hread] at hpaged
    exact ⟨r, _, rfl, hpaged, pages_asked.2 _ _ r _ (.inl ⟨_, hread⟩) hpaged⟩

end Service

/-! ## Silent clauses -/

namespace Query

variable {q q' : Query} {c d : Clause}

theorem take_silent {text : String} (h : Silent (some text)) : q.take c text = .ok (q.cleared c) :=
  take_ok_iff_whole.2 (.inl ⟨trim_eq_nil_iff.1 (h text rfl), rfl⟩)

/-- Taking a clause fills no part but its own. -/
theorem cleared_of_take {text : String} (h : q.take c text = .ok q') (hne : d ≠ c)
    (hq : q.cleared d = q) : q'.cleared d = q' := by
  rcases take_ok_iff.1 h with ⟨rfl, t, -, rfl⟩ | ⟨rfl, cs, -, rfl⟩ | ⟨rfl, ps, -, rfl⟩
  · cases d with
    | namespaces => exact absurd rfl hne
    | conditions | properties => exact congrArg (fun p => { p with namespaces := t }) hq
  · cases d with
    | conditions => exact absurd rfl hne
    | namespaces | properties => exact congrArg (fun p => { p with conditions := cs }) hq
  · cases d with
    | properties => exact absurd rfl hne
    | namespaces | conditions => exact congrArg (fun p => { p with properties := ps }) hq

theorem cleared_ofSettings (s : Settings) (c : Clause) :
    (ofSettings s).cleared c = ofSettings s := by
  cases c <;> rfl

end Query

namespace Service

variable {ps ps' : Parameters} {clauses : List Clause}

theorem takeClauses_silent {q : Query} {c : Clause} (h : Silent (ps.clause? c))
    (hq : q.cleared c = q) (rest : List Clause) :
    takeClauses ps q (c :: rest) = takeClauses ps q rest := by
  cases htext : ps.clause? c with
  | none => exact takeClauses_absent htext rest
  | some text =>
    rw [htext] at h
    rw [takeClauses_present htext, Query.take_silent h, hq]
    rfl

/-- Clauses that differ only where both say nothing are taken alike, by a query that has nothing of
them yet. -/
theorem takeClauses_congr (hnodup : clauses.Nodup)
    (h : ∀ c ∈ clauses, ps'.clause? c = ps.clause? c ∨
      Silent (ps.clause? c) ∧ Silent (ps'.clause? c)) {q : Query}
    (hq : ∀ c ∈ clauses, q.cleared c = q) : takeClauses ps' q clauses = takeClauses ps q clauses := by
  induction clauses generalizing q with
  | nil => rfl
  | cons c rest ih =>
    obtain ⟨hc, hrest⟩ := List.forall_mem_cons.1 h
    obtain ⟨hqc, hqrest⟩ := List.forall_mem_cons.1 hq
    obtain ⟨hnew, hnodup⟩ := List.nodup_cons.1 hnodup
    rcases hc with hsame | ⟨hs, hs'⟩
    · cases htext : ps.clause? c with
      | none =>
        rw [takeClauses_absent htext, takeClauses_absent (hsame.trans htext)]
        exact ih hnodup hrest hqrest
      | some text =>
        rw [takeClauses_present htext, takeClauses_present (hsame.trans htext)]
        cases htake : q.take c text with
        | error e => rfl
        | ok q' =>
          refine ih hnodup hrest fun d hd => Query.cleared_of_take htake ?_ (hqrest d hd)
          rintro rfl
          exact hnew hd
    · rw [takeClauses_silent hs hqc, takeClauses_silent hs' hqc]
      exact ih hnodup hrest hqrest

/-! ## Silent parameters -/

variable {s : Service}

/-- Silent and, where it carries a clause, no longer than the limit. -/
def Unsaid (s : Service) (p : Parameter) (text : Option String) : Prop :=
  Silent text ∧ ∀ c : Clause, c.parameter = p → ∀ t ∈ text, t.utf8ByteSize ≤ s.clauseLimit

theorem Unsaid.short {c : Clause} (h : s.Unsaid c.parameter (ps.clause? c)) :
    ¬ps.Exceeds s.clauseLimit c := by
  rintro ⟨text, htext, hlong⟩
  exact Nat.not_lt.2 (h.2 c rfl text htext) hlong

theorem checkLengths_congr (h : ∀ c ∈ clauses, ps'.clause? c = ps.clause? c ∨
    ¬ps.Exceeds s.clauseLimit c ∧ ¬ps'.Exceeds s.clauseLimit c) :
    s.checkLengths ps' clauses = s.checkLengths ps clauses := by
  induction clauses with
  | nil => rfl
  | cons c rest ih =>
    obtain ⟨hc, hrest⟩ := List.forall_mem_cons.1 h
    rcases hc with hsame | ⟨hshort, hshort'⟩
    · rw [checkLengths, checkLengths, hsame, ih hrest]
    · rw [checkLengths_of_short hshort, checkLengths_of_short hshort', ih hrest]

/-- Two requests get the same answer if each parameter is the same in both or unsaid in both. -/
theorem readParameters_silent (s : Service) (ps ps' : Parameters)
    (h : ∀ p, ps'.get? p = ps.get? p ∨ s.Unsaid p (ps.get? p) ∧ s.Unsaid p (ps'.get? p)) :
    s.readParameters ps' = s.readParameters ps := by
  have hsilent : ∀ p, ps'.get? p = ps.get? p ∨ Silent (ps.get? p) ∧ Silent (ps'.get? p) :=
    fun p => (h p).imp_right fun hp => ⟨hp.1.1, hp.2.1⟩
  have hlengths : s.checkLengths ps' Clause.every = s.checkLengths ps Clause.every :=
    checkLengths_congr fun c _ => (h c.parameter).imp_right fun hc => ⟨hc.1.short, hc.2.short⟩
  have hgiven := fun p => Page.given?_congr (hsilent p)
  have hpage : Page.read s.defaultPageSize ps'.paging ps'.pageSize ps'.pageNumber =
      Page.read s.defaultPageSize ps.paging ps.pageSize ps.pageNumber :=
    Page.read_congr (hgiven .paging) (hgiven .pageSize) (hgiven .pageNumber)
  have hclauses : takeClauses ps' (.ofSettings s.settings) Clause.every =
      takeClauses ps (.ofSettings s.settings) Clause.every :=
    takeClauses_congr (by decide) (fun c _ => hsilent c.parameter)
      fun c _ => Query.cleared_ofSettings s.settings c
  rw [readParameters, readParameters, hlengths, hpage, hclauses]

/-- Blanks of all kinds in place of parameters that are absent. -/
theorem readParameters_silent_blanks :
    let ps := { Parameters.empty with conditions := some "*=1" }
    let ps' : Parameters := ⟨some "\u3000", some "*=1", some "\r\n", some "", some "\u00a0", none⟩
    (∀ p, ps'.get? p = ps.get? p ∨
      (ofDefault "x:/").Unsaid p (ps.get? p) ∧ (ofDefault "x:/").Unsaid p (ps'.get? p)) ∧
    ((ofDefault "x:/").readParameters ps).isOk = true ∧
    (ofDefault "x:/").readParameters ps' = (ofDefault "x:/").readParameters ps := by
  intro ps ps'
  have hblank : ∀ t ∈ ["\u3000", "\r\n", "", "\u00a0"], ∀ p,
      (ofDefault "x:/").Unsaid p none ∧ (ofDefault "x:/").Unsaid p (some t) := by
    intro t ht p
    have hlist : ∀ t ∈ ["\u3000", "\r\n", "", "\u00a0"],
        trim t.toList = [] ∧ t.utf8ByteSize ≤ 4096 := by
      decide
    refine ⟨⟨by simp [Silent], by simp⟩, ⟨?_, ?_⟩⟩
    · rintro _ ⟨⟩
      exact (hlist t ht).1
    · rintro c - _ ⟨⟩
      exact (hlist t ht).2
  have h : ∀ p, ps'.get? p = ps.get? p ∨
      (ofDefault "x:/").Unsaid p (ps.get? p) ∧ (ofDefault "x:/").Unsaid p (ps'.get? p) := by
    intro p
    cases p with
    | namespaces => exact .inr (hblank "\u3000" (by decide) _)
    | conditions => exact .inl rfl
    | properties => exact .inr (hblank "\r\n" (by decide) _)
    | paging => exact .inr (hblank "" (by decide) _)
    | pageSize => exact .inr (hblank "\u00a0" (by decide) _)
    | pageNumber => exact .inl rfl
  exact ⟨h, by decide +kernel, readParameters_silent _ ps ps' h⟩

end Service

end LifecycleQuery

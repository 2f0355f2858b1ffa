import LifecycleQuery.Proofs.Grammar
import LifecycleQuery.Proofs.Page.Reading
import LifecycleQuery.Service.Build

/-!
# What a service answers

A request is answered when its clauses are short enough, its paging can be read and its clauses are
taken one after another (`readParameters_ok_iff`). A service that was built has a default page size
of at least one, so every page it answers with has members and a number (`page_positive`).
-/

namespace LifecycleQuery

namespace Service

/-! ## Answers -/

theorem readParameters_ok_iff {s : Service} {ps : Parameters} {r : Request} :
    s.readParameters ps = .ok r ↔ s.checkLengths ps Clause.every = .ok () ∧
      ∃ page, Page.read s.defaultPageSize ps.paging ps.pageSize ps.pageNumber = .ok page ∧
        ∃ q, takeClauses ps (.ofSettings s.settings) Clause.every = .ok q ∧ ⟨q, page⟩ = r := by
  have hpure : ∀ {a : Request}, (pure a : Except RequestError Request) = .ok r ↔ a = r := by
    simp [pure, Except.pure]
  simp only [readParameters, bind, Except.bind_eq_ok_iff, Except.mapError_eq_ok_iff,
    hpure]
  constructor
  · rintro ⟨⟨⟩, hlengths, h⟩
    exact ⟨hlengths, h⟩
  · rintro ⟨hlengths, h⟩
    exact ⟨(), hlengths, h⟩

/-! ## Services that were built -/

theorem change_pageSize {s : Service} (h : 1 ≤ s.defaultPageSize) (c : Change) :
    1 ≤ (s.change c).defaultPageSize := by
  cases c with
  | settings c => exact h
  | wellKnown => exact h
  | pageSize n =>
    show 1 ≤ if n ≤ 1 then 1 else n
    split
    · exact UInt64.le_refl 1
    · next hn => exact UInt64.le_of_lt (UInt64.not_le.1 hn)
  | clauseLimit n => exact h

theorem build_pageSize (space : String) (changes : List Change) :
    1 ≤ (build space changes).defaultPageSize := by
  have hrun : ∀ s : Service, 1 ≤ s.defaultPageSize →
      1 ≤ (changes.foldl change s).defaultPageSize := by
    induction changes with
    | nil => exact fun _ h => h
    | cons c changes ih => exact fun s h => ih _ (change_pageSize h c)
  have hdefault : 1 ≤ defaultSize := by decide
  exact hrun _ hdefault

/-- The pages of a service that was built have members and a number. -/
theorem page_positive {s : Service} (hs : 1 ≤ s.defaultPageSize) {ps : Parameters} {r : Request}
    (h : s.readParameters ps = .ok r) {p : Page} (hp : r.page = some p) :
    1 ≤ p.size ∧ 1 ≤ p.number := by
  obtain ⟨-, page, hpage, q, -, rfl⟩ := readParameters_ok_iff.1 h
  cases hp
  exact Page.read_positive hs hpage

end Service

end LifecycleQuery

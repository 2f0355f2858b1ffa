import LifecycleQuery.Proofs.Page.Walk
import LifecycleQuery.Proofs.Parameters
import LifecycleQuery.Proofs.Service.Limit

/-!
# Following links

The link to a page asks for that page and nothing else, in whatever service (`read_link`). So a
client that takes the link of each answer goes through the pages of `Page.Walk`, and the links end
with the first page behind which no members remain (`links_lead`).
-/

namespace LifecycleQuery

open Page

namespace Service

variable {s : Service} {total : UInt64} {p : Page} {r : Request}

/-- From answer to answer, each to the link in the one before it, until there is no link. -/
abbrev Walk (s : Service) (total : UInt64) : Request → List Request → Prop :=
  Visits (fun r r' => ∃ link, r.nextLink? total = some link ∧ s.read link = .ok r')
    fun r => r.nextLink? total = none

theorem walk_unique {rs ts : List Request} (h : s.Walk total r rs) (h' : s.Walk total r ts) :
    rs = ts := by
  refine Visits.unique ?_ ?_ h h'
  · rintro r r' r'' ⟨link, hl, hr⟩ ⟨link', hl', hr'⟩
    rw [hl] at hl'
    cases hl'
    rw [hr] at hr'
    cases hr'
    rfl
  · rintro r r' he ⟨link, hl, -⟩
    rw [he] at hl
    cases hl

/-- The request that asks for a page alone. -/
def pageAlone (s : Service) (p : Page) : Request := ⟨.ofSettings s.settings, some p⟩

theorem readParameters_page (s : Service) (hsize : 1 ≤ p.size) (hnumber : 1 ≤ p.number) :
    s.readParameters p.parameters = .ok (s.pageAlone p) := by
  have habsent : ∀ c, p.parameters.clause? c = none := by
    intro c
    cases c <;> rfl
  have hshort : ∀ c, ¬p.parameters.Exceeds s.clauseLimit c := by
    rintro c ⟨text, htext, -⟩
    rw [habsent] at htext
    cases htext
  have hsteps : p.parameters.steps Clause.every = [] :=
    List.filterMap_eq_nil_iff.2 fun c _ => by rw [habsent]; rfl
  have htake : takeClauses p.parameters (.ofSettings s.settings) Clause.every =
      .ok (.ofSettings s.settings) := by
    rw [takeClauses_ok_iff, hsteps]
    exact ⟨rfl, rfl⟩
  rw [readParameters_of_page hshort (Page.read_parameters hsize hnumber), htake]
  rfl

/-- The fields of a link have the keys of the three parameters of a page. -/
theorem parameters_link (p : Page) : Parameters.read p.link = .ok p.parameters := by
  rw [link, Parameters.read_encode]
  show Parameters.collect .empty [(Parameter.paging.key, "true"),
    (Parameter.pageSize.key, toString p.size.toNat),
    (Parameter.pageNumber.key, toString p.number.toNat)] = .ok p.parameters
  rw [Parameters.collect_cons rfl, Parameters.collect_cons rfl, Parameters.collect_cons rfl]
  rfl

theorem read_link (s : Service) (hsize : 1 ≤ p.size) (hnumber : 1 ≤ p.number) :
    s.read p.link = .ok (s.pageAlone p) := by
  rw [read_of_parameters (parameters_link p)]
  exact s.readParameters_page hsize hnumber

/-! ## Link by link -/

theorem nextLink?_of_hasNext (hr : r.page = some p) (h : p.hasNext total = true) :
    r.nextLink? total = some p.next.link := by
  rw [Request.nextLink?, hr]
  exact if_pos h

theorem nextLink?_of_not_hasNext (hr : r.page = some p) (h : p.hasNext total = false) :
    r.nextLink? total = none := by
  rw [Request.nextLink?, hr]
  exact if_neg (by rw [h]; decide)

/-- The links lead through the pages that follow one another. -/
theorem walk_of_pages {ps : List Page} (h : Page.Walk total p ps) (hsize : 1 ≤ p.size)
    (hr : r.page = some p) : s.Walk total r (r :: ps.tail.map s.pageAlone) := by
  induction h generalizing r with
  | last he => exact .last (nextLink?_of_not_hasNext hr he)
  | @more p _ ps hs hw ih =>
    obtain ⟨hn, rfl⟩ := hs
    have hnumber : 1 ≤ p.next.number := by
      rw [UInt64.le_iff_toNat_le, next_number (UInt64.le_iff_toNat_le.1 hsize) hn]
      exact Nat.le_add_left 1 _
    have hrest := ih (r := s.pageAlone p.next) hsize rfl
    obtain ⟨qs, rfl⟩ := hw.exists_cons
    exact .more ⟨_, nextLink?_of_hasNext hr hn, s.read_link hsize hnumber⟩ hrest

/-- The service answers some request in this way. -/
def Answers (s : Service) (r : Request) : Prop :=
  (∃ query, s.read query = .ok r) ∨ ∃ ps, s.readParameters ps = .ok r

theorem Answers.exists_parameters (h : s.Answers r) : ∃ ps, s.readParameters ps = .ok r := by
  rcases h with ⟨query, h⟩ | h
  · obtain ⟨ps, -, hps⟩ := Except.bind_eq_ok_iff.1 h
    exact ⟨ps, hps⟩
  · exact h

/-- The links of a service that was built are understood by that service: each asks for its page
alone, and taken one after another they count up from the page of any answer to the first that
leaves no member behind. -/
theorem links_lead (space : String) (changes : List Change) :
    (∀ p : Page, 1 ≤ p.size → 1 ≤ p.number → (build space changes).read p.link =
      .ok ⟨⟨(build space changes).settings, .empty, [], []⟩, some p⟩) ∧
    ∀ (r : Request) (p : Page) (total : UInt64), (build space changes).Answers r →
      r.page = some p → ∃ last rs,
        IsLeast {n | p.number.toNat ≤ n ∧ total.toNat ≤ n * p.size.toNat} last ∧
        (∀ ts, (build space changes).Walk total r ts ↔ ts = r :: rs) ∧
        (r :: rs).map (fun t => t.page.map fun q => (q.size, q.number.toNat)) =
          (List.range' p.number.toNat (last + 1 - p.number.toNat)).map
            fun n => some (p.size, n) := by
  refine ⟨fun p hsize hnumber => read_link _ hsize hnumber, fun r p total hanswers hp => ?_⟩
  obtain ⟨ps, hps⟩ := hanswers.exists_parameters
  have hsize := (page_positive (build_pageSize space changes) hps hp).1
  have hpos : 1 ≤ p.size.toNat := UInt64.le_iff_toNat_le.1 hsize
  have hpages : Page.Walk total p (p.upTo (p.lastNumber total)) := walk_upTo hpos
  have hwalk := walk_of_pages (s := build space changes) hpages hsize hp
  refine ⟨_, _, isLeast_lastNumber hpos, fun ts => ⟨fun h => walk_unique h hwalk, ?_⟩, ?_⟩
  · rintro rfl
    exact hwalk
  · obtain ⟨rest, hrest⟩ := hpages.exists_cons
    have hlast : p.lastNumber total < UInt64.size := lastNumber_lt hpos
    have hnumbers := map_upTo (p := p) hlast
    rw [hrest] at hnumbers ⊢
    calc (r :: rest.map (build space changes).pageAlone).map
          (fun t => t.page.map fun q => (q.size, q.number.toNat))
        = (p :: rest).map (some ∘ fun q => (q.size, q.number.toNat)) := by
          rw [List.map_cons, hp, List.map_map]
          rfl
      _ = _ := by rw [← List.map_map, hnumbers, List.map_map]; rfl

end Service

end LifecycleQuery

import LifecycleQuery.Proofs.Acceptance

/-!
# The nesting limit

A limit on the nesting only takes clauses away, and always at the same place. `braceBeyond` goes
through a text and counts the braces outside strings, up to the first that opens a scope too many.
A text that is derived without going too deep leaves the count as it was; where it does go too deep
the scanner stops just behind that brace (`Limited`). Both follow the derivation, so nothing that
the scanner tries besides can hide the fault.
-/

namespace LifecycleQuery

open Text

/-! ## Counting braces -/

/-- The text behind the first brace that opens a scope when `room` more may be open. The flag tells
whether the text begins inside a string, where braces do not count. -/
def braceBeyond : Bool → Nat → List Char → Option (List Char)
  | _, _, [] => none
  | true, room, '\\' :: _ :: rest => braceBeyond true room rest
  | true, room, c :: rest => braceBeyond (c != '"') room rest
  | false, room, c :: rest =>
    if c = '{' then
      match room with
      | 0 => some rest
      | room + 1 => braceBeyond false room rest
    else if c = '}' then braceBeyond false (room + 1) rest
    else braceBeyond (c == '"') room rest

/-- How many scopes are open behind a text, given how many are open before it; inside a string that
is not told. -/
def levelAfter : Bool → Int → List Char → Option Int
  | quoted, level, [] => if quoted then none else some level
  | true, level, '\\' :: _ :: rest => levelAfter true level rest
  | true, level, c :: rest => levelAfter (c != '"') level rest
  | false, level, c :: rest =>
    if c = '{' then levelAfter false (level + 1) rest
    else if c = '}' then levelAfter false (level - 1) rest
    else levelAfter (c == '"') level rest

/-- `P` holds of the text, and does not hold of what stands before any brace in it. -/
def FirstBrace (P : List Char → Prop) (text : List Char) : Prop :=
  P text ∧ ∀ before rest, text = before ++ '{' :: rest → ¬P before

theorem FirstBrace.cons {P : List Char → Prop} {c : Char} {text : List Char}
    (h : FirstBrace (fun x => P (c :: x)) text) (hc : c = '{' → ¬P []) :
    FirstBrace P (c :: text) := by
  refine ⟨h.1, fun before rest he => ?_⟩
  cases before with
  | nil =>
    cases he
    exact hc rfl
  | cons d before =>
    cases he
    exact h.2 before rest rfl

/-- What `braceBeyond` finds is the first brace before which all the room is used up. -/
theorem braceBeyond_first {quoted : Bool} {room : Nat} {text rest : List Char}
    (h : braceBeyond quoted room text = some rest) (level : Int) :
    ∃ before, text = before ++ '{' :: rest ∧
      FirstBrace (fun x => levelAfter quoted level x = some (level + room)) before := by
  fun_induction braceBeyond quoted room text generalizing level with
  | case1 => cases h
  | case2 room c text ih =>
    obtain ⟨before, rfl, hf⟩ := ih h level
    refine ⟨'\\' :: c :: before, rfl, .cons (.cons hf fun _ => ?_) (fun hc => ?_)⟩
    · simp [levelAfter]
    · exact absurd hc (by decide)
  | case3 room c text hc ih =>
    obtain ⟨before, rfl, hf⟩ := ih h level
    have hstep : ∀ x, levelAfter true level (c :: x) = levelAfter (c != '"') level x := by
      intro x
      refine levelAfter.eq_3 level c x fun d y hd _ => ?_
      cases before with
      | nil => exact hc '{' rest hd rfl
      | cons e before => exact hc e _ hd rfl
    refine ⟨c :: before, rfl, .cons ?_ fun _ => by simp [levelAfter]⟩
    simpa only [hstep] using hf
  | case4 text =>
    cases h
    refine ⟨[], rfl, by simp [levelAfter], fun before rest he => ?_⟩
    simp at he
  | case5 text room ih =>
    obtain ⟨before, rfl, hf⟩ := ih h (level + 1)
    have hroom : level + 1 + (room : Int) = level + (room + 1 : Nat) := by omega
    refine ⟨'{' :: before, rfl, .cons ?_ fun _ => ?_⟩
    · rw [hroom] at hf
      exact hf
    · simp [levelAfter]
      omega
  | case6 room text hopen ih =>
    obtain ⟨before, rfl, hf⟩ := ih h (level - 1)
    have hroom : level - 1 + ((room + 1 : Nat) : Int) = level + room := by omega
    refine ⟨'}' :: before, rfl, .cons ?_ (fun hc => absurd hc hopen)⟩
    rw [hroom] at hf
    exact hf
  | case7 room c text hopen hclose ih =>
    obtain ⟨before, rfl, hf⟩ := ih h level
    refine ⟨c :: before, rfl, .cons ?_ (fun hc => absurd hc hopen)⟩
    simpa only [levelAfter, if_neg hopen, if_neg hclose] using hf

/-- The byte just behind the first brace that opens a scope while `n` are open. -/
def TooDeepAt (n : Nat) (text : List Char) (position : Nat) : Prop :=
  ∃ before rest, text = before ++ '{' :: rest ∧
    FirstBrace (fun x => levelAfter false 0 x = some (n : Int)) before ∧
    position = (String.ofList before).utf8ByteSize + 1

theorem tooDeepAt_of_braceBeyond {n : Nat} {text rest : List Char}
    (h : braceBeyond false n text = some rest) : TooDeepAt n text (offset text rest) := by
  obtain ⟨before, rfl, hf⟩ := braceBeyond_first h 0
  refine ⟨before, rest, rfl, by simpa using hf, ?_⟩
  have hbrace : byteSize ['{'] = 1 := by decide
  rw [← List.singleton_append, ← List.append_assoc, offset_append, byteSize_append, hbrace,
    utf8ByteSize_ofList]

example : braceBeyond false 0 "a=\"\x7b\" and b\x7bc=1\x7d".toList = some "c=1\x7d".toList := by
  decide

/-- Neither a brace nor a quote. -/
def isBare (c : Char) : Bool := c != '{' && c != '}' && c != '"'

/-- Between the two texts all scopes that are opened are closed, none with more than `n` open. -/
def Level (n : Nat) (t u : List Char) : Prop := braceBeyond false n t = braceBeyond false n u

theorem Level.trans {n : Nat} {t u v : List Char} (h1 : Level n t u) (h2 : Level n u v) :
    Level n t v :=
  Eq.trans h1 h2

theorem Level.beyond {n : Nat} {t u rest : List Char} (h : Level n t u)
    (hu : braceBeyond false n u = some rest) : braceBeyond false n t = some rest :=
  Eq.trans h hu

theorem level_bare {n : Nat} {x : List Char} (hx : ∀ c ∈ x, isBare c = true) (u : List Char) :
    Level n (x ++ u) u := by
  induction x with
  | nil => rfl
  | cons c x ih =>
    obtain ⟨hc, hx⟩ := List.forall_mem_cons.1 hx
    simp only [isBare, Bool.and_eq_true, bne_iff_ne, ne_eq] at hc
    obtain ⟨⟨hopen, hclose⟩, hquote⟩ := hc
    have hstep : braceBeyond false n (c :: (x ++ u)) = braceBeyond false n (x ++ u) := by
      cases n <;> simp [braceBeyond, hopen, hclose, beq_false_of_ne hquote]
    exact hstep.trans (ih hx)

theorem level_word {n : Nat} {x : List Char} (hx : x.all isBare = true) (u : List Char) :
    Level n (x ++ u) u :=
  level_bare (List.all_eq_true.1 hx) u

theorem braceBeyond_content {n : Nat} {x s : List Char} (h : Literal.Content x s)
    (u : List Char) : braceBeyond true n (x ++ '"' :: u) = braceBeyond false n u := by
  induction h with
  | nil => rfl
  | @plain c x s hq hs _ ih =>
    have hb : (c != '"') = true := by simpa using hq
    rw [List.cons_append, braceBeyond.eq_3 _ _ _ (by simp [hs]), hb, ih]
  | escaped _ _ ih => rw [List.cons_append, List.cons_append, braceBeyond, ih]

/-! ## Tokens -/

/-- A class that holds neither braces nor quotes. -/
theorem isBare_of {p : Char → Bool} (hopen : p '{' = false) (hclose : p '}' = false)
    (hquote : p '"' = false) {c : Char} (h : p c = true) : isBare c = true := by
  simp only [isBare, Bool.and_eq_true, bne_iff_ne, ne_eq]
  refine ⟨⟨?_, ?_⟩, ?_⟩
  · rintro rfl
    rw [hopen] at h
    cases h
  · rintro rfl
    rw [hclose] at h
    cases h
  · rintro rfl
    rw [hquote] at h
    cases h

theorem Layout.level {n : Nat} {t u : List Char} (h : Layout t u) : Level n t u := by
  obtain ⟨gap, hgap, rfl⟩ := h
  exact level_bare (fun c hc => isBare_of (by decide) (by decide) (by decide)
    (isLayout_iff.2 (hgap c hc))) u

theorem comma_level {n : Nat} {t u : List Char} (h : Comma t u) : Level n t u := by
  obtain ⟨v, ht, hv⟩ := h
  exact ht.level.trans ((level_word (x := [',']) (by decide) v).trans hv.level)

theorem andWord_level {n : Nat} {t u : List Char} (h : AndWord t u) : Level n t u := by
  obtain ⟨v, ht, hv⟩ := h
  exact ht.layout.level.trans ((level_word (by decide) v).trans hv.layout.level)

theorem Chain.bare {mark : Char} {ok : Char → Bool} {x : List Char} (h : Chain mark ok x)
    (hm : isBare mark = true) (hok : ∀ {c}, ok c = true → isBare c = true) :
    ∀ c ∈ x, isBare c = true := by
  intro c hc
  rcases h.ok_or_mark c hc with h | rfl
  · exact hok h
  · exact hm

namespace Name

theorem Local.bare {x : List Char} (h : Local x) : ∀ c ∈ x, isBare c = true := by
  intro c hc
  rcases h.chars c hc with h | rfl
  · exact isBare_of (by decide) (by decide) (by decide) h
  · decide

theorem SpellsQualified.bare {x : List Char} {n : Name} (h : SpellsQualified x n) :
    ∀ c ∈ x, isBare c = true := by
  obtain ⟨hl, hp⟩ := h
  simp only [List.forall_mem_append, List.forall_mem_cons]
  exact ⟨hl.isLocal.bare, by decide, hp.bare⟩

theorem Spells.level {n : Nat} {t u : List Char} {name : Name} (h : Front Spells t name u) :
    Level n t u := by
  obtain ⟨x, hx, rfl⟩ := h
  cases hx with
  | all => exact level_word (by decide) u
  | qualified hq => exact level_bare hq.bare u
  | bare hp => exact level_bare hp.bare u

end Name

theorem Numeral.Digits.bare {ds : List Char} (h : Numeral.Digits ds) :
    ∀ c ∈ ds, isBare c = true :=
  fun c hc => isBare_of (by decide) (by decide) (by decide) (h.2 c hc)

theorem Sign.bare (s : Option Sign) : ∀ c ∈ Sign.text s, isBare c = true := by
  rw [← List.all_eq_true]
  rcases s with _ | _ | _ <;> decide

theorem Numeral.WellFormed.bare {n : Numeral} (h : n.WellFormed) :
    ∀ c ∈ n.text, isBare c = true := by
  simp only [Numeral.text, List.forall_mem_append]
  refine ⟨⟨⟨Sign.bare n.sign, h.whole.bare⟩, ?_⟩, ?_⟩
  · cases hf : n.fraction with
    | none => simp
    | some ds => exact List.forall_mem_cons.2 ⟨by decide, (h.fraction ds hf).bare⟩
  · cases he : n.exponent with
    | none => simp
    | some e =>
      obtain ⟨hmark, hds⟩ := h.exponent e he
      refine List.forall_mem_cons.2 ⟨?_, List.forall_mem_append.2 ⟨Sign.bare e.sign, hds.bare⟩⟩
      rcases hmark with hm | hm <;> rw [hm] <;> decide

namespace Literal

theorem SpellsSuffix.bare {y : List Char} {suffix : Suffix} (h : SpellsSuffix y suffix) :
    ∀ c ∈ y, isBare c = true := by
  cases h with
  | none => simp
  | language ht =>
    obtain ⟨c, cs, rfl, hc, hcs⟩ := ht
    simp only [List.forall_mem_cons]
    refine ⟨by decide, isBare_of (by decide) (by decide) (by decide) hc, ?_⟩
    exact hcs.bare (by decide) (isBare_of (by decide) (by decide) (by decide))
  | datatype hx =>
    simp only [List.forall_mem_cons]
    exact ⟨by decide, by decide, hx.bare⟩

/-- A literal is passed over, a string together with the braces in it. -/
theorem Spells.level {n : Nat} {t u : List Char} {l : Literal} (h : Front Spells t l u) :
    Level n t u := by
  obtain ⟨x, hx, rfl⟩ := h
  cases hx with
  | iri hi =>
    obtain ⟨hi⟩ := hi
    obtain ⟨-, hall⟩ := isIri_iff.1 hi
    refine level_bare ?_ u
    simp only [List.cons_append, List.forall_mem_cons, List.forall_mem_append]
    refine ⟨by decide, fun c hc => ?_, by decide, by simp⟩
    exact isBare_of (by decide) (by decide) (by decide) (hall c hc)
  | isTrue => exact level_word (by decide) u
  | isFalse => exact level_word (by decide) u
  | number hn => exact level_bare hn.bare u
  | @string x s y suffix hcontent hsuffix =>
    have hopen : braceBeyond false n ('"' :: (x ++ '"' :: (y ++ u))) =
        braceBeyond true n (x ++ '"' :: (y ++ u)) := by
      cases n <;> simp [braceBeyond]
    have hsplit : '"' :: x ++ '"' :: y ++ u = '"' :: (x ++ '"' :: (y ++ u)) := by simp
    rw [Level, hsplit, hopen, braceBeyond_content hcontent]
    exact level_bare hsuffix.bare u

end Literal

theorem Condition.SpellsOperator.level {n : Nat} {t u : List Char} {op : Operator}
    (h : Front Condition.SpellsOperator t op u) : Level n t u := by
  obtain ⟨x, ⟨-, rfl⟩, rfl⟩ := h
  exact level_word (by cases op <;> decide) u

/-! ## Lists and scopes under a limit -/

section
variable {α : Type} {S : List Char → List Char → Prop} {D : Derivation α}

theorem SepBy.level {n : Nat} (hS : ∀ {t u}, S t u → Level n t u)
    (hD : ∀ {t a u}, D t a u → Level n t u) {t u : List Char} {as : List α}
    (h : SepBy S D t as u) : Level n t u := by
  induction h with
  | one h => exact hD h
  | more h hs _ ih => exact (hD h).trans ((hS hs).trans ih)

/-- How a scanner with a limit deals with what is derived: within the limit the braces are level,
and beyond it the scanner stops at the first brace too many. -/
def Limited {β : Type} (depth : β → Nat) (scan : Nat → Scanner β) : Derivation β := fun t b u =>
  ∀ n, (depth b ≤ n → Level n t u) ∧
    (n < depth b → ∃ rest, braceBeyond false n t = some rest ∧ scan n t = .stop .tooDeep rest)

variable {sep : List Char → Option (List Char)} {depth : α → Nat} {depthAll : List α → Nat}
  {item : Scanner (List α) → Scanner α} {scope : Nat → Scanner (List α)}

/-- The first item beyond the limit stops the list: the items before it are all read. -/
theorem Nests.list_limited (h : Nests sep S D depth depthAll item scope)
    (hS : ∀ {n t u}, S t u → Level n t u) {t u : List Char} {as : List α}
    (hl : SepBy S (fun t a u => D t a u ∧ Limited depth (fun n => item (scope n)) t a u) t as u) :
    Limited depthAll (fun n => sepBy1 sep (item (scope n))) t as u := by
  intro n
  refine ⟨fun hd => ?_, ?_⟩
  · have hin := sepBy_and_iff.2 ⟨hl, h.depthAll_le_iff.1 hd⟩
    exact hin.level hS fun hi => (hi.1.2 n).1 hi.2
  · intro hd
    have hsplit : ∀ {a as}, n < depthAll (a :: as) → n < depth a ∨ n < depthAll as := by
      intro a as hd
      by_contra hno
      simp only [not_or, Nat.not_lt, h.depthAll_le_iff] at hno
      have := h.depthAll_le_iff.2 (List.forall_mem_cons.2 hno)
      omega
    have hempty : ¬n < depthAll [] := by
      rw [Nat.not_lt, h.depthAll_le_iff]
      simp
    induction hl with
    | one hi =>
      obtain ⟨rest, hb, hs⟩ := (hi.2 n).2 ((hsplit hd).resolve_right hempty)
      exact ⟨rest, hb, by simp [sepBy1, hs, Outcome.andThen]⟩
    | @more t u v w a as hi hs hl ih =>
      by_cases ha : n < depth a
      · obtain ⟨rest, hb, hs⟩ := (hi.2 n).2 ha
        exact ⟨rest, hb, by simp [sepBy1, hs, Outcome.andThen]⟩
      · have ha' := Nat.not_lt.1 ha
        obtain ⟨rest, hb, hstop⟩ := ih ((hsplit hd).resolve_left ha)
        have hread := (h.item_scope_exact n).complete ⟨hi.1, ha'⟩ (h.separates.follows hs)
        have hsolid := h.list_proper.solid (hl.mono fun _ _ _ _ hi => hi.1)
        have hmore := moreItems_eq_stop (h.separates.complete hs hsolid) (h.separates.shorter hs)
          (fun hr => h.proper.shorter ((h.item_scope_exact n).sound hr).1) hstop
        refine ⟨rest, (((hi.2 n).1 ha').trans (hS hs)).beyond hb, ?_⟩
        simp [sepBy1, hread, hmore, Outcome.andThen, Outcome.map]

/-- Behind an opening brace the limit is one less, and without room the scanner stops at once. -/
theorem Nests.scope_limited (h : Nests sep S D depth depthAll item scope) {v w x y : List Char}
    {as : List α} (hv : Layout v w) (hl : SepBy S D w as x) (hx : Layout x ('}' :: y))
    (hlim : Limited depthAll (fun n => sepBy1 sep (item (scope n))) w as x) (n : Nat) :
    (depthAll as + 1 ≤ n → Level n ('{' :: v) y) ∧
      (n < depthAll as + 1 → ∃ rest, braceBeyond false n ('{' :: v) = some rest ∧
        scope n v = .stop .tooDeep rest) := by
  cases n with
  | zero => exact ⟨by omega, fun _ => ⟨v, rfl, h.scope_zero v⟩⟩
  | succ n =>
    have hopen : braceBeyond false (n + 1) ('{' :: v) = braceBeyond false n v := rfl
    refine ⟨fun hd => ?_, ?_⟩
    · have hclose : braceBeyond false n ('}' :: y) = braceBeyond false (n + 1) y := by
        cases n <;> rfl
      have hin : Level n v ('}' :: y) :=
        hv.level.trans (((hlim n).1 (by omega)).trans hx.level)
      exact hopen.trans (Eq.trans hin hclose)
    · intro hd
      obtain ⟨rest, hb, hs⟩ := (hlim n).2 (by omega)
      refine ⟨rest, hopen.trans (hv.level.beyond hb), ?_⟩
      simp only [h.scope_succ, enclosed, hv.skip (h.list_proper.solid hl), hs]
      rfl

/-- A clause that goes too deep is refused behind the brace that does so. -/
theorem Nests.readList_tooDeep (h : Nests sep S D depth depthAll item scope)
    (hS : ∀ {n t u}, S t u → Level n t u)
    (hD : ∀ {t a u}, D t a u → Limited depth (fun n => item (scope n)) t a u) {clause : Clause}
    {text : List Char} {as : List α} (hw : Whole (SepBy S D) text as) {n : Nat}
    (hd : n < depthAll as) : ∃ position, TooDeepAt n text position ∧
      readList clause (sepBy1 sep (item (scope n))) text =
        .error (.clause clause position .tooDeep) := by
  have hblank := hw.not_blank h.list_proper
  obtain ⟨t, u, ht, hl, -⟩ := hw
  have hlim := h.list_limited hS (hl.mono fun _ _ _ _ hi => ⟨hi, hD hi⟩)
  obtain ⟨rest, hb, hs⟩ := (hlim n).2 hd
  refine ⟨offset text rest, tooDeepAt_of_braceBeyond (ht.level.beyond hb), ?_⟩
  simp only [readList, hblank, readWhole, ht.skip (h.list_proper.solid hl), hs]
  rfl

/-- A clause that is taken under some limit, under any limit. -/
theorem Nests.limit {β : Type} (h : Nests sep S D depth depthAll item scope)
    (hS : ∀ {n t u}, S t u → Level n t u)
    (hD : ∀ {t a u}, D t a u → Limited depth (fun n => item (scope n)) t a u) {clause : Clause}
    {text : List Char} {resolve : List α → Except QueryError (List β)} {deep : List β → Nat}
    (hresolve : ∀ {as bs}, resolve as = .ok bs → deep bs = depthAll as) {m n : Nat} {bs : List β}
    (hm : (readList clause (sepBy1 sep (item (scope m))) text).bind resolve = .ok bs) :
    (deep bs ≤ n → (readList clause (sepBy1 sep (item (scope n))) text).bind resolve = .ok bs) ∧
      (n < deep bs → ∃ position, TooDeepAt n text position ∧
        (readList clause (sepBy1 sep (item (scope n))) text).bind resolve =
          .error (.clause clause position .tooDeep)) := by
  rcases h.bind_ok_iff.1 hm with ⟨hb, hr⟩ | ⟨as, hw, -, hr⟩
  · have hempty : depthAll [] ≤ n := h.depthAll_le_iff.2 (by simp)
    rw [hresolve hr]
    exact ⟨fun _ => h.bind_ok_iff.2 (.inl ⟨hb, hr⟩), fun hd => absurd hempty (Nat.not_le.2 hd)⟩
  · rw [hresolve hr]
    refine ⟨fun hd => h.bind_ok_iff.2 (.inr ⟨as, hw, hd, hr⟩), fun hd => ?_⟩
    obtain ⟨position, hp, he⟩ := h.readList_tooDeep hS hD hw hd
    exact ⟨position, hp, by rw [he]; rfl⟩

end

/-! ## Clauses under a limit -/

namespace Property

theorem derives_limited {t u : List Char} {p : Property Name} (h : Derives t p u) :
    Limited depth (fun n => scanOne (scanScope n)) t p u := by
  refine Derives.induct (P := Limited depth _) (fun hn n => ?_) (fun hn ho hb hl hc n => ?_) h
  · rw [depth_leaf]
    exact ⟨fun _ => Name.Spells.level hn, fun hd => absurd hd (Nat.not_lt_zero _)⟩
  · have hlist := hl.mono fun _ _ _ _ hi => hi.1
    obtain ⟨hin, hdeep⟩ := nests.scope_limited hb hlist hc (nests.list_limited comma_level hl) n
    rw [depth_node hlist.ne_nil]
    refine ⟨fun hd => (Name.Spells.level hn).trans (ho.level.trans (hin hd)), fun hd => ?_⟩
    obtain ⟨rest, hb, hs⟩ := hdeep hd
    refine ⟨rest, ((Name.Spells.level hn).trans ho.level).beyond hb, ?_⟩
    simp only [scanOne_brace hn ho, hs, Outcome.map]

theorem read_limit {r : Resolver} {m n : Nat} {text : String} {qs : List Projection}
    (h : read r m text = .ok qs) : (depthAll qs ≤ n → read r n text = .ok qs) ∧
      (n < depthAll qs → ∃ position, TooDeepAt n text.toList position ∧
        read r n text = .error (.clause .properties position .tooDeep)) := by
  refine nests.limit comma_level derives_limited (fun hr => ?_) h
  exact depthAll_resolved ((resolveAll_ok_iff _ _ _).1 hr)

end Property

namespace Condition

theorem derives_limited {t u : List Char} {c : Written} (h : Derives t c u) :
    Limited depth (fun n => scanTerm (scanScope n)) t c u := by
  refine Derives.induct (P := Limited depth _) (fun hn ho hb hl hc n => ?_)
    (fun hn hw ho hb hl hc n => ?_) (fun hn hl ho hr hp n => ?_) h
  · have hlist := hl.mono fun _ _ _ _ hi => hi.1
    obtain ⟨hin, hdeep⟩ := nests.scope_limited hb hlist hc (nests.list_limited andWord_level hl) n
    rw [depth]
    refine ⟨fun hd => (Name.Spells.level hn).trans (ho.level.trans (hin hd)), fun hd => ?_⟩
    obtain ⟨rest, hb, hs⟩ := hdeep hd
    refine ⟨rest, ((Name.Spells.level hn).trans ho.level).beyond hb, ?_⟩
    simp only [scanTerm_brace hn ho, hs, Outcome.map]
  · refine ⟨fun _ => ?_, fun hd => absurd hd (Nat.not_lt_zero _)⟩
    have hvalues := hl.level (n := n) comma_level fun hp => Literal.Spells.level hp.2
    have hword := hw.layout.level.trans (level_word (n := n) (by decide) _)
    have hopen := ho.level.trans (level_word (n := n) (x := ['[']) (by decide) _)
    have hclose := hc.level.trans (level_word (n := n) (x := [']']) (by decide) _)
    exact (Name.Spells.level hn).trans
      (hword.trans (hopen.trans (hb.level.trans (hvalues.trans hclose))))
  · refine ⟨fun _ => ?_, fun hd => absurd hd (Nat.not_lt_zero _)⟩
    have hop := SpellsOperator.level (n := n) ho
    have hvalue := Literal.Spells.level (n := n) hp.2
    exact (Name.Spells.level hn).trans (hl.level.trans (hop.trans (hr.level.trans hvalue)))

theorem read_limit {r : Resolver} {m n : Nat} {text : String} {ds : List Filter}
    (h : read r m text = .ok ds) : (depthAll ds ≤ n → read r n text = .ok ds) ∧
      (n < depthAll ds → ∃ position, TooDeepAt n text.toList position ∧
        read r n text = .error (.clause .conditions position .tooDeep)) := by
  refine nests.limit andWord_level derives_limited (fun hr => ?_) h
  exact depthAll_resolved ((resolveAll_ok_iff _ _ _ _).1 hr)

end Condition

/-- A clause that is taken under some limit is taken under every limit that its depth keeps to, with
the same result, and under every other limit refused behind the first brace too many. -/
theorem limit_filters (r : Resolver) (m n : Nat) (text : String) :
    (∀ cs, Condition.read r m text = .ok cs →
      (Condition.depthAll cs ≤ n → Condition.read r n text = .ok cs) ∧
      (n < Condition.depthAll cs → ∃ position, TooDeepAt n text.toList position ∧
        Condition.read r n text = .error (.clause .conditions position .tooDeep))) ∧
    (∀ ps, Property.read r m text = .ok ps →
      (Property.depthAll ps ≤ n → Property.read r n text = .ok ps) ∧
      (n < Property.depthAll ps → ∃ position, TooDeepAt n text.toList position ∧
        Property.read r n text = .error (.clause .properties position .tooDeep))) ∧
    ClauseFault.tooDeep.detail = "scopes nested too deeply" :=
  ⟨fun _ h => Condition.read_limit h, fun _ h => Property.read_limit h, rfl⟩

end LifecycleQuery

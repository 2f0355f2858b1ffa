import LifecycleQuery.Json.Scan
import LifecycleQuery.Proofs.Grammar.Cut
import LifecycleQuery.Proofs.Grammar.Numeral

/-!
# Written JSON is read back

A value whose numerals are as JSON has them is `Json.Canonical`, and its text is read as this value
(`Json.read?_render`). `Json.Reads` is what each kind of value is shown to satisfy: a scanner reads
what is written for it before anything that may follow. Arrays and objects pass this on from their
items and members (`Json.scanGroup_written`). The levels that the reader allows are bounded by the
length of the text, so the proof is by induction on the value with a text that gets shorter.
-/

namespace LifecycleQuery

open Text

/-- A numeral that JSON has: without plus sign, and without needless zeros in front. -/
structure Numeral.Canonical (n : Numeral) : Prop where
  wellFormed : n.WellFormed
  sign : n.sign ≠ some .plus
  whole : n.whole.head? = some '0' → n.whole.length ≤ 1

namespace Json

/-- A value that is written as JSON: all its numerals are canonical. -/
inductive Canonical : Json → Prop
  | null : Canonical null
  | boolean (b : Bool) : Canonical (boolean b)
  | number {n : Numeral} : n.Canonical → Canonical (number n)
  | string (s : Option String) : Canonical (string s)
  | array {items : List Json} : (∀ j ∈ items, Canonical j) → Canonical (array items)
  | object {members : List Member} : (∀ m ∈ members, Canonical m.2) → Canonical (object members)

/-! ## Strings -/

theorem joinPieces_unit {n : Nat} (hn : n < 0x20) (ps : List Piece) :
    joinPieces (.unit n :: ps) = (joinPieces ps).map (Char.ofNat n :: ·) := by
  have hhigh : isHigh n = false := by simp [isHigh]; omega
  have hlow : isLow n = false := by simp [isLow]; omega
  cases ps with
  | nil => simp [joinPieces, hhigh, hlow]
  | cons p ps => cases p <;> simp [joinPieces, hhigh, hlow]

theorem scanPieces_unit (c : Char) (hc : c.toNat < 0x20) (t : List Char) :
    scanPieces (['\\', 'u', '0', '0', hexLower (c.toNat / 16), hexLower (c.toNat % 16)] ++ t) =
      (scanPieces t).map fun (ps, left) => (.unit c.toNat :: ps, left) := by
  have hhigh : hexValue? (hexLower (c.toNat / 16)) = some (c.toNat / 16) :=
    hexValue?_hexLower _ (by omega)
  have hlow : hexValue? (hexLower (c.toNat % 16)) = some (c.toNat % 16) :=
    hexValue?_hexLower _ (by omega)
  have hzero : hexValue? '0' = some 0 := by decide
  have hunit : unit? '0' '0' (hexLower (c.toNat / 16)) (hexLower (c.toNat % 16)) =
      some c.toNat := by
    simp only [unit?, hzero, hhigh, hlow, Option.some.injEq]
    omega
  simp only [List.cons_append, List.nil_append, scanPieces, hunit]

/-- The writer's spelling of a character is read as a piece that joins as the character. -/
theorem exists_piece (c : Char) : ∃ p,
    (∀ t, scanPieces (escape c ++ t) = (scanPieces t).map fun (ps, left) => (p :: ps, left)) ∧
      ∀ ps, joinPieces (p :: ps) = (joinPieces ps).map (c :: ·) := by
  unfold escape
  split_ifs with hquote hb hf hn hr ht hcontrol
  · refine ⟨.char c, fun t => ?_, fun _ => rfl⟩
    rcases hquote with rfl | rfl <;> simp [scanPieces, unescape?]
  · exact ⟨.char c, by simp [hb, scanPieces, unescape?], fun _ => rfl⟩
  · exact ⟨.char c, by simp [hf, scanPieces, unescape?], fun _ => rfl⟩
  · exact ⟨.char c, by simp [hn, scanPieces, unescape?], fun _ => rfl⟩
  · exact ⟨.char c, by simp [hr, scanPieces, unescape?], fun _ => rfl⟩
  · exact ⟨.char c, by simp [ht, scanPieces, unescape?], fun _ => rfl⟩
  · refine ⟨.unit c.toNat, scanPieces_unit c hcontrol, fun ps => ?_⟩
    rw [joinPieces_unit hcontrol, Char.ofNat_toNat]
  · rw [not_or] at hquote
    exact ⟨.char c, by simp [scanPieces, hquote, hcontrol], fun _ => rfl⟩

theorem exists_pieces (s u : List Char) : ∃ ps,
    scanPieces (s.flatMap escape ++ '"' :: u) = some (ps, u) ∧ joinPieces ps = some s := by
  induction s with
  | nil => exact ⟨[], by simp [scanPieces], rfl⟩
  | cons c s ih =>
    obtain ⟨ps, hscan, hjoin⟩ := ih
    obtain ⟨p, hp, hcons⟩ := exists_piece c
    refine ⟨p :: ps, ?_, ?_⟩
    · rw [List.flatMap_cons, List.append_assoc, hp, hscan]
      rfl
    · rw [hcons, hjoin]
      rfl

/-- A written string is read back, half a pair as what is no text. -/
theorem scanString_quoted (s : Option String) (u : List Char) :
    scanString (quoted s ++ u) = some (s, u) := by
  cases s with
  | some s =>
    obtain ⟨ps, hscan, hjoin⟩ := exists_pieces s.toList u
    simp [quoted, scanString, hscan, hjoin]
  | none =>
    have hunit : unit? 'd' '8' '0' '0' = some 0xD800 := by decide
    have hjoin : joinPieces [.unit 0xD800] = none := by decide
    simp [quoted, halfPair, scanString, scanPieces, hunit, hjoin]

/-! ## Numbers -/

theorem scanNumber_text {n : Numeral} (h : n.Canonical) {u : List Char} (hu : Ends u) :
    scanNumber (n.text ++ u) = some (n, u) := by
  unfold scanNumber
  rw [Numeral.scan_complete h.wellFormed hu]
  have hcanonical : ¬(n.sign = some .plus ∨ (n.whole.head? = some '0' ∧ 1 < n.whole.length)) := by
    rintro (hsign | ⟨hzero, hlength⟩)
    · exact h.sign hsign
    · exact Nat.not_lt.2 (h.whole hzero) hlength
  simp only [hcanonical, if_false]

/-! ## Groups -/

section
variable {α : Type} {item : Scanner α} {w : α → List Char} {u : List Char}

/-- What `w` writes for `a` is read as `a`, and is not taken for layout or the end of a group. -/
structure Reads (item : Scanner α) (w : α → List Char) (a : α) : Prop where
  read : ∀ {u}, Ends u → item (w a ++ u) = .read a u
  head : ∃ c rest, w a = c :: rest ∧ isLayout c = false ∧ c ≠ ']' ∧ c ≠ '}'

theorem Reads.solid {a : α} (h : Reads item w a) (u : List Char) : Solid (w a ++ u) := by
  obtain ⟨c, rest, hw, hc, -⟩ := h.head
  rw [hw]
  simpa [Solid] using hc

theorem sepBy1_written {a : α} {as : List α} (has : ∀ b ∈ a :: as, Reads item w b) (hu : Closes u) :
    sepBy1 comma item ([','].intercalate ((a :: as).map w) ++ u) = .read (a :: as) u := by
  rw [List.map_cons, intercalate_cons]
  induction as generalizing a with
  | nil =>
    have ha := (has a (by simp)).read hu.ends
    simp [sepBy1, ha, Outcome.andThen, moreItems_eq_nil (comma_separates.closed hu), Outcome.map]
  | cons b as ih =>
    rw [List.forall_mem_cons] at has
    have hb := has.2 b (by simp)
    have hread := hb.read (ends_behindCommas_append (as.map w) hu.ends)
    rw [← List.append_assoc] at hread
    have hcomma : Comma (',' :: (w b ++ behindCommas (as.map w) ++ u))
        (w b ++ behindCommas (as.map w) ++ u) := ⟨_, ⟨[], by simp, rfl⟩, ⟨[], by simp, rfl⟩⟩
    have hsolid : Solid (w b ++ behindCommas (as.map w) ++ u) := by
      rw [List.append_assoc]
      exact hb.solid _
    have hmore := moreItems_eq_sepBy1 (comma_separates.complete hcomma hsolid) hread
      (by simp only [List.length_cons, List.length_append]; omega)
    have ha := has.1.read (u := ',' :: (w b ++ behindCommas (as.map w) ++ u))
      (ends_cons.2 (by decide))
    rw [List.map_cons, behindCommas_cons, List.append_assoc, List.cons_append, sepBy1, ha,
      Outcome.andThen, hmore, ih has.2]
    rfl

/-- What is written between brackets is read, perhaps nothing. -/
theorem scanGroup_written {as : List α} (has : ∀ a ∈ as, Reads item w a) {close : Char}
    (hclose : close = '}' ∨ close = ']') :
    scanGroup item close ([','].intercalate (as.map w) ++ close :: u) = .read as u := by
  have hsolid : skipLayout (close :: u) = close :: u := by
    rcases hclose with rfl | rfl <;> rfl
  cases as with
  | nil => simp [scanGroup, hsolid, expect]
  | cons a as =>
    have hcloses : Closes (close :: u) := closes_of_layout ⟨[], by simp, rfl⟩ hclose
    have hlist := sepBy1_written has hcloses
    have ha := has a (by simp)
    rw [List.map_cons, intercalate_cons] at hlist ⊢
    have hskip := skipLayout_of_solid (ha.solid (behindCommas (as.map w) ++ close :: u))
    rw [← List.append_assoc] at hskip
    obtain ⟨c, rest, hw, -, hbracket, hbrace⟩ := ha.head
    have hmiss : expect close (w a ++ behindCommas (as.map w) ++ close :: u) =
        .miss (w a ++ behindCommas (as.map w) ++ close :: u) := by
      rw [hw]
      rcases hclose with rfl | rfl
      · simp [expect, hbrace]
      · simp [expect, hbracket]
    have hexpect : expect close (close :: u) = .read () u := by simp [expect]
    simp only [scanGroup, hskip, hmiss, enclosed, hlist, Outcome.andThen, hsolid, hexpect,
      Outcome.map, Outcome.commit]

end

/-! ## Values -/

/-- A member as it is written. -/
def memberText (m : Member) : List Char := quoted m.1 ++ ':' :: text m.2

theorem itemsTail_eq (items : List Json) : itemsTail items = behindCommas (items.map text) := by
  induction items with
  | nil => rfl
  | cons j items ih => rw [itemsTail, ih, List.map_cons, behindCommas_cons]; rfl

theorem membersTail_eq (members : List Member) :
    membersTail members = behindCommas (members.map memberText) := by
  induction members with
  | nil => rfl
  | cons m members ih => rw [membersTail, ih, List.map_cons, behindCommas_cons]; rfl

theorem text_array (items : List Json) :
    text (array items) = '[' :: ([','].intercalate (items.map text) ++ [']']) := by
  cases items with
  | nil => rfl
  | cons j items => rw [text, itemsTail_eq, List.map_cons, intercalate_cons]; rfl

theorem text_object (members : List Member) :
    text (object members) = '{' :: ([','].intercalate (members.map memberText) ++ ['}']) := by
  cases members with
  | nil => rfl
  | cons m members =>
    rw [text, membersTail_eq, List.map_cons, intercalate_cons]
    simp [memberText]

theorem length_le_intercalate {t : List Char} {ts : List (List Char)} (h : t ∈ ts) :
    t.length ≤ ([','].intercalate ts).length := by
  induction ts with
  | nil => cases h
  | cons u ts ih =>
    cases ts with
    | nil =>
      rw [List.mem_singleton] at h
      subst h
      simp
    | cons v ts =>
      rw [List.intercalate_cons_cons, List.length_append, List.length_append]
      rcases List.mem_cons.1 h with rfl | h
      · omega
      · have := ih h
        omega

/-! ### Scalars -/

theorem reads_scalar {j : Json} {c : Char} {rest : List Char} (htext : text j = c :: rest)
    (hc : isLayout c = false ∧ c ≠ ']' ∧ c ≠ '}' ∧ c ≠ '[' ∧ c ≠ '{')
    (hscan : ∀ {u}, Ends u → scanScalar (text j ++ u) = some (j, u)) (n : Nat) :
    Reads (scan (n + 1)) text j where
  read := by
    intro u hu
    have hj := hscan hu
    rw [htext, List.cons_append] at hj ⊢
    simp [scan, hc, hj, Outcome.ofOption]
  head := ⟨c, rest, htext, hc.1, hc.2.1, hc.2.2.1⟩

theorem reads_null (n : Nat) : Reads (scan (n + 1)) text null := by
  refine reads_scalar rfl (by decide) (fun {u} _ => ?_) n
  rw [text, scanScalar, word_complete]
  rfl

theorem reads_boolean (b : Bool) (n : Nat) : Reads (scan (n + 1)) text (boolean b) := by
  cases b with
  | true =>
    refine reads_scalar rfl (by decide) (fun {u} _ => ?_) n
    have hnull : word "null".toList ("true".toList ++ u) = none := word_eq_none (by decide)
    rw [text, if_pos rfl, scanScalar, hnull, word_complete]
    rfl
  | false =>
    refine reads_scalar rfl (by decide) (fun {u} _ => ?_) n
    have hnull : word "null".toList ("false".toList ++ u) = none := word_eq_none (by decide)
    have htrue : word "true".toList ("false".toList ++ u) = none := word_eq_none (by decide)
    rw [text, if_neg Bool.false_ne_true, scanScalar, hnull, htrue, word_complete]
    rfl

/-- In front of anything that begins otherwise none of the three words is read. -/
theorem scanScalar_cons {c : Char} {t : List Char} (hc : c ≠ 'n' ∧ c ≠ 't' ∧ c ≠ 'f') :
    scanScalar (c :: t) = ((scanNumber (c :: t)).map fun (n, rest) => (number n, rest)).or
      ((scanString (c :: t)).map fun (s, rest) => (string s, rest)) := by
  have hnull : word "null".toList (c :: t) = none := word_eq_none (Ne.symm hc.1)
  have htrue : word "true".toList (c :: t) = none := word_eq_none (Ne.symm hc.2.1)
  have hfalse : word "false".toList (c :: t) = none := word_eq_none (Ne.symm hc.2.2)
  rw [scanScalar, hnull, htrue, hfalse]
  rfl

theorem reads_number {m : Numeral} (h : m.Canonical) (n : Nat) :
    Reads (scan (n + 1)) text (number m) := by
  obtain ⟨c, rest, he, hc⟩ := h.wellFormed.head []
  rw [List.append_nil] at he
  have hne : ∀ d, (d.isDigit || d == '+' || d == '-') = false → c ≠ d := by
    rintro d hd rfl
    rcases hc with hc | rfl | rfl
    · simp [hc] at hd
    · cases hd
    · cases hd
  have hlayout : isLayout c = false := by
    simp [isLayout, hne ' ' (by decide), hne '\t' (by decide), hne '\r' (by decide),
      hne '\n' (by decide)]
  have htext : text (number m) = c :: rest := by rw [text, he]
  refine reads_scalar htext ⟨hlayout, ?_⟩ (fun {u} hu => ?_) n
  · exact ⟨hne _ (by decide), hne _ (by decide), hne _ (by decide), hne _ (by decide)⟩
  · have hscan := scanNumber_text h hu
    have hwords : c ≠ 'n' ∧ c ≠ 't' ∧ c ≠ 'f' :=
      ⟨hne _ (by decide), hne _ (by decide), hne _ (by decide)⟩
    rw [he, List.cons_append] at hscan
    rw [htext, List.cons_append, scanScalar_cons hwords, hscan]
    rfl

theorem reads_string (s : Option String) (n : Nat) : Reads (scan (n + 1)) text (string s) := by
  refine reads_scalar rfl (by decide) (fun {u} _ => ?_) n
  have hscan := scanString_quoted s u
  have hnumber (t : List Char) : scanNumber ('"' :: t) = none := by
    have hdigits : Numeral.scanDigits ('"' :: t) = none := Numeral.scanDigits_eq_none (by decide)
    simp [scanNumber, Numeral.scan, Sign.scan, hdigits]
  obtain ⟨t, ht⟩ : ∃ t, quoted s = '"' :: t := ⟨_, rfl⟩
  rw [ht, List.cons_append] at hscan
  rw [text, ht, List.cons_append, scanScalar_cons (by decide), hnumber, hscan]
  rfl

/-! ### Arrays and objects -/

theorem Reads.member {value : Scanner Json} {m : Member} (h : Reads value text m.2) :
    Reads (scanMember value) memberText m where
  read := by
    intro u hu
    have hkey := scanString_quoted m.1 (':' :: (text m.2 ++ u))
    have hcolon : skipLayout (':' :: (text m.2 ++ u)) = ':' :: (text m.2 ++ u) := rfl
    simp [scanMember, memberText, hkey, hcolon, expect, Outcome.ofOption, Outcome.andThen,
      skipLayout_of_solid (h.solid u), h.read hu, Outcome.map]
  head := ⟨'"', _, rfl, by decide, by decide, by decide⟩

theorem reads_array {items : List Json} {n : Nat} (h : ∀ j ∈ items, Reads (scan n) text j) :
    Reads (scan (n + 1)) text (array items) where
  read := by
    intro u hu
    have hgroup := scanGroup_written (u := u) h (.inr rfl)
    simp [text_array, scan, hgroup, Outcome.map]
  head := ⟨'[', _, text_array items, by decide⟩

theorem reads_object {members : List Member} {n : Nat}
    (h : ∀ m ∈ members, Reads (scan n) text m.2) : Reads (scan (n + 1)) text (object members) where
  read := by
    intro u hu
    have hgroup := scanGroup_written (u := u) (fun m hm => (h m hm).member) (.inl rfl)
    simp [text_object, scan, hgroup, Outcome.map]
  head := ⟨'{', _, text_object members, by decide⟩

/-- A canonical value is read back, given levels enough for it. The levels are counted by the
characters of the text, as every array and object has a bracket of its own. -/
theorem Canonical.reads {j : Json} (h : Canonical j) {n : Nat} (hn : (text j).length < n) :
    Reads (scan n) text j := by
  induction h generalizing n with
  | null =>
    obtain ⟨n, rfl⟩ := Nat.exists_eq_succ_of_ne_zero (Nat.ne_zero_of_lt hn)
    exact reads_null n
  | boolean b =>
    obtain ⟨n, rfl⟩ := Nat.exists_eq_succ_of_ne_zero (Nat.ne_zero_of_lt hn)
    exact reads_boolean b n
  | number hnumber =>
    obtain ⟨n, rfl⟩ := Nat.exists_eq_succ_of_ne_zero (Nat.ne_zero_of_lt hn)
    exact reads_number hnumber n
  | string s =>
    obtain ⟨n, rfl⟩ := Nat.exists_eq_succ_of_ne_zero (Nat.ne_zero_of_lt hn)
    exact reads_string s n
  | @array items _ ih =>
    obtain ⟨n, rfl⟩ := Nat.exists_eq_succ_of_ne_zero (Nat.ne_zero_of_lt hn)
    apply reads_array
    intro j hj
    have hlength := length_le_intercalate (List.mem_map_of_mem (f := text) hj)
    rw [text_array, List.length_cons, List.length_append] at hn
    exact ih j hj (by omega)
  | @object members _ ih =>
    obtain ⟨n, rfl⟩ := Nat.exists_eq_succ_of_ne_zero (Nat.ne_zero_of_lt hn)
    apply reads_object
    intro m hm
    have hlength := length_le_intercalate (List.mem_map_of_mem (f := memberText) hm)
    have hmember : (text m.2).length < (memberText m).length := by
      rw [memberText, List.length_append, List.length_cons]
      omega
    rw [text_object, List.length_cons, List.length_append] at hn
    exact ih m hm (by omega)

/-- A canonical value is read back from its text. -/
theorem read?_render {j : Json} (h : Canonical j) : read? j.render = some j := by
  have hreads := h.reads (Nat.lt_succ_self (text j).length)
  have hread := hreads.read (u := []) (by simp [Ends])
  have hskip := skipLayout_of_solid (hreads.solid [])
  rw [List.append_nil] at hread hskip
  have hlength : (String.ofList j.text).length = (text j).length := by simp
  simp only [read?, render, String.toList_ofList, hskip, hlength, hread]
  rfl

end Json

end LifecycleQuery

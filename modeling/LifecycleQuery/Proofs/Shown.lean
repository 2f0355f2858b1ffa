import LifecycleQuery.Condition
import LifecycleQuery.Proofs.Form
import LifecycleQuery.Proofs.Grammar.Cut
import LifecycleQuery.Proofs.Value

/-!
# Texts that tell what they show

A text is written without a reader for it: IRIs stand bare between their brackets, and few
characters are escaped. Still it may tell what it was written for. `Told` says this of one thing:
no other is written like it, and the text behind it begins at the same place. What a reader finds
in front of any text is told (`told_of_read`), and an optional piece behind its mark or a list with
separators is told when its parts are. So are the values of a filter (`Value.told`).
-/

namespace LifecycleQuery

open Text

section
variable {α β : Type} {write : α → List Char} {Keep : α → Prop} {Stop : List Char → Prop}

/-- Of the things kept, no other is written like `a` where the text may stop behind it. -/
def Told (write : α → List Char) (Keep : α → Prop) (Stop : List Char → Prop) (a : α) : Prop :=
  ∀ ⦃b u v⦄, Keep b → Stop u → Stop v → write a ++ u = write b ++ v → a = b ∧ u = v

/-- What a reader finds in front of the same text is the same. -/
theorem told_of_read (read : List Char → Option (β × List Char)) {f : α → β}
    (hf : Function.Injective f)
    (h : ∀ a u, Keep a → Stop u → read (write a ++ u) = some (f a, u)) {a : α} (ha : Keep a) :
    Told write Keep Stop a := by
  intro b u v hb hu hv he
  have hread := h a u ha hu
  rw [he, h b v hb hv, Option.some.injEq, Prod.mk.injEq] at hread
  exact ⟨hf hread.1.symm, hread.2.symm⟩

theorem Told.mono {Stop' : List Char → Prop} {a : α} (h : Told write Keep Stop a)
    (hs : ∀ u, Stop' u → Stop u) : Told write Keep Stop' a :=
  fun _ _ _ hb hu hv he => h hb (hs _ hu) (hs _ hv) he

/-- The same text before all of them tells nothing. -/
theorem Told.after {a : α} (h : Told write Keep Stop a) (before : List Char) :
    Told (fun a => before ++ write a) Keep Stop a := by
  intro b u v hb hu hv he
  rw [List.append_assoc, List.append_assoc] at he
  exact h hb hu hv (List.append_cancel_left he)

/-! ## Pairs -/

/-- One thing behind the other. -/
def writePair (f : α → List Char) (g : β → List Char) (p : α × β) : List Char := f p.1 ++ g p.2

/-- The first thing must be told in front of the second one, and of what may stand behind that. -/
theorem Told.pair {g : β → List Char} {KeepB : β → Prop} {StopB : List Char → Prop} {a : α} {b : β}
    (ha : Told write Keep Stop a) (hb : Told g KeepB StopB b) (hkeep : KeepB b)
    (hstop : ∀ b u, KeepB b → StopB u → Stop (g b ++ u)) :
    Told (writePair write g) (fun p => Keep p.1 ∧ KeepB p.2) StopB (a, b) := by
  rintro ⟨a', b'⟩ u v ⟨ha', (hb' : KeepB b')⟩ hu hv he
  simp only [writePair, List.append_assoc] at he
  obtain ⟨rfl, hbehind⟩ := ha ha' (hstop b u hkeep hu) (hstop b' v hb' hv) he
  obtain ⟨rfl, huv⟩ := hb hb' hu hv hbehind
  exact ⟨rfl, huv⟩

/-! ## Optional pieces -/

/-- The piece behind its mark, if there is one. -/
def writeOption (mark : Char) (write : α → List Char) (o : Option α) : List Char :=
  (o.map fun a => mark :: write a).getD []

theorem Told.option {mark : Char} {o : Option α} (h : ∀ a ∈ o, Told write Keep Stop a) :
    Told (writeOption mark write) (fun o => ∀ a ∈ o, Keep a)
      (fun u => Stop u ∧ ∀ c ∈ u.head?, c ≠ mark) o := by
  intro o' u v ho' hu hv he
  cases o with
  | none =>
    cases o' with
    | none => exact ⟨rfl, he⟩
    | some b =>
      obtain rfl : u = mark :: (write b ++ v) := he
      exact absurd rfl (hu.2 mark rfl)
  | some a =>
    cases o' with
    | none =>
      obtain rfl : mark :: (write a ++ u) = v := he
      exact absurd rfl (hv.2 mark rfl)
    | some b =>
      obtain ⟨rfl, huv⟩ := h a rfl (ho' b rfl) hu.1 hv.1 (List.cons.inj he).2
      exact ⟨rfl, huv⟩

/-! ## Lists -/

/-- The things with the separator between them. -/
def writeList (sep : List Char) (write : α → List Char) (as : List α) : List Char :=
  sep.intercalate (as.map write)

/-- The things, each behind the separator. -/
def writeBehind (sep : List Char) (write : α → List Char) (as : List α) : List Char :=
  as.flatMap fun a => sep ++ write a

@[simp] theorem writeList_nil (sep : List Char) (write : α → List Char) :
    writeList sep write [] = [] := rfl

@[simp] theorem writeBehind_nil (sep : List Char) (write : α → List Char) :
    writeBehind sep write [] = [] := rfl

theorem writeBehind_cons (sep : List Char) (write : α → List Char) (a : α) (as : List α) :
    writeBehind sep write (a :: as) = sep ++ (write a ++ writeBehind sep write as) := by
  rw [writeBehind, List.flatMap_cons, List.append_assoc]
  rfl

theorem writeList_cons (sep : List Char) (write : α → List Char) (a : α) (as : List α) :
    writeList sep write (a :: as) = write a ++ writeBehind sep write as := by
  rw [writeList, List.map_cons, intercalate_cons_flatMap, List.flatMap_map]
  rfl

/-- A thing may stop at the separator, and neither of them closes a list. -/
structure Delimits (sep : List Char) (write : α → List Char) (Keep : α → Prop)
    (Stop : List Char → Prop) : Prop where
  stop : ∀ x, Stop (sep ++ x)
  stop_of_closes : ∀ {u}, Closes u → Stop u
  opens : ∀ x, ¬Closes (sep ++ x)
  opens_item : ∀ {a}, Keep a → ∀ x, ¬Closes (write a ++ x)

variable {sep : List Char}

theorem Delimits.stop_behind (hsep : Delimits sep write Keep Stop) {u : List Char} (hu : Closes u)
    (as : List α) : Stop (writeBehind sep write as ++ u) := by
  cases as with
  | nil => exact hsep.stop_of_closes hu
  | cons a as =>
    rw [writeBehind_cons, List.append_assoc]
    exact hsep.stop _

theorem Told.behind (hsep : Delimits sep write Keep Stop) {as : List α}
    (h : ∀ a ∈ as, Told write Keep Stop a) :
    Told (writeBehind sep write) (fun bs => ∀ b ∈ bs, Keep b) Closes as := by
  induction as with
  | nil =>
    intro bs u v _ hu _ he
    cases bs with
    | nil => exact ⟨rfl, he⟩
    | cons b bs =>
      rw [writeBehind_nil, List.nil_append, writeBehind_cons, List.append_assoc] at he
      exact absurd (he ▸ hu) (hsep.opens _)
  | cons a as ih =>
    intro bs u v hkeep hu hv he
    obtain ⟨ha, has⟩ := List.forall_mem_cons.1 h
    cases bs with
    | nil =>
      rw [writeBehind_nil, List.nil_append, writeBehind_cons, List.append_assoc] at he
      exact absurd (he ▸ hv) (hsep.opens _)
    | cons b bs =>
      obtain ⟨hb, hbs⟩ := List.forall_mem_cons.1 hkeep
      simp only [writeBehind_cons, List.append_assoc, List.append_cancel_left_eq] at he
      obtain ⟨rfl, hrest⟩ := ha hb (hsep.stop_behind hu as) (hsep.stop_behind hv bs) he
      obtain ⟨rfl, huv⟩ := ih has hbs hu hv hrest
      exact ⟨rfl, huv⟩

/-- A list is told where it closes, the empty one too. -/
theorem Told.list (hsep : Delimits sep write Keep Stop) {as : List α}
    (hkeep : ∀ a ∈ as, Keep a) (h : ∀ a ∈ as, Told write Keep Stop a) :
    Told (writeList sep write) (fun bs => ∀ b ∈ bs, Keep b) Closes as := by
  intro bs u v hbs hu hv he
  cases as with
  | nil =>
    cases bs with
    | nil => exact ⟨rfl, he⟩
    | cons b bs =>
      rw [writeList_nil, List.nil_append, writeList_cons, List.append_assoc] at he
      exact absurd (he ▸ hu) (hsep.opens_item (hbs b List.mem_cons_self) _)
  | cons a as =>
    cases bs with
    | nil =>
      rw [writeList_nil, List.nil_append, writeList_cons, List.append_assoc] at he
      exact absurd (he ▸ hv) (hsep.opens_item (hkeep a List.mem_cons_self) _)
    | cons b bs =>
      rw [writeList_cons, writeList_cons] at he
      refine Told.behind hsep h hbs hu hv ?_
      rw [writeBehind_cons, writeBehind_cons, List.append_assoc, he, ← List.append_assoc]

/-- A bracket closes the list before it, so anything may stand behind the bracket. -/
theorem Told.closed {close : Char} (hclose : close = '}' ∨ close = ']') {a : α}
    (h : Told write Keep Closes a) :
    Told (fun a => write a ++ [close]) Keep (fun _ => True) a := by
  intro b u v hb _ _ he
  have hcloses : ∀ w, Closes (close :: w) :=
    fun w => closes_of_layout ⟨[], by simp, rfl⟩ hclose
  rw [List.append_assoc, List.append_assoc] at he
  obtain ⟨rfl, huv⟩ := h hb (hcloses u) (hcloses v) he
  exact ⟨rfl, (List.cons.inj huv).2⟩

end

/-! ## Names and IRIs -/

/-- The IRI ends at the bracket behind it. -/
def Unbroken (iri : String) : Prop := '>' ∉ iri.toList

instance : DecidablePred Unbroken := fun iri => inferInstanceAs (Decidable ('>' ∉ iri.toList))

theorem Unbroken.told {i : String} (hi : Unbroken i) :
    Told (fun i => i.toList ++ ['>']) Unbroken (fun _ => True) i := by
  refine told_of_read (fun t => some (t.takeWhile (· != '>'), (t.dropWhile (· != '>')).drop 1))
    (fun _ _ => String.toList_injective) (fun j u hj _ => ?_) hi
  rw [List.append_assoc, List.singleton_append, Form.takeWhile_append_cons hj,
    Form.dropWhile_append_cons hj]
  rfl

theorem Value.angled_told {i : String} (hi : Unbroken i) :
    Told angled Unbroken (fun _ => True) i :=
  hi.told.after ['<']

/-- The wildcard has no brackets, so no IRI is taken for it. -/
theorem Property.nameText_told {i : Iri} (hi : Unbroken i) :
    Told nameText Unbroken (fun _ => True) i := by
  intro j u v hj hu hv he
  simp only [nameText] at he
  split at he <;> split at he
  · next hi hj => exact ⟨hi.trans hj.symm, (List.cons.inj he).2⟩
  · cases he
  · cases he
  · exact Value.angled_told hi hj hu hv he

/-! ## Values -/

/-- A number is written as a numeral that is read as this number. -/
theorem Number.told {a : Number} (ha : (Value.number a).WellFormed) :
    Told text (fun b => (Value.number b).WellFormed) Ends a := by
  refine told_of_read (fun t => (Numeral.scan t).map (Prod.map Literal.numberOf id))
    (fun _ _ => Except.ok.inj) (fun b u hb hu => ?_) ha
  obtain ⟨n, hn, htext, hvalue⟩ := b.exists_numeral hb
  rw [htext, Numeral.scan_complete hn hu, Option.map_some, Prod.map_apply, hvalue]
  rfl

namespace Value

theorem boolean_told (b : Bool) :
    Told (fun b => (boolean b).text) (fun _ => True) (fun _ => True) b := by
  refine told_of_read Literal.scan (fun _ _ => Literal.boolean.inj) (fun b u _ _ => ?_) trivial
  cases b with
  | false => exact Literal.scan_false u
  | true => exact Literal.scan_true u

/-- The quotes in a string are escaped, so it ends at the first that is not. -/
theorem quoted_told (s : String) : Told quoted (fun _ => True) (fun _ => True) s := by
  refine told_of_read (fun t => Literal.scanContent (t.drop 1)) (fun _ _ => String.toList_injective)
    (fun s u _ _ => ?_) trivial
  have htext : (quoted s ++ u).drop 1 = s.toList.flatMap escape ++ '"' :: u := by
    simp [quoted]
  rw [htext, Literal.scanContent_complete (Literal.content_escape s.toList) u]

/-- A language goes on with letters, digits and hyphens, and ends before anything else. -/
theorem tag_told {tag : String} (h : Literal.Tag tag.toList) :
    Told String.toList (fun tag => Literal.Tag tag.toList)
      (fun u => ∀ c ∈ u.head?, (!c.isAlphanum && c != '-') = true) tag :=
  told_of_read Literal.scanLanguage (fun _ _ => String.toList_injective)
    (fun _ _ htag hu => Literal.scanLanguage_of_head htag hu) h

/-! ### Strings with their suffix -/

def languageText : Option String → List Char := writeOption '@' String.toList

/-- The second of its two marks belongs to what is written behind the first. -/
def datatypeText : Option String → List Char := writeOption '^' fun i => '^' :: angled i

/-- What may follow the closing quote of a string: a language, a datatype. -/
def suffixText : Option String × Option String → List Char := writePair languageText datatypeText

/-- The language is one that the grammar has, and the datatype is unbroken. -/
def LegibleSuffix (s : Option String × Option String) : Prop :=
  (∀ tag ∈ s.1, Literal.Tag tag.toList) ∧ ∀ i ∈ s.2, Unbroken i

theorem text_string (s : String) (language datatype : Option String) :
    (string s language datatype).text = writePair quoted suffixText (s, language, datatype) := by
  rw [text, List.append_assoc]
  rfl

/-- A datatype begins with a mark that no language goes on with. -/
theorem head_datatype {datatype : Option String} {u : List Char} (hu : Ends u) :
    ∀ c ∈ (datatypeText datatype ++ u).head?, (!c.isAlphanum && c != '-') = true ∧ c ≠ '@' := by
  have hall : ('^' :: boundaries).all (fun c => !c.isAlphanum && c != '-' && c != '@') = true := by
    decide
  have hmark : ∀ c ∈ '^' :: boundaries, (!c.isAlphanum && c != '-') = true ∧ c ≠ '@' := by
    intro c hc
    rw [← bne_iff_ne, ← Bool.and_eq_true]
    exact List.all_eq_true.1 hall c hc
  cases datatype with
  | none => exact fun c hc => hmark c (List.mem_cons_of_mem _ (hu c hc))
  | some i =>
    rintro _ ⟨⟩
    exact hmark '^' List.mem_cons_self

theorem language_told {language : Option String} (h : ∀ tag ∈ language, Literal.Tag tag.toList) :
    Told languageText (fun language => ∀ tag ∈ language, Literal.Tag tag.toList)
      (fun u => ∀ c ∈ u.head?, (!c.isAlphanum && c != '-') = true ∧ c ≠ '@') language := by
  have htold : Told languageText _ _ language := Told.option fun tag htag => tag_told (h tag htag)
  exact htold.mono fun _ hu => ⟨fun c hc => (hu c hc).1, fun c hc => (hu c hc).2⟩

theorem datatype_told {datatype : Option String} (h : ∀ i ∈ datatype, Unbroken i) :
    Told datatypeText (fun datatype => ∀ i ∈ datatype, Unbroken i) Ends datatype := by
  have htold : Told datatypeText _ _ datatype :=
    Told.option fun i hi => (angled_told (h i hi)).after ['^']
  have hmark : '^' ∉ boundaries := by decide
  exact htold.mono fun _ hu => ⟨trivial, fun c hc => by rintro rfl; exact hmark (hu _ hc)⟩

theorem suffix_told {s : Option String × Option String} (hs : LegibleSuffix s) :
    Told suffixText LegibleSuffix Ends s :=
  (language_told hs.1).pair (datatype_told hs.2) hs.2 fun _ _ _ hu => head_datatype hu

/-! ### Any value -/

/-- IRIs are unbroken, decimals finite and languages as the grammar has them. -/
def Legible : Value → Prop
  | iri i => Unbroken i
  | boolean _ => True
  | number a => (number a).WellFormed
  | string _ language datatype => LegibleSuffix (language, datatype)

/-- The four kinds of values. -/
inductive Kind
  | iri
  | boolean
  | number
  | string

def kind : Value → Kind
  | iri _ => .iri
  | boolean _ => .boolean
  | number _ => .number
  | string _ _ _ => .string

/-- The kind of the values that begin with a character. -/
def kindAt (c : Char) : Kind :=
  if c = '<' then .iri else if c = '"' then .string else if c = 't' ∨ c = 'f' then .boolean
  else .number

theorem kindAt_number {c : Char} (h : c.isDigit = true ∨ c = '+' ∨ c = '-') :
    kindAt c = .number := by
  have hne (d : Char) (hd : ¬(d.isDigit = true ∨ d = '+' ∨ d = '-')) : c ≠ d := by
    rintro rfl
    exact hd h
  rw [kindAt, if_neg (hne '<' (by decide)), if_neg (hne '"' (by decide)),
    if_neg (not_or.2 ⟨hne 't' (by decide), hne 'f' (by decide)⟩)]

/-- The first character tells the kind. -/
theorem text_head {v : Value} (hv : v.Legible) (u : List Char) :
    ∃ c rest, v.text ++ u = c :: rest ∧ Literal.isStart c = true ∧ kindAt c = v.kind := by
  cases v with
  | iri i => exact ⟨'<', _, rfl, by decide, rfl⟩
  | boolean b => cases b <;> exact ⟨_, _, rfl, by decide, rfl⟩
  | number a =>
    obtain ⟨n, hn, htext, -⟩ := a.exists_numeral hv
    obtain ⟨c, rest, he, hc⟩ := hn.head u
    refine ⟨c, rest, by rw [text, htext, he], ?_, kindAt_number hc⟩
    rcases hc with hc | rfl | rfl
    · simp [Literal.isStart, hc]
    · decide
    · decide
  | string s language datatype => exact ⟨'"', _, rfl, by decide, rfl⟩

theorem told {v : Value} (hv : v.Legible) : Told text Legible Ends v := by
  intro w t u hw ht hu he
  have hkind : v.kind = w.kind := by
    obtain ⟨c, rest, hc, -, hcv⟩ := text_head hv t
    obtain ⟨d, rest', hd, -, hdw⟩ := text_head hw u
    rw [hc, hd] at he
    cases he
    rw [← hcv, hdw]
  cases v with
  | iri i =>
    cases w with
    | iri j =>
      obtain ⟨rfl, htu⟩ := angled_told hv hw trivial trivial he
      exact ⟨rfl, htu⟩
    | _ => cases hkind
  | boolean b =>
    cases w with
    | boolean c =>
      obtain ⟨rfl, htu⟩ := boolean_told b trivial trivial trivial he
      exact ⟨rfl, htu⟩
    | _ => cases hkind
  | number a =>
    cases w with
    | number b =>
      obtain ⟨rfl, htu⟩ := Number.told hv hw ht hu he
      exact ⟨rfl, htu⟩
    | _ => cases hkind
  | string s language datatype =>
    cases w with
    | string s' language' datatype' =>
      rw [text_string, text_string] at he
      have hstring := (quoted_told s).pair (suffix_told hv) hv fun _ _ _ _ => trivial
      obtain ⟨hs, htu⟩ := hstring (b := (s', language', datatype')) ⟨trivial, hw⟩ ht hu he
      cases hs
      exact ⟨rfl, htu⟩
    | _ => cases hkind

end Value

end LifecycleQuery

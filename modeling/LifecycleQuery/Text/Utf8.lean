/-!
# UTF-8

`encodeChar` writes a character as one to four bytes. `decode` reads any bytes at all: a sequence
that begins well and breaks off becomes one replacement character, as does a byte that begins none.
`decode_encode` says that what was written is read back.

A reading in progress is a `Pending`: the bits so far, how many bytes are still due, and the range
the next of them must lie in. The range is narrower than that of a later byte after the leads
`E0`, `ED`, `F0` and `F4`, which shuts out overlong forms, surrogates and values past `10FFFF`.
-/

namespace LifecycleQuery.Text.Utf8

/-- The byte `n`, for a number below 256. -/
abbrev byte (n : Nat) : UInt8 := UInt8.ofNat n

def encodeChar (c : Char) : List UInt8 :=
  let n := c.toNat
  if n < 0x80 then [byte n]
  else if n < 0x800 then [byte (0xC0 + n / 64), byte (0x80 + n % 64)]
  else if n < 0x10000 then
    [byte (0xE0 + n / 4096), byte (0x80 + n / 64 % 64), byte (0x80 + n % 64)]
  else
    [byte (0xF0 + n / 262144), byte (0x80 + n / 4096 % 64), byte (0x80 + n / 64 % 64),
      byte (0x80 + n % 64)]

def encode (text : List Char) : List UInt8 := text.flatMap encodeChar

/-! ## Reading bytes -/

def replacement : Char := '\ufffd'

structure Pending where
  bits : Nat
  due : Nat
  low : Nat
  high : Nat
  deriving DecidableEq

/-- What a first byte above `7F` announces. -/
def lead? (b : Nat) : Option Pending :=
  if 0xC2 ≤ b ∧ b ≤ 0xDF then some ⟨b - 0xC0, 1, 0x80, 0xBF⟩
  else if b = 0xE0 then some ⟨0, 2, 0xA0, 0xBF⟩
  else if b = 0xED then some ⟨0xD, 2, 0x80, 0x9F⟩
  else if 0xE1 ≤ b ∧ b ≤ 0xEF then some ⟨b - 0xE0, 2, 0x80, 0xBF⟩
  else if b = 0xF0 then some ⟨0, 3, 0x90, 0xBF⟩
  else if 0xF1 ≤ b ∧ b ≤ 0xF3 then some ⟨b - 0xF0, 3, 0x80, 0xBF⟩
  else if b = 0xF4 then some ⟨4, 3, 0x80, 0x8F⟩
  else none

/-- The characters a first byte settles at once, and the reading it begins. -/
def first (b : Nat) : List Char × Option Pending :=
  if b < 0x80 then ([Char.ofNat b], none)
  else match lead? b with
    | some p => ([], some p)
    | none => ([replacement], none)

/-- The same for a byte that comes while a reading is in progress. -/
def next (p : Pending) (b : Nat) : List Char × Option Pending :=
  if p.low ≤ b ∧ b ≤ p.high then
    let bits := p.bits * 64 + (b - 0x80)
    if p.due ≤ 1 then ([Char.ofNat bits], none)
    else ([], some ⟨bits, p.due - 1, 0x80, 0xBF⟩)
  else
    let (settled, begun) := first b
    (replacement :: settled, begun)

def decodeFrom : Option Pending → List UInt8 → List Char
  | none, [] => []
  | some _, [] => [replacement]
  | none, b :: rest => (first b.toNat).1 ++ decodeFrom (first b.toNat).2 rest
  | some p, b :: rest => (next p b.toNat).1 ++ decodeFrom (next p b.toNat).2 rest

def decode (bytes : List UInt8) : List Char := decodeFrom none bytes

example : decode [0xE2, 0x82, 0xAC, 0xE2, 0x82, 0x41, 0xFF] =
    ['€', replacement, 'A', replacement] := by decide

/-! ## Reading what was written -/

theorem toNat_byte {n : Nat} (h : n < 256) : (byte n).toNat = n := by
  rw [UInt8.toNat_ofNat']
  omega

theorem lead?_two : ∀ k < 32, 2 ≤ k → lead? (0xC0 + k) = some ⟨k, 1, 0x80, 0xBF⟩ := by decide

theorem lead?_three : ∀ k < 16, lead? (0xE0 + k) =
    some ⟨k, 2, if k = 0 then 0xA0 else 0x80, if k = 13 then 0x9F else 0xBF⟩ := by decide

theorem lead?_four : ∀ k < 5, lead? (0xF0 + k) =
    some ⟨k, 3, if k = 0 then 0x90 else 0x80, if k = 4 then 0x8F else 0xBF⟩ := by decide

/-- A byte that announces a sequence begins a reading. -/
theorem decodeFrom_lead {n : Nat} {p : Pending} {rest : List UInt8} (hlo : 0x80 ≤ n)
    (hhi : n < 256) (h : lead? n = some p) :
    decodeFrom none (byte n :: rest) = decodeFrom (some p) rest := by
  have hn : ¬n < 0x80 := by omega
  simp [decodeFrom, toNat_byte hhi, first, hn, h]

/-- A byte in range goes on with a reading that is due more than one. -/
theorem decodeFrom_more {bits due low high n : Nat} {rest : List UInt8} (hlo : low ≤ 0x80 + n)
    (hhi : 0x80 + n ≤ high) (hn : n < 64) (hdue : 1 < due) :
    decodeFrom (some ⟨bits, due, low, high⟩) (byte (0x80 + n) :: rest) =
      decodeFrom (some ⟨bits * 64 + n, due - 1, 0x80, 0xBF⟩) rest := by
  have hb : (byte (0x80 + n)).toNat = 0x80 + n := toNat_byte (by omega)
  have hd : ¬due ≤ 1 := by omega
  have hs : 0x80 + n - 0x80 = n := by omega
  simp only [decodeFrom, hb, next, hlo, hhi, hd, hs, and_self, if_true, if_false, List.nil_append]

/-- The last byte ends it. -/
theorem decodeFrom_last {bits low high n : Nat} {rest : List UInt8} (hlo : low ≤ 0x80 + n)
    (hhi : 0x80 + n ≤ high) (hn : n < 64) :
    decodeFrom (some ⟨bits, 1, low, high⟩) (byte (0x80 + n) :: rest) =
      Char.ofNat (bits * 64 + n) :: decodeFrom none rest := by
  have hb : (byte (0x80 + n)).toNat = 0x80 + n := toNat_byte (by omega)
  have hs : 0x80 + n - 0x80 = n := by omega
  simp only [decodeFrom, hb, next, hlo, hhi, hs, and_self, if_true, Nat.le_refl,
    List.cons_append, List.nil_append]

theorem toNat_valid (c : Char) : c.toNat < 0xD800 ∨ 0xDFFF < c.toNat ∧ c.toNat < 0x110000 := by
  exact c.valid

theorem decodeFrom_encodeChar (c : Char) (rest : List UInt8) :
    decodeFrom none (encodeChar c ++ rest) = c :: decodeFrom none rest := by
  have hv := toNat_valid c
  have hc : Char.ofNat c.toNat = c := Char.ofNat_toNat c
  generalize hn : c.toNat = n at hv hc
  simp only [encodeChar, hn]
  split
  · next h =>
    simp [decodeFrom, toNat_byte (by omega : n < 256), first, h, hc]
  · split
    · next h =>
      simp only [List.cons_append, List.nil_append]
      rw [decodeFrom_lead (by omega) (by omega) (lead?_two (n / 64) (by omega) (by omega)),
        decodeFrom_last (by omega) (by omega) (by omega), show n / 64 * 64 + n % 64 = n by omega,
        hc]
    · split
      · next h =>
        simp only [List.cons_append, List.nil_append]
        rw [decodeFrom_lead (by omega) (by omega) (lead?_three (n / 4096) (by omega)),
          decodeFrom_more (by split <;> omega) (by split <;> omega) (by omega) (by omega),
          decodeFrom_last (by omega) (by omega) (by omega),
          show (n / 4096 * 64 + n / 64 % 64) * 64 + n % 64 = n by omega, hc]
      · simp only [List.cons_append, List.nil_append]
        rw [decodeFrom_lead (by omega) (by omega) (lead?_four (n / 262144) (by omega)),
          decodeFrom_more (by split <;> omega) (by split <;> omega) (by omega) (by omega),
          decodeFrom_more (by omega) (by omega) (by omega) (by omega),
          decodeFrom_last (by omega) (by omega) (by omega),
          show ((n / 262144 * 64 + n / 4096 % 64) * 64 + n / 64 % 64) * 64 + n % 64 = n by omega,
          hc]

/-- Every text is read back from its bytes. -/
theorem decode_encode (text : List Char) : decode (encode text) = text := by
  have go : ∀ rest, decodeFrom none (encode text ++ rest) = text ++ decodeFrom none rest := by
    intro rest
    induction text with
    | nil => rfl
    | cons c cs ih =>
      rw [encode, List.flatMap_cons, List.append_assoc, decodeFrom_encodeChar, ← encode, ih]
      rfl
  have := go []
  rwa [List.append_nil, show decodeFrom none [] = [] from rfl, List.append_nil] at this

end LifecycleQuery.Text.Utf8

namespace LifecycleQuery.Text

/-! ## Sizes -/

/-- How many bytes the text takes. -/
def byteSize : List Char → Nat
  | [] => 0
  | c :: rest => c.utf8Size + byteSize rest

/-- Where `rest`, an end of `source`, begins in it, in bytes. -/
def offset (source rest : List Char) : Nat := byteSize source - byteSize rest

@[simp] theorem byteSize_nil : byteSize [] = 0 := rfl

@[simp] theorem byteSize_cons (c : Char) (text : List Char) :
    byteSize (c :: text) = c.utf8Size + byteSize text := rfl

@[simp] theorem byteSize_append (a b : List Char) :
    byteSize (a ++ b) = byteSize a + byteSize b := by
  induction a with
  | nil => simp
  | cons c rest ih => simp [ih, Nat.add_assoc]

@[simp] theorem offset_append (a b : List Char) : offset (a ++ b) b = byteSize a := by
  simp [offset]

/-- The bytes are those of the text in memory, which is UTF-8 too. -/
theorem utf8ByteSize_ofList (text : List Char) :
    (String.ofList text).utf8ByteSize = byteSize text := by
  induction text with
  | nil => rfl
  | cons c rest ih =>
    rw [String.ofList_cons, String.utf8ByteSize_append, String.utf8ByteSize_singleton, ih, byteSize]

theorem utf8ByteSize_eq (text : String) : text.utf8ByteSize = byteSize text.toList := by
  rw [← utf8ByteSize_ofList, String.ofList_toList]

end LifecycleQuery.Text

import LifecycleQuery.Text.Hex
import LifecycleQuery.Text.Utf8

/-!
# Form-encoded fields

The media type `application/x-www-form-urlencoded`: fields with `&` between them, each a key and a
value with `=` between. A text is written as bytes; letters, digits and `*`, `-`, `.`, `_` stand for
themselves, a space is `+`, and any other byte is `%` with two hex digits.

Reading takes any text. Empty pieces are skipped, a piece without `=` has an empty value, a `%` that
two hex digits do not follow stands for itself, and bytes that are not UTF-8 become replacement
characters.
-/

namespace LifecycleQuery.Form

open Text

/-- A key and its value. -/
abbrev Field := String × String

/-! ## Writing -/

/-- The bytes that stand for themselves. -/
def isKept (c : Char) : Bool := c.isAlphanum || c == '*' || c == '-' || c == '.' || c == '_'

def escapeByte (b : UInt8) : List Char :=
  ['%', hexUpper (b.toNat / 16), hexUpper (b.toNat % 16)]

def encodeChar (c : Char) : List Char :=
  if isKept c then [c]
  else if c = ' ' then ['+']
  else (Utf8.encodeChar c).flatMap escapeByte

def encodeText (text : String) : List Char := text.toList.flatMap encodeChar

def encodeField (f : Field) : List Char := encodeText f.1 ++ '=' :: encodeText f.2

def encode (fields : List Field) : List Char := ['&'].intercalate (fields.map encodeField)

/-! ## Reading -/

/-- The byte that two hex digits spell. -/
def escaped? (c d : Char) : Option UInt8 :=
  match hexValue? c, hexValue? d with
  | some m, some n => some (UInt8.ofNat (16 * m + n))
  | _, _ => none

/-- The bytes that a piece of text stands for. -/
def decodeBytes : List Char → List UInt8
  | [] => []
  | '+' :: rest => 0x20 :: decodeBytes rest
  | '%' :: c :: d :: rest =>
    match escaped? c d with
    | some b => b :: decodeBytes rest
    | none => 0x25 :: decodeBytes (c :: d :: rest)
  | c :: rest => Utf8.encodeChar c ++ decodeBytes rest

def decodeText (text : List Char) : String := String.ofList (Utf8.decode (decodeBytes text))

/-- A piece as key and value, cut at its first `=`. -/
def decodeField (piece : List Char) : Field :=
  (decodeText (piece.takeWhile (· != '=')), decodeText ((piece.dropWhile (· != '=')).drop 1))

/-- The pieces between ampersands, the empty ones left out. -/
def pieces : List Char → List (List Char)
  | [] => []
  | '&' :: rest => pieces rest
  | c :: rest => (c :: rest.takeWhile (· != '&')) :: pieces (rest.dropWhile (· != '&'))
termination_by text => text.length
decreasing_by
  · simp
  · have : (rest.dropWhile (· != '&')).length ≤ rest.length :=
      (List.dropWhile_sublist _).length_le
    simp; omega

def decode (text : List Char) : List Field := (pieces text).map decodeField

example : decode "a%3db=+%E2%82%ac&&c".toList = [("a=b", " €"), ("c", "")] := by decide +kernel

/-! ## Reading what was written -/

theorem decodeBytes_escapeByte (b : UInt8) (rest : List Char) :
    decodeBytes (escapeByte b ++ rest) = b :: decodeBytes rest := by
  have hb : b.toNat < 256 := b.toNat_lt
  have hi := hexValue?_hexUpper (b.toNat / 16) (by omega)
  have lo := hexValue?_hexUpper (b.toNat % 16) (by omega)
  have he : 16 * (b.toNat / 16) + b.toNat % 16 = b.toNat := by omega
  simp [escapeByte, decodeBytes, escaped?, hi, lo, he]

theorem decodeBytes_escapeBytes (bs : List UInt8) (rest : List Char) :
    decodeBytes (bs.flatMap escapeByte ++ rest) = bs ++ decodeBytes rest := by
  induction bs with
  | nil => rfl
  | cons b bs ih => rw [List.flatMap_cons, List.append_assoc, decodeBytes_escapeByte, ih]; rfl

/-- A character other than `+` and `%` stands for its own bytes. -/
theorem decodeBytes_cons {c : Char} (rest : List Char) (hp : c ≠ '+') (he : c ≠ '%') :
    decodeBytes (c :: rest) = Utf8.encodeChar c ++ decodeBytes rest := by
  rw [decodeBytes]
  · exact hp
  · intro _ _ _ h
    exact absurd h he

theorem decodeBytes_encodeChar (c : Char) (rest : List Char) :
    decodeBytes (encodeChar c ++ rest) = Utf8.encodeChar c ++ decodeBytes rest := by
  unfold encodeChar
  split
  · next h =>
    exact decodeBytes_cons rest (fun e => by subst e; exact absurd h (by decide))
      (fun e => by subst e; exact absurd h (by decide))
  · split
    · next h => subst h; rfl
    · exact decodeBytes_escapeBytes _ rest

theorem decodeBytes_encodeText (text rest : List Char) :
    decodeBytes (text.flatMap encodeChar ++ rest) = Utf8.encode text ++ decodeBytes rest := by
  induction text with
  | nil => rfl
  | cons c cs ih =>
    rw [List.flatMap_cons, List.append_assoc, decodeBytes_encodeChar, ih, ← List.append_assoc]
    rfl

/-- A key or a value is read back. -/
theorem decodeText_encodeText (text : String) : decodeText (encodeText text) = text := by
  have h := decodeBytes_encodeText text.toList []
  rw [List.append_nil, decodeBytes, List.append_nil] at h
  rw [decodeText, encodeText, h, Utf8.decode_encode, String.ofList_toList]

end LifecycleQuery.Form

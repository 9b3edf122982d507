/-!
# Byte strings and their text

Values, names and paths are stored as byte strings.  Their text is read as UTF-8:

* `Utf8.scan` — the characters of a byte string, with a gap for every stretch that encodes none.
  A gap is as long as it can be: the longest run that some well-formed character starts with,
  and at least one byte.
* `Utf8.lossy` — the text with every gap shown as U+FFFD, and `Utf8.decode?` — the text of a
  byte string without gaps.
* `Utf8.encode` — the bytes of a text.

Byte strings are compared byte by byte, so a value sorts before its extensions.
-/

namespace XmlStore

/-- A value, name or path: any bytes at all. -/
abbrev Bytes := List UInt8

namespace Utf8

/-- What a first byte announces: how many bytes follow, the bounds of the first of them, and
the bits that the first byte itself contributes. -/
structure Lead where
  following : Nat
  low : UInt8
  high : UInt8
  bits : Nat
  deriving DecidableEq, Repr

/-- Reads a first byte.  The bounds leave out overlong forms, surrogates and everything above
U+10FFFF. -/
def Lead.ofByte? (b : UInt8) : Option Lead :=
  if b < 0x80 then some ⟨0, 0x80, 0xBF, b.toNat⟩
  else if b < 0xC2 then none
  else if b < 0xE0 then some ⟨1, 0x80, 0xBF, b.toNat - 0xC0⟩
  else if b = 0xE0 then some ⟨2, 0xA0, 0xBF, 0⟩
  else if b = 0xED then some ⟨2, 0x80, 0x9F, 0xD⟩
  else if b < 0xF0 then some ⟨2, 0x80, 0xBF, b.toNat - 0xE0⟩
  else if b = 0xF0 then some ⟨3, 0x90, 0xBF, 0⟩
  else if b < 0xF4 then some ⟨3, 0x80, 0xBF, b.toNat - 0xF0⟩
  else if b = 0xF4 then some ⟨3, 0x80, 0x8F, 4⟩
  else none

/-- The bytes at the front of `rest` that continue a character: at most `n`, the first one
within the given bounds and the later ones any continuation byte. -/
def continuation (low high : UInt8) : (n : Nat) → (rest : Bytes) → Bytes
  | 0, _ => []
  | _ + 1, [] => []
  | n + 1, b :: rest =>
    if low ≤ b ∧ b ≤ high then b :: continuation 0x80 0xBF n rest else []

/-- The character with the given leading bits and continuation bytes. -/
def assemble (bits : Nat) (more : Bytes) : Char :=
  Char.ofNat (more.foldl (fun n b => n * 64 + (b.toNat - 0x80)) bits)

/-- The characters of a byte string, `none` for each gap. -/
def scan : Bytes → List (Option Char)
  | [] => []
  | b :: rest =>
    match Lead.ofByte? b with
    | none => none :: scan rest
    | some lead =>
      let more := continuation lead.low lead.high lead.following rest
      let char := if more.length = lead.following then some (assemble lead.bits more) else none
      char :: scan (rest.drop more.length)
  termination_by bytes => bytes.length

/-- The text of a byte string, U+FFFD standing for each gap. -/
def lossy (bytes : Bytes) : String :=
  String.ofList ((scan bytes).map (·.getD '\uFFFD'))

/-- The text of a byte string, if it has no gap. -/
def decode? (bytes : Bytes) : Option String :=
  ((scan bytes).mapM id).map String.ofList

/-- The bytes of a text. -/
def encode (text : String) : Bytes :=
  text.toList.flatMap String.utf8EncodeChar

end Utf8

end XmlStore

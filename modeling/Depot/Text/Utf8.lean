/-!
# Bytes and lines

Texts as bytes in UTF-8, and back. `lineBytes` cuts bytes into lines before anything is decoded, so
that a bad byte spoils its own line only. `decodeLossy` accepts any bytes: each maximal part that no
character starts with becomes one replacement character.
-/

namespace Depot.Text

/-- The bytes between line ends. -/
def lineBytes (bytes : ByteArray) : List (List UInt8) := bytes.data.toList.splitOn 10

/-- The text of bytes that are well-formed UTF-8. -/
def ofUtf8? (bytes : List UInt8) : Option String := String.fromUTF8? ⟨bytes.toArray⟩

/-- Stands for bytes that are no character. -/
def replacement : Char := '\ufffd'

/-- A byte that continues a character. -/
def isContinuation (b : UInt8) : Bool := 0x80 ≤ b && b ≤ 0xbf

/-- May `second` follow the first byte of a character of three bytes? The bounds keep out overlong
forms and surrogates. -/
def followsOf3 (first second : UInt8) : Bool :=
  isContinuation second && (first != 0xe0 || 0xa0 ≤ second) && (first != 0xed || second ≤ 0x9f)

/-- May `second` follow the first byte of a character of four bytes? The bounds keep out overlong
forms and numbers that are no character. -/
def followsOf4 (first second : UInt8) : Bool :=
  isContinuation second && (first != 0xf0 || 0x90 ≤ second) && (first != 0xf4 || second ≤ 0x8f)

/-- The payload of a byte that continues a character. -/
def payload (b : UInt8) : Nat := b.toNat % 64

/-- The characters of any bytes, with a replacement for each maximal part that is none. -/
def decodeLossy : List UInt8 → List Char
  | [] => []
  | b :: rest =>
    if b < 0x80 then Char.ofNat b.toNat :: decodeLossy rest
    else if 0xc2 ≤ b && b ≤ 0xdf then
      match rest with
      | c :: after =>
        if isContinuation c then
          Char.ofNat (b.toNat % 32 * 64 + payload c) :: decodeLossy after
        else replacement :: decodeLossy (c :: after)
      | [] => [replacement]
    else if 0xe0 ≤ b && b ≤ 0xef then
      match rest with
      | c :: after =>
        if followsOf3 b c then
          match after with
          | d :: last =>
            if isContinuation d then
              Char.ofNat ((b.toNat % 16 * 64 + payload c) * 64 + payload d) :: decodeLossy last
            else replacement :: decodeLossy (d :: last)
          | [] => [replacement]
        else replacement :: decodeLossy (c :: after)
      | [] => [replacement]
    else if 0xf0 ≤ b && b ≤ 0xf4 then
      match rest with
      | c :: after =>
        if followsOf4 b c then
          match after with
          | d :: after =>
            if isContinuation d then
              match after with
              | e :: last =>
                if isContinuation e then
                  Char.ofNat (((b.toNat % 8 * 64 + payload c) * 64 + payload d) * 64 + payload e) ::
                    decodeLossy last
                else replacement :: decodeLossy (e :: last)
              | [] => [replacement]
            else replacement :: decodeLossy (d :: after)
          | [] => [replacement]
        else replacement :: decodeLossy (c :: after)
      | [] => [replacement]
    else replacement :: decodeLossy rest

/-- The text of the body of an answer: decoded, without a byte order mark in front. -/
def bodyText (bytes : ByteArray) : String :=
  String.ofList <|
    match decodeLossy bytes.data.toList with
    | '\ufeff' :: rest => rest
    | chars => chars

end Depot.Text

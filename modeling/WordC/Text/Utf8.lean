/-!
# Bytes of a text

Programs see text as bytes. Bytes that are no text are read with a replacement character for each
longest part of a character that was broken off.
-/

namespace WordC.Text.Utf8

abbrev Bytes := List UInt8

def encode (text : String) : Bytes :=
  text.toUTF8.toList

def decode? (bytes : Bytes) : Option String :=
  String.fromUTF8? bytes.toByteArray

/-- The character that stands for broken bytes. -/
def replacement : Char := '\uFFFD'

/-- Reading either stands between two characters or still needs `missing` bytes of one, the next of
which lies between `low` and `high`. -/
inductive Reader where
  | between
  | within (code missing low high : Nat)

/-- Starts a character at a byte. -/
def Reader.start (byte : Nat) : List Char × Reader :=
  if byte < 0x80 then ([Char.ofNat byte], between)
  else if byte < 0xc2 then ([replacement], between)
  else if byte < 0xe0 then ([], within (byte - 0xc0) 1 0x80 0xbf)
  else if byte = 0xe0 then ([], within 0 2 0xa0 0xbf)
  else if byte = 0xed then ([], within 0xd 2 0x80 0x9f)
  else if byte < 0xf0 then ([], within (byte - 0xe0) 2 0x80 0xbf)
  else if byte = 0xf0 then ([], within 0 3 0x90 0xbf)
  else if byte < 0xf4 then ([], within (byte - 0xf0) 3 0x80 0xbf)
  else if byte = 0xf4 then ([], within 4 3 0x80 0x8f)
  else ([replacement], between)

def Reader.feed (reader : Reader) (byte : Nat) : List Char × Reader :=
  match reader with
  | between => start byte
  | within code missing low high =>
      if low ≤ byte ∧ byte ≤ high then
        let code := code * 64 + (byte - 0x80)
        if missing ≤ 1 then ([Char.ofNat code], between)
        else ([], within code (missing - 1) 0x80 0xbf)
      else
        let (chars, reader) := start byte
        (replacement :: chars, reader)

def Reader.finish : Reader → List Char
  | between => []
  | within .. => [replacement]

def decodeFrom (reader : Reader) : Bytes → List Char
  | [] => reader.finish
  | byte :: rest =>
      let (chars, reader) := reader.feed byte.toNat
      chars ++ decodeFrom reader rest

/-- The text of any bytes. -/
def decode (bytes : Bytes) : String :=
  String.ofList (decodeFrom .between bytes)

end WordC.Text.Utf8

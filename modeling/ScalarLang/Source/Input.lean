import ScalarLang.Text.Utf8

/-!
Source text from bytes. Bytes are decoded in blocks, and all three ways to end a line become a line
feed. Where a block cannot be decoded, or the last character is not complete, the input breaks off:
what comes before can still be used.
-/
namespace ScalarLang

/-- The text of an input, and whether it breaks off after that text. -/
structure Input where
  text : List Char
  broken : Bool
deriving DecidableEq, Repr

def unifyLines : List Char → List Char
  | [] => []
  | '\r' :: '\n' :: rest => '\n' :: unifyLines rest
  | c :: rest => (if c = '\r' then '\n' else c) :: unifyLines rest

def blockSize : Nat := 8192

/-- Decodes blocks until one cannot be decoded. -/
def decodeBlocks : Nat → Text.Utf8 → List UInt8 → Input
  | 0, _, _ => ⟨[], false⟩
  | fuel + 1, decoder, bytes =>
    if bytes.isEmpty then ⟨[], decoder.owed != 0⟩
    else
      match decoder.feed (bytes.take blockSize) with
      | none => ⟨[], true⟩
      | some (text, decoder) =>
        let rest := decodeBlocks fuel decoder (bytes.drop blockSize)
        ⟨text ++ rest.text, rest.broken⟩

namespace Input

def ofText (text : List Char) : Input := ⟨text, false⟩

/-- The input in a row of bytes. Where it breaks off after a carriage return, that is still waiting
for a line feed and is not part of the text. -/
def ofBytes (bytes : List UInt8) : Input :=
  let raw := decodeBlocks (bytes.length + 1) .start bytes
  let text :=
    if raw.broken && raw.text.getLast? == some '\r' then raw.text.dropLast else raw.text
  ⟨unifyLines text, raw.broken⟩

end Input
end ScalarLang

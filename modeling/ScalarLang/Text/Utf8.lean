/-!
Decoding UTF-8 byte by byte. A byte that no character can go on with is refused at once, but for
surrogates, of which only the last byte is refused.
-/
namespace ScalarLang.Text

/-- A decoder inside a character: how many bytes it still owes, between which bounds the next one
lies, and the bits so far. Between characters nothing is owed. -/
structure Utf8 where
  owed : Nat
  low : Nat
  high : Nat
  bits : Nat
deriving DecidableEq, Repr

namespace Utf8

def start : Utf8 := ⟨0, 0x80, 0xBF, 0⟩

/-- The decoder after the first byte of a character of several bytes. The bounds of the second byte
leave out long forms and what lies beyond Unicode. -/
def lead? (b : Nat) : Option Utf8 :=
  if 0xC2 ≤ b ∧ b ≤ 0xDF then some ⟨1, 0x80, 0xBF, b % 0x20⟩
  else if b = 0xE0 then some ⟨2, 0xA0, 0xBF, b % 0x10⟩
  else if 0xE1 ≤ b ∧ b ≤ 0xEF then some ⟨2, 0x80, 0xBF, b % 0x10⟩
  else if b = 0xF0 then some ⟨3, 0x90, 0xBF, b % 0x08⟩
  else if 0xF1 ≤ b ∧ b ≤ 0xF3 then some ⟨3, 0x80, 0xBF, b % 0x08⟩
  else if b = 0xF4 then some ⟨3, 0x80, 0x8F, b % 0x08⟩
  else none

/-- The decoder inside a character that still owes `owed` bytes. When a surrogate owes its last, no
byte will do. -/
def inside (owed bits : Nat) : Utf8 :=
  if owed = 1 ∧ 0x360 ≤ bits ∧ bits ≤ 0x37F then ⟨owed, 1, 0, bits⟩ else ⟨owed, 0x80, 0xBF, bits⟩

/-- Takes a byte: the character that it completes, if any, and the decoder after it. -/
def step (d : Utf8) (b : Nat) : Option (Option Char × Utf8) :=
  match d.owed with
  | 0 =>
    if b < 0x80 then some (some (Char.ofNat b), start)
    else (lead? b).map fun after => (none, after)
  | owed + 1 =>
    if d.low ≤ b ∧ b ≤ d.high then
      let bits := d.bits * 0x40 + b % 0x40
      if owed = 0 then some (some (Char.ofNat bits), start)
      else some (none, inside owed bits)
    else none

def feed : Utf8 → List UInt8 → Option (List Char × Utf8)
  | d, [] => some ([], d)
  | d, b :: rest => do
    let (c, d) ← d.step b.toNat
    let (cs, d) ← d.feed rest
    return (c.toList ++ cs, d)

end Utf8
end ScalarLang.Text

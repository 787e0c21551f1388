import PageLang.Text.Basic

/-!
# Digest of a text

The 256-bit secure hash (SHA-256) of the bytes of a text, written in lower-case hexadecimal. Equal
texts have equal digests, so a digest serves as a key for a text.
-/

namespace PageLang.Digest

/-- The eight words that a block is mixed into. -/
structure State where
  a : UInt32
  b : UInt32
  c : UInt32
  d : UInt32
  e : UInt32
  f : UInt32
  g : UInt32
  h : UInt32

/-- The state before the first block. -/
def State.start : State :=
  ⟨0x6a09e667, 0xbb67ae85, 0x3c6ef372, 0xa54ff53a,
   0x510e527f, 0x9b05688c, 0x1f83d9ab, 0x5be0cd19⟩

/-- The words of two states added in pairs. -/
def State.add (s t : State) : State :=
  ⟨s.a + t.a, s.b + t.b, s.c + t.c, s.d + t.d, s.e + t.e, s.f + t.f, s.g + t.g, s.h + t.h⟩

/-- The words of a state in order. -/
def State.words (s : State) : List UInt32 := [s.a, s.b, s.c, s.d, s.e, s.f, s.g, s.h]

/-- The word added in each round. -/
def roundWords : List UInt32 := [
  0x428a2f98, 0x71374491, 0xb5c0fbcf, 0xe9b5dba5, 0x3956c25b, 0x59f111f1, 0x923f82a4,
  0xab1c5ed5, 0xd807aa98, 0x12835b01, 0x243185be, 0x550c7dc3, 0x72be5d74, 0x80deb1fe,
  0x9bdc06a7, 0xc19bf174, 0xe49b69c1, 0xefbe4786, 0x0fc19dc6, 0x240ca1cc, 0x2de92c6f,
  0x4a7484aa, 0x5cb0a9dc, 0x76f988da, 0x983e5152, 0xa831c66d, 0xb00327c8, 0xbf597fc7,
  0xc6e00bf3, 0xd5a79147, 0x06ca6351, 0x14292967, 0x27b70a85, 0x2e1b2138, 0x4d2c6dfc,
  0x53380d13, 0x650a7354, 0x766a0abb, 0x81c2c92e, 0x92722c85, 0xa2bfe8a1, 0xa81a664b,
  0xc24b8b70, 0xc76c51a3, 0xd192e819, 0xd6990624, 0xf40e3585, 0x106aa070, 0x19a4c116,
  0x1e376c08, 0x2748774c, 0x34b0bcb5, 0x391c0cb3, 0x4ed8aa4a, 0x5b9cca4f, 0x682e6ff3,
  0x748f82ee, 0x78a5636f, 0x84c87814, 0x8cc70208, 0x90befffa, 0xa4506ceb, 0xbef9a3f7,
  0xc67178f2]

/-- A word turned right by `n` bits. -/
def turn (x n : UInt32) : UInt32 := (x >>> n) ||| (x <<< (32 - n))

/-- The schedule extended by `n` words. The newest word comes first. -/
def extend : (n : Nat) → List UInt32 → List UInt32
  | 0, ws => ws
  | n + 1, ws =>
    let near := ws.getD 1 0
    let far := ws.getD 14 0
    let w := (turn near 17 ^^^ turn near 19 ^^^ (near >>> 10)) + ws.getD 6 0 +
      (turn far 7 ^^^ turn far 18 ^^^ (far >>> 3)) + ws.getD 15 0
    extend n (w :: ws)

/-- One round, with its constant and its schedule word. -/
def State.round (s : State) (k w : UInt32) : State :=
  let choice := (s.e &&& s.f) ^^^ (~~~s.e &&& s.g)
  let majority := (s.a &&& s.b) ^^^ (s.a &&& s.c) ^^^ (s.b &&& s.c)
  let t := s.h + (turn s.e 6 ^^^ turn s.e 11 ^^^ turn s.e 25) + choice + k + w
  ⟨t + (turn s.a 2 ^^^ turn s.a 13 ^^^ turn s.a 22) + majority,
    s.a, s.b, s.c, s.d + t, s.e, s.f, s.g⟩

/-- A block of sixteen words mixed into the state. -/
def State.mix (s : State) (block : List UInt32) : State :=
  s.add ((roundWords.zip (extend 48 block.reverse).reverse).foldl (fun s kw => s.round kw.1 kw.2) s)

/-- The big-endian words of a text; bytes short of a word are dropped. -/
def words : Text → List UInt32
  | a :: b :: c :: d :: rest =>
    ((a.toUInt32 <<< 24) ||| (b.toUInt32 <<< 16) ||| (c.toUInt32 <<< 8) ||| d.toUInt32) ::
      words rest
  | _ => []

/-- `n` blocks of sixteen words mixed in one after the other. -/
def State.mixAll (s : State) : (n : Nat) → List UInt32 → State
  | 0, _ => s
  | n + 1, ws => (s.mix (ws.take 16)).mixAll n (ws.drop 16)

/-- The text followed by a one bit, zeros and its length in bits, to a multiple of 64 bytes. -/
def padded (t : Text) : Text :=
  t ++ 0x80 :: List.replicate ((119 - t.length % 64) % 64) 0 ++
    [7, 6, 5, 4, 3, 2, 1, 0].map (fun (i : Nat) => UInt8.ofNat ((8 * t.length) >>> (8 * i)))

/-- A hexadecimal digit. -/
def hexDigit (n : Nat) : UInt8 := UInt8.ofNat (if n < 10 then 0x30 + n else 0x57 + n)

/-- The eight hexadecimal digits of a word. -/
def hexWord (w : UInt32) : Text :=
  [7, 6, 5, 4, 3, 2, 1, 0].map (fun (i : Nat) => hexDigit ((w.toNat >>> (4 * i)) % 16))

end PageLang.Digest

namespace PageLang.Text

/-- The SHA-256 digest of a text in lower-case hexadecimal. -/
def digest (t : Text) : Text :=
  let message := Digest.padded t
  (Digest.State.start.mixAll (message.length / 64) (Digest.words message)).words.flatMap
    Digest.hexWord

end PageLang.Text

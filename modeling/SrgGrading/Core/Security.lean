import SrgGrading.Core.Text

/-!
# Digests

`Sha256` is the hash function the digests are made with, as a parameter: the
development uses of it only that its values have 256 bits.  Where a result
needs more, it says which inputs must not collide.  `Sha256.standard` is the
function itself.
-/

namespace Grading

/-- SHA-256. -/
class Sha256 where
  sum : List UInt8 → BitVec 256

variable [Sha256]

/-- `security::digest`: the hash in hexadecimal. -/
def digest (bytes : List UInt8) : String := String.ofList (Text.hex 64 (Sha256.sum bytes).toNat)

/-- No two different members of `inputs` have the same hash. -/
def CollisionFree (inputs : List UInt8 → Prop) : Prop :=
  ∀ a b, inputs a → inputs b → Sha256.sum a = Sha256.sum b → a = b

/-- **A digest is 64 hexadecimal digits.** -/
theorem validHex_digest (bytes : List UInt8) : Text.validHex (digest bytes) 64 = true :=
  Text.validHex_hex 64 _

/-- Digests differ where the hashes do. -/
theorem sum_eq_of_digest_eq {a b : List UInt8} (h : digest a = digest b) :
    Sha256.sum a = Sha256.sum b := by
  have hw : (2 : Nat) ^ 256 = 16 ^ 64 := by decide
  have ha : (Sha256.sum a).toNat < 16 ^ 64 := hw ▸ (Sha256.sum a).isLt
  have hb : (Sha256.sum b).toNat < 16 ^ 64 := hw ▸ (Sha256.sum b).isLt
  exact BitVec.eq_of_toNat_eq (Text.hex_inj ha hb (String.ofList_injective h))

theorem CollisionFree.eq {inputs : List UInt8 → Prop} (hc : CollisionFree inputs)
    {a b : List UInt8} (ha : inputs a) (hb : inputs b) (h : digest a = digest b) : a = b :=
  hc a b ha hb (sum_eq_of_digest_eq h)

/-! ### The standard function -/

namespace Sha256

/-- The round constants. -/
def roundConstants : List Nat :=
  [0x428a2f98, 0x71374491, 0xb5c0fbcf, 0xe9b5dba5, 0x3956c25b, 0x59f111f1, 0x923f82a4, 0xab1c5ed5,
   0xd807aa98, 0x12835b01, 0x243185be, 0x550c7dc3, 0x72be5d74, 0x80deb1fe, 0x9bdc06a7, 0xc19bf174,
   0xe49b69c1, 0xefbe4786, 0x0fc19dc6, 0x240ca1cc, 0x2de92c6f, 0x4a7484aa, 0x5cb0a9dc, 0x76f988da,
   0x983e5152, 0xa831c66d, 0xb00327c8, 0xbf597fc7, 0xc6e00bf3, 0xd5a79147, 0x06ca6351, 0x14292967,
   0x27b70a85, 0x2e1b2138, 0x4d2c6dfc, 0x53380d13, 0x650a7354, 0x766a0abb, 0x81c2c92e, 0x92722c85,
   0xa2bfe8a1, 0xa81a664b, 0xc24b8b70, 0xc76c51a3, 0xd192e819, 0xd6990624, 0xf40e3585, 0x106aa070,
   0x19a4c116, 0x1e376c08, 0x2748774c, 0x34b0bcb5, 0x391c0cb3, 0x4ed8aa4a, 0x5b9cca4f, 0x682e6ff3,
   0x748f82ee, 0x78a5636f, 0x84c87814, 0x8cc70208, 0x90befffa, 0xa4506ceb, 0xbef9a3f7, 0xc67178f2]

def rotr (n x : Nat) : Nat := (x >>> n ||| x <<< (32 - n)) % 2 ^ 32

def bigSigma0 (x : Nat) : Nat := rotr 2 x ^^^ rotr 13 x ^^^ rotr 22 x
def bigSigma1 (x : Nat) : Nat := rotr 6 x ^^^ rotr 11 x ^^^ rotr 25 x
def smallSigma0 (x : Nat) : Nat := rotr 7 x ^^^ rotr 18 x ^^^ x >>> 3
def smallSigma1 (x : Nat) : Nat := rotr 17 x ^^^ rotr 19 x ^^^ x >>> 10

/-- The eight working variables. -/
structure Working where
  (a b c d e f g h : Nat)

def Working.start : Working :=
  ⟨0x6a09e667, 0xbb67ae85, 0x3c6ef372, 0xa54ff53a, 0x510e527f, 0x9b05688c, 0x1f83d9ab, 0x5be0cd19⟩

def Working.round (v : Working) (k w : Nat) : Working :=
  let choice := (v.e &&& v.f) ^^^ ((v.e ^^^ (2 ^ 32 - 1)) &&& v.g)
  let majority := (v.a &&& v.b) ^^^ (v.a &&& v.c) ^^^ (v.b &&& v.c)
  let t1 := v.h + bigSigma1 v.e + choice + k + w
  let t2 := bigSigma0 v.a + majority
  ⟨(t1 + t2) % 2 ^ 32, v.a, v.b, v.c, (v.d + t1) % 2 ^ 32, v.e, v.f, v.g⟩

def Working.add (v w : Working) : Working :=
  ⟨(v.a + w.a) % 2 ^ 32, (v.b + w.b) % 2 ^ 32, (v.c + w.c) % 2 ^ 32, (v.d + w.d) % 2 ^ 32,
   (v.e + w.e) % 2 ^ 32, (v.f + w.f) % 2 ^ 32, (v.g + w.g) % 2 ^ 32, (v.h + w.h) % 2 ^ 32⟩

/-- `n` more words of the message schedule, the newest first. -/
def extend : Nat → List Nat → List Nat
  | 0, ws => ws
  | n + 1, ws =>
    extend n ((smallSigma1 (ws.getD 1 0) + ws.getD 6 0 + smallSigma0 (ws.getD 14 0)
      + ws.getD 15 0) % 2 ^ 32 :: ws)

def bigEndian (bytes : List UInt8) : Nat := bytes.foldl (fun n b => n * 256 + b.toNat) 0

/-- The bytes of a message as words of four bytes. -/
def words : List UInt8 → List Nat
  | a :: b :: c :: d :: rest => bigEndian [a, b, c, d] :: words rest
  | _ => []

def compress (v : Working) (block : List Nat) : Working :=
  let schedule := (extend 48 block.reverse).reverse
  v.add ((roundConstants.zip schedule).foldl (fun v (k, w) => v.round k w) v)

/-- The message with its padding and length. -/
def padded (bytes : List UInt8) : List UInt8 :=
  bytes ++ 0x80 :: List.replicate ((119 - bytes.length % 64) % 64) 0
    ++ (List.range 8).reverse.map fun i => UInt8.ofNat (bytes.length * 8 / 256 ^ i)

/-- The blocks of a message, at most `n` of them. -/
def blocks : Nat → List Nat → List (List Nat)
  | 0, _ => []
  | _, [] => []
  | n + 1, ws => ws.take 16 :: blocks n (ws.drop 16)

/-- SHA-256 as FIPS 180-4 defines it. -/
@[reducible] def standard : Sha256 where
  sum bytes :=
    let ws := words (padded bytes)
    let v := (blocks ws.length ws).foldl compress .start
    BitVec.ofNat 256 ([v.a, v.b, v.c, v.d, v.e, v.f, v.g, v.h].foldl
      (fun n w => n * 2 ^ 32 + w) 0)

end Sha256

end Grading

import Mathlib.Algebra.Ring.Nat
import Mathlib.Data.List.Basic

/-! SHA-256 over a list of bytes, words being naturals below `2 ^ 32`. -/
namespace Mic3.Sha256

/-- Fractional parts of the cube roots of the first 64 primes. -/
def roundConstants : List ℕ := [
  0x428a2f98, 0x71374491, 0xb5c0fbcf, 0xe9b5dba5, 0x3956c25b, 0x59f111f1, 0x923f82a4, 0xab1c5ed5,
  0xd807aa98, 0x12835b01, 0x243185be, 0x550c7dc3, 0x72be5d74, 0x80deb1fe, 0x9bdc06a7, 0xc19bf174,
  0xe49b69c1, 0xefbe4786, 0x0fc19dc6, 0x240ca1cc, 0x2de92c6f, 0x4a7484aa, 0x5cb0a9dc, 0x76f988da,
  0x983e5152, 0xa831c66d, 0xb00327c8, 0xbf597fc7, 0xc6e00bf3, 0xd5a79147, 0x06ca6351, 0x14292967,
  0x27b70a85, 0x2e1b2138, 0x4d2c6dfc, 0x53380d13, 0x650a7354, 0x766a0abb, 0x81c2c92e, 0x92722c85,
  0xa2bfe8a1, 0xa81a664b, 0xc24b8b70, 0xc76c51a3, 0xd192e819, 0xd6990624, 0xf40e3585, 0x106aa070,
  0x19a4c116, 0x1e376c08, 0x2748774c, 0x34b0bcb5, 0x391c0cb3, 0x4ed8aa4a, 0x5b9cca4f, 0x682e6ff3,
  0x748f82ee, 0x78a5636f, 0x84c87814, 0x8cc70208, 0x90befffa, 0xa4506ceb, 0xbef9a3f7, 0xc67178f2]

/-- Fractional parts of the square roots of the first 8 primes. -/
def initialHash : List ℕ := [
  0x6a09e667, 0xbb67ae85, 0x3c6ef372, 0xa54ff53a, 0x510e527f, 0x9b05688c, 0x1f83d9ab, 0x5be0cd19]

def add (a b : ℕ) : ℕ := (a + b) % 2 ^ 32
def rotr (k x : ℕ) : ℕ := (x >>> k ||| x <<< (32 - k)) % 2 ^ 32

/-- The last bit of the message, then zeros up to a block, then its length in bits. -/
def pad (message : List ℕ) : List ℕ :=
  let n := message.length
  message ++ 0x80 :: List.replicate ((119 - n % 64) % 64) 0 ++
    (List.range 8).map fun i => (8 * n) >>> (8 * (7 - i)) % 256

def words : List ℕ → List ℕ
  | a :: b :: c :: d :: rest => (((a * 256 + b) * 256 + c) * 256 + d) :: words rest
  | _ => []

/-- The next schedule word from the ones before it, latest first. -/
def nextWord (w : List ℕ) : ℕ :=
  let s0 := let x := w.getD 14 0; rotr 7 x ^^^ rotr 18 x ^^^ x >>> 3
  let s1 := let x := w.getD 1 0; rotr 17 x ^^^ rotr 19 x ^^^ x >>> 10
  add (add (w.getD 15 0) s0) (add (w.getD 6 0) s1)

def schedule : ℕ → List ℕ → List ℕ
  | 0, w => w.reverse
  | n + 1, w => schedule n (nextWord w :: w)

def round (h : List ℕ) (kw : ℕ × ℕ) : List ℕ :=
  match h with
  | [a, b, c, d, e, f, g, h] =>
    let s1 := rotr 6 e ^^^ rotr 11 e ^^^ rotr 25 e
    let ch := (e &&& f) ^^^ ((2 ^ 32 - 1 - e) &&& g)
    let t1 := add (add (add h s1) ch) (add kw.1 kw.2)
    let s0 := rotr 2 a ^^^ rotr 13 a ^^^ rotr 22 a
    let maj := (a &&& b) ^^^ (a &&& c) ^^^ (b &&& c)
    [add t1 (add s0 maj), a, b, c, add d t1, e, f, g]
  | h => h

def compress (h block : List ℕ) : List ℕ :=
  let w := schedule 48 (words block).reverse
  List.zipWith add h ((roundConstants.zip w).foldl round h)

def blocks (bytes : List ℕ) : List (List ℕ) :=
  (List.range (bytes.length / 64)).map fun i => (bytes.drop (64 * i)).take 64

def digest (message : List ℕ) : List ℕ := (blocks (pad message)).foldl compress initialHash

end Mic3.Sha256

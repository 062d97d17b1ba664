import MoteBroker.Lib.ByteReader

/-!
SHA-1 and base 64, as programs on lists of bytes.
-/

namespace Sha1

open ByteReader

/-- The message with a bit, zeros up to a multiple of 64 bytes, and its length in bits. -/
def pad (message : List UInt8) : List UInt8 :=
  message ++ 128 :: List.replicate ((119 - message.length % 64) % 64) 0 ++
    toBE 8 (8 * message.length)

/-- Words of four bytes. -/
def words : List UInt8 → List (BitVec 32)
  | a :: b :: c :: d :: bytes =>
    BitVec.ofNat 32 (((a.toNat * 256 + b.toNat) * 256 + c.toNat) * 256 + d.toNat) :: words bytes
  | _ => []

/-- More words of the schedule, the last one first. -/
def extend : ℕ → List (BitVec 32) → List (BitVec 32)
  | 0, ws => ws
  | n + 1, ws =>
    let w := ws.getD 2 0 ^^^ ws.getD 7 0 ^^^ ws.getD 13 0 ^^^ ws.getD 15 0
    extend n (w.rotateLeft 1 :: ws)

structure State where
  a : BitVec 32
  b : BitVec 32
  c : BitVec 32
  d : BitVec 32
  e : BitVec 32

def start : State := ⟨0x67452301, 0xEFCDAB89, 0x98BADCFE, 0x10325476, 0xC3D2E1F0⟩

/-- The mixing function and the constant of a round. -/
def mix (t : ℕ) (b c d : BitVec 32) : BitVec 32 :=
  if t < 20 then (b &&& c ||| ~~~b &&& d) + 0x5A827999
  else if t < 40 then (b ^^^ c ^^^ d) + 0x6ED9EBA1
  else if t < 60 then (b &&& c ||| b &&& d ||| c &&& d) + 0x8F1BBCDC
  else (b ^^^ c ^^^ d) + 0xCA62C1D6

def rounds : ℕ → List (BitVec 32) → State → State
  | _, [], s => s
  | t, w :: ws, s =>
    let a := s.a.rotateLeft 5 + mix t s.b s.c s.d + s.e + w
    rounds (t + 1) ws ⟨a, s.a, s.b.rotateLeft 30, s.c, s.d⟩

def block (s : State) (ws : List (BitVec 32)) : State :=
  let r := rounds 0 (extend 64 ws.reverse).reverse s
  ⟨s.a + r.a, s.b + r.b, s.c + r.c, s.d + r.d, s.e + r.e⟩

def blocks : ℕ → State → List (BitVec 32) → State
  | 0, s, _ => s
  | n + 1, s, ws => blocks n (block s (ws.take 16)) (ws.drop 16)

def sha1 (message : List UInt8) : List UInt8 :=
  let ws := words (pad message)
  let s := blocks (ws.length / 16) start ws
  [s.a, s.b, s.c, s.d, s.e].flatMap fun w => toBE 4 w.toNat

def alphabet : List Char :=
  "ABCDEFGHIJKLMNOPQRSTUVWXYZabcdefghijklmnopqrstuvwxyz0123456789+/".toList

def digit (n : ℕ) : Char := alphabet.getD (n % 64) '='

def b64encode : List UInt8 → List Char
  | [] => []
  | [a] => [digit (a.toNat / 4), digit (a.toNat * 16), '=', '=']
  | [a, b] =>
    [digit (a.toNat / 4), digit (a.toNat * 16 + b.toNat / 16), digit (b.toNat * 4), '=']
  | a :: b :: c :: bytes =>
    digit (a.toNat / 4) :: digit (a.toNat * 16 + b.toNat / 16) ::
      digit (b.toNat * 4 + c.toNat / 64) :: digit c.toNat :: b64encode bytes

example : b64encode (sha1 [97, 98, 99]) = "qZk+NkcGgWq6PiVxeFDCbJzQ2J0=".toList := by decide +kernel

end Sha1

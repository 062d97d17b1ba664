import MoteBroker.Lib.ByteReader
import MoteBroker.Topics

/-!
`ReaderWriter`: integers, strings, bytes, headers and packet lengths on a byte stream, and the
bytes from which they are read.
-/

namespace MoteBroker.Streams

open ByteReader MoteBroker.Topics

abbrev Stream := Reader Exc

/-- `self.read(n)`: a connection that ends before is an error. -/
def read (n : ℕ) : Stream Bytes := take .connectionError n

/-! ### Reading -/

/-- `repr` of a byte in bytes that are written between `quote`s. -/
def reprByte (quote : Char) (b : UInt8) : Str :=
  let c := Char.ofNat b.toNat
  if c = quote ∨ c = '\\' then ['\\', c]
  else if c = '\t' then ['\\', 't']
  else if c = '\n' then ['\\', 'n']
  else if c = '\r' then ['\\', 'r']
  else if b < 0x20 ∨ 0x7f ≤ b then
    ['\\', 'x', Nat.digitChar (b.toNat / 16), Nat.digitChar (b.toNat % 16)]
  else [c]

/-- `str(byte_str)`. -/
def reprBytes (bs : Bytes) : Str :=
  let quote := if 0x27 ∈ bs ∧ 0x22 ∉ bs then '"' else '\''
  'b' :: quote :: (bs.flatMap (reprByte quote) ++ [quote])

def decodeStr : Stream (Str × ℕ) := do
  let length := ofBE (← read 2)
  if length ≠ 0 then
    let byte_str ← read length
    match Utf8.decode byte_str with
    | some s => return (s, length + 2)
    | none => return (reprBytes byte_str, length + 2)
  else return ([], 2)

def readInt (size : ℕ) : Stream ℕ := do return ofBE (← read size)

def decodeBytes : Stream (Bytes × ℕ) := do
  let length := ofBE (← read 2)
  let data ← read length
  return (data, 2 + length)

/-- The loop of `decode_packet_length`. Four turns are enough: the fourth multiplier is the
last that passes the check. -/
def lengthLoop : ℕ → ℕ → ℕ → Stream ℕ
  | 0, _, _ => throw .noReturn
  | turns + 1, multiplier, value => do
    let int_byte := ofBE (← read 1)
    let value := value + (int_byte &&& 0x7f) * multiplier
    if int_byte &&& 0x80 = 0 then return value
    else if multiplier * 128 > 128 * 128 * 128 then throw .ioError
    else lengthLoop turns (multiplier * 128) value

def decodePacketLength : Stream ℕ := lengthLoop 4 1 0

def decodeHeader : Stream (ℕ × ℕ) := do
  let int1 := ofBE (← read 1)
  return ((int1 &&& 0xf0) >>> 4, int1 &&& 0x0f)

/-! ### Writing -/

/-- `pack("!B", value)` and `pack("!H", value)`. -/
def pack (size value : ℕ) : Except Exc Bytes :=
  if value < 256 ^ size then .ok (toBE size value) else .error .structError

/-- The loop of `get_header_bytes`. -/
def lengthBytes (length : ℕ) : Bytes :=
  if length / 0x80 > 0 then UInt8.ofNat (length % 0x80 ||| 0x80) :: lengthBytes (length / 0x80)
  else [UInt8.ofNat (length % 0x80)]
decreasing_by omega

/-! ### What is written is read -/

lemma reads_read (bs : Bytes) : Reads (read bs.length) bs bs := reads_take _ bs

lemma reads_readInt {size n : ℕ} (h : n < 256 ^ size) :
    Reads (readInt size) (toBE size n) n := by
  have hread := reads_read (toBE size n)
  rw [length_toBE] at hread
  have := hread.map ofBE
  rwa [ofBE_toBE h] at this

lemma reads_byte {n : ℕ} (h : n < 256) : Reads (read 1) [UInt8.ofNat n] [UInt8.ofNat n] ∧
    ofBE [UInt8.ofNat n] = n := by
  refine ⟨reads_read [UInt8.ofNat n], ?_⟩
  have hb : (UInt8.ofNat n).toNat = n := by rw [UInt8.toNat_ofNat']; omega
  simp [ofBE, hb]

/-- The seven low bits of a byte and its highest bit. -/
lemma byte_bits : ∀ n < 0x80, n &&& 0x7f = n ∧ n &&& 0x80 = 0 ∧ n ||| 0x80 = n + 0x80 ∧
    (n + 0x80) &&& 0x7f = n ∧ (n + 0x80) &&& 0x80 ≠ 0 := by decide

/-- The bytes that stand for a length, at most so many: seven bits in each, the lowest first, and
the highest bit set in all but the last. -/
inductive LengthImage : ℕ → ℕ → Bytes → Prop
  | last {k n : ℕ} (h : n < 0x80) : LengthImage (k + 1) n [UInt8.ofNat n]
  | more {k n low : ℕ} {bs : Bytes} (hlow : low < 0x80) (h : LengthImage k n bs) :
    LengthImage (k + 1) (low + 0x80 * n) (UInt8.ofNat (low + 0x80) :: bs)

lemma LengthImage.pos {k n : ℕ} {bs : Bytes} (h : LengthImage k n bs) : 0 < k := by
  cases h <;> exact Nat.succ_pos _

/-- The bytes that are written for a length below `128 ^ k`. -/
lemma lengthImage_lengthBytes {k n : ℕ} (hk : 0 < k) (hn : n < 128 ^ k) :
    LengthImage k n (lengthBytes n) := by
  induction k generalizing n with
  | zero => omega
  | succ k ih =>
    have hlt : n % 0x80 < 0x80 := Nat.mod_lt _ (by norm_num)
    unfold lengthBytes
    by_cases hdiv : n / 0x80 > 0
    · obtain ⟨-, -, hor, -⟩ := byte_bits (n % 0x80) hlt
      have hk : 0 < k := by
        rcases Nat.eq_zero_or_pos k with rfl | hk
        · omega
        · exact hk
      have hmore := LengthImage.more hlt (@ih (n / 0x80) hk (by rw [pow_succ] at hn; omega))
      rw [Nat.mod_add_div] at hmore
      rwa [if_pos hdiv, hor]
    · have hn' : n % 0x80 = n := by omega
      rw [if_neg hdiv, hn']
      exact .last (by omega)

/-- The check on the multiplier passes as long as another turn is left. -/
lemma multiplier_le {k multiplier : ℕ} (hk : 0 < k) (hm : multiplier * 128 ^ (k + 1) = 128 ^ 4) :
    multiplier * 128 * 128 ^ k = 128 ^ 4 ∧ ¬multiplier * 128 > 128 * 128 * 128 := by
  have hmul : multiplier * 128 * 128 ^ k = 128 ^ 4 := by
    rw [← hm, pow_succ]; ring
  have hpow : 128 ^ 1 ≤ 128 ^ k := Nat.pow_le_pow_right (by norm_num) hk
  have := Nat.mul_le_mul_left (multiplier * 128) hpow
  exact ⟨hmul, by omega⟩

/-- One turn of the length loop for each byte. -/
lemma LengthImage.reads {k n : ℕ} {bs : Bytes} (h : LengthImage k n bs) {multiplier : ℕ}
    (hm : multiplier * 128 ^ k = 128 ^ 4) (value : ℕ) :
    Reads (lengthLoop k multiplier value) bs (value + n * multiplier) := by
  induction h generalizing multiplier value with
  | @last k n hn =>
    obtain ⟨hlow, hclear, -⟩ := byte_bits n hn
    obtain ⟨hread, hval⟩ := reads_byte (n := n) (by omega)
    unfold lengthLoop
    refine hread.bind_nil ?_
    simp only [hval, hlow, hclear, if_true]
    exact Reads.pure _
  | @more k n low bs hlow h ih =>
    obtain ⟨-, -, -, hlow', hset⟩ := byte_bits low hlow
    obtain ⟨hread, hval⟩ := reads_byte (n := low + 0x80) (by omega)
    obtain ⟨hmul, hle⟩ := multiplier_le h.pos hm
    have hsum : value + (low + 0x80 * n) * multiplier =
        value + low * multiplier + n * (multiplier * 128) := by ring
    unfold lengthLoop
    refine hread.bind ?_
    simp only [hval, hlow', if_neg hset, if_neg hle]
    rw [hsum]
    exact ih hmul _

/-- A packet length is read from at most four bytes that stand for it. -/
lemma LengthImage.reads_decodePacketLength {n : ℕ} {bs : Bytes} (h : LengthImage 4 n bs) :
    Reads decodePacketLength bs n := by
  have hread := @LengthImage.reads _ _ _ h 1 (by norm_num) 0
  rwa [Nat.zero_add, Nat.mul_one] at hread

/-- And so from the bytes that are written for it. -/
theorem reads_decodePacketLength {n : ℕ} (h : n < 2 ^ 28) :
    Reads decodePacketLength (lengthBytes n) n :=
  (lengthImage_lengthBytes (by omega) (by omega)).reads_decodePacketLength

/-- The text of bytes, or their `repr` if they are not UTF-8. -/
def text (bs : Bytes) : Str := (Utf8.decode bs).getD (reprBytes bs)

/-- Whatever the bytes after the length, they are read. -/
lemma reads_text {bs : Bytes} (h : bs.length < 256 ^ 2) :
    Reads decodeStr (toBE 2 bs.length ++ bs) (text bs, bs.length + 2) := by
  have hlen := reads_read (toBE 2 bs.length)
  rw [length_toBE] at hlen
  refine hlen.bind ?_
  rw [ofBE_toBE h]
  by_cases h0 : bs.length = 0
  · rw [List.eq_nil_of_length_eq_zero h0]
    exact Reads.pure _
  · simp only [ne_eq, h0, not_false_eq_true, if_true]
    refine (reads_read bs).bind_nil ?_
    unfold text
    cases Utf8.decode bs with
    | some s => exact Reads.pure _
    | none => exact Reads.pure _

/-- A string is read from its length and its bytes. -/
lemma reads_decodeStr {s : Str} (h : (Utf8.encode s).length < 256 ^ 2) :
    Reads decodeStr (toBE 2 (Utf8.encode s).length ++ Utf8.encode s)
      (s, (Utf8.encode s).length + 2) := by
  have hread := reads_text h
  rwa [text, Utf8.decode_encode] at hread

lemma header_bits : ∀ code < 16, ∀ flags < 16, (code <<< 4 ||| flags) < 256 ∧
    ((code <<< 4 ||| flags) &&& 0xf0) >>> 4 = code ∧ (code <<< 4 ||| flags) &&& 0x0f = flags := by
  decide

lemma reads_decodeHeader {code flags : ℕ} (hc : code < 16) (hf : flags < 16) :
    Reads decodeHeader [UInt8.ofNat (code <<< 4 ||| flags)] (code, flags) := by
  obtain ⟨hlt, hcode, hflags⟩ := header_bits code hc flags hf
  obtain ⟨hread, hval⟩ := reads_byte hlt
  refine hread.bind_nil ?_
  simp only [hval, hcode, hflags]
  exact Reads.pure _

end MoteBroker.Streams

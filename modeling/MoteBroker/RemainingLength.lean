import MoteBroker.Packets

/-!
The remaining length of a packet, which `get_header_bytes` writes and `decode_packet_length` reads:
how many bytes stand for it, and what is read from any bytes at all.
-/

namespace MoteBroker.RemainingLength

open ByteReader MoteBroker.Topics MoteBroker.Streams MoteBroker.PacketTypes MoteBroker.Packets

/-! ### Lengths that are read -/

/-- Each turn of the loop takes a byte and adds its seven bits. -/
lemma lengthLoop_ok {turns multiplier value n : ℕ} {bs rest : Bytes}
    (h : (lengthLoop turns multiplier value).run bs = .ok (n, rest)) :
    ∃ bytes, bs = bytes ++ rest ∧ 0 < bytes.length ∧ bytes.length ≤ turns ∧
      n + multiplier ≤ value + multiplier * 128 ^ bytes.length := by
  induction turns generalizing multiplier value bs with
  | zero => cases h
  | succ turns ih =>
    obtain ⟨byte, tail, hread, hnext⟩ := run_bind_ok h
    obtain ⟨hone, rfl⟩ := run_take_ok hread
    have hbits := Nat.mul_le_mul_right multiplier
      (Nat.and_le_right : ofBE byte &&& 0x7f ≤ 0x7f)
    dsimp only at hnext
    split at hnext
    · cases hnext
      refine ⟨byte, rfl, by omega, by omega, ?_⟩
      rw [hone, pow_one]
      omega
    · split at hnext
      · cases hnext
      · obtain ⟨bytes, rfl, hpos, hle, hn⟩ := ih hnext
        have hlength : (byte ++ bytes).length = bytes.length + 1 := by
          rw [List.length_append]
          omega
        have hpow : multiplier * 128 * 128 ^ bytes.length =
            multiplier * 128 ^ (bytes.length + 1) := by ring
        refine ⟨byte ++ bytes, (List.append_assoc _ _ _).symm, by omega, by omega, ?_⟩
        rw [hlength]
        omega

/-- A length has a byte for every seven of its bits, and no more than four. -/
lemma decodePacketLength_ok {n : ℕ} {bs rest : Bytes}
    (h : decodePacketLength.run bs = .ok (n, rest)) :
    ∃ bytes, bs = bytes ++ rest ∧ 0 < bytes.length ∧ bytes.length ≤ 4 ∧
      n < 128 ^ bytes.length := by
  obtain ⟨bytes, hbs, hpos, hle, hn⟩ := lengthLoop_ok h
  exact ⟨bytes, hbs, hpos, hle, by omega⟩

/-- A packet is shorter than `2 ^ 28` bytes. -/
lemma decodePacketLength_lt {n : ℕ} {bs rest : Bytes}
    (h : decodePacketLength.run bs = .ok (n, rest)) : n < 2 ^ 28 := by
  obtain ⟨bytes, -, -, hle, hn⟩ := decodePacketLength_ok h
  calc n < 128 ^ bytes.length := hn
    _ ≤ 128 ^ 4 := Nat.pow_le_pow_right (by norm_num) hle

lemma length_le_of_image {k n : ℕ} {bs : Bytes} (h : LengthImage k n bs) : bs.length ≤ k := by
  induction h with
  | last => exact Nat.succ_le_succ (Nat.zero_le _)
  | more _ _ ih => exact Nat.succ_le_succ ih

/-- No bytes that are read as a length are fewer than the ones that are written for it. -/
lemma length_lengthBytes_le {n : ℕ} {bytes : Bytes} (h : Reads decodePacketLength bytes n) :
    (lengthBytes n).length ≤ bytes.length := by
  obtain ⟨taken, htaken, hpos, -, hn⟩ := decodePacketLength_ok (h [])
  rw [List.append_nil, List.append_nil] at htaken
  subst htaken
  exact length_le_of_image (lengthImage_lengthBytes hpos hn)

/-! ### Any bytes at all -/

/-- How the reading of a length at the front of `bs` ends within `k` bytes, whatever follows them:
with a value, with an `IOError`, or with the `ConnectionError`, which is an `IOError` too, of a
stream that has fewer. -/
inductive EndsWithin (m : Stream ℕ) (k : ℕ) (bs : Bytes) : Prop
  | value (n j : ℕ) (hle : j ≤ k) (hthere : j ≤ bs.length) (h : Reads m (bs.take j) n)
  | invalid (hthere : k ≤ bs.length) (h : ∀ rest, m.run (bs.take k ++ rest) = .error .ioError)
  | ended (hlt : bs.length < k) (h : m.run bs = .error .connectionError)

/-- One turn of the loop. -/
lemma run_lengthLoop_cons (turns multiplier value : ℕ) (b : UInt8) (rest : Bytes) :
    (lengthLoop (turns + 1) multiplier value).run (b :: rest) =
      if b.toNat &&& 0x80 = 0 then .ok (value + (b.toNat &&& 0x7f) * multiplier, rest)
      else if multiplier * 128 > 128 * 128 * 128 then .error .ioError
      else (lengthLoop turns (multiplier * 128) (value + (b.toNat &&& 0x7f) * multiplier)).run
        rest := by
  have hread : (read 1).run (b :: rest) = .ok ([b], rest) := reads_read [b] rest
  have hbyte : ofBE [b] = b.toNat := by simp [ofBE]
  rw [lengthLoop, StateT.run_bind, hread]
  simp only [ok_bind, hbyte]
  split_ifs <;> rfl

/-- The check on the multiplier passes in every turn but the last. -/
lemma endsWithin_lengthLoop {k multiplier : ℕ} (hk : 0 < k) (hm : multiplier * 128 ^ k = 128 ^ 4)
    (value : ℕ) (bs : Bytes) : EndsWithin (lengthLoop k multiplier value) k bs := by
  induction k generalizing multiplier value bs with
  | zero => omega
  | succ k ih =>
    cases bs with
    | nil => exact .ended (Nat.succ_pos k) rfl
    | cons b bs =>
      have hturn := run_lengthLoop_cons k multiplier value b
      by_cases hlast : b.toNat &&& 0x80 = 0
      · refine .value (value + (b.toNat &&& 0x7f) * multiplier) 1 (by omega) (by simp) ?_
        intro rest
        exact (hturn rest).trans (if_pos hlast)
      · simp only [if_neg hlast] at hturn
        rcases Nat.eq_zero_or_pos k with rfl | hpos
        · have hcut : multiplier * 128 > 128 * 128 * 128 := by omega
          refine .invalid (by simp) fun rest => ?_
          exact (hturn rest).trans (if_pos hcut)
        · obtain ⟨hm', hpass⟩ := multiplier_le hpos hm
          simp only [if_neg hpass] at hturn
          cases ih hpos hm' (value + (b.toNat &&& 0x7f) * multiplier) bs with
          | value n j hle hthere h =>
            refine .value n (j + 1) (by omega) (Nat.succ_le_succ hthere) fun rest => ?_
            exact (hturn (bs.take j ++ rest)).trans (h rest)
          | invalid hthere h =>
            refine .invalid (Nat.succ_le_succ hthere) fun rest => ?_
            exact (hturn (bs.take k ++ rest)).trans (h rest)
          | ended hlt h => exact .ended (Nat.succ_lt_succ hlt) ((hturn bs).trans h)

lemma endsWithin_decodePacketLength (bs : Bytes) : EndsWithin decodePacketLength 4 bs :=
  endsWithin_lengthLoop (by norm_num) (by norm_num) 0 bs

/-- **The remaining length round-trips and is bounded**: below `2 ^ 28` it is written in at most
four bytes, as few as stand for it, and read from exactly these, and every reading ends within four
bytes, with a length below `2 ^ 28` or with an `IOError`. -/
theorem remaining_length :
    (∀ (p : Packet) (n : ℕ) (header : Bytes), n < 2 ^ 28 → p.getHeaderBytes n = .ok header →
      ∃ first bytes, header = first :: bytes ∧ Reads decodePacketLength bytes n ∧
        bytes.length ≤ 4 ∧
        ∀ others, Reads decodePacketLength others n → bytes.length ≤ others.length) ∧
    (∀ bs, EndsWithin decodePacketLength 4 bs) ∧
    ∀ bs n rest, decodePacketLength.run bs = .ok (n, rest) → n < 2 ^ 28 := by
  refine ⟨?_, endsWithin_decodePacketLength, fun bs n rest => decodePacketLength_lt⟩
  intro p n header hn hheader
  unfold Packet.getHeaderBytes at hheader
  split at hheader
  · cases hheader
    have himage : LengthImage 4 n (lengthBytes n) := lengthImage_lengthBytes (by omega) (by omega)
    exact ⟨_, lengthBytes n, rfl, reads_decodePacketLength hn, length_le_of_image himage,
      fun others => length_lengthBytes_le⟩
  · cases hheader

/-- The header of a PINGRESP, were there 321 bytes behind it. -/
theorem remaining_length_321 :
    ∃ first bytes, [0xD0, 0xC1, 2] = first :: bytes ∧ Reads decodePacketLength bytes 321 ∧
      bytes.length ≤ 4 ∧
      ∀ others, Reads decodePacketLength others 321 → bytes.length ≤ others.length := by
  have hheader : Packet.getHeaderBytes ⟨.pingResponse, .int 0, 0, fun _ => none⟩ 321 =
      .ok [0xD0, 0xC1, 2] := by
    rw [Packet.getHeaderBytes, lengthBytes, lengthBytes]
    rfl
  exact remaining_length.1 _ 321 _ (by decide) hheader

end MoteBroker.RemainingLength

import MoteBroker.Streams

/-!
Websocket frames: `Frame.recv`, `Frame.bytes`, and the frames that a client can write.
-/

namespace MoteBroker.Frames

open ByteReader MoteBroker.Topics MoteBroker.Streams

def opContinuation : ℕ := 0
def opBytes : ℕ := 2
def opClose : ℕ := 8
def opPing : ℕ := 9
def opPong : ℕ := 10

/-- A frame. A payload `None` is written like an empty one. -/
structure Frame where
  opcode : ℕ
  fin : Bool
  masked : Bool
  payload : Bytes
  deriving DecidableEq, Repr

/-- `unmask`. -/
def unmask (key data : Bytes) : Bytes := data.mapIdx fun i b => b ^^^ key.getD (i % 4) 0

/-- `sock.recv(k)`, on a socket that returns all `k` bytes as long as the stream has so many. -/
def sockRecv (k : ℕ) : Stream Bytes := takeUpTo k

/-- The length of the payload, from the seven bits for it. -/
def recvLength (payload_len : ℕ) : Stream ℕ :=
  if payload_len = 126 then do return ofBE (← sockRecv 2)
  else if payload_len = 127 then do return ofBE (← sockRecv 8)
  else pure payload_len

def recvPayload (masked : Bool) (payload_len : ℕ) : Stream Bytes :=
  if payload_len = 0 then
    if masked then do
      let _ ← sockRecv 4
      return []
    else return []
  else if masked then do
    let data ← sockRecv (payload_len + 4)
    return unmask (data.take 4) (data.drop 4)
  else sockRecv payload_len

/-- `recv`, on such a socket. A header of fewer than two bytes is an `IndexError`, for which a
`ConnectionError` is raised. -/
def recv : Stream Frame := do
  match ← sockRecv 2 with
  | b₀ :: b₁ :: _ =>
    let fin := decide (b₀.toNat &&& 128 = 128)
    let opcode := b₀.toNat &&& 15
    let masked := decide (b₁.toNat &&& 128 = 128)
    let payload_len ← recvLength (b₁.toNat &&& 127)
    let payload ← recvPayload masked payload_len
    return ⟨opcode, fin, masked, payload⟩
  | _ => throw .connectionError

/-- `(payload_len >> (i * 8)) & 255`, for each `i` of the loop. -/
def shifted (payload_len : ℕ) (is : List ℕ) : Bytes :=
  is.map fun i => UInt8.ofNat (payload_len >>> (i * 8) &&& 255)

/-- `bytes`: a frame that the broker writes is not masked. -/
def Frame.bytes (f : Frame) : Bytes :=
  let payload_len := f.payload.length
  UInt8.ofNat ((if f.fin then 1 else 0) <<< 7 ^^^ f.opcode) ::
    ((if payload_len < 126 then [UInt8.ofNat payload_len]
      else if payload_len < 65535 then 126 :: shifted payload_len [1, 0]
      else 127 :: shifted payload_len [6, 5, 4, 3, 2, 1, 0]) ++ f.payload)

/-! ### What clients write -/

/-- In the second byte, or in the two or eight bytes after it. -/
inductive Format
  | short
  | medium
  | long
  deriving DecidableEq, Repr

/-- The first length that the format has no room for. -/
def Format.limit : Format → ℕ
  | .short => 126
  | .medium => 256 ^ 2
  | .long => 256 ^ 8

/-- The seven bits for a length, and the bytes after them. -/
def Format.write : Format → ℕ → ℕ × Bytes
  | .short, n => (n, [])
  | .medium, n => (126, toBE 2 n)
  | .long, n => (127, toBE 8 n)

/-- A frame as a client writes it. -/
structure ClientFrame where
  opcode : ℕ
  fin : Bool
  key : Option Bytes
  format : Format
  payload : Bytes
  opcode_lt : opcode < 16
  key_length : ∀ k ∈ key, k.length = 4
  fits : payload.length < format.limit

/-- The payload, or the key and the payload masked with it. -/
def mask (key : Option Bytes) (payload : Bytes) : Bytes :=
  match key with
  | none => payload
  | some key => key ++ unmask key payload

def ClientFrame.wire (f : ClientFrame) : Bytes :=
  [UInt8.ofNat ((if f.fin then 128 else 0) + f.opcode),
    UInt8.ofNat ((if f.key.isSome then 128 else 0) + (f.format.write f.payload.length).1)] ++
  ((f.format.write f.payload.length).2 ++ mask f.key f.payload)

/-- What the client means. -/
def ClientFrame.frame (f : ClientFrame) : Frame := ⟨f.opcode, f.fin, f.key.isSome, f.payload⟩

/-! ### What is written is read -/

@[simp] lemma length_unmask (key data : Bytes) : (unmask key data).length = data.length :=
  List.length_mapIdx

/-- The key undoes itself. -/
lemma unmask_unmask (key data : Bytes) : unmask key (unmask key data) = data := by
  refine List.ext_getElem (by simp) fun i h₁ h₂ => ?_
  simp only [unmask, List.getElem_mapIdx]
  rw [UInt8.xor_assoc, UInt8.xor_self, UInt8.xor_zero]

/-- The opcode and the highest bit of a first byte. -/
lemma first_bits : ∀ fin : Bool, ∀ n < 16,
    (UInt8.ofNat ((if fin then 128 else 0) + n)).toNat &&& 15 = n ∧
      decide ((UInt8.ofNat ((if fin then 128 else 0) + n)).toNat &&& 128 = 128) = fin := by decide

lemma second_bits : ∀ masked : Bool, ∀ n < 128,
    (UInt8.ofNat ((if masked then 128 else 0) + n)).toNat &&& 127 = n ∧
      decide ((UInt8.ofNat ((if masked then 128 else 0) + n)).toNat &&& 128 = 128) = masked := by
  decide

lemma Format.write_lt {format : Format} {n : ℕ} (h : n < format.limit) :
    (format.write n).1 < 128 := by
  cases format with
  | short => exact lt_trans h (by decide)
  | medium => exact (by decide : 126 < 128)
  | long => exact (by decide : 127 < 128)

lemma reads_sockRecv (bs : Bytes) : Reads (sockRecv bs.length) bs bs := reads_takeUpTo bs

lemma reads_ofBE {size n : ℕ} (h : n < 256 ^ size) :
    Reads (do return ofBE (← sockRecv size)) (toBE size n) n := by
  have hread := reads_sockRecv (toBE size n)
  rw [length_toBE] at hread
  have hmap := hread.map ofBE
  rwa [ofBE_toBE h] at hmap

/-- The length is read in whatever format it was written. -/
lemma reads_recvLength {format : Format} {n : ℕ} (h : n < format.limit) :
    Reads (recvLength (format.write n).1) (format.write n).2 n := by
  cases format with
  | short =>
    have hlt : n < 126 := h
    have hpure : recvLength n = pure n := by
      rw [recvLength, if_neg (by omega), if_neg (by omega)]
    rw [Format.write, hpure]
    exact Reads.pure n
  | medium => exact reads_ofBE h
  | long => exact reads_ofBE h

/-- The payload is read, with the key before it if it is masked. -/
lemma reads_recvPayload (key : Option Bytes) (hkey : ∀ k ∈ key, k.length = 4) (payload : Bytes) :
    Reads (recvPayload key.isSome payload.length) (mask key payload) payload := by
  unfold recvPayload mask
  cases key with
  | none =>
    by_cases hnil : payload.length = 0
    · rw [if_pos hnil, List.eq_nil_of_length_eq_zero hnil]
      exact Reads.pure []
    · rw [if_neg hnil]
      exact reads_sockRecv payload
  | some key =>
    have hlength : key.length = 4 := hkey key rfl
    by_cases hnil : payload.length = 0
    · have hread := reads_sockRecv key
      rw [hlength] at hread
      rw [if_pos hnil, List.eq_nil_of_length_eq_zero hnil]
      exact hread.bind (Reads.pure [])
    · have hread := reads_sockRecv (key ++ unmask key payload)
      rw [List.length_append, hlength, length_unmask, Nat.add_comm] at hread
      have hmap := hread.map fun data => unmask (data.take 4) (data.drop 4)
      rw [List.take_left' hlength, List.drop_left' hlength, unmask_unmask] at hmap
      rw [if_neg hnil]
      exact hmap

/-- **A client's frame is read as it was meant**, masked or not, whatever the format of its length
and whatever follows it. -/
theorem reads_frame (f : ClientFrame) : Reads recv f.wire f.frame := by
  obtain ⟨hopcode, hfin⟩ := first_bits f.fin f.opcode f.opcode_lt
  obtain ⟨hlength, hmasked⟩ := second_bits f.key.isSome _ (Format.write_lt f.fits)
  refine (reads_sockRecv [_, _]).bind ?_
  simp only [hopcode, hfin, hlength, hmasked]
  exact (reads_recvLength f.fits).bind ((reads_recvPayload f.key f.key_length f.payload).map _)

lemma consumes_sockRecv (k : ℕ) : Consumes (sockRecv k) := consumes_takeUpTo k

lemma consumes_recvLength (payload_len : ℕ) : Consumes (recvLength payload_len) := by
  unfold recvLength
  split_ifs
  · exact (consumes_sockRecv 2).bind fun _ => .pure _
  · exact (consumes_sockRecv 8).bind fun _ => .pure _
  · exact .pure _

lemma consumes_recvPayload (masked : Bool) (payload_len : ℕ) :
    Consumes (recvPayload masked payload_len) := by
  unfold recvPayload
  split_ifs
  · exact (consumes_sockRecv 4).bind fun _ => .pure _
  · exact .pure _
  · exact (consumes_sockRecv _).bind fun _ => .pure _
  · exact consumes_sockRecv _

/-- What is left when a header has come. -/
lemma run_recv_cons (b₀ b₁ : UInt8) (bs : Bytes) : recv.run (b₀ :: b₁ :: bs) =
    (do
      let payload_len ← recvLength (b₁.toNat &&& 127)
      let payload ← recvPayload (decide (b₁.toNat &&& 128 = 128)) payload_len
      return (⟨b₀.toNat &&& 15, decide (b₀.toNat &&& 128 = 128),
        decide (b₁.toNat &&& 128 = 128), payload⟩ : Frame) : Stream Frame).run bs := rfl

/-- A frame is at least its header. -/
lemma recv_shorter {bs rest : Bytes} {frame : Frame} (h : recv.run bs = .ok (frame, rest)) :
    rest.length < bs.length := by
  rcases bs with _ | ⟨b₀, _ | ⟨b₁, bs⟩⟩
  · cases h
  · cases h
  · rw [run_recv_cons] at h
    obtain ⟨payload_len, mid, hlength, h⟩ := run_bind_ok h
    obtain ⟨payload, rest', hpayload, h⟩ := run_bind_ok h
    cases h
    have hmid := consumes_recvLength _ bs payload_len mid hlength
    have hrest := consumes_recvPayload _ _ mid payload rest hpayload
    simp only [List.length_cons]
    omega

/-- Only a header that is cut off is refused: what else the stream ends in is read as a frame. -/
lemma recv_error_iff (bs : Bytes) : (∃ e, recv.run bs = .error e) ↔ bs.length < 2 := by
  have hok : ∀ (n : ℕ) (cs : Bytes), ∃ m rest, (recvLength n).run cs = .ok (m, rest) := by
    intro n cs
    unfold recvLength
    split_ifs <;> exact ⟨_, _, rfl⟩
  have hpayload : ∀ (masked : Bool) (n : ℕ) (cs : Bytes),
      ∃ payload rest, (recvPayload masked n).run cs = .ok (payload, rest) := by
    intro masked n cs
    unfold recvPayload
    split_ifs <;> exact ⟨_, _, rfl⟩
  rcases bs with _ | ⟨b₀, _ | ⟨b₁, bs⟩⟩
  · exact iff_of_true ⟨_, rfl⟩ Nat.zero_lt_two
  · exact iff_of_true ⟨_, rfl⟩ Nat.one_lt_two
  · refine iff_of_false ?_ (by simp)
    rintro ⟨e, he⟩
    obtain ⟨m, mid, hm⟩ := hok (b₁.toNat &&& 127) bs
    obtain ⟨payload, rest, hp⟩ := hpayload (decide (b₁.toNat &&& 128 = 128)) m mid
    rw [run_recv_cons, StateT.run_bind, hm, ok_bind, StateT.run_bind, hp] at he
    cases he

/-! ### What the broker writes -/

lemma shifted_two (n : ℕ) : shifted n [1, 0] = toBE 2 n := by
  have hlow : ∀ m : ℕ, m &&& 255 = m % 256 := fun m => Nat.and_two_pow_sub_one_eq_mod m 8
  simp [shifted, toBE, hlow, Nat.shiftRight_eq_div_pow]

lemma first_byte : ∀ fin : Bool, ∀ n < 16,
    (if fin then 1 else 0) <<< 7 ^^^ n = (if fin then 128 else 0) + n := by decide

/-- **The broker's frames are read as they were meant**, as long as their length has a format. -/
theorem reads_bytes {opcode : ℕ} (hop : opcode < 16) (fin : Bool) {payload : Bytes}
    (h : payload.length < 65535) :
    Reads recv (⟨opcode, fin, false, payload⟩ : Frame).bytes ⟨opcode, fin, false, payload⟩ := by
  have hnone : ∀ k ∈ (none : Option Bytes), k.length = 4 := fun k hk => (nomatch hk)
  rw [Frame.bytes, first_byte fin opcode hop]
  by_cases hshort : payload.length < 126
  · rw [if_pos hshort]
    have hread := reads_frame ⟨opcode, fin, none, .short, payload, hop, hnone, hshort⟩
    simpa [ClientFrame.wire, ClientFrame.frame, mask, Format.write] using hread
  · have hmedium : payload.length < 256 ^ 2 := lt_trans h (by decide)
    rw [if_neg hshort, if_pos h, shifted_two]
    exact reads_frame ⟨opcode, fin, none, .medium, payload, hop, hnone, hmedium⟩

/-! ### Lengths that are not read as they were written -/

/-- An unmasked payload is all that is taken for it. -/
lemma run_recvPayload_ok {payload_len : ℕ} {bs rest payload : Bytes}
    (h : (recvPayload false payload_len).run bs = .ok (payload, rest)) :
    bs.length = payload.length + rest.length := by
  unfold recvPayload at h
  by_cases hzero : payload_len = 0
  · rw [if_pos hzero] at h
    cases h
    simp
  · rw [if_neg hzero] at h
    obtain ⟨rfl, rfl⟩ := run_takeUpTo_ok h
    rw [← List.length_append, List.take_append_drop]

/-- The long format is written in seven bytes and read in eight. -/
lemma recv_bytes_long (opcode : ℕ) (fin : Bool) {payload : Bytes} (h : 65535 ≤ payload.length)
    (rest : Bytes) :
    recv.run ((⟨opcode, fin, false, payload⟩ : Frame).bytes ++ rest) ≠
      .ok (⟨opcode, fin, false, payload⟩, rest) := by
  intro hrecv
  have hshort : ¬payload.length < 126 := by omega
  have hmedium : ¬payload.length < 65535 := by omega
  have hbytes : (⟨opcode, fin, false, payload⟩ : Frame).bytes ++ rest =
      UInt8.ofNat ((if fin then 1 else 0) <<< 7 ^^^ opcode) :: 127 ::
        (shifted payload.length [6, 5, 4, 3, 2, 1, 0] ++ payload ++ rest) := by
    rw [Frame.bytes, if_neg hshort, if_neg hmedium]
    rfl
  rw [hbytes, run_recv_cons] at hrecv
  obtain ⟨payload_len, mid, hlength, hrecv⟩ := run_bind_ok hrecv
  obtain ⟨payload', rest', hpayload, hrecv⟩ := run_bind_ok hrecv
  obtain ⟨hframe, hrest⟩ := Prod.mk.inj (Except.ok.inj hrecv)
  obtain ⟨-, -, hmasked, heq⟩ := Frame.mk.inj hframe
  rw [hmasked] at hpayload
  have height : recvLength ((127 : UInt8).toNat &&& 127) = (do return ofBE (← sockRecv 8)) := rfl
  rw [height] at hlength
  obtain ⟨eight, mid', hread, hpure⟩ := run_bind_ok hlength
  cases hpure
  obtain ⟨-, rfl⟩ := run_takeUpTo_ok hread
  have htaken := run_recvPayload_ok hpayload
  rw [heq, hrest] at htaken
  simp only [shifted, List.length_drop, List.length_append, List.length_map, List.length_cons,
    List.length_nil] at htaken
  omega

/-- **A frame is read back as it was written** exactly if its payload is shorter than 65535 bytes,
whatever follows it. -/
theorem recv_bytes_iff {opcode : ℕ} (hop : opcode < 16) (fin : Bool) (payload rest : Bytes) :
    recv.run ((⟨opcode, fin, false, payload⟩ : Frame).bytes ++ rest) =
      .ok (⟨opcode, fin, false, payload⟩, rest) ↔ payload.length < 65535 := by
  refine ⟨fun hrecv => ?_, fun h => reads_bytes hop fin h rest⟩
  by_contra hge
  exact recv_bytes_long opcode fin (by omega) rest hrecv

theorem recv_bytes_pong :
    recv.run ((⟨opPong, true, false, [112]⟩ : Frame).bytes ++ [1]) =
      .ok (⟨opPong, true, false, [112]⟩, [1]) :=
  (recv_bytes_iff (by decide) true [112] [1]).mpr (by decide)

/-- The echo of a long ping. -/
theorem long_pong_lost :
    recv.run ((⟨opPong, true, false, List.replicate 65535 112⟩ : Frame).bytes ++ []) ≠
      .ok (⟨opPong, true, false, List.replicate 65535 112⟩, []) :=
  recv_bytes_long opPong true (by rw [List.length_replicate]) []

end MoteBroker.Frames

import MoteBroker.Socket
import MoteBroker.Websocket

/-!
`Frame.recv` on a socket whose `recv(k)` may return fewer than `k` bytes: which splits of a stream
of frames it does not notice.
-/

namespace MoteBroker.Chunks

open ByteReader MoteBroker.Topics MoteBroker.Socket MoteBroker.Frames MoteBroker.Websocket

/-! ### Receiving -/

/-- The length of the payload, from the seven bits for it and what one `recv` returns. -/
def recvLength (payload_len : ℕ) (r : Receiver) : ℕ × Receiver :=
  if payload_len = 126 then (ofBE (r.recv 2).1, (r.recv 2).2)
  else if payload_len = 127 then (ofBE (r.recv 8).1, (r.recv 8).2)
  else (payload_len, r)

def recvPayload (masked : Bool) (payload_len : ℕ) (r : Receiver) : Bytes × Receiver :=
  if payload_len = 0 then if masked then ([], (r.recv 4).2) else ([], r)
  else if masked then
    let (data, r) := r.recv (payload_len + 4)
    (unmask (data.take 4) (data.drop 4), r)
  else r.recv payload_len

/-- `recv`. A header of fewer than two bytes is an `IndexError`, for which a `ConnectionError` is
raised. -/
def recv (r : Receiver) : Except Exc (Frame × Receiver) :=
  match r.recv 2 with
  | (b₀ :: b₁ :: _, r) =>
    let fin := decide (b₀.toNat &&& 128 = 128)
    let opcode := b₀.toNat &&& 15
    let masked := decide (b₁.toNat &&& 128 = 128)
    let (payload_len, r) := recvLength (b₁.toNat &&& 127) r
    let (payload, r) := recvPayload masked payload_len r
    .ok (⟨opcode, fin, masked, payload⟩, r)
  | (_, _) => .error .connectionError

/-- On a transport that always returns all it has, it is the `recv` of the stream. -/
theorem recv_whole (bs : Bytes) :
    recv ⟨bs, []⟩ = (Frames.recv.run bs).map fun p => (p.1, ⟨p.2, []⟩) := by
  rcases bs with _ | ⟨b₀, _ | ⟨b₁, bs⟩⟩
  · rfl
  · rfl
  · have hlength : ∀ n, ∃ m rest, recvLength n ⟨bs, []⟩ = (m, ⟨rest, []⟩) ∧
        (Frames.recvLength n).run bs = .ok (m, rest) := by
      intro n
      unfold recvLength Frames.recvLength
      split_ifs <;> exact ⟨_, _, rfl, rfl⟩
    have hpayload : ∀ masked n (cs : Bytes), ∃ payload rest,
        recvPayload masked n ⟨cs, []⟩ = (payload, ⟨rest, []⟩) ∧
        (Frames.recvPayload masked n).run cs = .ok (payload, rest) := by
      intro masked n cs
      unfold recvPayload Frames.recvPayload
      split_ifs <;> exact ⟨_, _, rfl, rfl⟩
    obtain ⟨m, mid, hm, hm'⟩ := hlength (b₁.toNat &&& 127)
    obtain ⟨payload, rest, hp, hp'⟩ := hpayload (decide (b₁.toNat &&& 128 = 128)) m mid
    have hheader : Receiver.recv ⟨b₀ :: b₁ :: bs, []⟩ 2 = ([b₀, b₁], ⟨bs, []⟩) := rfl
    unfold recv
    rw [hheader, run_recv_cons, StateT.run_bind, hm', ok_bind, StateT.run_bind, hp', ok_bind]
    simp only [hm, hp]
    rfl

/-! ### Streams of frames -/

/-- The frames of a client, the beginning of one more in which the stream ends, and how the
transport splits them. -/
structure Delivery where
  frames : List ClientFrame
  cut : Bytes
  splits : List ℕ
  isCut : ∃ (f : ClientFrame) (rest : Bytes), f.wire = cut ++ rest ∧ rest ≠ []

def Delivery.receiver (d : Delivery) : Receiver := ⟨wire d.frames ++ d.cut, d.splits⟩

/-- One call after the other returns the frames as they were meant, and the next one raises. -/
def SameFrames : List ClientFrame → Receiver → Prop
  | [], r => ∃ e, recv r = .error e
  | f :: fs, r => ∃ r', recv r = .ok (f.frame, r') ∧ SameFrames fs r'

/-- And each call takes its frame from the stream, of which `cut` is the end, and no more. -/
def InPlace (cut : Bytes) : List ClientFrame → Receiver → Prop
  | [], r => r.unread = cut ∧ ∃ e, recv r = .error e
  | f :: fs, r =>
    ∃ r', recv r = .ok (f.frame, r') ∧ r'.unread = wire fs ++ cut ∧ InPlace cut fs r'

/-! ### What is asked for -/

def lengthSizes : Format → List ℕ
  | .short => []
  | .medium => [2]
  | .long => [8]

def payloadSizes (masked : Bool) (payload_len : ℕ) : List ℕ :=
  if payload_len = 0 then if masked then [4] else []
  else [if masked then payload_len + 4 else payload_len]

/-- How many bytes the calls of `sock.recv` for a frame ask for. -/
def recvSizes (f : ClientFrame) : List ℕ :=
  2 :: (lengthSizes f.format ++ payloadSizes f.key.isSome f.payload.length)

/-- The transport returns all that it is asked for, one `recv` after the other. -/
def InFull : List ℕ → Receiver → Receiver → Prop
  | [], r, r' => r' = r
  | size :: sizes, r, r' => (r.recv size).1.length = size ∧ InFull sizes (r.recv size).2 r'

/-- It does for all frames, and then returns less than a header. -/
def Delivery.InFull (d : Delivery) : Prop :=
  ∃ r', Chunks.InFull (d.frames.flatMap recvSizes) d.receiver r' ∧ (r'.recv 2).1.length < 2

lemma inFull_append {xs ys : List ℕ} {r r'' : Receiver} :
    InFull (xs ++ ys) r r'' ↔ ∃ r', InFull xs r r' ∧ InFull ys r' r'' := by
  induction xs generalizing r with
  | nil =>
    constructor
    · intro h
      exact ⟨r, rfl, h⟩
    · rintro ⟨r', rfl, h⟩
      exact h
  | cons size xs ih =>
    rw [List.cons_append, InFull, ih]
    constructor
    · rintro ⟨hsize, r', hxs, hys⟩
      exact ⟨r', ⟨hsize, hxs⟩, hys⟩
    · rintro ⟨r', ⟨hsize, hxs⟩, hys⟩
      exact ⟨hsize, r', hxs, hys⟩

/-! ### One `recv` -/

section
variable {r r' : Receiver} {xs rest : Bytes}

lemma recv_length_le (r : Receiver) {size : ℕ} (hsize : 0 < size) :
    (r.recv size).1.length ≤ size := by
  unfold Receiver.recv
  split
  · exact (List.length_take_le _ _)
  · rw [List.length_take]
    unfold clip
    omega

/-- A `recv` in full returns the next bytes. -/
lemma recv_inFull {size : ℕ} (hunread : r.unread = xs ++ rest) (hxs : xs.length = size)
    (hfull : (r.recv size).1.length = size) :
    (r.recv size).1 = xs ∧ (r.recv size).2.unread = rest := by
  have hstream := r.recv_append size
  rw [hunread] at hstream
  exact List.append_inj hstream (hfull.trans hxs.symm)

/-- What comes of a `recv` for the bytes `xs`: a beginning of them. -/
lemma recv_split {size : ℕ} (hunread : r.unread = xs ++ rest) (hxs : xs.length = size)
    (hsize : 0 < size) :
    ∃ more, xs = (r.recv size).1 ++ more ∧ (r.recv size).2.unread = more ++ rest := by
  have hstream := r.recv_append size
  rw [hunread] at hstream
  have hle := recv_length_le r hsize
  obtain ⟨more, hmore⟩ : (r.recv size).1 <+: xs := by
    have hbegin : (r.recv size).1 <+: xs ++ rest := ⟨_, hstream⟩
    exact List.prefix_of_prefix_length_le hbegin (List.prefix_append _ _) (by omega)
  refine ⟨more, hmore.symm, ?_⟩
  rw [← hmore, List.append_assoc] at hstream
  exact List.append_cancel_left hstream

/-- A number of which not all bytes come is read as a smaller one, unless it is zero. -/
lemma recv_toBE {size n : ℕ} (hsize : 0 < size) (hn : n < 256 ^ size)
    (hunread : r.unread = toBE size n ++ rest) :
    ∃ more, (r.recv size).2.unread = more ++ rest ∧ ofBE (r.recv size).1 ≤ n ∧
      (more = [] → ofBE (r.recv size).1 = n ∧ (r.recv size).1.length = size) ∧
      (more ≠ [] → ofBE (r.recv size).1 = n → n = 0) := by
  obtain ⟨more, hsplit, hleft⟩ := recv_split hunread (length_toBE size n) hsize
  have hvalue : n = ofBE (r.recv size).1 * 256 ^ more.length + ofBE more := by
    rw [← ofBE_append, ← hsplit, ofBE_toBE hn]
  have hpow : ofBE (r.recv size).1 ≤ ofBE (r.recv size).1 * 256 ^ more.length :=
    Nat.le_mul_of_pos_right _ (Nat.pow_pos (by norm_num))
  refine ⟨more, hleft, by omega, ?_, ?_⟩
  · rintro rfl
    rw [List.append_nil] at hsplit
    rw [← hsplit]
    exact ⟨ofBE_toBE hn, length_toBE size n⟩
  · intro hmore heq
    have hlong : 256 ^ 1 ≤ 256 ^ more.length :=
      Nat.pow_le_pow_right (by norm_num) (List.length_pos_iff.mpr hmore)
    have := Nat.mul_le_mul_left (ofBE (r.recv size).1) hlong
    omega

/-- What is read as the length of a frame. -/
lemma recvLength_spec {format : Format} {n : ℕ} (hn : n < format.limit)
    (hunread : r.unread = (format.write n).2 ++ rest) :
    ∃ m r₁ more, recvLength (format.write n).1 r = (m, r₁) ∧ r₁.unread = more ++ rest ∧ m ≤ n ∧
      (more = [] → m = n ∧ InFull (lengthSizes format) r r₁) ∧ (more ≠ [] → m = n → n = 0) := by
  cases format with
  | short =>
    have hlt : n < 126 := hn
    refine ⟨n, r, [], ?_, hunread, le_rfl, fun _ => ⟨rfl, rfl⟩, fun hne => absurd rfl hne⟩
    rw [recvLength, Format.write, if_neg (by omega), if_neg (by omega)]
  | medium =>
    obtain ⟨more, hleft, hle, hall, hzero⟩ := recv_toBE Nat.zero_lt_two hn hunread
    refine ⟨_, _, more, rfl, hleft, hle, fun hnil => ?_, hzero⟩
    obtain ⟨heq, hlength⟩ := hall hnil
    exact ⟨heq, hlength, rfl⟩
  | long =>
    obtain ⟨more, hleft, hle, hall, hzero⟩ := recv_toBE (show 0 < 8 by norm_num) hn hunread
    refine ⟨_, _, more, rfl, hleft, hle, fun hnil => ?_, hzero⟩
    obtain ⟨heq, hlength⟩ := hall hnil
    exact ⟨heq, hlength, rfl⟩

/-- In full, it is the length. -/
lemma recvLength_inFull {format : Format} {n : ℕ} (hn : n < format.limit)
    (hunread : r.unread = (format.write n).2 ++ rest) (hfull : InFull (lengthSizes format) r r') :
    recvLength (format.write n).1 r = (n, r') ∧ r'.unread = rest := by
  cases format with
  | short =>
    have hlt : n < 126 := hn
    cases hfull
    refine ⟨?_, hunread⟩
    rw [recvLength, Format.write, if_neg (by omega), if_neg (by omega)]
  | medium =>
    obtain ⟨hlength, rfl⟩ := hfull
    obtain ⟨hbytes, hleft⟩ := recv_inFull hunread (length_toBE 2 n) hlength
    have hvalue : ofBE (r.recv 2).1 = n := by rw [hbytes, Format.write, ofBE_toBE hn]
    exact ⟨Prod.ext hvalue rfl, hleft⟩
  | long =>
    obtain ⟨hlength, rfl⟩ := hfull
    obtain ⟨hbytes, hleft⟩ := recv_inFull hunread (length_toBE 8 n) hlength
    have hvalue : ofBE (r.recv 8).1 = n := by rw [hbytes, Format.write, ofBE_toBE hn]
    exact ⟨Prod.ext hvalue rfl, hleft⟩

/-- No more than the length is returned as a payload, and no more than that and a key is taken. -/
lemma recvPayload_le (masked : Bool) (payload_len : ℕ) (r : Receiver) :
    (recvPayload masked payload_len r).1.length ≤ payload_len ∧
      r.unread.length ≤ (recvPayload masked payload_len r).2.unread.length +
        (payload_len + if masked then 4 else 0) := by
  have htaken : ∀ size, 0 < size →
      r.unread.length ≤ (r.recv size).2.unread.length + size := fun size hsize => by
    have hle := recv_length_le r hsize
    rw [← r.recv_append size, List.length_append]
    omega
  unfold recvPayload
  cases masked with
  | false =>
    by_cases hzero : payload_len = 0
    · simp [hzero]
    · simp only [if_neg hzero, Bool.false_eq_true, if_false]
      exact ⟨recv_length_le r (by omega), htaken payload_len (by omega)⟩
  | true =>
    by_cases hzero : payload_len = 0
    · simp only [hzero, if_true]
      exact ⟨le_rfl, htaken 4 (by norm_num)⟩
    · have hle := recv_length_le r (show 0 < payload_len + 4 by omega)
      simp only [if_neg hzero, if_true, length_unmask, List.length_drop]
      exact ⟨by omega, htaken (payload_len + 4) (by omega)⟩

lemma length_mask {key : Option Bytes} (hkey : ∀ k ∈ key, k.length = 4) (payload : Bytes) :
    (mask key payload).length = payload.length + if key.isSome then 4 else 0 := by
  cases key with
  | none => rfl
  | some key =>
    rw [mask, List.length_append, length_unmask, hkey key rfl, Nat.add_comm]
    rfl

lemma recvPayload_inFull {key : Option Bytes} (hkey : ∀ k ∈ key, k.length = 4) {payload : Bytes}
    (hunread : r.unread = mask key payload ++ rest)
    (hfull : InFull (payloadSizes key.isSome payload.length) r r') :
    recvPayload key.isSome payload.length r = (payload, r') ∧ r'.unread = rest := by
  unfold recvPayload
  cases key with
  | none =>
    by_cases hzero : payload.length = 0
    · have hnil := List.eq_nil_of_length_eq_zero hzero
      subst hnil
      cases hfull
      exact ⟨rfl, hunread⟩
    · rw [payloadSizes, if_neg hzero] at hfull
      obtain ⟨hlength, rfl⟩ := hfull
      obtain ⟨hbytes, hleft⟩ := recv_inFull hunread rfl hlength
      rw [if_neg hzero]
      exact ⟨Prod.ext hbytes rfl, hleft⟩
  | some key =>
    have hfour : key.length = 4 := hkey key rfl
    have hmask : (mask (some key) payload).length = payload.length + 4 := length_mask hkey payload
    by_cases hzero : payload.length = 0
    · have hnil := List.eq_nil_of_length_eq_zero hzero
      subst hnil
      obtain ⟨hlength, rfl⟩ := hfull
      obtain ⟨-, hleft⟩ := recv_inFull hunread hmask hlength
      exact ⟨rfl, hleft⟩
    · rw [payloadSizes, if_neg hzero] at hfull
      obtain ⟨hlength, rfl⟩ := hfull
      obtain ⟨hbytes, hleft⟩ := recv_inFull hunread hmask hlength
      rw [if_neg hzero]
      refine ⟨Prod.ext ?_ rfl, hleft⟩
      change unmask ((r.recv (payload.length + 4)).1.take 4)
        ((r.recv (payload.length + 4)).1.drop 4) = payload
      rw [hbytes, mask, List.take_left' hfour, List.drop_left' hfour, unmask_unmask]

/-- A payload that is returned as it was meant has come in full; an empty one has if its key has
been taken. -/
lemma inFull_of_recvPayload {key : Option Bytes} (hkey : ∀ k ∈ key, k.length = 4) {payload : Bytes}
    (hunread : r.unread = mask key payload ++ rest)
    (h : recvPayload key.isSome payload.length r = (payload, r'))
    (hplace : payload ≠ [] ∨ r'.unread = rest) :
    InFull (payloadSizes key.isSome payload.length) r r' := by
  unfold recvPayload at h
  unfold payloadSizes
  by_cases hzero : payload.length = 0
  · have hleft : r'.unread = rest :=
      hplace.resolve_left fun hne => hne (List.eq_nil_of_length_eq_zero hzero)
    rw [if_pos hzero] at h ⊢
    cases key with
    | none => exact (Prod.mk.inj h).2.symm
    | some key =>
      have hr' : (r.recv 4).2 = r' := (Prod.mk.inj h).2
      refine ⟨?_, hr'.symm⟩
      have hlength := congrArg List.length (r.recv_append 4)
      rw [hunread, hr', hleft, List.length_append, List.length_append, length_mask hkey payload,
        hzero, Option.isSome_some, if_pos rfl] at hlength
      omega
  · rw [if_neg hzero] at h ⊢
    cases key with
    | none =>
      obtain ⟨hpayload, hr'⟩ := Prod.mk.inj h
      exact ⟨congrArg List.length hpayload, hr'.symm⟩
    | some key =>
      have hpayload : unmask ((r.recv (payload.length + 4)).1.take 4)
          ((r.recv (payload.length + 4)).1.drop 4) = payload := congrArg Prod.fst h
      have hr' : (r.recv (payload.length + 4)).2 = r' := congrArg Prod.snd h
      have hlength := congrArg List.length hpayload
      rw [length_unmask, List.length_drop] at hlength
      refine ⟨?_, hr'.symm⟩
      simp only [Option.isSome_some, if_true]
      omega

end

/-! ### One frame -/

section
variable {r r' : Receiver} {rest : Bytes}

/-- What `recv` makes of a header that has come in full. -/
lemma recv_header (f : ClientFrame) (hunread : r.unread = f.wire ++ rest)
    (hfull : (r.recv 2).1.length = 2) :
    (r.recv 2).2.unread = (f.format.write f.payload.length).2 ++ (mask f.key f.payload ++ rest) ∧
      ∀ m r₁ p r₂, recvLength (f.format.write f.payload.length).1 (r.recv 2).2 = (m, r₁) →
        recvPayload f.key.isSome m r₁ = (p, r₂) →
        recv r = .ok (⟨f.opcode, f.fin, f.key.isSome, p⟩, r₂) := by
  obtain ⟨hopcode, hfin⟩ := first_bits f.fin f.opcode f.opcode_lt
  obtain ⟨hlength, hmasked⟩ := second_bits f.key.isSome _ (Format.write_lt f.fits)
  rw [ClientFrame.wire, List.append_assoc] at hunread
  obtain ⟨hbytes, hleft⟩ := recv_inFull hunread rfl hfull
  refine ⟨hleft.trans (List.append_assoc _ _ _), fun m r₁ p r₂ hm hp => ?_⟩
  unfold recv
  generalize r.recv 2 = out at hbytes hm
  obtain ⟨header, r₀⟩ := out
  dsimp only at hbytes hm
  subst hbytes
  simp only [hopcode, hfin, hlength, hmasked, hm, hp]

/-- A frame that is given in full is returned as it was meant, and taken off the stream. -/
lemma recv_of_inFull (f : ClientFrame) (hunread : r.unread = f.wire ++ rest)
    (hfull : InFull (recvSizes f) r r') : recv r = .ok (f.frame, r') ∧ r'.unread = rest := by
  obtain ⟨hheader, hfull⟩ := hfull
  obtain ⟨r₁, hlength, hpayload⟩ := inFull_append.mp hfull
  obtain ⟨hleft, hrecv⟩ := recv_header f hunread hheader
  obtain ⟨hm, hleft⟩ := recvLength_inFull f.fits hleft hlength
  obtain ⟨hp, hleft⟩ := recvPayload_inFull f.key_length hleft hpayload
  exact ⟨hrecv _ _ _ _ hm hp, hleft⟩

/-- A frame that is returned as it was meant, and of which nothing is left in the stream if it is
empty, has been given in full. -/
lemma inFull_of_recv (f : ClientFrame) (hunread : r.unread = f.wire ++ rest)
    (hrecv : recv r = .ok (f.frame, r')) (hplace : f.payload ≠ [] ∨ r'.unread = rest) :
    InFull (recvSizes f) r r' := by
  have hheader : (r.recv 2).1.length = 2 := by
    have hle := recv_length_le r Nat.zero_lt_two
    unfold recv at hrecv
    split at hrecv
    case h_1 b₀ b₁ bs r₁ heq =>
      rw [heq] at hle ⊢
      simp only [List.length_cons] at hle ⊢
      omega
    case h_2 => cases hrecv
  obtain ⟨hleft, hrun⟩ := recv_header f hunread hheader
  obtain ⟨m, r₁, more, hm, hunread₁, hle, hall, hzero⟩ := recvLength_spec f.fits hleft
  obtain ⟨hp, htaken⟩ := recvPayload_le f.key.isSome m r₁
  cases hpayload : recvPayload f.key.isSome m r₁ with
  | mk p r₂ =>
    rw [hpayload] at hp htaken
    have hsame := (hrun m r₁ p r₂ hm hpayload).symm.trans hrecv
    obtain ⟨hframe, rfl⟩ := Prod.mk.inj (Except.ok.inj hsame)
    have hpeq := congrArg Frame.payload hframe
    dsimp only [ClientFrame.frame] at hpeq
    subst hpeq
    have hmore : more = [] := by
      by_contra hne
      have hmn : m = f.payload.length := le_antisymm hle hp
      have hn := hzero hne hmn
      have hpos := List.length_pos_iff.mpr hne
      rcases hplace with hplace | hplace
      · exact hplace (List.eq_nil_of_length_eq_zero hn)
      · rw [hunread₁, hplace, List.length_append, List.length_append, length_mask f.key_length]
          at htaken
        omega
    obtain ⟨rfl, hlength⟩ := hall hmore
    rw [hmore, List.nil_append] at hunread₁
    exact ⟨hheader, inFull_append.mpr
      ⟨r₁, hlength, inFull_of_recvPayload f.key_length hunread₁ hpayload hplace⟩⟩

end

/-! ### Streams -/

/-- A header is refused exactly if it does not come in full. -/
lemma recv_error_iff (r : Receiver) : (∃ e, recv r = .error e) ↔ (r.recv 2).1.length < 2 := by
  unfold recv
  split
  case h_1 b₀ b₁ bs r₁ heq =>
    rw [heq]
    constructor
    · rintro ⟨e, he⟩
      cases he
    · intro hlt
      simp only [List.length_cons] at hlt
      omega
  case h_2 header r₁ hshort heq =>
    rw [heq]
    refine iff_of_true ⟨_, rfl⟩ ?_
    rcases header with _ | ⟨b₀, _ | ⟨b₁, bs⟩⟩
    · exact Nat.zero_lt_two
    · exact Nat.one_lt_two
    · exact absurd rfl (hshort b₀ b₁ bs)

lemma wire_cons (f : ClientFrame) (fs : List ClientFrame) : wire (f :: fs) = f.wire ++ wire fs :=
  List.flatMap_cons

/-- Frames that are given in full are returned as they were meant, each from its own bytes. -/
lemma inPlace_iff {cut : Bytes} {fs : List ClientFrame} {r : Receiver}
    (hunread : r.unread = wire fs ++ cut) :
    InPlace cut fs r ↔ ∃ r', InFull (fs.flatMap recvSizes) r r' ∧ (r'.recv 2).1.length < 2 := by
  induction fs generalizing r with
  | nil =>
    rw [InPlace, recv_error_iff]
    constructor
    · rintro ⟨-, hend⟩
      exact ⟨r, rfl, hend⟩
    · rintro ⟨r', rfl, hend⟩
      exact ⟨hunread, hend⟩
  | cons f fs ih =>
    have hstream : r.unread = f.wire ++ (wire fs ++ cut) := by
      rw [hunread, wire_cons, List.append_assoc]
    rw [InPlace, List.flatMap_cons]
    simp only [inFull_append]
    constructor
    · rintro ⟨r₁, hrecv, hleft, hrest⟩
      obtain ⟨r', hfull, hend⟩ := (ih hleft).mp hrest
      exact ⟨r', ⟨r₁, inFull_of_recv f hstream hrecv (.inr hleft), hfull⟩, hend⟩
    · rintro ⟨r', ⟨r₁, hone, hfull⟩, hend⟩
      obtain ⟨hrecv, hleft⟩ := recv_of_inFull f hstream hone
      exact ⟨r₁, hrecv, hleft, (ih hleft).mpr ⟨r', hfull, hend⟩⟩

/-- Frames with payloads are only returned as they were meant from their own bytes. -/
lemma inPlace_of_sameFrames {cut : Bytes} {fs : List ClientFrame} {r : Receiver}
    (hunread : r.unread = wire fs ++ cut) (hpayload : ∀ f ∈ fs, f.payload ≠ [])
    (h : SameFrames fs r) : InPlace cut fs r := by
  induction fs generalizing r with
  | nil => exact ⟨hunread, h⟩
  | cons f fs ih =>
    have hstream : r.unread = f.wire ++ (wire fs ++ cut) := by
      rw [hunread, wire_cons, List.append_assoc]
    obtain ⟨r', hrecv, hrest⟩ := h
    have hone := inFull_of_recv f hstream hrecv (.inl (hpayload f List.mem_cons_self))
    obtain ⟨-, hleft⟩ := recv_of_inFull f hstream hone
    exact ⟨r', hrecv, hleft, ih hleft (fun g hg => hpayload g (List.mem_cons_of_mem f hg)) hrest⟩

lemma InPlace.sameFrames {cut : Bytes} {fs : List ClientFrame} {r : Receiver}
    (h : InPlace cut fs r) : SameFrames fs r := by
  induction fs generalizing r with
  | nil => exact h.2
  | cons f fs ih =>
    obtain ⟨r', hrecv, -, hrest⟩ := h
    exact ⟨r', hrecv, ih hrest⟩

/-- **When the parsing of frames does not depend on how they are split.** The frames are returned as
they were meant, each from its own bytes, and the end of the stream raises, exactly if every `recv`
for the frames is given in full and the one for the header in which the stream ends is not. Where
no payload is empty, no other split returns the same frames at all. -/
theorem inPlace_iff_inFull (d : Delivery) :
    (InPlace d.cut d.frames d.receiver ↔ d.InFull) ∧
    (d.InFull → SameFrames d.frames d.receiver) ∧
    ((∀ f ∈ d.frames, f.payload ≠ []) → (SameFrames d.frames d.receiver ↔ d.InFull)) := by
  have hiff : InPlace d.cut d.frames d.receiver ↔ d.InFull := inPlace_iff rfl
  refine ⟨hiff, fun hfull => (hiff.mpr hfull).sameFrames, fun hpayload => ⟨fun hsame => ?_, ?_⟩⟩
  · exact hiff.mp (inPlace_of_sameFrames rfl hpayload hsame)
  · exact fun hfull => (hiff.mpr hfull).sameFrames

lemma inFull_whole {sizes : List ℕ} {bs : Bytes} {r' : Receiver} :
    InFull sizes ⟨bs, []⟩ r' ↔ sizes.sum ≤ bs.length ∧ r' = ⟨bs.drop sizes.sum, []⟩ := by
  induction sizes generalizing bs with
  | nil => simp [InFull]
  | cons size sizes ih =>
    have hrecv : Receiver.recv ⟨bs, []⟩ size = (bs.take size, ⟨bs.drop size, []⟩) := rfl
    rw [InFull, hrecv, ih, List.length_take, List.length_drop, List.drop_drop, List.sum_cons]
    constructor
    · rintro ⟨hsize, hle, rfl⟩
      exact ⟨by omega, rfl⟩
    · rintro ⟨hle, rfl⟩
      exact ⟨by omega, by omega, rfl⟩

/-- The calls for a frame ask for its bytes. -/
lemma sum_recvSizes (f : ClientFrame) : (recvSizes f).sum = f.wire.length := by
  have hlength : (lengthSizes f.format).sum = (f.format.write f.payload.length).2.length := by
    cases f.format with
    | short => rfl
    | medium => exact (length_toBE 2 _).symm
    | long => exact (length_toBE 8 _).symm
  have hpayload : (payloadSizes f.key.isSome f.payload.length).sum =
      (mask f.key f.payload).length := by
    rw [length_mask f.key_length, payloadSizes]
    cases f.key.isSome <;> by_cases hzero : f.payload.length = 0 <;> simp [hzero]
  rw [recvSizes, List.sum_cons, List.sum_append, hlength, hpayload, ClientFrame.wire,
    List.length_append, List.length_append]
  rfl

/-- A transport that always returns all it has gives every frame in full; but a stream that ends
behind a header does not raise. -/
theorem inFull_iff_of_whole {d : Delivery} (h : d.splits = []) : d.InFull ↔ d.cut.length < 2 := by
  have hsum : (d.frames.flatMap recvSizes).sum = (wire d.frames).length := by
    induction d.frames with
    | nil => rfl
    | cons f fs ih =>
      rw [List.flatMap_cons, List.sum_append, ih, sum_recvSizes, wire_cons, List.length_append]
  have hleft : (wire d.frames ++ d.cut).drop (wire d.frames).length = d.cut := List.drop_left
  unfold Delivery.InFull Delivery.receiver
  rw [h]
  simp only [inFull_whole, hsum, hleft]
  constructor
  · rintro ⟨r', ⟨-, rfl⟩, hend⟩
    change (d.cut.take 2).length < 2 at hend
    rw [List.length_take] at hend
    omega
  · intro hend
    refine ⟨⟨d.cut, []⟩, ⟨by rw [List.length_append]; omega, rfl⟩, ?_⟩
    change (d.cut.take 2).length < 2
    rw [List.length_take]
    omega

/-- A stream may end between two frames. -/
lemma isCut_nil (f : ClientFrame) :
    ∃ (f : ClientFrame) (rest : Bytes), f.wire = [] ++ rest ∧ rest ≠ [] :=
  ⟨f, f.wire, rfl, List.cons_ne_nil _ _⟩

/-- Of the key and the payload of the first frame the transport returns one byte on its own. -/
def splitHello : Delivery where
  frames := hello
  cut := []
  splits := [2, 1]
  isCut := isCut_nil (hello.head (List.cons_ne_nil _ _))

/-- That frame is returned without its payload. -/
theorem splitHello_shortened : ¬SameFrames splitHello.frames splitHello.receiver := by
  rintro ⟨r', hrecv, -⟩
  have hempty : ∃ r₁, recv splitHello.receiver = .ok (⟨opBytes, false, true, []⟩, r₁) := ⟨_, rfl⟩
  obtain ⟨r₁, hempty⟩ := hempty
  rw [hempty] at hrecv
  cases hrecv

end MoteBroker.Chunks

import MoteBroker.Streams

/-!
`SocketHandler`: reading and writing over a transport that may split what it carries, and how
it must split it for the reads and the writes to be whole.
-/

namespace MoteBroker.Socket

open MoteBroker.Topics

/-! ### The transport -/

/-- The receiving side of a socket: the bytes still unread, and how many bytes each coming `recv`
is ready to return. When these have run out, it returns as much as it is asked for. -/
structure Receiver where
  unread : Bytes
  splits : List ℕ

/-- How many bytes a `recv(k)` takes when the transport is ready to return `n`: at least one and
at most `k`. -/
def clip (n k : ℕ) : ℕ := max 1 (min n k)

/-- `sock.recv(k)`: a non-empty prefix of at most `k` of the bytes still unread, or nothing at the
end of the stream. -/
def Receiver.recv (r : Receiver) (k : ℕ) : Bytes × Receiver :=
  match r.splits with
  | [] => (r.unread.take k, ⟨r.unread.drop k, []⟩)
  | n :: splits => (r.unread.take (clip n k), ⟨r.unread.drop (clip n k), splits⟩)

/-- The sending side of a socket: the bytes handed over to the peer, and for each coming `send`
how many bytes it accepts, or that it raises. When these have run out, it accepts all. -/
structure Sender where
  sent : Bytes
  sends : List (Option ℕ)

/-- `sock.send(data)`: a non-empty prefix of the data is accepted and its length returned, or an
`OSError` is raised. -/
def Sender.send (s : Sender) (data : Bytes) : Except Exc ℕ × Sender :=
  match s.sends with
  | [] => (.ok data.length, ⟨s.sent ++ data, []⟩)
  | some n :: sends =>
    (.ok (min (max 1 n) data.length), ⟨s.sent ++ data.take (max 1 n), sends⟩)
  | none :: sends => (.error .ioError, ⟨s.sent, sends⟩)

lemma Receiver.recv_append (r : Receiver) (k : ℕ) :
    (r.recv k).1 ++ (r.recv k).2.unread = r.unread := by
  unfold Receiver.recv
  split <;> exact List.take_append_drop _ _

/-! ### Reading -/

/-- The loop of `read`. -/
def readLoop (size : ℕ) (cached : Bytes) (r : Receiver) : Except Exc (Bytes × Receiver) :=
  if cached.length < size then
    if (r.recv size).1 = [] then .error .connectionError
    else readLoop size (cached ++ (r.recv size).1) (r.recv size).2
  else .ok (cached, r)
termination_by size - cached.length
decreasing_by
  have := List.length_pos_iff.mpr ‹_›
  rw [List.length_append]
  omega

def read (size : ℕ) (r : Receiver) : Except Exc (Bytes × Receiver) := readLoop size [] r

/-- One `read` after the other. -/
def readAll : List ℕ → Receiver → Except Exc (List Bytes × Receiver)
  | [], r => .ok ([], r)
  | size :: sizes, r => do
    let (bs, r) ← read size r
    let (bss, r) ← readAll sizes r
    return (bs :: bss, r)

/-- Every read returns as many bytes as were asked for, and together they return the stream. -/
def Exact (sizes : List ℕ) (r : Receiver) : Prop :=
  ∃ bss r', readAll sizes r = .ok (bss, r') ∧ bss.map List.length = sizes ∧
    bss.flatten = r.unread.take sizes.sum

/-- The transport returns `missing` bytes in one `recv(size)` after the other: none of them
returns more than what is then still missing. -/
inductive Gives (size : ℕ) : ℕ → Receiver → Receiver → Prop
  | done (r : Receiver) : Gives size 0 r r
  | recv {missing : ℕ} {r r' : Receiver} (hne : (r.recv size).1 ≠ [])
    (hle : (r.recv size).1.length ≤ missing)
    (h : Gives size (missing - (r.recv size).1.length) (r.recv size).2 r') :
    Gives size missing r r'

/-- The transport never runs ahead of the reads. -/
def InStep : List ℕ → Receiver → Prop
  | [], _ => True
  | size :: sizes, r => ∃ r', Gives size size r r' ∧ InStep sizes r'

/-- The loop only moves bytes from the stream to the cache, and ends when there are enough. -/
lemma readLoop_spec {size : ℕ} {cached bs : Bytes} {r r' : Receiver}
    (h : readLoop size cached r = .ok (bs, r')) :
    bs ++ r'.unread = cached ++ r.unread ∧ cached.length ≤ bs.length ∧
      (bs.length = size → Gives size (size - cached.length) r r') := by
  induction cached, r using readLoop.induct size with
  | case1 cached r hlt hnil =>
    unfold readLoop at h
    rw [if_pos hlt, if_pos hnil] at h
    cases h
  | case2 cached r hlt hne ih =>
    unfold readLoop at h
    rw [if_pos hlt, if_neg hne] at h
    obtain ⟨hstream, hle, hgives⟩ := ih h
    rw [List.length_append] at hle
    refine ⟨?_, by omega, fun hsize => ?_⟩
    · rw [hstream, List.append_assoc, r.recv_append]
    · refine .recv hne (by omega) ?_
      have hmissing : size - (cached ++ (r.recv size).1).length =
          size - cached.length - (r.recv size).1.length := by
        rw [List.length_append]
        omega
      rw [← hmissing]
      exact hgives hsize
  | case3 cached r hge =>
    unfold readLoop at h
    rw [if_neg hge] at h
    cases h
    refine ⟨rfl, Nat.le_refl _, fun hsize => ?_⟩
    have hmissing : size - bs.length = 0 := by omega
    rw [hmissing]
    exact .done _

lemma Gives.readLoop {size missing : ℕ} {r r' : Receiver} (h : Gives size missing r r')
    {cached : Bytes} (hsize : cached.length + missing = size) :
    ∃ bs, readLoop size cached r = .ok (bs, r') ∧ bs.length = size := by
  induction h generalizing cached with
  | done r =>
    refine ⟨cached, ?_, hsize⟩
    unfold Socket.readLoop
    rw [if_neg (by omega)]
  | @recv missing r r' hne hle h ih =>
    have hpos := List.length_pos_iff.mpr hne
    have hcached : (cached ++ (r.recv size).1).length +
        (missing - (r.recv size).1.length) = size := by
      rw [List.length_append]
      omega
    obtain ⟨bs, hread, hlength⟩ := ih hcached
    refine ⟨bs, ?_, hlength⟩
    unfold Socket.readLoop
    rw [if_pos (by omega), if_neg hne]
    exact hread

/-- A read that is given what it asks for returns it, and takes it off the stream. -/
lemma Gives.read {size : ℕ} {r r' : Receiver} (h : Gives size size r r') :
    ∃ bs, read size r = .ok (bs, r') ∧ bs.length = size ∧ bs ++ r'.unread = r.unread := by
  have hcached : ([] : Bytes).length + size = size := Nat.zero_add size
  obtain ⟨bs, hread, hlength⟩ := h.readLoop hcached
  obtain ⟨hstream, -, -⟩ := readLoop_spec hread
  exact ⟨bs, hread, hlength, hstream⟩

/-- In step with the transport, the reads return all they ask for. -/
lemma InStep.exact {sizes : List ℕ} {r : Receiver} (h : InStep sizes r) : Exact sizes r := by
  induction sizes generalizing r with
  | nil => exact ⟨[], r, rfl, rfl, rfl⟩
  | cons size sizes ih =>
    obtain ⟨r', hgives, hrest⟩ := h
    obtain ⟨bs, hread, hlength, hstream⟩ := hgives.read
    obtain ⟨bss, r'', hreads, hlengths, hflatten⟩ := ih hrest
    refine ⟨bs :: bss, r'', by simp [readAll, hread, hreads], by simp [hlength, hlengths], ?_⟩
    rw [List.flatten_cons, hflatten, ← hstream, List.sum_cons, ← hlength,
      List.take_length_add_append]

/-- Reads that return all they ask for are in step with the transport. -/
lemma inStep_of_lengths {sizes : List ℕ} {r r' : Receiver} {bss : List Bytes}
    (hreads : readAll sizes r = .ok (bss, r')) (hlengths : bss.map List.length = sizes) :
    InStep sizes r := by
  induction sizes generalizing r bss with
  | nil => trivial
  | cons size sizes ih =>
    obtain ⟨⟨bs, r₁⟩, hread, hreads⟩ := ok_of_bind hreads
    obtain ⟨⟨bss', r₂⟩, hreads, hbss⟩ := ok_of_bind hreads
    cases hbss
    rw [List.map_cons, List.cons.injEq] at hlengths
    obtain ⟨-, -, hgives⟩ := readLoop_spec hread
    exact ⟨r₁, hgives hlengths.1, ih hreads hlengths.2⟩

/-- **Reads do not depend on the splits of the transport** exactly when it never runs ahead of
them. -/
theorem exact_iff_inStep (sizes : List ℕ) (r : Receiver) : Exact sizes r ↔ InStep sizes r := by
  refine ⟨?_, ?_⟩
  · rintro ⟨bss, r', hreads, hlengths, -⟩
    exact inStep_of_lengths hreads hlengths
  · exact InStep.exact

/-- A read in step with the transport is a read of the stream that it carries. -/
theorem Gives.stream {size : ℕ} {r r' : Receiver} (h : Gives size size r r') :
    ∃ bs, Socket.read size r = .ok (bs, r') ∧
      (Streams.read size).run r.unread = .ok (bs, r'.unread) := by
  obtain ⟨bs, hread, hlength, hstream⟩ := h.read
  have htake := Streams.reads_read bs r'.unread
  rw [hlength, hstream] at htake
  exact ⟨bs, hread, htake⟩

/-- A transport that splits after the first of three bytes gives a read of two bytes all three. -/
theorem split_read_takes_next : ¬Exact [2] ⟨[1, 2, 3], [1]⟩ := by
  rintro ⟨bss, r', hreads, hlengths, -⟩
  have hread : read 2 ⟨[1, 2, 3], [1]⟩ = .ok ([1, 2, 3], ⟨[], []⟩) := by
    simp [read, readLoop, Receiver.recv, clip]
  simp only [readAll, hread, ok_bind] at hreads
  cases hreads
  simp at hlengths

/-! ### Writing -/

/-- `write`: what `send` returns is not looked at. -/
def write (data : Bytes) (s : Sender) : Except Exc Unit × Sender :=
  match s.send data with
  | (.ok _, s) => (.ok (), s)
  | (.error .ioError, s) => (.error .connectionError, s)
  | (.error e, s) => (.error e, s)

/-- One `write` after the other, until one of them raises. -/
def writeAll : List Bytes → Sender → Except Exc Unit × Sender
  | [], s => (.ok (), s)
  | data :: datas, s =>
    match write data s with
    | (.ok (), s) => writeAll datas s
    | (.error e, s) => (.error e, s)

/-- Each of the writes hands over all its bytes after those of the writes before it, or raises
`ConnectionError`. -/
def LosesNothing (datas : List Bytes) (s : Sender) : Prop :=
  ∀ k, match writeAll (datas.take k) s with
    | (.ok (), s') => s'.sent = s.sent ++ (datas.take k).flatten
    | (.error e, _) => e = .connectionError

/-- The transport accepts the data of each write in full, or raises. -/
def InFull : List Bytes → Sender → Prop
  | [], _ => True
  | data :: datas, s =>
    match s.send data with
    | (.ok n, s') => n = data.length ∧ InFull datas s'
    | (.error _, _) => True

/-- `send` hands over as many bytes as it returns, and raises nothing but an `OSError`. -/
lemma Sender.send_spec (s : Sender) (data : Bytes) :
    (∃ n s', s.send data = (.ok n, s') ∧ n ≤ data.length ∧ s'.sent = s.sent ++ data.take n) ∨
      ∃ s', s.send data = (.error .ioError, s') := by
  obtain ⟨sent, sends⟩ := s
  cases sends with
  | nil => exact .inl ⟨_, _, rfl, Nat.le_refl _, by rw [List.take_length]⟩
  | cons n sends =>
    cases n with
    | none => exact .inr ⟨_, rfl⟩
    | some n =>
      have htake : data.take (max 1 n) = data.take (min (max 1 n) data.length) := by
        rw [List.take_eq_take_iff]
        omega
      exact .inl ⟨_, _, rfl, Nat.min_le_right _ _, by rw [← htake]⟩

lemma losesNothing_cons_of_ok {data : Bytes} {datas : List Bytes} {s s' : Sender} {n : ℕ}
    (hsend : s.send data = (.ok n, s')) (hle : n ≤ data.length)
    (hsent : s'.sent = s.sent ++ data.take n) :
    LosesNothing (data :: datas) s ↔ n = data.length ∧ LosesNothing datas s' := by
  have hwrite : write data s = (.ok (), s') := by simp only [write, hsend]
  refine ⟨?_, ?_⟩
  · intro h
    have hfirst := h 1
    simp only [List.take_succ_cons, List.take_zero, writeAll, hwrite, hsent] at hfirst
    have htake : data.take n = data := by simpa using hfirst
    have hn : n = data.length := by
      have := congrArg List.length htake
      rw [List.length_take] at this
      omega
    refine ⟨hn, fun k => ?_⟩
    have hk := h (k + 1)
    simp only [List.take_succ_cons, writeAll, hwrite, List.flatten_cons] at hk
    rw [hsent, htake, List.append_assoc]
    exact hk
  · rintro ⟨rfl, h⟩ k
    rw [List.take_length] at hsent
    cases k with
    | zero => simp [writeAll]
    | succ k =>
      have hk := h k
      rw [hsent, List.append_assoc] at hk
      simp only [List.take_succ_cons, writeAll, hwrite, List.flatten_cons]
      exact hk

lemma losesNothing_of_error {data : Bytes} {datas : List Bytes} {s s' : Sender}
    (hsend : s.send data = (.error .ioError, s')) : LosesNothing (data :: datas) s := by
  have hwrite : write data s = (.error .connectionError, s') := by simp only [write, hsend]
  intro k
  cases k with
  | zero => simp [writeAll]
  | succ k => simp only [List.take_succ_cons, writeAll, hwrite]

/-- **Writes lose nothing** exactly when the transport accepts each of them in full or raises. -/
theorem losesNothing_iff_inFull (datas : List Bytes) (s : Sender) :
    LosesNothing datas s ↔ InFull datas s := by
  induction datas generalizing s with
  | nil => exact ⟨fun _ => trivial, fun _ k => by simp [writeAll]⟩
  | cons data datas ih =>
    rcases s.send_spec data with ⟨n, s', hsend, hle, hsent⟩ | ⟨s', hsend⟩
    · rw [losesNothing_cons_of_ok hsend hle hsent, ih]
      simp only [InFull, hsend]
    · have hinFull : InFull (data :: datas) s := by simp only [InFull, hsend]
      exact ⟨fun _ => hinFull, fun _ => losesNothing_of_error hsend⟩

/-- A transport that accepts the first of two bytes loses the second. -/
theorem partial_send_loses_tail : ¬LosesNothing [[208, 0]] ⟨[], [some 1]⟩ := by
  intro h
  have h1 := h 1
  simp [writeAll, write, Sender.send] at h1

end MoteBroker.Socket

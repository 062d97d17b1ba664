import MoteBroker.Fragments
import MoteBroker.Lib.Runs
import MoteBroker.Packets

/-!
The threads of a websocket connection that write at the same time: packets under
`outgoing_lock`, frame by frame, and pongs and the closing frame without it. When the client gets
every packet whole, and when it gets a frame that it cannot place.
-/

namespace MoteBroker.OutgoingLock

open ByteReader MoteBroker.Topics MoteBroker.Frames MoteBroker.Fragments MoteBroker.Packets

/-! ### The system -/

/-- Where `send_bytes` is in the thread that holds `outgoing_lock`. -/
structure Sending where
  opcode : ℕ
  /-- The chunk that has been read, and what is still to be read. -/
  n : Bytes
  buffer : Bytes
  deriving DecidableEq

structure System where
  outgoingLock : Option Sending
  /-- The frames that the transport has taken. -/
  sent : List Frame
  /-- The payload that is being written. -/
  payload : Bytes
  /-- The payloads of the writes that have returned. -/
  written : List Bytes
  /-- The frames that were sent without the lock. -/
  controls : List Frame
  /-- A write has raised between two of its frames. -/
  torn : Bool

def initial : System := ⟨none, [], [], [], [], false⟩

inductive Event
  /-- A thread calls `write` and gets the lock. -/
  | acquire (payload : Bytes)
  /-- The thread that has the lock sends its next frame. -/
  | send
  /-- Its `sock.send` raises, and the lock is given back. -/
  | fail
  /-- `send_pong` and `send_close`. -/
  | control (opcode : ℕ) (payload : Bytes)

def step (s : System) : Event → Option System
  | .acquire payload =>
    match s.outgoingLock with
    | none =>
      some { s with
        outgoingLock := some ⟨opBytes, payload.take outSize, payload.drop outSize⟩
        payload := payload }
    | some _ => none
  | .send =>
    match s.outgoingLock with
    | none => none
    | some w =>
      let n := w.buffer.take outSize
      let s := { s with sent := s.sent ++ [(⟨w.opcode, decide (n = []), false, w.n⟩ : Frame)] }
      if n = [] then some { s with outgoingLock := none, written := s.written ++ [s.payload] }
      else some { s with outgoingLock := some ⟨opContinuation, n, w.buffer.drop outSize⟩ }
  | .fail =>
    match s.outgoingLock with
    | none => none
    | some w =>
      some { s with outgoingLock := none, torn := s.torn || decide (w.opcode = opContinuation) }
  | .control opcode payload =>
    if opcode = opPong ∨ opcode = opClose then
      some { s with
        sent := s.sent ++ [⟨opcode, true, false, payload⟩]
        controls := s.controls ++ [⟨opcode, true, false, payload⟩] }
    else none

/-- No packet is sent after a write that has raised between two of its frames. -/
def Clean (s : System) : Event → Prop
  | .send => s.torn = false
  | _ => True

/-! ### The client -/

/-- What a client has put together from frames. -/
structure Peer where
  messages : List Bytes
  /-- The beginning of a message. -/
  current : Option Bytes
  controls : List Frame
  deriving DecidableEq, Repr

/-- A frame comes; `none` when it belongs to no message. -/
def Peer.receive (peer : Peer) (frame : Frame) : Option Peer :=
  if frame.opcode = opPong ∨ frame.opcode = opClose then
    some { peer with controls := peer.controls ++ [frame] }
  else
    match peer.current with
    | none =>
      if frame.opcode ≠ opBytes then none
      else if frame.fin then some { peer with messages := peer.messages ++ [frame.payload] }
      else some { peer with current := some frame.payload }
    | some data =>
      if frame.opcode ≠ opContinuation then none
      else if frame.fin then
        some { peer with messages := peer.messages ++ [data ++ frame.payload], current := none }
      else some { peer with current := some (data ++ frame.payload) }

/-- What a client makes of all the frames. -/
def reassemble (frames : List Frame) : Option Peer := frames.foldlM Peer.receive ⟨[], none, []⟩

/-! ### The invariant -/

/-- What the client has of the message that is being written, before its next frame. -/
inductive Partway (payload : Bytes) : Bool → Option Bytes → Option Sending → Prop
  | idle : Partway payload false none none
  | first {w : Sending} (hop : w.opcode = opBytes) (hpayload : w.n ++ w.buffer = payload) :
    Partway payload false none (some w)
  | next {w : Sending} {data : Bytes} (hop : w.opcode = opContinuation)
    (hpayload : data ++ (w.n ++ w.buffer) = payload) : Partway payload false (some data) (some w)
  | torn {lock : Option Sending} {data : Bytes} (hop : ∀ w ∈ lock, w.opcode = opBytes) :
    Partway payload true (some data) lock

/-- The client has accepted every frame, and has the messages that have been written. -/
def Received (s : System) : Prop :=
  ∃ current, reassemble s.sent = some ⟨s.written, current, s.controls⟩ ∧
    Partway s.payload s.torn current s.outgoingLock

lemma received_initial : Received initial := ⟨none, rfl, .idle⟩

/-- The frames of packets are short, whatever happens to the writes. -/
structure Framed (s : System) : Prop where
  sending : ∀ w ∈ s.outgoingLock, w.opcode < 16 ∧ w.n.length ≤ outSize
  sent : ∀ frame ∈ s.sent, frame.opcode < 16 ∧ frame.masked = false ∧
    (frame.payload.length ≤ outSize ∨ frame ∈ s.controls)

lemma framed_initial : Framed initial := ⟨fun _ h => (nomatch h), fun _ h => (nomatch h)⟩

section
variable {s s' : System} {e : Event}

lemma reassemble_concat (frames : List Frame) (frame : Frame) :
    reassemble (frames ++ [frame]) = (reassemble frames).bind fun peer => peer.receive frame := by
  rw [reassemble, List.foldlM_append]
  simp [reassemble]

lemma reassemble_next {peer peer' : Peer} {frames : List Frame} {frame : Frame}
    (h : reassemble frames = some peer) (hnext : peer.receive frame = some peer') :
    reassemble (frames ++ [frame]) = some peer' := by
  rw [reassemble_concat, h]
  exact hnext

/-- A frame of the thread that has the lock continues what the client has. -/
lemma receive_data {payload : Bytes} {current : Option Bytes} {w : Sending} (messages : List Bytes)
    (controls : List Frame) (hp : Partway payload false current (some w)) :
    (w.buffer = [] → (Peer.receive ⟨messages, current, controls⟩ ⟨w.opcode, true, false, w.n⟩) =
      some ⟨messages ++ [payload], none, controls⟩) ∧
    (w.buffer ≠ [] → ∃ data, data ++ w.buffer = payload ∧
      Peer.receive ⟨messages, current, controls⟩ ⟨w.opcode, false, false, w.n⟩ =
        some ⟨messages, some data, controls⟩) := by
  cases hp with
  | first hop hpayload =>
    refine ⟨fun hnil => ?_, fun _ => ⟨w.n, hpayload, ?_⟩⟩
    · rw [hnil, List.append_nil] at hpayload
      rw [← hpayload]
      simp [Peer.receive, hop, opBytes, opPong, opClose]
    · simp [Peer.receive, hop, opBytes, opPong, opClose]
  | @next _ data hop hpayload =>
    refine ⟨fun hnil => ?_, fun _ => ⟨data ++ w.n, by rw [List.append_assoc, hpayload], ?_⟩⟩
    · rw [hnil, List.append_nil] at hpayload
      rw [← hpayload]
      simp [Peer.receive, hop, opContinuation, opPong, opClose]
    · simp [Peer.receive, hop, opContinuation, opPong, opClose]

lemma take_outSize_eq_nil {bs : Bytes} : bs.take outSize = [] ↔ bs = [] := by
  rw [List.take_eq_nil_iff]
  exact or_iff_right (by decide)

/-- An invariant of clean runs. -/
theorem Received.step (h : Received s) (hclean : Clean s e) (hs : step s e = some s') :
    Received s' := by
  obtain ⟨current, hfold, hpart⟩ := h
  cases e with
  | acquire payload =>
    simp only [OutgoingLock.step] at hs
    split at hs
    case h_2 => cases hs
    case h_1 hlock =>
      cases hs
      refine ⟨current, hfold, ?_⟩
      generalize s.torn = torn at hpart
      rw [hlock] at hpart
      cases hpart with
      | idle => exact .first rfl (List.take_append_drop _ _)
      | torn => exact .torn fun w hw => by cases hw; rfl
  | send =>
    simp only [OutgoingLock.step] at hs
    split at hs
    case h_1 => cases hs
    case h_2 w hlock =>
      have htorn : s.torn = false := hclean
      rw [hlock, htorn] at hpart
      obtain ⟨hlast, hmore⟩ := receive_data s.written s.controls hpart
      split_ifs at hs with hnil
      · cases hs
        refine ⟨none, ?_, ?_⟩
        · rw [decide_eq_true hnil]
          exact reassemble_next hfold (hlast (take_outSize_eq_nil.mp hnil))
        · rw [htorn]
          exact .idle
      · cases hs
        obtain ⟨data, hdata, hreceive⟩ := hmore fun hb => hnil (take_outSize_eq_nil.mpr hb)
        refine ⟨some data, ?_, ?_⟩
        · rw [decide_eq_false hnil]
          exact reassemble_next hfold hreceive
        · rw [htorn]
          refine .next rfl ?_
          rw [List.take_append_drop]
          exact hdata
  | fail =>
    simp only [OutgoingLock.step] at hs
    split at hs
    case h_1 => cases hs
    case h_2 w hlock =>
      cases hs
      refine ⟨current, hfold, ?_⟩
      generalize s.torn = torn at hpart
      rw [hlock] at hpart
      cases hpart with
      | first hop => rw [hop]; exact .idle
      | next hop => rw [hop]; exact .torn fun _ hw => (nomatch hw)
      | torn => exact .torn fun _ hw => (nomatch hw)
  | control opcode payload =>
    simp only [OutgoingLock.step] at hs
    split_ifs at hs with hop
    cases hs
    refine ⟨current, reassemble_next hfold ?_, hpart⟩
    simp [Peer.receive, hop]

/-- An invariant of all runs. -/
theorem Framed.step (h : Framed s) (hs : step s e = some s') : Framed s' := by
  obtain ⟨hsending, hsent⟩ := h
  cases e with
  | acquire payload =>
    simp only [OutgoingLock.step] at hs
    split at hs
    case h_2 => cases hs
    case h_1 =>
      cases hs
      refine ⟨fun w hw => ?_, hsent⟩
      cases hw
      exact ⟨(by decide : opBytes < 16), List.length_take_le _ _⟩
  | send =>
    simp only [OutgoingLock.step] at hs
    split at hs
    case h_1 => cases hs
    case h_2 w hlock =>
      obtain ⟨hop, hlength⟩ := hsending w hlock
      have hnew : ∀ fin, ∀ frame ∈ s.sent ++ [⟨w.opcode, fin, false, w.n⟩],
          frame.opcode < 16 ∧ frame.masked = false ∧
            (frame.payload.length ≤ outSize ∨ frame ∈ s.controls) := fun fin frame hframe => by
        rcases List.mem_append.mp hframe with hframe | hframe
        · exact hsent frame hframe
        · rw [List.mem_singleton.mp hframe]
          exact ⟨hop, rfl, .inl hlength⟩
      split_ifs at hs
      · cases hs
        exact ⟨fun _ hw => (nomatch hw), hnew _⟩
      · cases hs
        refine ⟨fun w' hw' => ?_, hnew _⟩
        cases hw'
        exact ⟨(by decide : opContinuation < 16), List.length_take_le _ _⟩
  | fail =>
    simp only [OutgoingLock.step] at hs
    split at hs
    case h_1 => cases hs
    case h_2 =>
      cases hs
      exact ⟨fun _ hw => (nomatch hw), hsent⟩
  | control opcode payload =>
    simp only [OutgoingLock.step] at hs
    split_ifs at hs with hop
    cases hs
    refine ⟨hsending, fun frame hframe => ?_⟩
    rcases List.mem_append.mp hframe with hframe | hframe
    · obtain ⟨hlt, hmasked, hsize⟩ := hsent frame hframe
      exact ⟨hlt, hmasked, hsize.imp_right (List.mem_append_left _)⟩
    · rw [List.mem_singleton.mp hframe]
      refine ⟨?_, rfl, .inr (List.mem_append_right _ List.mem_cons_self)⟩
      rcases hop with rfl | rfl
      · exact (by decide : opPong < 16)
      · exact (by decide : opClose < 16)

/-! ### After a torn write -/

/-- The client has come upon a frame that it cannot place. -/
def Rejected (s : System) : Prop := reassemble s.sent = none

lemma Rejected.step (h : Rejected s) (hs : step s e = some s') : Rejected s' := by
  have hnext : ∀ frame, reassemble (s.sent ++ [frame]) = none := fun frame => by
    rw [reassemble_concat, h]
    rfl
  cases e with
  | acquire payload | fail =>
    simp only [OutgoingLock.step] at hs
    split at hs <;> cases hs
    exact h
  | send =>
    simp only [OutgoingLock.step] at hs
    split at hs
    case h_1 => cases hs
    case h_2 =>
      split_ifs at hs <;> cases hs <;> exact hnext _
  | control opcode payload =>
    simp only [OutgoingLock.step] at hs
    split_ifs at hs
    cases hs
    exact hnext _

/-- The first frame of a packet does not continue what the client has of the torn one. -/
lemma Received.torn (h : Received s) (htorn : s.torn = true)
    (hs : OutgoingLock.step s .send = some s') :
    Rejected s' := by
  obtain ⟨current, hfold, hpart⟩ := h
  simp only [OutgoingLock.step] at hs
  split at hs
  case h_1 => cases hs
  case h_2 w hlock =>
    rw [hlock, htorn] at hpart
    cases hpart with
    | torn hop =>
      have hreceive : ∀ fin, reassemble (s.sent ++ [⟨w.opcode, fin, false, w.n⟩]) = none := by
        intro fin
        rw [reassemble_concat, hfold, hop w rfl]
        rfl
      split_ifs at hs <;> cases hs <;> exact hreceive _

/-! ### The writer alone -/

/-- The thread that has the lock sends the frames that the loop of `send_bytes` sends. -/
lemma sendLoop_run {w : Sending} (hlock : s.outgoingLock = some w) (ws : Websocket.Handler) :
    ∃ n frames, Runs.run step s (List.replicate n .send) =
        some { s with outgoingLock := none, sent := s.sent ++ frames,
                      written := s.written ++ [s.payload] } ∧
      sendLoop w.opcode w.n w.buffer ws =
        { ws with sent := ws.sent ++ frames.map Frame.bytes } := by
  induction hlen : w.buffer.length using Nat.strong_induction_on generalizing s w ws with
  | _ k ih =>
    subst hlen
    rw [sendLoop]
    by_cases hnil : w.buffer.take outSize = []
    · refine ⟨1, [⟨w.opcode, true, false, w.n⟩], ?_, ?_⟩
      · simp [Runs.run, step, hlock, hnil]
      · simp [hnil, Websocket.Handler.send]
    · have hpos : 0 < w.buffer.length := List.length_pos_iff.mpr fun h => hnil (by simp [h])
      have hlt : (w.buffer.drop outSize).length < w.buffer.length := by
        rw [List.length_drop, outSize]
        omega
      let next : System := { s with
        outgoingLock := some ⟨opContinuation, w.buffer.take outSize, w.buffer.drop outSize⟩
        sent := s.sent ++ [⟨w.opcode, false, false, w.n⟩] }
      have hnext : step s .send = some next := by
        simp [step, hlock, hnil, next]
      obtain ⟨n, frames, hrun, hloop⟩ :=
        @ih _ hlt next _ rfl (ws.send ⟨w.opcode, false, false, w.n⟩) rfl
      refine ⟨n + 1, ⟨w.opcode, false, false, w.n⟩ :: frames, ?_, ?_⟩
      · rw [List.replicate_succ, Runs.run_cons, hnext, Option.bind_some, hrun]
        simp [next]
      · simp only [hnil, decide_false, dif_neg, not_false_eq_true, hloop]
        simp [Websocket.Handler.send]

/-- A write that no other thread comes between is `send_bytes`. -/
theorem sendBytes_run (hlock : s.outgoingLock = none) (payload : Bytes) (ws : Websocket.Handler) :
    ∃ n frames, Runs.run step s (.acquire payload :: List.replicate n .send) =
        some { s with sent := s.sent ++ frames, payload := payload,
                      written := s.written ++ [payload] } ∧
      sendBytes ws payload = { ws with sent := ws.sent ++ frames.map Frame.bytes } := by
  have hnext : step s (.acquire payload) =
      some { s with
        outgoingLock := some ⟨opBytes, payload.take outSize, payload.drop outSize⟩
        payload := payload } := by
    simp [step, hlock]
  obtain ⟨n, frames, hrun, hloop⟩ := @sendLoop_run
    { s with
      outgoingLock := some ⟨opBytes, payload.take outSize, payload.drop outSize⟩
      payload := payload } _ rfl ws
  refine ⟨n, frames, ?_, hloop⟩
  rw [Runs.run_cons, hnext, Option.bind_some, hrun, hlock]

/-! ### Runs -/

variable {es : List Event}

/-- **What the client makes of concurrent writes**: every packet, in the order of the writes, and
every control frame, as long as no packet follows a torn one; otherwise it rejects the stream. -/
lemma reassemble_run (hrun : Runs.run step initial es = some s) :
    (Runs.Meets step Clean initial es → Received s) ∧
    (¬Runs.Meets step Clean initial es → Rejected s) := by
  have hreceived : ∀ {es s}, Runs.Meets step Clean initial es →
      Runs.run step initial es = some s → Received s := fun hclean hrun =>
    Runs.run_invariant (fun _ _ _ h hclean hs => h.step hclean hs) received_initial hclean hrun
  refine ⟨fun hclean => hreceived hclean hrun, fun hclean => ?_⟩
  obtain ⟨before, e, after, t, t', -, hbefore, ht, he, ht', hafter⟩ :=
    Runs.exists_of_not_meets hrun hclean
  have hrejected : Rejected t' := by
    cases e with
    | send => exact (hreceived hbefore ht).torn (Bool.not_eq_false _ ▸ he) ht'
    | acquire | fail | control => exact absurd trivial he
  exact Runs.run_invariant_of_step (fun _ _ _ h hs => h.step hs) hrejected hafter

/-- The client reads the frames off their bytes. -/
lemma reads_sent (hrun : Runs.run step initial es = some s)
    (hcontrols : ∀ frame ∈ s.controls, frame.payload.length < 65535) :
    Reads (many recv s.sent.length) (s.sent.map Frame.bytes).flatten s.sent := by
  have hframed : Framed s :=
    Runs.run_invariant_of_step (fun _ _ _ h hs => h.step hs) framed_initial hrun
  refine reads_many (List.forall₂_map_right_iff.mpr (List.forall₂_same.mpr fun frame hframe => ?_))
  obtain ⟨hop, hmasked, hsize⟩ := hframed.sent frame hframe
  have hlength : frame.payload.length < 65535 := by
    rcases hsize with hsize | hcontrol
    · exact lt_of_le_of_lt hsize (by decide)
    · exact hcontrols frame hcontrol
  obtain ⟨opcode, fin, masked, payload⟩ := frame
  subst hmasked
  exact reads_bytes hop fin hlength

/-- **Concurrent writes arrive whole**: whichever threads write packets, and whichever pongs and
closing frames are sent between their frames, a client reads the bytes as the frames that were
sent, and they are put together to the packets, in the order in which the lock was taken, if and
only if no packet is sent after a write that raised between two of its frames. -/
theorem packets_arrive (hrun : Runs.run step initial es = some s) {packets : List Packet}
    (hfits : ∀ p ∈ packets, p.Fits) (hwritten : packets.mapM Packet.toBytes = .ok s.written)
    (hcontrols : ∀ frame ∈ s.controls, frame.payload.length < 65535) :
    Runs.Meets step Clean initial es ↔
      ∃ frames peer qs,
        (many recv s.sent.length).run (s.sent.map Frame.bytes).flatten = .ok (frames, []) ∧
        reassemble frames = some peer ∧ peer.controls = s.controls ∧
        (many readNextPacket packets.length).run peer.messages.flatten = .ok (qs, []) ∧
        List.Forall₂ Packet.Same packets qs := by
  obtain ⟨hreceived, hrejected⟩ := reassemble_run hrun
  have hread := reads_sent hrun hcontrols []
  rw [List.append_nil] at hread
  constructor
  · intro hclean
    obtain ⟨current, hpeer, -⟩ := hreceived hclean
    obtain ⟨bss, qs, hbss, hsame, hmany⟩ := reads_packets hfits
    obtain rfl : bss = s.written := Except.ok.inj (hbss.symm.trans hwritten)
    have hmany := hmany []
    rw [List.append_nil, hsame.length_eq.symm] at hmany
    exact ⟨s.sent, _, qs, hread, hpeer, rfl, hmany, hsame⟩
  · rintro ⟨frames, peer, -, hframes, hpeer, -⟩
    by_contra hclean
    rw [hread] at hframes
    cases hframes
    rw [show reassemble s.sent = none from hrejected hclean] at hpeer
    cases hpeer

end

/-- A pong comes between taking the lock and the first frame of a message; the write after it fails
at once. -/
def crossing : List Event :=
  [.acquire [50, 6, 0, 1, 97, 0, 7, 1], .control opPong [9], .send, .acquire [208, 0], .fail]

def crossed : System :=
  ⟨none, [⟨opPong, true, false, [9]⟩, ⟨opBytes, true, false, [50, 6, 0, 1, 97, 0, 7, 1]⟩],
    [208, 0], [[50, 6, 0, 1, 97, 0, 7, 1]], [⟨opPong, true, false, [9]⟩], false⟩

lemma crossed_written :
    [publishPacket ['a'] [1] 1 7].mapM Packet.toBytes = .ok crossed.written := by
  have hlength : Streams.lengthBytes 6 = [6] := by
    unfold Streams.lengthBytes
    rfl
  have hheader : (publishPacket ['a'] [1] 1 7).getHeaderBytes 6 = .ok [50, 6] := by
    unfold Packet.getHeaderBytes
    rw [hlength]
    rfl
  have hbytes : (publishPacket ['a'] [1] 1 7).toBytes = .ok [50, 6, 0, 1, 97, 0, 7, 1] := by
    change (do return (← (publishPacket ['a'] [1] 1 7).getHeaderBytes 6) ++ _) = _
    rw [hheader]
    rfl
  rw [List.mapM_cons, hbytes]
  rfl

theorem packets_arrive_crossing :
    Runs.Meets step Clean initial crossing ↔
      ∃ frames peer qs,
        (many recv 2).run (crossed.sent.map Frame.bytes).flatten = .ok (frames, []) ∧
        reassemble frames = some peer ∧ peer.controls = crossed.controls ∧
        (many readNextPacket 1).run peer.messages.flatten = .ok (qs, []) ∧
        List.Forall₂ Packet.Same [publishPacket ['a'] [1] 1 7] qs := by
  have hrun : Runs.run step initial crossing = some crossed := by rfl
  have hfits : ∀ p ∈ [publishPacket ['a'] [1] 1 7], p.Fits := fun p hp => by
    rw [List.mem_singleton.mp hp]
    exact publishPacket_fits (by omega) (by decide) (by omega) (by simp) (by simp)
  exact packets_arrive hrun hfits crossed_written (by decide)

end MoteBroker.OutgoingLock

import MoteBroker.Websocket

/-!
`send_bytes`: an outgoing payload in frames, and that the frames are read as the payload.
-/

namespace MoteBroker.Fragments

open ByteReader MoteBroker.Topics MoteBroker.Frames MoteBroker.Websocket

def outSize : ℕ := 2040

/-- The loop of `send_bytes`: `n` is the chunk that has been read, `buffer` what is still to be
read. -/
def sendLoop (opcode : ℕ) (n buffer : Bytes) (ws : Handler) : Handler :=
  let data := n
  let n := buffer.take outSize
  let fin := decide (n = [])
  let ws := ws.send ⟨opcode, fin, false, data⟩
  if _h : n = [] then ws else sendLoop opContinuation n (buffer.drop outSize) ws
termination_by buffer.length
decreasing_by
  have hpos : 0 < buffer.length := List.length_pos_iff.mpr fun hnil => _h (by simp [n, hnil])
  rw [List.length_drop, outSize]
  omega

/-- `send_bytes`. -/
def sendBytes (ws : Handler) (payload : Bytes) : Handler :=
  sendLoop opBytes (payload.take outSize) (payload.drop outSize) ws

/-! ### The frames of a payload -/

/-- The frames of one message: the payload is cut into their payloads, the first has the opcode and
the others continue it, and the last, and no other, has the flag `fin`. -/
inductive Message : ℕ → Bytes → List Frame → Prop
  | last {opcode : ℕ} {data : Bytes} : Message opcode data [⟨opcode, true, false, data⟩]
  | cons {opcode : ℕ} {data payload : Bytes} {frames : List Frame}
    (h : Message opContinuation payload frames) :
    Message opcode (data ++ payload) (⟨opcode, false, false, data⟩ :: frames)

variable {opcode : ℕ} {payload : Bytes} {frames : List Frame}

lemma Message.payload_eq (h : Message opcode payload frames) :
    frames.flatMap Frame.payload = payload := by
  induction h with
  | last => simp
  | cons _ ih => rw [List.flatMap_cons, ih]

lemma Message.exists_cons (h : Message opcode payload frames) :
    ∃ frame more, frames = frame :: more := by
  cases h with
  | last => exact ⟨_, _, rfl⟩
  | cons h => exact ⟨_, _, rfl⟩

lemma Message.opcode_eq (h : Message opcode payload frames) :
    frames.map Frame.opcode = opcode :: List.replicate (frames.length - 1) opContinuation := by
  induction h with
  | last => rfl
  | cons h ih =>
    obtain ⟨frame, more, rfl⟩ := h.exists_cons
    rw [List.map_cons, ih]
    rfl

lemma Message.fin_eq (h : Message opcode payload frames) :
    frames.map Frame.fin = List.replicate (frames.length - 1) false ++ [true] := by
  induction h with
  | last => rfl
  | cons h ih =>
    obtain ⟨frame, more, rfl⟩ := h.exists_cons
    rw [List.map_cons, ih]
    rfl

/-- What the loop sends. -/
lemma sendLoop_spec (n buffer : Bytes) (hn : n.length ≤ outSize) (ws : Handler) :
    ∃ frames, sendLoop opcode n buffer ws = { ws with sent := ws.sent ++ frames.map Frame.bytes } ∧
      Message opcode (n ++ buffer) frames ∧ ∀ frame ∈ frames, frame.payload.length ≤ outSize := by
  induction hlen : buffer.length using Nat.strong_induction_on generalizing opcode n buffer ws with
  | _ k ih =>
    subst hlen
    rw [sendLoop]
    by_cases hnil : buffer.take outSize = []
    · have hbuffer : buffer = [] := by
        rcases List.take_eq_nil_iff.mp hnil with h | h
        · exact absurd h (by decide)
        · exact h
      subst hbuffer
      refine ⟨[⟨opcode, true, false, n⟩], rfl, ?_, fun frame hframe => ?_⟩
      · rw [List.append_nil]
        exact .last
      · rw [List.mem_singleton.mp hframe]
        exact hn
    · have hpos : 0 < buffer.length := List.length_pos_iff.mpr fun h => hnil (by simp [h])
      have hlt : (buffer.drop outSize).length < buffer.length := by
        rw [List.length_drop, outSize]
        omega
      obtain ⟨frames, hsent, hmessage, hshort⟩ := ih _ hlt (buffer.take outSize)
        (buffer.drop outSize) (List.length_take_le _ _) (ws.send ⟨opcode, false, false, n⟩) rfl
      rw [List.take_append_drop] at hmessage
      refine ⟨⟨opcode, false, false, n⟩ :: frames, ?_, .cons hmessage, fun frame hframe => ?_⟩
      · simp only [hnil, decide_false, dif_neg, not_false_eq_true, hsent]
        simp [Handler.send]
      · rcases List.mem_cons.mp hframe with rfl | hframe
        · exact hn
        · exact hshort frame hframe

/-! ### The frames are read -/

/-- `read_frames` reads a message that it is sent, as long as its opcodes are those of data. -/
lemma Message.reads (h : Message opcode payload frames)
    (hop : opcode = opBytes ∨ opcode = opContinuation)
    (hshort : ∀ frame ∈ frames, frame.payload.length < 65535) (rest : Bytes) {ws : Handler}
    (halive : ws.alive = true) (hunread : ws.unread = (frames.map Frame.bytes).flatten ++ rest)
    (buf : Bytes) : readFrames ws buf = (.ok (buf ++ payload), { ws with unread := rest }) := by
  have hlt : opcode < 16 := by
    rcases hop with rfl | rfl <;> decide
  induction h generalizing ws buf with
  | @last opcode data =>
    have hdata := hshort _ List.mem_cons_self
    have hrecv : recv.run ws.unread = .ok (⟨opcode, true, false, data⟩, rest) := by
      rw [hunread]
      simpa using reads_bytes hlt true hdata rest
    rw [readFrames_turn halive hrecv, if_pos hop]
    rfl
  | @cons opcode data payload frames h ih =>
    have hdata := hshort _ List.mem_cons_self
    have hrecv : recv.run ws.unread =
        .ok (⟨opcode, false, false, data⟩, (frames.map Frame.bytes).flatten ++ rest) := by
      rw [hunread]
      simpa using reads_bytes hlt false hdata ((frames.map Frame.bytes).flatten ++ rest)
    rw [readFrames_turn halive hrecv, if_pos hop, if_neg Bool.false_ne_true]
    rw [ih (.inr rfl) (fun frame hframe => hshort frame (List.mem_cons_of_mem _ hframe))
      (by exact halive) rfl _ (by decide), List.append_assoc]

/-- **Outgoing fragmentation is lossless**: whatever the payload, its frames are cut from it in
order, the first binary and the others continuing it, the last and no other final; and a reader of
their bytes gets the payload back, and not a byte of what follows. -/
theorem sendBytes_lossless (payload : Bytes) (ws : Handler) :
    ∃ frames : List Frame, sendBytes ws payload =
        { ws with sent := ws.sent ++ frames.map Frame.bytes } ∧
      frames.flatMap Frame.payload = payload ∧
      frames.map Frame.opcode = opBytes :: List.replicate (frames.length - 1) opContinuation ∧
      frames.map Frame.fin = List.replicate (frames.length - 1) false ++ [true] ∧
      ∀ (reader : Handler) (rest buf : Bytes), reader.alive = true →
        reader.unread = (frames.map Frame.bytes).flatten ++ rest →
        readFrames reader buf = (.ok (buf ++ payload), { reader with unread := rest }) := by
  obtain ⟨frames, hsent, hmessage, hshort⟩ := @sendLoop_spec opBytes (payload.take outSize)
    (payload.drop outSize) (List.length_take_le _ _) ws
  rw [List.take_append_drop] at hmessage
  refine ⟨frames, hsent, hmessage.payload_eq, hmessage.opcode_eq, hmessage.fin_eq, ?_⟩
  intro reader rest buf halive hunread
  refine hmessage.reads (.inl rfl) (fun frame hframe => ?_) rest halive hunread buf
  exact lt_of_le_of_lt (hshort frame hframe) (by decide)

end MoteBroker.Fragments

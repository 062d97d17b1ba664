import MoteBroker.ClientPackets
import MoteBroker.Closing
import MoteBroker.Lib.ReadTree
import MoteBroker.Socket

/-!
Packets over transports: what `read_next_packet` asks a handler for, and that it reads the same
packets off a TCP connection and off the frames of a websocket.
-/

namespace MoteBroker.Transports

open ByteReader MoteBroker.Topics MoteBroker.Streams MoteBroker.PacketTypes MoteBroker.Packets

/-! ### What the decoding methods ask for -/

/-- A method that gets its bytes from `self.read`. -/
abbrev Method {α : Type} (m : Stream α) := Decoder Exc.connectionError m

namespace Method

def read (n : ℕ) : Method (Streams.read n) := .take n

def decodeStr : Method Streams.decodeStr :=
  .bind (read 2) fun _ => .ite _
    (.bind (read _) fun byte_str =>
      match Utf8.decode byte_str with
      | some _ => .pure _
      | none => .pure _)
    (.pure _)

def readInt (size : ℕ) : Method (Streams.readInt size) := .bind (read size) fun _ => .pure _

def decodeBytes : Method Streams.decodeBytes :=
  .bind (read 2) fun _ => .bind (read _) fun _ => .pure _

def lengthLoop : ∀ turns multiplier value, Method (Streams.lengthLoop turns multiplier value)
  | 0, _, _ => .throw _
  | turns + 1, _, _ =>
    .bind (read 1) fun _ => .ite _ (.pure _) (.ite _ (.throw _) (lengthLoop turns _ _))

def decodePacketLength : Method Streams.decodePacketLength := lengthLoop 4 1 0

def decodeHeader : Method Streams.decodeHeader := .bind (read 1) fun _ => .pure _

def readBasic (length : ℤ) : ∀ type : Basic, Method (type.read length)
  | .staticInt size => .bind (readInt size) fun _ => .pure _
  | .packetId => .bind (readInt 2) fun _ => .pure _
  | .dynamicStr => .bind decodeStr fun _ => .pure _
  | .dynamicBytes => .bind decodeBytes fun _ => .pure _
  | .remainingBytes => .ite _ (.pure _) (.bind (read _) fun _ => .pure _)
  | .connectFlags => .bind (readInt 1) fun _ => .pure _

def readItems (type : Basic) : ∀ turns length, Method (PacketTypes.readItems type turns length)
  | turns + 1, length =>
    .ite _ (.bind (readBasic length type) fun _ => .bind (readItems type turns _) fun _ => .pure _)
      (.pure _)
  | 0, _ => .pure _

def readPayload : ∀ fields length, Method (PacketTypes.readPayload fields length)
  | [], _ => .pure _
  | (_, type) :: fields, length =>
    .bind (readBasic length type) fun _ => .bind (readPayload fields _) fun _ => .pure _

def readPayloads (fields : List (FieldName × Basic)) :
    ∀ turns length, Method (PacketTypes.readPayloads fields turns length)
  | turns + 1, length =>
    .ite _ (.bind (readPayload fields length) fun _ =>
      .bind (readPayloads fields turns _) fun _ => .pure _) (.pure _)
  | 0, _ => .pure _

def readField (length : ℤ) : ∀ type : PacketType, Method (type.read length)
  | .basic type => .bind (readBasic length type) fun _ => .pure _
  | .dynamicList type => .bind (readItems type _ length) fun _ => .pure _
  | .dynamicListOf fields => .bind (readPayloads fields _ length) fun _ => .pure _

def readFields (cls : PacketClass) (flags : Flags) :
    ∀ fields kwargs length, Method (Packets.readFields cls flags fields kwargs length)
  | [], _, _ => .pure _
  | (_, packetType) :: fields, _, length =>
    .bind (.lift _) fun _ => .ite _
      (.bind (readField length packetType) fun _ =>
        .bind (readFields cls flags fields _ _) fun _ => .pure _)
      (readFields cls flags fields _ length)

/-- `Packet.read`, once the flags are known. -/
def readBody (cls : PacketClass) (flags : ℕ) : Method (do
    let length ← Streams.decodePacketLength
    let (kwargs, _) ← cls.readPayload flags length
    return (⟨cls, cls.flagsFromInt flags, length, kwargs⟩ : Packet)) :=
  .bind decodePacketLength fun _ => .bind (readFields cls _ _ _ _) fun _ => .pure _

def readPacket (cls : PacketClass) : ∀ flags : Option ℕ, Method (cls.read flags)
  | some flags => .bind (.pure flags) fun _ => readBody cls _
  | none =>
    .bind decodeHeader fun _ => .bind (.lift _) fun _ => .ite _
      (.bind (.throw _) fun _ => .bind (.pure _) fun _ => readBody cls _)
      (.bind (.pure _) fun _ => readBody cls _)

def readNextPacket : Method Packets.readNextPacket :=
  .bind decodeHeader fun _ => .bind (.lift _) fun cls => readPacket cls _

end Method

/-- The read loop of a handler, for so many packets. -/
def readPackets (k : ℕ) : ReadTree Exc (List Packet) := (Method.readNextPacket.many k).tree

lemma readPackets_onStream (k : ℕ) :
    (readPackets k).onStream .connectionError = many Packets.readNextPacket k :=
  (Method.readNextPacket.many k).onStream_tree

/-! ### The websocket -/

section
open MoteBroker.Frames MoteBroker.Websocket MoteBroker.Closing

/-- The handler has taken frames of the bytes `bs`, has answered the pings among them, and can still
return `left`. -/
def Carried (bs : Bytes) (ws : Websocket.Handler) (left : Bytes) : Prop :=
  ws.alive = true ∧ stream ws = left ∧ ∃ taken,
    incoming bs = (taken ++ (incoming ws.unread).1, (incoming ws.unread).2) ∧
    ws.sent = pongs taken

/-- **A websocket carries the data of the messages that are whole**, whatever its bytes are. -/
theorem websocket_carries (bs : Bytes) : ReadTree.Carries Websocket.read (Carried bs) where
  gives n ws left := by
    rintro ⟨halive, rfl, before, hin, hsent⟩ hn
    obtain ⟨taken, ws', hread, hstream, halive', hsent', hin'⟩ := read_enough halive hn
    refine ⟨ws', hread, halive', hstream, before ++ taken, ?_, ?_⟩
    · rw [hin, hin', List.append_assoc]
    · rw [hsent', hsent, pongs_append]
  ends n ws left := by
    rintro ⟨halive, rfl, -⟩ hn
    obtain ⟨e, ws', hread, -⟩ := read_ended halive hn
    exact ⟨e, ws', hread⟩

/-- The websocket handler reads the packets of the stream. -/
lemma agrees_websocket (bs : Bytes) (k : ℕ) :
    ReadTree.Agrees (Carried bs) ((readPackets k).runOn Websocket.read ⟨bs, [], true, []⟩)
      ((many Packets.readNextPacket k).run (delivered (incoming bs).1)) := by
  rw [← readPackets_onStream]
  exact (websocket_carries bs).agrees _ _ ⟨rfl, rfl, [], rfl, rfl⟩

/-- **MQTT over a websocket**: whatever bytes a client sends, the handler reads the packets that the
data of its whole messages are, up to the frame that ends the connection or the end of the stream,
or fails where they are none; and the pings that it comes across are answered. -/
theorem packets_over_websocket (bs : Bytes) (k : ℕ) :
    match (many Packets.readNextPacket k).run (delivered (incoming bs).1) with
    | .ok (packets, left) => ∃ ws taken,
      (readPackets k).runOn Websocket.read ⟨bs, [], true, []⟩ = (.ok packets, ws) ∧
      ws.alive = true ∧ stream ws = left ∧ ws.sent = pongs taken ∧
      incoming bs = (taken ++ (incoming ws.unread).1, (incoming ws.unread).2)
    | .error _ => ∃ e ws,
      (readPackets k).runOn Websocket.read ⟨bs, [], true, []⟩ = (.error e, ws) := by
  have hagrees := agrees_websocket bs k
  generalize (readPackets k).runOn Websocket.read ⟨bs, [], true, []⟩ = reads at *
  obtain ⟨result, ws⟩ := reads
  cases hstream : (many Packets.readNextPacket k).run (delivered (incoming bs).1) with
  | error e =>
    rw [hstream] at hagrees
    cases result with
    | error e' => exact ⟨e', ws, rfl⟩
    | ok packets => exact hagrees.elim
  | ok p =>
    obtain ⟨packets, left⟩ := p
    rw [hstream] at hagrees
    cases result with
    | error e' => exact hagrees.elim
    | ok packets' =>
      obtain ⟨rfl, halive, hleft, taken, hin, hsent⟩ := hagrees
      exact ⟨ws, taken, rfl, halive, hleft, hsent, hin⟩

/-- A short frame as browsers send it, masked with a key. -/
def masked (opcode : BitVec 4) (fin : Bool) (a b c d : UInt8) (payload : Bytes)
    (fits : payload.length < Format.short.limit) : ClientFrame :=
  ⟨opcode.toNat, fin, some [a, b, c, d], .short, payload, opcode.isLt, by simp, fits⟩

/-- An UNSUBSCRIBE packet in two frames, with a ping between them. -/
def unsubscribing : List ClientFrame :=
  [masked 2#4 false 1 2 3 4 [162, 5, 0] (by decide), masked 9#4 true 5 6 7 8 [111] (by decide),
    masked 0#4 true 9 9 9 9 [1, 0, 1, 97] (by decide)]

lemma unsubscribing_conversation : Conversation false unsubscribing :=
  .data rfl <| .control (.inl rfl) <| @Conversation.data _ _ [] rfl .done

end

/-! ### TCP -/

section
open MoteBroker.Socket

/-- `SocketHandler.read`, which leaves no use for the receiver when it raises. -/
def socketRead (n : ℕ) (r : Receiver) : Except Exc Bytes × Receiver :=
  match Socket.read n r with
  | .ok (bs, r) => (.ok bs, r)
  | .error e => (.error e, r)

lemma readLoop_length {size : ℕ} {cached bs : Bytes} {r r' : Receiver}
    (h : Socket.readLoop size cached r = .ok (bs, r')) : size ≤ bs.length := by
  induction cached, r using Socket.readLoop.induct size with
  | case1 cached r hlt hnil =>
    unfold Socket.readLoop at h
    rw [if_pos hlt, if_pos hnil] at h
    cases h
  | case2 cached r hlt hne ih =>
    unfold Socket.readLoop at h
    rw [if_pos hlt, if_neg hne] at h
    exact ih h
  | case3 cached r hge =>
    unfold Socket.readLoop at h
    rw [if_neg hge] at h
    cases h
    exact Nat.not_lt.mp hge

/-- A read of more than is left on the stream fails, however it is split. -/
lemma socketRead_ends {n : ℕ} {r : Receiver} (h : r.unread.length < n) :
    ∃ e r', socketRead n r = (.error e, r') := by
  unfold socketRead
  cases hread : Socket.read n r with
  | error e => exact ⟨e, r, rfl⟩
  | ok p =>
    obtain ⟨bs, r'⟩ := p
    have hle := readLoop_length hread
    have hstream := congrArg List.length (readLoop_spec hread).1
    simp only [List.length_append, List.nil_append] at hstream
    omega

/-- **MQTT over TCP**: in step with what the decoder asks for, the handler makes of the connection
what the decoder makes of the stream. -/
theorem over_socket {α : Type} (t : ReadTree Exc α) {r : Receiver}
    (hstep : InStep (t.sizes r.unread) r) :
    ReadTree.Agrees (fun r bs => r.unread = bs) (t.runOn socketRead r)
      ((t.onStream .connectionError).run r.unread) := by
  induction t generalizing r with
  | pure a => exact ⟨rfl, rfl⟩
  | throw e => trivial
  | read n next ih =>
    by_cases hn : n ≤ r.unread.length
    · rw [ReadTree.sizes, if_pos hn] at hstep
      obtain ⟨r', hgives, hstep⟩ := hstep
      obtain ⟨bs, hread, hlength, hstream⟩ := hgives.read
      have htake : bs = r.unread.take n := by rw [← hstream, ← hlength, List.take_left]
      have hdrop : r'.unread = r.unread.drop n := by rw [← hstream, ← hlength, List.drop_left]
      have hsocket : socketRead n r = (.ok (r.unread.take n), r') := by
        rw [socketRead, hread, htake]
      rw [ReadTree.onStream_read_ok hn, ReadTree.runOn, hsocket, ← hdrop]
      exact ih _ (hdrop ▸ hstep)
    · obtain ⟨e, r', hread⟩ := socketRead_ends (Nat.not_le.mp hn)
      rw [ReadTree.onStream_read_error (Nat.not_le.mp hn), ReadTree.runOn, hread]
      trivial

/-- The two handlers return the same packets, or both fail. -/
def SameResult {α σ τ : Type} : Except Exc α × σ → Except Exc α × τ → Prop
  | (.ok a, _), (.ok b, _) => a = b
  | (.error _, _), (.error _, _) => True
  | _, _ => False

/-- A transport that returns as much as it is asked for is in step. -/
lemma inStep_sizes {ε α : Type} (t : ReadTree ε α) (bs : Bytes) : InStep (t.sizes bs) ⟨bs, []⟩ := by
  induction t generalizing bs with
  | pure a | throw e => trivial
  | read n next ih =>
    unfold ReadTree.sizes
    split_ifs with hn
    · refine ⟨⟨bs.drop n, []⟩, ?_, ih _ _⟩
      rcases Nat.eq_zero_or_pos n with rfl | hpos
      · exact .done _
      · have hlength : (bs.take n).length = n := List.length_take_of_le hn
        have hne : bs.take n ≠ [] := List.length_pos_iff.mp (by omega)
        refine .recv hne (Nat.le_of_eq hlength) ?_
        have hzero : n - (Receiver.recv ⟨bs, []⟩ n).1.length = 0 := by
          change n - (bs.take n).length = 0
          omega
        rw [hzero]
        exact .done _
    · trivial

/-- **The transport makes no difference**: the packets that a client sends in the frames of a
websocket, until its stream ends before the header of another frame, are those that it sends, the
same bytes, over a TCP connection which is in step with the reads. -/
theorem same_packets {fs : List Frames.ClientFrame} (h : Websocket.Conversation false fs)
    {rest : Bytes} (hrest : rest.length < 2) {r : Receiver} (hr : r.unread = Websocket.payloads fs)
    (k : ℕ) (hstep : InStep ((readPackets k).sizes r.unread) r) :
    SameResult
      ((readPackets k).runOn Websocket.read ⟨Websocket.wire fs ++ rest, [], true, []⟩)
      ((readPackets k).runOn socketRead r) := by
  have hws := agrees_websocket (Websocket.wire fs ++ rest) k
  rw [Closing.delivered_wire h hrest] at hws
  have htcp := over_socket (readPackets k) hstep
  rw [readPackets_onStream, hr] at htcp
  generalize (readPackets k).runOn Websocket.read _ = ws at *
  generalize (readPackets k).runOn socketRead r = tcp at *
  generalize (many Packets.readNextPacket k).run _ = stream at *
  obtain ⟨ws, handler⟩ := ws
  obtain ⟨tcp, receiver⟩ := tcp
  cases ws with
  | error e =>
    cases tcp with
    | error e' => trivial
    | ok packets =>
      cases stream with
      | error e' => exact htcp.elim
      | ok p => exact hws.elim
  | ok packets =>
    cases stream with
    | error e => exact hws.elim
    | ok p =>
      cases tcp with
      | error e' => exact htcp.elim
      | ok packets' => exact hws.1.trans htcp.1.symm

theorem same_packets_unsubscribing :
    SameResult
      ((readPackets 1).runOn Websocket.read
        ⟨Websocket.wire unsubscribing ++ [130], [], true, []⟩)
      ((readPackets 1).runOn socketRead ⟨[162, 5, 0, 1, 0, 1, 97], []⟩) :=
  same_packets unsubscribing_conversation (by decide) rfl 1 (inStep_sizes _ _)

end

end MoteBroker.Transports

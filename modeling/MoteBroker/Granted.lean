import MoteBroker.Dispatch
import MoteBroker.Lib.Runs
import MoteBroker.PacketIds
import MoteBroker.Requests

/-!
Granted subscriptions: the qos of a SUBSCRIBE packet on its way through the subscription tree into
the packets that `send_message` writes, and for which messages and qos these are read as meant.
-/

namespace MoteBroker.Granted

open ByteReader MoteBroker.Topics MoteBroker.RecursiveDefaultDict MoteBroker.TreeItems
open MoteBroker.Messages MoteBroker.Streams MoteBroker.PacketTypes MoteBroker.Packets
open MoteBroker.CreateMessages MoteBroker.Broker MoteBroker.Subscriptions MoteBroker.Requests

/-! ### The packet of a message -/

/-- The data of a message as a field of a packet. -/
def dataValue : OutData → Value
  | .emptyStr => .str []
  | .payload none => .none
  | .payload (some b) => .bytes b

/-- The PUBLISH packet of `send_message`, with the id for a message whose qos is not 0. -/
def messagePacket (message : OutgoingMessage) (id : Option ℕ) : Packet where
  cls := .publish
  flags := .publish (.fromKwargs false message.qos)
  length := 0
  kwargs
    | .topic => some (.value (.str message.topic))
    | .data => some (.value (dataValue message.data))
    | .id => id.map fun id => .value (.int id)
    | _ => none

/-- The packet is written, its first byte says PUBLISH, and `PublishPacket.read` reads the topic and
the data of the message and the qos. -/
def Served (message : OutgoingMessage) (qos : ℕ) (packet : Packet) : Prop :=
  ∃ header rest p, packet.toBytes = .ok (header :: rest) ∧ header.toNat >>> 4 = 3 ∧
    Reads (PacketClass.publish.read none) (header :: rest) p ∧
    p.kwargs .topic = some (.value (.str message.topic)) ∧
    p.kwargs .data = some (.value (dataValue message.data)) ∧
    ∃ flags, p.flags = .publish flags ∧ flags.qos = qos

def dataLength : OutData → ℕ
  | .payload (some b) => b.length
  | _ => 0

/-- How many bytes follow the length of the packet. -/
def payloadLength (message : OutgoingMessage) : ℕ :=
  (Utf8.encode message.topic).length + 2 + (if message.qos = 0 then 0 else 2) +
    dataLength message.data

/-- The packet has an id when the qos is not 0. -/
def Numbered (message : OutgoingMessage) (id : Option ℕ) : Prop :=
  if message.qos = 0 then id = none else ∃ i < 65536, id = some i

/-- The data of a message that has been dispatched: `None`, or bytes that are not empty. -/
def Meant (data : OutData) : Prop := data ≠ .emptyStr ∧ data ≠ .payload (some [])

section
variable {message : OutgoingMessage} {id : Option ℕ}

lemma Meant.fits {data : OutData} (h : Meant data) :
    PacketType.Fits (.basic .remainingBytes) (.value (dataValue data)) := by
  match data, h with
  | .emptyStr, h => exact absurd rfl h.1
  | .payload none, _ => exact .noBytes
  | .payload (some b), h =>
    refine .bytes ?_
    rintro rfl
    exact h.2 rfl

/-- The fields of the packet, and their length. -/
lemma messagePacket_payload (htopic : (Utf8.encode message.topic).length < 65536)
    (hid : Numbered message id) (hdata : Meant message.data) :
    ∃ payload, fieldsToBytes (messagePacket message id).cls (messagePacket message id).flags
        (messagePacket message id).kwargs (messagePacket message id).cls.fields = .ok payload ∧
      payload.length = payloadLength message := by
  obtain ⟨bs, hbs, hlength⟩ : ∃ bs, Basic.toBytes .remainingBytes (dataValue message.data) =
      .ok bs ∧ bs.length = dataLength message.data := by
    match message.data, hdata with
    | .emptyStr, h => exact absurd rfl h.1
    | .payload none, _ => exact ⟨[], rfl, rfl⟩
    | .payload (some b), _ => exact ⟨b, rfl, rfl⟩
  have hstr : Basic.toBytes .dynamicStr (.str message.topic) =
      .ok (toBE 2 (Utf8.encode message.topic).length ++ Utf8.encode message.topic) := by
    simp only [Basic.toBytes, pack]
    rw [if_pos (show _ < 256 ^ 2 from htopic)]
    rfl
  unfold Numbered at hid
  unfold payloadLength
  split_ifs at hid ⊢ with hqos
  · subst hid
    refine ⟨toBE 2 (Utf8.encode message.topic).length ++ Utf8.encode message.topic ++ bs, ?_, ?_⟩
    · simp [messagePacket, PacketClass.fields, fieldsToBytes, PacketClass.isEnabled,
        PublishFlags.fromKwargs, PacketType.toBytes, hstr, hqos, hbs]
    · simp [hlength]
      omega
  · obtain ⟨i, hi, rfl⟩ := hid
    have hint : Basic.toBytes .packetId (.int i) = .ok (toBE 2 i) := if_pos hi
    refine ⟨toBE 2 (Utf8.encode message.topic).length ++ Utf8.encode message.topic ++
      (toBE 2 i ++ bs), ?_, ?_⟩
    · simp [messagePacket, PacketClass.fields, fieldsToBytes, PacketClass.isEnabled,
        PublishFlags.fromKwargs, PacketType.toBytes, hstr, hint, hbs, Nat.pos_of_ne_zero hqos]
    · simp [hlength]
      omega

/-- The packet of a message fits the format when the qos has two bits. -/
lemma messagePacket_fits (hqos : message.qos ≤ 3)
    (htopic : (Utf8.encode message.topic).length < 65536) (hid : Numbered message id)
    (hdata : Meant message.data) (hlength : payloadLength message < 2 ^ 28) :
    (messagePacket message id).Fits where
  written := show PacketClass.publish ∈ PacketClass.written by decide
  flags := publish_flags_fit false hqos
  fields := by
    intro field hfield hon
    simp only [messagePacket, PacketClass.fields, List.mem_cons, List.not_mem_nil, or_false]
      at hfield
    rcases hfield with rfl | rfl | rfl
    · exact ⟨_, rfl, .sized (.dynamicStr htopic)⟩
    · have hpos : message.qos ≠ 0 := by
        intro hzero
        have : Except.ok (decide (message.qos > 0)) = (Except.ok true : Except Exc Bool) := hon
        rw [hzero] at this
        exact absurd this (by simp)
      unfold Numbered at hid
      rw [if_neg hpos] at hid
      obtain ⟨i, hi, rfl⟩ := hid
      exact ⟨_, rfl, .sized (.packetId hi)⟩
    · exact ⟨_, rfl, hdata.fits⟩
  length := by
    intro payload h
    obtain ⟨payload', h', hlen⟩ := messagePacket_payload htopic hid hdata
    cases h.symm.trans h'
    rw [hlen]
    exact hlength

/-! ### Reading it -/

lemma read_none (cls : PacketClass) : cls.read none = (do
    let (msgType, flags) ← decodeHeader
    let curClass ← inferPacketClass msgType
    if cls ≠ curClass then throw .packetMismatchError
    cls.read (some flags)) := rfl

/-- Reading a packet of a class is reading the next packet. -/
lemma read_none_of_readNextPacket {bs rest : Bytes} {p : Packet}
    (h : readNextPacket.run bs = .ok (p, rest)) : (p.cls.read none).run bs = .ok (p, rest) := by
  obtain ⟨⟨msgType, flags⟩, tail, hheader, h⟩ := run_bind_ok h
  obtain ⟨cls, tail', hinfer, hread⟩ := run_bind_ok h
  obtain ⟨hcode, rfl⟩ := run_liftM_ok hinfer
  have hcls : p.cls = cls := by
    rw [Framing.read_some] at hread
    obtain ⟨length, body, -, h⟩ := run_bind_ok hread
    obtain ⟨⟨kwargs, n⟩, left, -, hpure⟩ := run_bind_ok h
    cases hpure
    rfl
  subst hcls
  rw [read_none, StateT.run_bind, hheader, ok_bind]
  change StateT.run ((liftM (inferPacketClass msgType) : Stream PacketClass) >>= _) _ = _
  rw [StateT.run_bind, hinfer, ok_bind]
  dsimp only
  rw [if_neg (not_not.mpr rfl)]
  exact hread

/-- What is read has flags of four bits, and a length. -/
lemma read_none_ok {cls : PacketClass} {bs rest : Bytes} {p : Packet}
    (h : (cls.read none).run bs = .ok (p, rest)) :
    (∃ n, p.flags = cls.flagsFromInt (n &&& 0x0f)) ∧
      ∃ header tail r, bs = header :: tail ∧ decodePacketLength.run tail = .ok r := by
  rw [read_none] at h
  obtain ⟨⟨msgType, flags⟩, tail, hheader, hnext⟩ := run_bind_ok h
  obtain ⟨curClass, tail', hinfer, hread⟩ := run_bind_ok hnext
  obtain ⟨-, rfl⟩ := run_liftM_ok hinfer
  obtain ⟨header, rfl⟩ := Framing.decodeHeader_ok hheader
  dsimp only at hread
  split_ifs at hread
  · cases hread
  · rw [Framing.read_some] at hread
    obtain ⟨length, body, hlength, hbody⟩ := run_bind_ok hread
    obtain ⟨⟨kwargs, n⟩, left, -, hpure⟩ := run_bind_ok hbody
    cases hpure
    obtain ⟨byte, _, -, hpure⟩ := run_bind_ok hheader
    cases hpure
    exact ⟨⟨ofBE byte, rfl⟩, header, _, _, rfl, hlength⟩

/-- From `2 ^ 28` on a length has more bytes than are read. -/
lemma lengthLoop_fails {k n multiplier : ℕ} (hn : 128 ^ k ≤ n) (hm : multiplier * 128 ^ k = 128 ^ 4)
    (value : ℕ) (rest : Bytes) :
    ∃ e, (lengthLoop k multiplier value).run (lengthBytes n ++ rest) = .error e := by
  induction k generalizing n multiplier value with
  | zero => exact ⟨_, rfl⟩
  | succ k ih =>
    rw [pow_succ] at hn hm
    have hpos : 0 < 128 ^ k := Nat.pow_pos (by norm_num)
    have hdiv : n / 0x80 > 0 := by omega
    have hlt : n % 0x80 < 0x80 := Nat.mod_lt _ (by norm_num)
    obtain ⟨-, -, hor, -, hset⟩ := byte_bits (n % 0x80) hlt
    obtain ⟨hread, hval⟩ := reads_byte (n := n % 0x80 + 0x80) (by omega)
    unfold lengthLoop lengthBytes
    rw [if_pos hdiv, hor, StateT.run_bind, List.cons_append]
    rw [show (Streams.read 1).run
      (UInt8.ofNat (n % 0x80 + 0x80) :: (lengthBytes (n / 0x80) ++ rest)) = _ from hread _, ok_bind]
    simp only [hval, if_neg hset]
    split_ifs
    · exact ⟨_, rfl⟩
    · exact ih (by omega) (by rw [← hm]; ring) _

lemma decodePacketLength_fails {n : ℕ} (hn : 2 ^ 28 ≤ n) (rest : Bytes) :
    ∃ e, decodePacketLength.run (lengthBytes n ++ rest) = .error e :=
  lengthLoop_fails (show 128 ^ 4 ≤ n by omega) (by norm_num) 0 rest

/-! ### Which messages are served -/

/-- The bytes of a packet: its header, the length of the payload, the payload. -/
lemma toBytes_ok {p : Packet} {bs : Bytes} (h : p.toBytes = .ok bs) :
    ∃ payload, fieldsToBytes p.cls p.flags p.kwargs p.cls.fields = .ok payload ∧
      bs = UInt8.ofNat (p.cls.typeCode <<< 4 ||| p.flags.toInt) ::
        (lengthBytes payload.length ++ payload) := by
  obtain ⟨payload, hpayload, h⟩ := ok_of_bind h
  obtain ⟨header, hheader, hpure⟩ := ok_of_bind h
  cases hpure
  unfold Packet.getHeaderBytes at hheader
  split_ifs at hheader
  cases hheader
  exact ⟨payload, hpayload, rfl⟩

lemma fromInt_qos_le (n : ℕ) : (PublishFlags.fromInt n).qos ≤ 3 := by
  have hle : n &&& 0x06 ≤ 6 := Nat.and_le_right
  simp only [PublishFlags.fromInt, Nat.shiftRight_one]
  omega

lemma publish_header : ∀ qos < 4, (UInt8.ofNat (PacketClass.publish.typeCode <<< 4 |||
    (Flags.publish (.fromKwargs false qos)).toInt)).toNat >>> 4 = 3 := by
  decide

/-- **The packet of a message is served** exactly when its qos has two bits and its length fits the
header. -/
theorem served_messagePacket_iff (htopic : (Utf8.encode message.topic).length < 65536)
    (hid : Numbered message id) (hdata : Meant message.data) :
    Served message message.qos (messagePacket message id) ↔
      message.qos ≤ 3 ∧ payloadLength message < 2 ^ 28 := by
  refine ⟨?_, ?_⟩
  · rintro ⟨header, rest, p, hbytes, -, hread, -, -, flags, hflags, hqos⟩
    obtain ⟨⟨n, hn⟩, header', tail, r, hcons, hlength⟩ := read_none_ok (hread [])
    refine ⟨?_, not_le.mp fun hlong => ?_⟩
    · -- a qos that is read has two bits
      cases hflags.symm.trans hn
      rw [← hqos]
      exact fromInt_qos_le _
    · obtain ⟨payload, hpayload, hpl⟩ := messagePacket_payload htopic hid hdata
      obtain ⟨payload', hpayload', hbs⟩ := toBytes_ok hbytes
      cases hpayload.symm.trans hpayload'
      obtain ⟨e, he⟩ := decodePacketLength_fails (hpl ▸ hlong) (payload ++ [])
      rw [hbs, List.cons_append, List.append_assoc] at hcons
      rw [(List.cons.inj hcons).2, hlength] at he
      cases he
  · rintro ⟨hqos, hlength⟩
    obtain ⟨bs, p, hbytes, hread, hsame⟩ :=
      (messagePacket_fits hqos htopic hid hdata hlength).reads
    obtain ⟨payload, -, rfl⟩ := toBytes_ok hbytes
    have hcls : p.cls = .publish := hsame.cls
    refine ⟨_, _, p, hbytes, publish_header message.qos (by omega), fun rest => ?_, ?_, ?_, ?_⟩
    · rw [← hcls]
      exact read_none_of_readNextPacket (hread rest)
    · exact hsame.enabled (.topic, .basic .dynamicStr) List.mem_cons_self rfl
    · exact hsame.enabled (.data, .basic .remainingBytes) (by simp [messagePacket,
        PacketClass.fields]) rfl
    · exact ⟨_, hsame.flags, rfl⟩

end

/-! ### The write loop -/

/-- The broker queues a message, the write loop takes a step, the read loop handles a packet, for
which it finds this condition first, or the thread of a packet takes a step. -/
inductive Event
  | queue (message : OutgoingMessage)
  | write (fails : Bool)
  | read (condition : ℕ) (packet : Exchanges.FromClient)
  | work (k : ℕ) (fails : Bool)

def step (h : Exchanges.Handler) : Event → Option Exchanges.Handler
  | .queue message => some { h with messageQueue := h.messageQueue ++ [message] }
  | .write fails => (h.sendMessage fails).map Prod.fst
  | .read condition packet => h.handlePacket condition packet
  | .work k fails => h.threads[k]?.bind fun t => (h.handlePublish k t fails).map Prod.fst

/-- The message and the packet id of the PUBLISH packet that the write loop is to write. -/
def sends : Exchanges.Writer → Option (OutgoingMessage × Option ℕ)
  | .unnumbered message => some (message, none)
  | .publishing message id _ => some (message, some id)
  | _ => none

/-- A message has an id, or is to get one, when its qos is not 0. -/
def WellNumbered : Exchanges.Writer → Prop
  | .unnumbered message => message.qos = 0
  | .numbering message => message.qos ≠ 0
  | .registering message id | .publishing message id _ => message.qos ≠ 0 ∧ id < 65536
  | _ => True

lemma WellNumbered.sends {writer : Exchanges.Writer} (hw : WellNumbered writer)
    {message : OutgoingMessage} {id : Option ℕ} (hs : sends writer = some (message, id)) :
    Numbered message id := by
  unfold Granted.sends at hs
  split at hs <;> cases hs
  · exact (if_pos hw).mpr rfl
  · exact (if_neg hw.1).mpr ⟨_, hw.2, rfl⟩

lemma WellNumbered.writes {h h' : Exchanges.Handler} {out : List Exchanges.ToClient}
    (hw : WellNumbered h.writer) (hs : Exchanges.Writes h h' out) : WellNumbered h'.writer := by
  cases hs with
  | @take message queue hpc hq =>
    dsimp only
    split_ifs with hqos
    · exact hqos
    · exact hqos
  | number hpc hid =>
    rw [hpc] at hw
    obtain ⟨-, hlt, -⟩ := PacketIds.nextPacketIdFrom_some hid
    exact ⟨hw, by omega⟩
  | register hpc =>
    rw [hpc] at hw
    exact hw
  | answered =>
    dsimp only [Exchanges.Handler.write]
    split_ifs <;> trivial
  | _ => trivial

lemma wellNumbered_step {h h' : Exchanges.Handler} {e : Event}
    (hi : Exchanges.Wired h ∧ WellNumbered h.writer) (hs : step h e = some h') :
    Exchanges.Wired h' ∧ WellNumbered h'.writer := by
  obtain ⟨hwired, hw⟩ := hi
  cases e with
  | queue message =>
    cases hs
    exact ⟨hwired.keep rfl rfl fun v => by cases v <;> rfl, hw⟩
  | write fails =>
    obtain ⟨⟨_, out⟩, hsend, rfl⟩ := Option.map_eq_some_iff.mp hs
    have hwrites := Exchanges.writes_of_sendMessage hwired hsend
    exact ⟨hwired.writes hwrites, hw.writes hwrites⟩
  | read condition packet =>
    have hreads := Exchanges.reads_of_handlePacket hs
    refine ⟨hwired.reads hreads, ?_⟩
    rw [hreads.sameWriter.writer]
    exact hw
  | work k fails =>
    obtain ⟨t, hk, hs⟩ := Option.bind_eq_some_iff.mp hs
    obtain ⟨⟨_, out⟩, hwork, rfl⟩ := Option.map_eq_some_iff.mp hs
    have hworks := Exchanges.works_of_handlePublish hwired hwork
    refine ⟨hwired.works hk hworks, ?_⟩
    rw [hworks.sameWriter.writer]
    exact hw

/-- **Whatever the threads do**, the write loop sends a message with an id just when its qos is not
0. -/
lemma wellNumbered_of_run {es : List Event} {w : Exchanges.Handler}
    (hrun : Runs.run step .new es = some w) : WellNumbered w.writer :=
  (Runs.run_invariant_of_step (fun _ _ _ => wellNumbered_step) ⟨Exchanges.wired_new, trivial⟩
    hrun).2

/-! ### The qos that is granted -/

/-- The call leaves the client's subscription to the filter alone. -/
def Spares (id filter : Str) : Call → Prop
  | .subscribe client topic_str _ _ => client.id = id → topic_str ≠ filter
  | .unsubscribe client topics => client.id = id → filter ∉ topics

section
variable {m : Registry} {id filter : Str}

lemma Spares.after {c : Call} (hc : Spares id filter c) :
    m.after c (split filter, id) = m (split filter, id) := by
  cases c with
  | subscribe client topic_str qos tree =>
    refine Function.update_of_ne (fun hk => ?_) _ _
    obtain ⟨hfilter, hid⟩ := Prod.mk.inj hk
    exact hc hid.symm (split_injective hfilter).symm
  | unsubscribe client topics =>
    refine if_neg ?_
    rintro ⟨hid, hin⟩
    obtain ⟨topic, htopic, heq⟩ := List.mem_map.mp hin
    exact hc hid.symm (split_injective heq ▸ htopic)

lemma foldl_after_spares {calls : List Call} (hcalls : ∀ c ∈ calls, Spares id filter c) :
    calls.foldl Registry.after m (split filter, id) = m (split filter, id) := by
  induction calls generalizing m with
  | nil => rfl
  | cons c calls ih =>
    rw [List.foldl_cons, ih fun d hd => hcalls d (List.mem_cons_of_mem _ hd),
      (hcalls c List.mem_cons_self).after]

/-- The last request for a filter decides what is registered for it. -/
lemma registryAfter_last {before after : List SubscribePayload} {request : SubscribePayload}
    (hlast : ∀ r ∈ after, filterOf r.topic ≠ filterOf request.topic) :
    registryAfter m id (before ++ request :: after) (split (filterOf request.topic), id) =
      some (request.qos : ℕ) := by
  have hafter : ∀ m : Registry, registryAfter m id after (split (filterOf request.topic), id) =
      m (split (filterOf request.topic), id) := by
    induction after with
    | nil => exact fun _ => rfl
    | cons r after ih =>
      intro m
      have hne := hlast r List.mem_cons_self
      rw [registryAfter, List.foldl_cons, ← registryAfter,
        ih fun r hr => hlast r (List.mem_cons_of_mem _ hr)]
      exact Function.update_of_ne
        (fun hk => hne (split_injective (congrArg Prod.fst hk)).symm) _ _
  rw [registryAfter, List.foldl_append, List.foldl_cons, ← registryAfter, ← registryAfter, hafter]
  exact Function.update_self _ _ _

/-- **The qos that is granted stays registered** until the client asks for the filter again or ends
the subscription. -/
theorem granted_entry {h : Handler} (hs : Sound h.broker m) {packet : SubscribePacket}
    (hgranted : (h.handleSubscribe packet).2 = none) {before after : List SubscribePayload}
    {request : SubscribePayload} (hrequest : packet.requests = before ++ request :: after)
    (hlast : ∀ r ∈ after, filterOf r.topic ≠ filterOf request.topic) {calls : List Call}
    (hcalls : ∀ c ∈ calls, Spares h.client.id (filterOf request.topic) c) :
    entry (performAll (h.handleSubscribe packet).1.broker calls) h.client.id
      (filterOf request.topic) = some (request.qos : ℕ) := by
  by_cases hserve : ∀ request ∈ packet.requests, Servable h.broker.treeManager.tree request
  · obtain ⟨h', hall, -, hclient, hs'⟩ := hs.serveAll hserve
    obtain ⟨bs, hbs⟩ := exists_suback packet
    have hhandle : (h.handleSubscribe packet).1.broker = h'.broker := by
      unfold Handler.handleSubscribe Handler.write
      rw [hall]
      dsimp only
      rw [hbs]
      rfl
    obtain ⟨hrep, -⟩ := hs'.store.performAll calls
    unfold entry
    rw [hhandle, hrep.lookup, foldl_after_spares fun c hc =>
      hcalls c (Dispatch.returned_subset _ _ hc), hrequest, registryAfter_last hlast]
  · obtain ⟨h', e, hall, -⟩ := hs.serveAll_error hserve
    unfold Handler.handleSubscribe at hgranted
    rw [hall] at hgranted
    cases hgranted

end

/-- **Which granted subscriptions can be served.** After a SUBSCRIBE packet that is answered, and
any calls that leave the subscription alone, take a message with the registered qos that the write
loop is to send, whatever the threads have done before: its packet is read with the topic, the data
and the granted qos exactly when the qos has two bits and the packet fits its header. -/
theorem served_iff {h : Handler} {m : Registry} (hs : Sound h.broker m) (packet : SubscribePacket)
    (hgranted : (h.handleSubscribe packet).2 = none) {before after : List SubscribePayload}
    {request : SubscribePayload} (hrequest : packet.requests = before ++ request :: after)
    (hlast : ∀ r ∈ after, filterOf r.topic ≠ filterOf request.topic) (calls : List Call)
    (hcalls : ∀ c ∈ calls, Spares h.client.id (filterOf request.topic) c)
    {es : List Event} {w : Exchanges.Handler} (hrun : Runs.run step .new es = some w)
    {message : OutgoingMessage} {id : Option ℕ} (hsends : sends w.writer = some (message, id))
    (hqos : entry (performAll (h.handleSubscribe packet).1.broker calls) h.client.id
      (filterOf request.topic) = some message.qos)
    (htopic : (Utf8.encode message.topic).length < 65536) (hdata : Meant message.data) :
    Served message request.qos (messagePacket message id) ↔
      (request.qos : ℕ) ≤ 3 ∧ payloadLength message < 2 ^ 28 := by
  rw [granted_entry hs hgranted hrequest hlast hcalls] at hqos
  rw [Option.some.inj hqos]
  exact served_messagePacket_iff htopic ((wellNumbered_of_run hrun).sends hsends) hdata

/-- The light is on. -/
def lit (qos : ℕ) : OutgoingMessage := ⟨"lights".toList, qos, .payload (some [49])⟩

theorem served_lights : Served (lit 1) 1 (messagePacket (lit 1) (some 0)) := by
  have hs : Sound (app .nil).broker fun _ => none := sound_app trivial trivial
  -- the write loop takes the message, numbers it and creates its condition
  have hrun : ∃ w, Runs.run step .new [.queue (lit 1), .write false, .write false, .write false] =
      some w ∧ sends w.writer = some (lit 1, some 0) := ⟨_, rfl, rfl⟩
  obtain ⟨w, hrun, hsends⟩ := hrun
  refine (served_iff hs (subscription "lights".toList 1) (by decide) (List.nil_append _).symm
    (fun _ hr => (nomatch hr)) [] (fun _ hc => (nomatch hc)) hrun hsends ?_ (by decide)
    ⟨by decide, by decide⟩).mpr ⟨by decide, by decide⟩
  decide

/-- A subscription of qos 4 is granted, and no message is read with that qos. -/
theorem lights_not_served :
    ((app .nil).handleSubscribe (subscription "lights".toList 4)).2 = none ∧
      entry ((app .nil).handleSubscribe (subscription "lights".toList 4)).1.broker "app".toList
        "lights".toList = some 4 ∧
      ¬Served (lit 4) 4 (messagePacket (lit 4) (some 0)) := by
  refine ⟨by decide, by decide, fun hserved => ?_⟩
  have hnumbered : Numbered (lit 4) (some 0) := ⟨0, by norm_num, rfl⟩
  have := ((served_messagePacket_iff (by decide) hnumbered ⟨by decide, by decide⟩).mp hserved).1
  exact absurd this (by decide)

end MoteBroker.Granted

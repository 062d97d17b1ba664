import MoteBroker.Packets

/-!
The packets that clients write: the bytes of CONNECT, SUBSCRIBE and UNSUBSCRIBE, and that
`read_next_packet` reads from them what they stand for.
-/

namespace MoteBroker.ClientPackets

open ByteReader MoteBroker.Topics MoteBroker.Streams MoteBroker.PacketTypes MoteBroker.Packets

/-! ### What clients write -/

/-- A string whose bytes can be counted in two. -/
structure Text where
  str : Str
  fits : (Utf8.encode str).length < 256 ^ 2

def Text.wire (t : Text) : Bytes := toBE 2 (Utf8.encode t.str).length ++ Utf8.encode t.str

/-- Bytes that can be counted in two. -/
structure Blob where
  bytes : Bytes
  fits : bytes.length < 256 ^ 2

def Blob.wire (b : Blob) : Bytes := toBE 2 b.bytes.length ++ b.bytes

structure Connect where
  protocolName : Text
  protocolLevel : UInt8
  reserved : Bool
  cleanSession : Bool
  willQos : Fin 4
  retainWill : Bool
  keepAlive : UInt16
  clientId : Text
  will : Option (Text × Blob)
  username : Option Text
  password : Option Text

structure Subscribe where
  id : UInt16
  requests : List (Text × UInt8)

structure Unsubscribe where
  id : UInt16
  topics : List Text

inductive ClientPacket
  | connect (c : Connect)
  | subscribe (s : Subscribe)
  | unsubscribe (u : Unsubscribe)

/-! ### Its bytes -/

def flagByte (reserved cleanSession will : Bool) (willQos : Fin 4)
    (retainWill password username : Bool) : ℕ :=
  (if reserved then 0x01 else 0) ||| (if cleanSession then 0x02 else 0) |||
    (if will then 0x04 else 0) ||| (willQos : ℕ) <<< 3 ||| (if retainWill then 0x20 else 0) |||
    (if password then 0x40 else 0) ||| (if username then 0x80 else 0)

def Connect.flagByte (c : Connect) : ℕ :=
  ClientPackets.flagByte c.reserved c.cleanSession c.will.isSome c.willQos c.retainWill
    c.password.isSome c.username.isSome

/-- The bytes of a field that may be left out. -/
def optional {α : Type} (wire : α → Bytes) (o : Option α) : Bytes := o.elim [] wire

def Connect.payload (c : Connect) : Bytes :=
  c.protocolName.wire ++ (toBE 1 c.protocolLevel.toNat ++ (toBE 1 c.flagByte ++
    (toBE 2 c.keepAlive.toNat ++ (c.clientId.wire ++ (optional (·.1.wire) c.will ++
      (optional (·.2.wire) c.will ++ (optional Text.wire c.username ++
        optional Text.wire c.password)))))))

/-- A topic and the qos that is asked for. -/
def requestWire (request : Text × UInt8) : Bytes :=
  request.1.wire ++ toBE 1 request.2.toNat

def Subscribe.payload (s : Subscribe) : Bytes :=
  toBE 2 s.id.toNat ++ s.requests.flatMap requestWire

def Unsubscribe.payload (u : Unsubscribe) : Bytes :=
  toBE 2 u.id.toNat ++ u.topics.flatMap Text.wire

def ClientPacket.payload : ClientPacket → Bytes
  | .connect c => c.payload
  | .subscribe s => s.payload
  | .unsubscribe u => u.payload

def ClientPacket.cls : ClientPacket → PacketClass
  | .connect _ => .connect
  | .subscribe _ => .subscribe
  | .unsubscribe _ => .unsubscribe

/-- A packet with the low bits of its header and bytes that stand for the length of its payload. -/
structure Image where
  packet : ClientPacket
  flags : Fin 16
  lengthBytes : Bytes
  length : LengthImage 4 packet.payload.length lengthBytes

def Image.wire (image : Image) : Bytes :=
  UInt8.ofNat (image.packet.cls.typeCode <<< 4 ||| (image.flags : ℕ)) ::
    (image.lengthBytes ++ image.packet.payload)

/-! ### What it stands for -/

/-- The flags, each of them as it was written. -/
def Connect.flags (c : Connect) : ConnectFlags where
  data := c.flagByte
  cleanSession := c.cleanSession
  enableLastWill := c.will.isSome
  retainLastWill := c.retainWill
  enablePassword := c.password.isSome
  enableUsername := c.username.isSome
  lastWillQos := c.willQos

def Connect.kwargs (c : Connect) : Kwargs
  | .protocolName => some (.value (.str c.protocolName.str))
  | .protocolLevel => some (.value (.int c.protocolLevel.toNat))
  | .connectFlags => some (.value (.connectFlags c.flags))
  | .keepAlive => some (.value (.int c.keepAlive.toNat))
  | .clientId => some (.value (.str c.clientId.str))
  | .lastWillTopic => c.will.map fun will => .value (.str will.1.str)
  | .lastWillMessage => c.will.map fun will => .value (.bytes will.2.bytes)
  | .username => c.username.map fun text => .value (.str text.str)
  | .password => c.password.map fun text => .value (.str text.str)
  | _ => none

def requestValues (request : Text × UInt8) : List (FieldName × Value) :=
  [(.topic, .str request.1.str), (.qos, .int request.2.toNat)]

def Subscribe.kwargs (s : Subscribe) : Kwargs
  | .id => some (.value (.int s.id.toNat))
  | .requests => some (.payloads (s.requests.map requestValues))
  | _ => none

def Unsubscribe.kwargs (u : Unsubscribe) : Kwargs
  | .id => some (.value (.int u.id.toNat))
  | .topics => some (.list (u.topics.map fun topic => .str topic.str))
  | _ => none

def ClientPacket.kwargs : ClientPacket → Kwargs
  | .connect c => c.kwargs
  | .subscribe s => s.kwargs
  | .unsubscribe u => u.kwargs

/-- The packet with these field values and no others. -/
def Image.decoded (image : Image) : Packet where
  cls := image.packet.cls
  flags := .int image.flags
  length := image.packet.payload.length
  kwargs := image.packet.kwargs

/-! ### The fields -/

lemma reads_int {size n : ℕ} (h : n < 256 ^ size) (length : ℤ) :
    Reads ((PacketType.basic (.staticInt size)).read length) (toBE size n)
      (.value (.int n), (toBE size n).length, length) := by
  rw [length_toBE]
  exact ((reads_readInt h).map fun n => (Value.int n, size)).bind_nil (Reads.pure _)

lemma reads_packetId {n : ℕ} (h : n < 256 ^ 2) (length : ℤ) :
    Reads ((PacketType.basic .packetId).read length) (toBE 2 n)
      (.value (.int n), (toBE 2 n).length, length) := by
  rw [length_toBE]
  exact ((reads_readInt h).map fun n => (Value.int n, 2)).bind_nil (Reads.pure _)

lemma Text.reads_basic (t : Text) (length : ℤ) :
    Reads (Basic.dynamicStr.read length) t.wire (.str t.str, t.wire.length) := by
  have hlength : t.wire.length = (Utf8.encode t.str).length + 2 := by
    rw [Text.wire, List.length_append, length_toBE, Nat.add_comm]
  rw [hlength]
  exact (reads_decodeStr t.fits).bind_nil (Reads.pure _)

lemma Text.reads (t : Text) (length : ℤ) :
    Reads ((PacketType.basic .dynamicStr).read length) t.wire
      (.value (.str t.str), t.wire.length, length) :=
  (t.reads_basic length).bind_nil (Reads.pure _)

lemma Blob.reads (b : Blob) (length : ℤ) :
    Reads ((PacketType.basic .dynamicBytes).read length) b.wire
      (.value (.bytes b.bytes), b.wire.length, length) := by
  have hcount := reads_read (toBE 2 b.bytes.length)
  rw [length_toBE] at hcount
  have hdecode : Reads decodeBytes b.wire (b.bytes, 2 + b.bytes.length) := by
    refine hcount.bind ?_
    rw [ofBE_toBE b.fits]
    exact (reads_read b.bytes).bind_nil (Reads.pure _)
  have hlength : b.wire.length = 2 + b.bytes.length := by
    rw [Blob.wire, List.length_append, length_toBE]
  have hbasic : Reads (Basic.dynamicBytes.read length) b.wire (.bytes b.bytes, b.wire.length) := by
    rw [hlength]
    exact hdecode.bind_nil (Reads.pure _)
  exact hbasic.bind_nil (Reads.pure _)

lemma flagByte_spec : ∀ (reserved cleanSession will : Bool) (willQos : Fin 4)
    (retainWill password username : Bool),
    flagByte reserved cleanSession will willQos retainWill password username < 256 ^ 1 ∧
      ConnectFlags.fromInt
        (flagByte reserved cleanSession will willQos retainWill password username) =
        ⟨flagByte reserved cleanSession will willQos retainWill password username, cleanSession,
          will, retainWill, password, username, willQos⟩ := by
  decide

lemma Connect.reads_flags (c : Connect) (length : ℤ) :
    Reads ((PacketType.basic .connectFlags).read length) (toBE 1 c.flagByte)
      (.value (.connectFlags c.flags), (toBE 1 c.flagByte).length, length) := by
  obtain ⟨hlt, hflags⟩ := flagByte_spec c.reserved c.cleanSession c.will.isSome c.willQos
    c.retainWill c.password.isSome c.username.isSome
  have hread := (reads_readInt hlt).map fun n => (Value.connectFlags (.fromInt n), 1)
  rw [hflags] at hread
  rw [length_toBE]
  exact hread.bind_nil (Reads.pure _)

/-- A field that is there whatever the flags, and takes the length its value says. -/
lemma reads_required {cls : PacketClass} {flags : Flags} {kwargs after : Kwargs}
    {name : FieldName} {type : Basic} {fields : List (FieldName × PacketType)} {v : Value}
    {bs cs : Bytes} (hon : cls.isEnabled flags kwargs name = .ok true)
    (hread : ∀ length : ℤ, Reads ((PacketType.basic type).read length) bs
      (.value v, bs.length, length))
    (hrest : Reads (readFields cls flags fields (kwargs.set name (.value v)) cs.length) cs
      (after, cs.length)) :
    Reads (readFields cls flags ((name, .basic type) :: fields) kwargs (bs ++ cs).length)
      (bs ++ cs) (after, (bs ++ cs).length) := by
  have hleft : ((bs ++ cs).length : ℤ) - bs.length = cs.length := by
    rw [List.length_append]
    omega
  refine reads_enabled hon (hread _) ?_
  rw [hleft]
  exact hrest

/-- `kwargs` with a field that may be left out. -/
def setOption (kwargs : Kwargs) (name : FieldName) (o : Option Field) : Kwargs :=
  o.elim kwargs (kwargs.set name)

lemma setOption_apply (kwargs : Kwargs) (name n : FieldName) (o : Option Field) :
    setOption kwargs name o n = if n = name then o.or (kwargs n) else kwargs n := by
  cases o <;> simp [setOption, Kwargs.set]

lemma setOption_of_ne {kwargs : Kwargs} {name n : FieldName} {f : Option Field}
    (h : kwargs n = f) (hn : n ≠ name) (o : Option Field) : setOption kwargs name o n = f := by
  rw [setOption_apply, if_neg hn, h]

/-- A field of a connect packet that is there if the flags say so. -/
lemma reads_optional {flags : Flags} {kwargs after : Kwargs} {name : FieldName} {type : Basic}
    {fields : List (FieldName × PacketType)} {α : Type} {wire : α → Bytes} {value : α → Value}
    {o : Option α} {cs : Bytes}
    (hon : PacketClass.connect.isEnabled flags kwargs name = .ok o.isSome)
    (hread : ∀ a (length : ℤ), Reads ((PacketType.basic type).read length) (wire a)
      (.value (value a), (wire a).length, length))
    (hrest : Reads (readFields .connect flags fields
      (setOption kwargs name (o.map fun a => .value (value a))) cs.length) cs (after, cs.length)) :
    Reads (readFields .connect flags ((name, .basic type) :: fields) kwargs
      (optional wire o ++ cs).length) (optional wire o ++ cs)
      (after, (optional wire o ++ cs).length) := by
  cases o with
  | none => exact reads_disabled hon hrest (.basic type)
  | some a => exact reads_required hon (hread a) hrest

lemma reads_end {cls : PacketClass} {flags : Flags} {kwargs after : Kwargs} {length : ℤ}
    (h : kwargs = after) :
    Reads (readFields cls flags [] kwargs length) [] (after, ([] : Bytes).length) := by
  rw [h]
  exact Reads.pure _

/-! ### The packets -/

/-- After the flags have been read they say which fields follow. -/
lemma isEnabled_connect {c : Connect} {kwargs : Kwargs}
    (h : kwargs .connectFlags = some (.value (.connectFlags c.flags))) (flags : Flags) :
    PacketClass.connect.isEnabled flags kwargs .lastWillTopic = .ok c.will.isSome ∧
      PacketClass.connect.isEnabled flags kwargs .lastWillMessage = .ok c.will.isSome ∧
      PacketClass.connect.isEnabled flags kwargs .username = .ok c.username.isSome ∧
      PacketClass.connect.isEnabled flags kwargs .password = .ok c.password.isSome := by
  have hflags : kwargs.connectFlags = .ok c.flags := by simp [Kwargs.connectFlags, h]
  simp only [PacketClass.isEnabled, hflags, ok_bind]
  exact ⟨rfl, rfl, rfl, rfl⟩

lemma Connect.reads (c : Connect) (flags : Flags) :
    Reads (readFields .connect flags PacketClass.connect.fields (fun _ => none)
      c.payload.length) c.payload (c.kwargs, c.payload.length) := by
  refine reads_required rfl c.protocolName.reads ?_
  refine reads_required rfl (reads_int c.protocolLevel.toNat_lt) ?_
  refine reads_required rfl c.reads_flags ?_
  refine reads_required rfl (reads_int c.keepAlive.toNat_lt) ?_
  refine reads_required rfl c.clientId.reads ?_
  refine reads_optional (isEnabled_connect rfl flags).1 (fun will => will.1.reads) ?_
  refine reads_optional (isEnabled_connect (setOption_of_ne rfl (by decide) _) flags).2.1
    (fun will => will.2.reads) ?_
  refine reads_optional (isEnabled_connect (setOption_of_ne
    (setOption_of_ne rfl (by decide) _) (by decide) _) flags).2.2.1 Text.reads ?_
  rw [← List.append_nil (optional Text.wire c.password)]
  refine reads_optional (isEnabled_connect (setOption_of_ne (setOption_of_ne
    (setOption_of_ne rfl (by decide) _) (by decide) _) (by decide) _) flags).2.2.2 Text.reads ?_
  refine reads_end (funext fun n => ?_)
  cases n <;> simp [setOption_apply, Kwargs.set, Connect.kwargs]

lemma reads_payload_cons {name : FieldName} {type : Basic} {fields : List (FieldName × Basic)}
    {v : Value} {kwargs : List (FieldName × Value)} {bs cs : Bytes} {length left : ℤ}
    (hv : Reads (type.read length) bs (v, bs.length))
    (hrest : Reads (readPayload fields (length - bs.length)) cs (kwargs, cs.length, left)) :
    Reads (readPayload ((name, type) :: fields) length) (bs ++ cs)
      ((name, v) :: kwargs, (bs ++ cs).length, left) := by
  rw [List.length_append]
  exact hv.bind (hrest.bind_nil (Reads.pure _))

lemma reads_request (request : Text × UInt8) (length : ℤ) :
    Reads (readPayload [(.topic, .dynamicStr), (.qos, .staticInt 1)] length)
      (requestWire request) (requestValues request, (requestWire request).length,
        length - (requestWire request).length) := by
  have hqos : ∀ length : ℤ, Reads ((Basic.staticInt 1).read length) (toBE 1 request.2.toNat)
      (.int request.2.toNat, (toBE 1 request.2.toNat).length) := fun length => by
    rw [length_toBE]
    exact (reads_readInt request.2.toNat_lt).map fun n => (Value.int n, 1)
  have hleft : length - ((requestWire request).length : ℤ) =
      length - request.1.wire.length - (toBE 1 request.2.toNat).length := by
    rw [requestWire, List.length_append]
    omega
  rw [hleft]
  refine reads_payload_cons (request.1.reads_basic length) ?_
  rw [← List.append_nil (toBE 1 request.2.toNat)]
  exact reads_payload_cons (hqos _) (by rw [List.append_nil]; exact Reads.pure _)

/-- The items of a subscription. -/
lemma reads_requests (requests : List (Text × UInt8)) {turns : ℕ}
    (hturns : requests.length ≤ turns) :
    Reads (readPayloads [(.topic, .dynamicStr), (.qos, .staticInt 1)] turns
      (requests.flatMap requestWire).length) (requests.flatMap requestWire)
      (requests.map requestValues, (requests.flatMap requestWire).length, 0) := by
  induction requests generalizing turns with
  | nil => cases turns <;> exact Reads.pure _
  | cons request requests ih =>
    obtain ⟨turns, rfl⟩ : ∃ n, turns = n + 1 := ⟨turns - 1, by simp at hturns; omega⟩
    have hwire : 0 < (requestWire request).length := by
      rw [requestWire, List.length_append, length_toBE]
      omega
    have hleft : (((request :: requests).flatMap requestWire).length : ℤ) -
        (requestWire request).length = (requests.flatMap requestWire).length := by
      rw [List.flatMap_cons, List.length_append]
      omega
    have hpos : (((request :: requests).flatMap requestWire).length : ℤ) > 0 := by omega
    unfold readPayloads
    rw [if_pos hpos, List.flatMap_cons]
    refine (reads_request request _).bind ?_
    simp only [List.flatMap_cons] at hleft
    simp only [hleft]
    refine (ih (by simpa using hturns)).bind_nil ?_
    rw [List.length_append]
    exact Reads.pure _

lemma length_le_flatMap {α : Type} {wire : α → Bytes} (h : ∀ a, 0 < (wire a).length)
    (l : List α) : l.length ≤ (l.flatMap wire).length := by
  induction l with
  | nil => exact Nat.le_refl 0
  | cons a l ih =>
    have ha := h a
    rw [List.flatMap_cons, List.length_append, List.length_cons]
    omega

lemma Subscribe.reads (s : Subscribe) (flags : Flags) :
    Reads (readFields .subscribe flags PacketClass.subscribe.fields (fun _ => none)
      s.payload.length) s.payload (s.kwargs, s.payload.length) := by
  have hrequests : Reads ((PacketType.dynamicListOf
      [(.topic, .dynamicStr), (.qos, .staticInt 1)]).read (s.requests.flatMap requestWire).length)
      (s.requests.flatMap requestWire)
      (.payloads (s.requests.map requestValues), (s.requests.flatMap requestWire).length, 0) := by
    refine (reads_requests s.requests ?_).bind_nil (Reads.pure _)
    rw [Int.toNat_natCast]
    refine length_le_flatMap (fun request => ?_) s.requests
    rw [requestWire, List.length_append, length_toBE]
    omega
  refine reads_required rfl (reads_int s.id.toNat_lt) ?_
  rw [← List.append_nil (s.requests.flatMap requestWire)]
  refine reads_enabled rfl (by rw [List.append_nil]; exact hrequests)
    (reads_end (funext fun n => ?_))
  cases n <;> simp [Kwargs.set, Subscribe.kwargs]

lemma itemsToBytes_texts (topics : List Text) :
    itemsToBytes .dynamicStr (topics.map fun topic => .str topic.str) =
      .ok (topics.flatMap Text.wire) := by
  induction topics with
  | nil => rfl
  | cons topic topics ih =>
    have htopic : Basic.dynamicStr.toBytes (.str topic.str) = .ok topic.wire := by
      simp only [Basic.toBytes, pack, if_pos topic.fits]
      rfl
    simp [itemsToBytes, htopic, ih]

lemma Unsubscribe.reads (u : Unsubscribe) (flags : Flags) :
    Reads (readFields .unsubscribe flags PacketClass.unsubscribe.fields (fun _ => none)
      u.payload.length) u.payload (u.kwargs, u.payload.length) := by
  have hsized : ∀ v ∈ u.topics.map (fun topic => Value.str topic.str),
      Basic.dynamicStr.Sized v := by
    intro v hv
    obtain ⟨topic, -, rfl⟩ := List.mem_map.mp hv
    exact .dynamicStr topic.fits
  obtain ⟨bs, hbs, left, hread⟩ := (PacketType.Fits.dynamicList hsized).reads
  obtain rfl := Except.ok.inj ((itemsToBytes_texts u.topics).symm.trans hbs)
  refine reads_required rfl (reads_packetId u.id.toNat_lt) ?_
  rw [← List.append_nil (u.topics.flatMap Text.wire)]
  refine reads_enabled rfl (by rw [List.append_nil]; exact hread) (reads_end (funext fun n => ?_))
  cases n <;> simp [Kwargs.set, Unsubscribe.kwargs]

/-- **Client packets decode to what they encode**: whatever follows it, exactly the packet is
taken, and it has the values of its fields and no others. -/
theorem readNextPacket_wire (image : Image) (rest : Bytes) :
    readNextPacket.run (image.wire ++ rest) = .ok (image.decoded, rest) := by
  obtain ⟨packet, flags, lengthBytes, hlength⟩ := image
  have hread : Reads (readFields packet.cls (packet.cls.flagsFromInt flags) packet.cls.fields
      (fun _ => none) packet.payload.length) packet.payload
      (packet.kwargs, packet.payload.length) := by
    cases packet with
    | connect c => exact c.reads _
    | subscribe s => exact s.reads _
    | unsubscribe u => exact u.reads _
  have hflags : packet.cls.flagsFromInt flags = .int flags := by
    cases packet <;> rfl
  have hpacket := reads_packet flags.isLt hlength.reads_decodePacketLength hread
  rw [hflags] at hpacket
  exact hpacket rest

/-- A client that says of itself how it is called, and what to tell about the door when it is
gone. -/
def appConnect : Connect where
  protocolName := ⟨"MQTT".toList, by decide⟩
  protocolLevel := 4
  reserved := false
  cleanSession := true
  willQos := 1
  retainWill := true
  keepAlive := 60
  clientId := ⟨"app".toList, by decide⟩
  will := some (⟨"door".toList, by decide⟩, ⟨[49], by decide⟩)
  username := some ⟨"me".toList, by decide⟩
  password := none

/-- Its packet, with more bytes for the length than it takes. -/
def appImage : Image where
  packet := .connect appConnect
  flags := 0
  lengthBytes := [0x9C, 0]
  length := .more (k := 3) (n := 0) (by decide : 28 < 0x80) (.last (by decide))

theorem readNextPacket_wire_app :
    appImage.wire = [0x10, 0x9C, 0, 0, 4, 77, 81, 84, 84, 4, 0xAE, 0, 60, 0, 3, 97, 112, 112, 0, 4,
        100, 111, 111, 114, 0, 1, 49, 0, 2, 109, 101] ∧
      appImage.decoded.kwargs .lastWillTopic = some (.value (.str "door".toList)) ∧
      readNextPacket.run (appImage.wire ++ [0xC0, 0]) = .ok (appImage.decoded, [0xC0, 0]) :=
  ⟨by decide, rfl, readNextPacket_wire appImage _⟩

end MoteBroker.ClientPackets

import MoteBroker.PacketTypes

/-!
Packets: their classes and field tables, `to_bytes`, `read_next_packet`, and the round trip of
the packets the broker writes.
-/

namespace MoteBroker.Packets

open ByteReader MoteBroker.Topics MoteBroker.Streams MoteBroker.PacketTypes

/-! ### Classes -/

inductive PacketClass
  | connect | connectAcknowledge | publish | publishAcknowledge | publishReceived
  | publishReleased | publishComplete | subscribe | subscribeAcknowledge
  | unsubscribe | unsubscribeAcknowledge | pingRequest | pingResponse | auth
  deriving DecidableEq, Repr

namespace PacketClass

def allPackets : List PacketClass :=
  [.connect, .connectAcknowledge, .publish, .publishAcknowledge, .publishReceived,
    .publishReleased, .publishComplete, .subscribe, .subscribeAcknowledge,
    .unsubscribe, .unsubscribeAcknowledge, .pingRequest, .pingResponse, .auth]

def typeCode : PacketClass → ℕ
  | .connect => 0x01
  | .connectAcknowledge => 0x02
  | .publish => 0x03
  | .publishAcknowledge => 0x04
  | .publishReceived => 0x05
  | .publishReleased => 0x06
  | .publishComplete => 0x07
  | .subscribe => 0x08
  | .subscribeAcknowledge => 0x09
  | .unsubscribe => 0x0A
  | .unsubscribeAcknowledge => 0x0B
  | .pingRequest => 0x0C
  | .pingResponse => 0x0D
  | .auth => 0x0F

def fields : PacketClass → List (FieldName × PacketType)
  | .connect =>
    [(.protocolName, .basic .dynamicStr), (.protocolLevel, .basic (.staticInt 1)),
      (.connectFlags, .basic .connectFlags), (.keepAlive, .basic (.staticInt 2)),
      (.clientId, .basic .dynamicStr), (.lastWillTopic, .basic .dynamicStr),
      (.lastWillMessage, .basic .dynamicBytes), (.username, .basic .dynamicStr),
      (.password, .basic .dynamicStr)]
  | .connectAcknowledge =>
    [(.sessionParent, .basic (.staticInt 1)), (.returnCode, .basic (.staticInt 1))]
  | .publish =>
    [(.topic, .basic .dynamicStr), (.id, .basic .packetId), (.data, .basic .remainingBytes)]
  | .publishAcknowledge | .publishReceived | .publishReleased | .publishComplete
  | .unsubscribeAcknowledge => [(.id, .basic .packetId)]
  | .subscribe =>
    [(.id, .basic (.staticInt 2)),
      (.requests, .dynamicListOf [(.topic, .dynamicStr), (.qos, .staticInt 1)])]
  | .subscribeAcknowledge =>
    [(.id, .basic (.staticInt 2)), (.responseCodes, .dynamicList (.staticInt 1))]
  | .unsubscribe => [(.id, .basic .packetId), (.topics, .dynamicList .dynamicStr)]
  | .pingRequest | .pingResponse | .auth => []

end PacketClass

def inferPacketClass (packetType : ℕ) : Except Exc PacketClass :=
  match PacketClass.allPackets.find? (·.typeCode = packetType) with
  | some cls => .ok cls
  | none => .error .unknownPacketError

lemma inferPacketClass_typeCode (cls : PacketClass) :
    inferPacketClass cls.typeCode = .ok cls := by
  cases cls <;> rfl

lemma PacketClass.typeCode_lt (cls : PacketClass) : cls.typeCode < 16 := by
  cases cls <;> decide

/-! ### Flags -/

structure PublishFlags where
  data : ℕ
  retain : Bool
  qos : ℕ
  deriving DecidableEq, Repr

/-- `PublishFlags.from_int`. -/
def PublishFlags.fromInt (data : ℕ) : PublishFlags :=
  ⟨data, data &&& 0x01 ≠ 0, (data &&& 0x06) >>> 1⟩

/-- `PublishFlags.from_kwargs`. -/
def PublishFlags.fromKwargs (retain : Bool) (qos : ℕ) : PublishFlags :=
  ⟨((if retain then 0x01 else 0) &&& 0xF9) ||| qos <<< 1, retain, qos⟩

inductive Flags
  | int (n : ℕ)
  | publish (f : PublishFlags)
  deriving DecidableEq, Repr

/-- `int(self.flags)`. -/
def Flags.toInt : Flags → ℕ
  | .int n => n
  | .publish f => f.data

/-- The flags of a packet that is made from `flags_int`: only a publish has a `flag_class`. -/
def PacketClass.flagsFromInt (cls : PacketClass) (flagsInt : ℕ) : Flags :=
  if cls = .publish then .publish (.fromInt flagsInt) else .int flagsInt

abbrev Kwargs := FieldName → Option Field

def Kwargs.set (kwargs : Kwargs) (name : FieldName) (f : Field) : Kwargs :=
  fun n => if n = name then some f else kwargs n

/-- `kwargs["connect_flags"]`, of which the fields of a connect packet are enabled. -/
def Kwargs.connectFlags (kwargs : Kwargs) : Except Exc ConnectFlags :=
  match kwargs .connectFlags with
  | some (.value (.connectFlags f)) => .ok f
  | some _ => .error .attributeError
  | none => .error .keyError

/-- `packet_type.is_enabled(None, **kwargs)`. -/
def PacketClass.isEnabled (cls : PacketClass) (flags : Flags) (kwargs : Kwargs)
    (name : FieldName) : Except Exc Bool :=
  match cls, name with
  | .connect, .lastWillTopic | .connect, .lastWillMessage => do
    return (← kwargs.connectFlags).enableLastWill
  | .connect, .username => do return (← kwargs.connectFlags).enableUsername
  | .connect, .password => do return (← kwargs.connectFlags).enablePassword
  | .publish, .id =>
    match flags with
    | .publish f => .ok (f.qos > 0)
    | .int _ => .error .attributeError
  | _, _ => .ok true

structure Packet where
  cls : PacketClass
  flags : Flags
  length : ℕ
  kwargs : Kwargs

/-! ### Writing -/

def fieldsToBytes (cls : PacketClass) (flags : Flags) (kwargs : Kwargs) :
    List (FieldName × PacketType) → Except Exc Bytes
  | [] => .ok []
  | (name, packetType) :: fields => do
    if ← cls.isEnabled flags kwargs name then
      let b ← packetType.toBytes (kwargs name)
      return b ++ (← fieldsToBytes cls flags kwargs fields)
    else fieldsToBytes cls flags kwargs fields

def Packet.getHeaderBytes (p : Packet) (length : ℕ) : Except Exc Bytes :=
  if p.cls.typeCode <<< 4 ||| p.flags.toInt < 256 then
    .ok (UInt8.ofNat (p.cls.typeCode <<< 4 ||| p.flags.toInt) :: lengthBytes length)
  else .error .valueError

def Packet.toBytes (p : Packet) : Except Exc Bytes := do
  let payload ← fieldsToBytes p.cls p.flags p.kwargs p.cls.fields
  return (← p.getHeaderBytes payload.length) ++ payload

/-! ### Reading -/

/-- The loop of `read_payload`. A list has taken its bytes off the length before they are taken
off here. -/
def readFields (cls : PacketClass) (flags : Flags) :
    List (FieldName × PacketType) → Kwargs → ℤ → Stream (Kwargs × ℕ)
  | [], kwargs, _ => return (kwargs, 0)
  | (name, packetType) :: fields, kwargs, length => do
    if ← cls.isEnabled flags kwargs name then
      let (f, readLength, length) ← packetType.read length
      let (kwargs, byteCount) ← readFields cls flags fields (kwargs.set name f)
        (length - readLength)
      return (kwargs, readLength + byteCount)
    else readFields cls flags fields kwargs length

def PacketClass.readPayload (cls : PacketClass) (flagsInt length : ℕ) : Stream (Kwargs × ℕ) :=
  readFields cls (cls.flagsFromInt flagsInt) cls.fields (fun _ => none) length

/-- `Packet.read`, where `flags` is `none` when the header has not been read yet. -/
def PacketClass.read (cls : PacketClass) (flags : Option ℕ) : Stream Packet := do
  let flags ← match flags with
    | some flags => pure flags
    | none => do
      let (msgType, flags) ← decodeHeader
      let curClass ← inferPacketClass msgType
      if cls ≠ curClass then throw .packetMismatchError
      pure flags
  let length ← decodePacketLength
  let (kwargs, _) ← cls.readPayload flags length
  return ⟨cls, cls.flagsFromInt flags, length, kwargs⟩

def readNextPacket : Stream Packet := do
  let (msgType, flags) ← decodeHeader
  let clazz ← inferPacketClass msgType
  clazz.read (some flags)

/-! ### Packets that fit the format -/

/-- Only the last field of a class takes what is left of the packet. -/
def laidOut : List (FieldName × PacketType) → Bool
  | [] | [_] => true
  | (_, .basic type) :: fields => type ≠ .remainingBytes && laidOut fields
  | _ => false

lemma laidOut_tail {name : FieldName} {packetType : PacketType}
    {fields : List (FieldName × PacketType)}
    (h : laidOut ((name, packetType) :: fields) = true) : laidOut fields = true := by
  cases fields with
  | nil => rfl
  | cons field fields =>
    cases packetType with
    | basic type => exact ((Bool.and_eq_true _ _).mp h).2
    | dynamicList type => exact absurd h (by simp [laidOut])
    | dynamicListOf payload => exact absurd h (by simp [laidOut])

lemma PacketClass.laidOut_fields (cls : PacketClass) : laidOut cls.fields = true := by
  cases cls <;> rfl

/-- The classes of the packets that the broker writes. -/
def PacketClass.written : List PacketClass :=
  [.connectAcknowledge, .publish, .publishAcknowledge, .publishReceived, .publishReleased,
    .publishComplete, .subscribeAcknowledge, .unsubscribeAcknowledge, .pingResponse]

/-- The packets whose flags are four bits, whose enabled fields have values of their types, and
whose length fits the header. -/
structure Packet.Fits (p : Packet) : Prop where
  written : p.cls ∈ PacketClass.written
  flags : ∃ n < 16, p.flags = p.cls.flagsFromInt n
  fields : ∀ field ∈ p.cls.fields, p.cls.isEnabled p.flags p.kwargs field.1 = .ok true →
    ∃ f, p.kwargs field.1 = some f ∧ field.2.Fits f
  length : ∀ payload, fieldsToBytes p.cls p.flags p.kwargs p.cls.fields = .ok payload →
    payload.length < 2 ^ 28

/-- `q` has the class, the flags and the field values of `p`, and no other fields. -/
structure Packet.Same (p q : Packet) : Prop where
  cls : q.cls = p.cls
  flags : q.flags = p.flags
  enabled : ∀ field ∈ p.cls.fields, p.cls.isEnabled p.flags p.kwargs field.1 = .ok true →
    q.kwargs field.1 = p.kwargs field.1
  other : ∀ name, (∀ field ∈ p.cls.fields, field.1 = name →
    p.cls.isEnabled p.flags p.kwargs field.1 = .ok false) → q.kwargs name = none

lemma flagsFromInt_toInt (cls : PacketClass) (n : ℕ) : (cls.flagsFromInt n).toInt = n := by
  unfold PacketClass.flagsFromInt
  split_ifs <;> rfl

/-- The flags of the packets that `send_message` makes are those of four bits. -/
lemma publish_flags_fit (retain : Bool) {qos : ℕ} (h : qos ≤ 3) :
    ∃ n < 16, Flags.publish (.fromKwargs retain qos) = PacketClass.publish.flagsFromInt n := by
  refine ⟨(PublishFlags.fromKwargs retain qos).data, ?_⟩
  have hqos : ∀ qos < 4, ∀ retain, (PublishFlags.fromKwargs retain qos).data < 16 ∧
      PublishFlags.fromInt (PublishFlags.fromKwargs retain qos).data =
        .fromKwargs retain qos := by decide
  obtain ⟨hlt, heq⟩ := hqos qos (by omega) retain
  exact ⟨hlt, congrArg Flags.publish heq.symm⟩

/-- Which fields of a written packet are enabled depends on its flags alone. -/
lemma isEnabled_written {cls : PacketClass} (h : cls ∈ PacketClass.written) (n : ℕ)
    (name : FieldName) :
    ∃ on : Bool, ∀ kwargs, cls.isEnabled (cls.flagsFromInt n) kwargs name = .ok on := by
  unfold PacketClass.isEnabled PacketClass.flagsFromInt
  cases cls with
  | connect => exact absurd h (by decide)
  | publish =>
    cases name with
    | id => exact ⟨_, fun _ => rfl⟩
    | _ => exact ⟨true, fun _ => rfl⟩
  | _ => exact ⟨true, fun _ => rfl⟩

/-! ### What is written is read -/

/-- What reading the fields leaves in `kwargs` that held `before`. -/
def readBack (on : FieldName → Bool) (kwargs : Kwargs) (fields : List (FieldName × PacketType))
    (before : Kwargs) : Kwargs := fun name =>
  if name ∈ fields.map Prod.fst ∧ on name = true then kwargs name else before name

lemma readBack_off {on : FieldName → Bool} {name : FieldName} (hoff : on name = false)
    (kwargs : Kwargs) (packetType : PacketType) (fields : List (FieldName × PacketType))
    (before : Kwargs) :
    readBack on kwargs ((name, packetType) :: fields) before =
      readBack on kwargs fields before := by
  funext n
  by_cases hn : n = name
  · simp [readBack, hn, hoff]
  · have hmem : n ∈ ((name, packetType) :: fields).map Prod.fst ↔ n ∈ fields.map Prod.fst := by
      rw [List.map_cons, List.mem_cons, or_iff_right hn]
    simp only [readBack, hmem]

lemma readBack_on {on : FieldName → Bool} {kwargs : Kwargs} {name : FieldName} {f : Field}
    (hon : on name = true) (hf : kwargs name = some f) (packetType : PacketType)
    (fields : List (FieldName × PacketType)) (before : Kwargs) :
    readBack on kwargs ((name, packetType) :: fields) before =
      readBack on kwargs fields (before.set name f) := by
  funext n
  by_cases hn : n = name
  · simp [readBack, Kwargs.set, hn, hon, hf]
  · have hmem : n ∈ ((name, packetType) :: fields).map Prod.fst ↔ n ∈ fields.map Prod.fst := by
      rw [List.map_cons, List.mem_cons, or_iff_right hn]
    simp only [readBack, hmem, Kwargs.set, if_neg hn]

/-- A field at its place in the table: its bytes, and what is left of the length after them. -/
lemma reads_first {name : FieldName} {packetType : PacketType}
    {fields : List (FieldName × PacketType)} {f : Field}
    (hlaid : laidOut ((name, packetType) :: fields) = true) (hf : packetType.Fits f) :
    ∃ bs, packetType.toBytes (some f) = .ok bs ∧
      ∀ cs : Bytes, (fields = [] → cs = []) → ∃ left : ℤ,
        Reads (packetType.read (bs ++ cs).length) bs (f, bs.length, left) ∧
        (fields = [] ∨ left - bs.length = cs.length) := by
  cases fields with
  | nil =>
    obtain ⟨bs, hbs, left, hread⟩ := hf.reads
    refine ⟨bs, hbs, fun cs hcs => ⟨left, ?_, .inl rfl⟩⟩
    rw [hcs rfl, List.append_nil]
    exact hread
  | cons field fields =>
    cases hf with
    | noBytes => exact absurd hlaid (by simp [laidOut])
    | bytes h => exact absurd hlaid (by simp [laidOut])
    | dynamicList h => exact absurd hlaid (by simp [laidOut])
    | @sized type v h =>
      obtain ⟨bs, hbs, hread⟩ := h.reads_field
      refine ⟨bs, hbs, fun cs _ => ⟨_, hread _, .inr ?_⟩⟩
      rw [List.length_append]
      omega

/-- A field that is enabled, and the fields after it. -/
lemma reads_enabled {cls : PacketClass} {flags : Flags} {kwargs after : Kwargs}
    {name : FieldName} {packetType : PacketType} {fields : List (FieldName × PacketType)}
    {f : Field} {bs cs : Bytes} {length left : ℤ}
    (hon : cls.isEnabled flags kwargs name = .ok true)
    (hread : Reads (packetType.read length) bs (f, bs.length, left))
    (hrest : Reads (readFields cls flags fields (kwargs.set name f) (left - bs.length)) cs
      (after, cs.length)) :
    Reads (readFields cls flags ((name, packetType) :: fields) kwargs length) (bs ++ cs)
      (after, (bs ++ cs).length) := by
  refine Reads.lift_bind hon ?_
  rw [if_pos rfl, List.length_append]
  exact hread.bind (hrest.bind_nil (Reads.pure _))

/-- A field that is not. -/
lemma reads_disabled {cls : PacketClass} {flags : Flags} {kwargs after : Kwargs}
    {name : FieldName} {fields : List (FieldName × PacketType)} {bs : Bytes} {length : ℤ}
    (hoff : cls.isEnabled flags kwargs name = .ok false)
    (hrest : Reads (readFields cls flags fields kwargs length) bs (after, bs.length))
    (packetType : PacketType) :
    Reads (readFields cls flags ((name, packetType) :: fields) kwargs length) bs
      (after, bs.length) :=
  Reads.lift_bind hoff (by simpa using hrest)

/-- The fields of a class are read back when the length is that of their bytes. -/
lemma reads_readFields {cls : PacketClass} {flags : Flags} {kwargs : Kwargs}
    {on : FieldName → Bool} (hon : ∀ kwargs name, cls.isEnabled flags kwargs name = .ok (on name))
    {fields : List (FieldName × PacketType)} (hlaid : laidOut fields = true)
    (hfits : ∀ field ∈ fields, on field.1 = true →
      ∃ f, kwargs field.1 = some f ∧ field.2.Fits f) :
    ∃ bs, fieldsToBytes cls flags kwargs fields = .ok bs ∧ ∀ before,
      Reads (readFields cls flags fields before bs.length) bs
        (readBack on kwargs fields before, bs.length) := by
  induction fields with
  | nil => exact ⟨[], rfl, fun before => Reads.pure _⟩
  | cons field fields ih =>
    obtain ⟨name, packetType⟩ := field
    have hrest := ih (laidOut_tail hlaid) fun field hfield =>
      hfits field (List.mem_cons_of_mem _ hfield)
    obtain ⟨cs, hcs, hread⟩ := hrest
    cases hname : on name with
    | false =>
      refine ⟨cs, by simp [fieldsToBytes, hon, hname, hcs], fun before => ?_⟩
      rw [readBack_off hname]
      exact reads_disabled ((hon before name).trans (by rw [hname])) (hread before) packetType
    | true =>
      obtain ⟨f, hf, hfit⟩ := hfits (name, packetType) List.mem_cons_self hname
      obtain ⟨bs, hbs, hfirst⟩ := reads_first hlaid hfit
      have hf : kwargs name = some f := hf
      refine ⟨bs ++ cs, by simp [fieldsToBytes, hon, hname, hf, hbs, hcs], fun before => ?_⟩
      have hnil : fields = [] → cs = [] := by
        rintro rfl
        exact (Except.ok.inj hcs).symm
      obtain ⟨left, hhead, hleft⟩ := hfirst cs hnil
      rw [readBack_on hname hf]
      refine reads_enabled ((hon before name).trans (by rw [hname])) hhead ?_
      -- what is left for the other fields is the length of their bytes
      rcases hleft with rfl | hleft
      · rw [hnil rfl]
        exact Reads.pure _
      · rw [hleft]
        exact hread _

/-- A packet is read from its header, bytes that stand for the length of its payload, and a payload
from which its fields are read. -/
lemma reads_packet {cls : PacketClass} {n : ℕ} (hn : n < 16) {ls payload : Bytes}
    (hlength : Reads decodePacketLength ls payload.length) {kwargs : Kwargs}
    (hread : Reads (readFields cls (cls.flagsFromInt n) cls.fields (fun _ => none)
      payload.length) payload (kwargs, payload.length)) :
    Reads readNextPacket (UInt8.ofNat (cls.typeCode <<< 4 ||| n) :: (ls ++ payload))
      ⟨cls, cls.flagsFromInt n, payload.length, kwargs⟩ := by
  have hrest : Reads (cls.read (some n)) (ls ++ payload)
      ⟨cls, cls.flagsFromInt n, payload.length, kwargs⟩ := by
    refine (Reads.pure n).bind (hlength.bind (Reads.bind_nil (a := (kwargs, payload.length)) ?_ ?_))
    · exact hread
    · exact Reads.pure _
  exact (reads_decodeHeader cls.typeCode_lt hn).bind
    (Reads.lift_bind (inferPacketClass_typeCode cls) hrest)

/-- A packet that fits the format is written, and read back from its bytes. -/
lemma Packet.Fits.reads {p : Packet} (h : p.Fits) :
    ∃ bs q, p.toBytes = .ok bs ∧ Reads readNextPacket bs q ∧ p.Same q := by
  obtain ⟨n, hn, hflags⟩ := h.flags
  choose on hon using isEnabled_written h.written n
  have hon' : ∀ kwargs name, p.cls.isEnabled p.flags kwargs name = .ok (on name) := by
    intro kwargs name
    rw [hflags]
    exact hon name kwargs
  have henabled : ∀ name, p.cls.isEnabled p.flags p.kwargs name = .ok true ↔ on name = true :=
    fun name => by rw [hon']; simp
  obtain ⟨payload, hpayload, hread⟩ := reads_readFields hon' p.cls.laidOut_fields
    fun field hfield hon => h.fields field hfield ((henabled field.1).mpr hon)
  have htoInt : p.flags.toInt = n := by rw [hflags, flagsFromInt_toInt]
  have hheader : p.getHeaderBytes payload.length =
      .ok (UInt8.ofNat (p.cls.typeCode <<< 4 ||| n) :: lengthBytes payload.length) := by
    unfold Packet.getHeaderBytes
    rw [htoInt, if_pos (header_bits _ p.cls.typeCode_lt n hn).1]
  refine ⟨_, ⟨p.cls, p.flags, payload.length, readBack on p.kwargs p.cls.fields fun _ => none⟩,
    by simp only [Packet.toBytes, hpayload, hheader, ok_bind]; rfl, ?_, ?_⟩
  · have hread := hread fun _ => none
    rw [hflags] at hread ⊢
    exact reads_packet hn (reads_decodePacketLength (h.length payload hpayload)) hread
  · refine ⟨rfl, rfl, fun field hfield hon => ?_, fun name hoff => ?_⟩
    · have hmem : field.1 ∈ p.cls.fields.map Prod.fst := List.mem_map_of_mem hfield
      exact if_pos ⟨hmem, (henabled field.1).mp hon⟩
    · refine if_neg ?_
      rintro ⟨hmem, hname⟩
      obtain ⟨field, hfield, rfl⟩ := List.mem_map.mp hmem
      have := hoff field hfield rfl
      rw [(henabled field.1).mpr hname] at this
      exact absurd this (by simp)

/-- Packets are read back from their bytes, one after the other. -/
lemma reads_packets {packets : List Packet} (hfits : ∀ p ∈ packets, p.Fits) :
    ∃ bss qs, packets.mapM Packet.toBytes = .ok bss ∧ List.Forall₂ Packet.Same packets qs ∧
      Reads (many readNextPacket qs.length) bss.flatten qs := by
  induction packets with
  | nil => exact ⟨[], [], rfl, .nil, Reads.pure []⟩
  | cons p packets ih =>
    obtain ⟨bs, q, hbs, hread, hsame⟩ := (hfits p List.mem_cons_self).reads
    obtain ⟨bss, qs, hbss, hall, hmany⟩ := ih fun p hp => hfits p (List.mem_cons_of_mem _ hp)
    exact ⟨bs :: bss, q :: qs, by simp [List.mapM_cons, hbs, hbss], .cons hsame hall,
      hread.bind (hmany.map _)⟩

/-- **Reading the bytes of packets, one packet after another, gives the packets again**: the
same classes, flags and field values, and not a byte more is taken. -/
theorem read_written (ps : List Packet) (h : ∀ p ∈ ps, p.Fits) :
    ∃ bss qs, ps.mapM Packet.toBytes = .ok bss ∧ List.Forall₂ Packet.Same ps qs ∧
      ∀ rest, (many readNextPacket ps.length).run (bss.flatten ++ rest) = .ok (qs, rest) := by
  obtain ⟨bss, qs, hbss, hsame, hread⟩ := reads_packets h
  refine ⟨bss, qs, hbss, hsame, fun rest => ?_⟩
  rw [hsame.length_eq]
  exact hread rest

/-- The packet that `send_message` writes: a message of qos 0 has no packet id. -/
def publishPacket (topic : Str) (data : Bytes) (qos packetId : ℕ) : Packet where
  cls := .publish
  flags := .publish (.fromKwargs false qos)
  length := 0
  kwargs
    | .topic => some (.value (.str topic))
    | .data => some (.value (.bytes data))
    | .id => if qos = 0 then none else some (.value (.int packetId))
    | _ => none

lemma publishPacket_fits {topic : Str} {data : Bytes} {qos packetId : ℕ} (hqos : qos ≤ 2)
    (htopic : (Utf8.encode topic).length < 65536) (hid : packetId < 65536)
    (hdata : data ≠ []) (hlength : data.length < 2 ^ 27) :
    (publishPacket topic data qos packetId).Fits where
  written := show PacketClass.publish ∈ PacketClass.written by decide
  flags := publish_flags_fit false (by omega)
  fields := by
    intro field hfield hon
    simp only [publishPacket, PacketClass.fields, List.mem_cons, List.not_mem_nil, or_false]
      at hfield
    rcases hfield with rfl | rfl | rfl
    · exact ⟨_, rfl, .sized (.dynamicStr htopic)⟩
    · have hpos : qos ≠ 0 := by
        rintro rfl
        have : Except.ok false = (Except.ok true : Except Exc Bool) := hon
        exact absurd this (by simp)
      exact ⟨_, if_neg hpos, .sized (.packetId hid)⟩
    · exact ⟨_, rfl, .bytes hdata⟩
  length := by
    intro payload h
    simp only [publishPacket, PacketClass.fields, fieldsToBytes, PacketClass.isEnabled,
      PublishFlags.fromKwargs, PacketType.toBytes, Basic.toBytes, pack] at h
    rcases Nat.eq_zero_or_pos qos with rfl | hpos
    · simp [htopic] at h
      subst h
      simp
      omega
    · simp [htopic, hid, hpos, Nat.pos_iff_ne_zero.mp hpos] at h
      subst h
      simp
      omega

/-- The packet that `handle_subscribe` writes. -/
def subscribeAcknowledgePacket (id : ℕ) (responseCodes : List ℕ) : Packet where
  cls := .subscribeAcknowledge
  flags := .int 0
  length := 0
  kwargs
    | .id => some (.value (.int id))
    | .responseCodes => some (.list (responseCodes.map .int))
    | _ => none

lemma itemsToBytes_staticInt {codes : List ℕ} (h : ∀ code ∈ codes, code < 256) :
    itemsToBytes (.staticInt 1) (codes.map .int) = .ok (codes.flatMap (toBE 1)) := by
  induction codes with
  | nil => rfl
  | cons code codes ih =>
    have hcode := h code List.mem_cons_self
    have ih := ih fun code hcode => h code (List.mem_cons_of_mem _ hcode)
    simp [itemsToBytes, Basic.toBytes, pack, hcode, ih]

lemma subscribeAcknowledgePacket_fits {id : ℕ} {codes : List ℕ} (hid : id < 65536)
    (hcodes : ∀ code ∈ codes, code < 256) (hlength : codes.length + 2 < 2 ^ 28) :
    (subscribeAcknowledgePacket id codes).Fits where
  written := show PacketClass.subscribeAcknowledge ∈ PacketClass.written by decide
  flags := ⟨0, by norm_num, rfl⟩
  fields := by
    intro field hfield _
    simp only [subscribeAcknowledgePacket, PacketClass.fields, List.mem_cons, List.not_mem_nil,
      or_false] at hfield
    rcases hfield with rfl | rfl
    · exact ⟨_, rfl, .sized (.staticInt (.inr rfl) hid)⟩
    · refine ⟨_, rfl, .dynamicList fun v hv => ?_⟩
      obtain ⟨code, hcode, rfl⟩ := List.mem_map.mp hv
      exact .staticInt (.inl rfl) (hcodes code hcode)
  length := by
    intro payload h
    simp [subscribeAcknowledgePacket, PacketClass.fields, fieldsToBytes, PacketClass.isEnabled,
      PacketType.toBytes, Basic.toBytes, pack, hid, itemsToBytes_staticInt hcodes] at h
    subst h
    have : (codes.flatMap (toBE 1)).length = codes.length := by simp [List.length_flatMap]
    simp only [List.length_append, length_toBE, this]
    omega

/-- A message of qos 1 and the acknowledgement of a subscription. -/
theorem read_written_message : ∃ bss qs,
    [publishPacket ['a'] [1] 1 7, subscribeAcknowledgePacket 3 [1, 128]].mapM Packet.toBytes =
      .ok bss ∧
    List.Forall₂ Packet.Same
      [publishPacket ['a'] [1] 1 7, subscribeAcknowledgePacket 3 [1, 128]] qs ∧
    ∀ rest, (many readNextPacket 2).run (bss.flatten ++ rest) = .ok (qs, rest) := by
  refine read_written _ fun p hp => ?_
  rcases List.mem_pair.mp hp with rfl | rfl
  · exact publishPacket_fits (by omega) (by decide) (by omega) (by simp) (by simp)
  · exact subscribeAcknowledgePacket_fits (by omega) (by decide) (by simp)

end MoteBroker.Packets

import MoteBroker.RemainingLength

/-!
Framing: how many bytes `read_next_packet` takes off the stream, and when these are the bytes
that the header announces.
-/

namespace MoteBroker.Framing

open ByteReader MoteBroker.Topics MoteBroker.Streams MoteBroker.PacketTypes MoteBroker.Packets

/-! ### Spans -/

/-- How many bytes a field at the front of `bs` spans by what it says of itself, with `length`
announced bytes left. -/
def basicSpan (length : ℤ) (bs : Bytes) : Basic → ℕ
  | .staticInt size => size
  | .packetId => 2
  | .dynamicStr | .dynamicBytes => 2 + ofBE (bs.take 2)
  | .remainingBytes => length.toNat
  | .connectFlags => 1

def itemsSpan (type : Basic) : ℕ → ℤ → Bytes → ℕ
  | turns + 1, length, bs =>
    if length > 0 then
      basicSpan length bs type + itemsSpan type turns (length - basicSpan length bs type)
        (bs.drop (basicSpan length bs type))
    else 0
  | 0, _, _ => 0

def payloadSpan : List (FieldName × Basic) → ℤ → Bytes → ℕ
  | [], _, _ => 0
  | (_, type) :: fields, length, bs =>
    basicSpan length bs type + payloadSpan fields (length - basicSpan length bs type)
      (bs.drop (basicSpan length bs type))

def payloadsSpan (fields : List (FieldName × Basic)) : ℕ → ℤ → Bytes → ℕ
  | turns + 1, length, bs =>
    if length > 0 then
      payloadSpan fields length bs + payloadsSpan fields turns
        (length - payloadSpan fields length bs) (bs.drop (payloadSpan fields length bs))
    else 0
  | 0, _, _ => 0

def typeSpan (length : ℤ) (bs : Bytes) : PacketType → ℕ
  | .basic type => basicSpan length bs type
  | .dynamicList type => itemsSpan type length.toNat length bs
  | .dynamicListOf fields => payloadsSpan fields length.toNat length bs

/-- A list has taken its bytes off the length when it has been read. -/
def typeLeft (length : ℤ) (bs : Bytes) : PacketType → ℤ
  | .basic _ => length
  | type => length - typeSpan length bs type

/-- The span of the fields that are there. -/
def fieldsSpan (there : FieldName → Bool) : List (FieldName × PacketType) → ℤ → Bytes → ℕ
  | [], _, _ => 0
  | (name, type) :: fields, length, bs =>
    if there name then
      typeSpan length bs type + fieldsSpan there fields
        (typeLeft length bs type - typeSpan length bs type) (bs.drop (typeSpan length bs type))
    else fieldsSpan there fields length bs

/-- The flags of a connect packet: the byte after the name and the level of the protocol. -/
def connectFlagsAt (payload : Bytes) : ConnectFlags :=
  .fromInt (ofBE ((payload.drop (2 + ofBE (payload.take 2) + 1)).take 1))

/-- The fields that are there by the flags. -/
def there (cls : PacketClass) (flagsInt : ℕ) (f : ConnectFlags) (name : FieldName) : Bool :=
  match cls, name with
  | .connect, .lastWillTopic | .connect, .lastWillMessage => f.enableLastWill
  | .connect, .username => f.enableUsername
  | .connect, .password => f.enablePassword
  | .publish, .id => (PublishFlags.fromInt flagsInt).qos > 0
  | _, _ => true

/-- The span of a payload by what its flags and its fields say of themselves. -/
def classSpan (cls : PacketClass) (flagsInt length : ℕ) (payload : Bytes) : ℕ :=
  fieldsSpan (there cls flagsInt (connectFlagsAt payload)) cls.fields length payload

/-! ### What the readers take -/

lemma takes_read (n : ℕ) (bs : Bytes) : Takes (Streams.read n) bs n (· = bs.take n) :=
  takes_take _ n bs

lemma takes_readInt (size : ℕ) (bs : Bytes) :
    Takes (readInt size) bs size (· = ofBE (bs.take size)) := by
  refine (takes_read size bs).map ?_
  rintro _ rfl
  exact Takes.pure _ rfl

lemma takes_decodeStr (bs : Bytes) :
    Takes decodeStr bs (2 + ofBE (bs.take 2)) (·.2 = 2 + ofBE (bs.take 2)) := by
  refine (takes_read 2 bs).bind ?_
  rintro _ rfl
  by_cases hzero : ofBE (bs.take 2) = 0
  · simp only [hzero, ne_eq, not_true_eq_false, if_false]
    exact Takes.pure _ rfl
  · simp only [ne_eq, hzero, not_false_eq_true, if_true]
    refine (takes_read _ _).map ?_
    rintro byte_str -
    split
    · exact Takes.pure _ (Nat.add_comm _ _)
    · exact Takes.pure _ (Nat.add_comm _ _)

lemma takes_decodeBytes (bs : Bytes) :
    Takes decodeBytes bs (2 + ofBE (bs.take 2)) (·.2 = 2 + ofBE (bs.take 2)) := by
  refine (takes_read 2 bs).bind ?_
  rintro _ rfl
  refine (takes_read _ _).map ?_
  rintro data -
  exact Takes.pure _ rfl

lemma takes_connectFlags (length : ℤ) (bs : Bytes) :
    Takes (Basic.connectFlags.read length) bs 1
      (· = (.connectFlags (.fromInt (ofBE (bs.take 1))), 1)) := by
  refine (takes_readInt 1 bs).map ?_
  rintro _ rfl
  exact Takes.pure _ rfl

/-- A field takes its span, and says so. -/
lemma takes_basic (type : Basic) (length : ℤ) (bs : Bytes) :
    Takes (type.read length) bs (basicSpan length bs type)
      (·.2 = basicSpan length bs type) := by
  cases type with
  | staticInt size => exact (takes_readInt size bs).map fun _ _ => Takes.pure _ rfl
  | packetId => exact (takes_readInt 2 bs).map fun _ _ => Takes.pure _ rfl
  | dynamicStr => exact (takes_decodeStr bs).map fun _ h => Takes.pure _ h
  | dynamicBytes => exact (takes_decodeBytes bs).map fun _ h => Takes.pure _ h
  | connectFlags => exact (takes_readInt 1 bs).map fun _ _ => Takes.pure _ rfl
  | remainingBytes =>
    unfold Basic.read basicSpan
    by_cases hlength : length < 1
    · have hzero : length.toNat = 0 := by omega
      rw [if_pos hlength, hzero]
      exact Takes.pure _ rfl
    · rw [if_neg hlength]
      exact (takes_read _ bs).map fun _ _ => Takes.pure _ rfl

lemma takes_readItems (type : Basic) (turns : ℕ) (length : ℤ) (bs : Bytes) :
    Takes (readItems type turns length) bs (itemsSpan type turns length bs)
      (·.2 = (itemsSpan type turns length bs, length - itemsSpan type turns length bs)) := by
  induction turns generalizing length bs with
  | zero => exact Takes.pure _ (by simp [itemsSpan])
  | succ turns ih =>
    unfold readItems itemsSpan
    by_cases hlength : length > 0
    · rw [if_pos hlength, if_pos hlength]
      refine (takes_basic type length bs).bind ?_
      rintro ⟨item, n⟩ rfl
      refine (ih _ _).map ?_
      rintro ⟨items, count, left⟩ hcount
      simp only [Prod.mk.injEq] at hcount
      obtain ⟨rfl, rfl⟩ := hcount
      exact Takes.pure _ (by simp; omega)
    · rw [if_neg hlength, if_neg hlength]
      exact Takes.pure _ (by simp)

lemma takes_readPayload (fields : List (FieldName × Basic)) (length : ℤ) (bs : Bytes) :
    Takes (readPayload fields length) bs (payloadSpan fields length bs)
      (·.2 = (payloadSpan fields length bs, length - payloadSpan fields length bs)) := by
  induction fields generalizing length bs with
  | nil => exact Takes.pure _ (by simp [payloadSpan])
  | cons field fields ih =>
    unfold readPayload payloadSpan
    refine (takes_basic field.2 length bs).bind ?_
    rintro ⟨v, n⟩ rfl
    refine (ih _ _).map ?_
    rintro ⟨kwargs, count, left⟩ hcount
    simp only [Prod.mk.injEq] at hcount
    obtain ⟨rfl, rfl⟩ := hcount
    exact Takes.pure _ (by simp; omega)

lemma takes_readPayloads (fields : List (FieldName × Basic)) (turns : ℕ) (length : ℤ)
    (bs : Bytes) :
    Takes (readPayloads fields turns length) bs (payloadsSpan fields turns length bs)
      (·.2 = (payloadsSpan fields turns length bs,
        length - payloadsSpan fields turns length bs)) := by
  induction turns generalizing length bs with
  | zero => exact Takes.pure _ (by simp [payloadsSpan])
  | succ turns ih =>
    unfold readPayloads payloadsSpan
    by_cases hlength : length > 0
    · rw [if_pos hlength, if_pos hlength]
      refine (takes_readPayload fields length bs).bind ?_
      rintro ⟨item, n, left⟩ hitem
      simp only [Prod.mk.injEq] at hitem
      obtain ⟨rfl, rfl⟩ := hitem
      refine (ih _ _).map ?_
      rintro ⟨items, count, left⟩ hcount
      simp only [Prod.mk.injEq] at hcount
      obtain ⟨rfl, rfl⟩ := hcount
      exact Takes.pure _ (by simp; omega)
    · rw [if_neg hlength, if_neg hlength]
      exact Takes.pure _ (by simp)

lemma takes_type (type : PacketType) (length : ℤ) (bs : Bytes) :
    Takes (type.read length) bs (typeSpan length bs type)
      (·.2 = (typeSpan length bs type, typeLeft length bs type)) := by
  cases type with
  | basic type =>
    refine (takes_basic type length bs).map ?_
    rintro ⟨v, n⟩ rfl
    exact Takes.pure _ rfl
  | dynamicList type =>
    refine (takes_readItems type _ length bs).map ?_
    rintro ⟨vs, r⟩ rfl
    exact Takes.pure _ rfl
  | dynamicListOf fields =>
    refine (takes_readPayloads fields _ length bs).map ?_
    rintro ⟨ps, r⟩ rfl
    exact Takes.pure _ rfl

/-! ### Fields -/

section
variable {cls : PacketClass} {flags : Flags} {on : FieldName → Bool} {name : FieldName}
  {type : PacketType} {fields : List (FieldName × PacketType)} {kwargs : Kwargs} {length : ℤ}
  {bs : Bytes}

/-- Nothing is asked of the fields that have been read. -/
abbrev Any : Kwargs × ℕ → Prop := fun _ => True

/-- A field that is there, before the others. -/
lemma takes_field {P : Field × ℕ × ℤ → Prop}
    (hon : cls.isEnabled flags kwargs name = .ok true) (hname : on name = true)
    (hfirst : Takes (type.read length) bs (typeSpan length bs type)
      fun r => r.2 = (typeSpan length bs type, typeLeft length bs type) ∧ P r)
    (hrest : ∀ f, P (f, typeSpan length bs type, typeLeft length bs type) →
      Takes (readFields cls flags fields (kwargs.set name f)
          (typeLeft length bs type - typeSpan length bs type))
        (bs.drop (typeSpan length bs type))
        (fieldsSpan on fields (typeLeft length bs type - typeSpan length bs type)
          (bs.drop (typeSpan length bs type))) Any) :
    Takes (readFields cls flags ((name, type) :: fields) kwargs length) bs
      (fieldsSpan on ((name, type) :: fields) length bs) Any := by
  unfold readFields fieldsSpan
  rw [if_pos hname]
  refine Takes.lift_bind hon ?_
  rw [if_pos rfl]
  refine hfirst.bind ?_
  rintro ⟨f, n, left⟩ ⟨heq, hP⟩
  simp only [Prod.mk.injEq] at heq
  obtain ⟨rfl, rfl⟩ := heq
  exact (hrest f hP).map fun _ _ => Takes.pure _ trivial

/-- The fields take their spans while it is known which of them are there. -/
lemma takes_readFields {K : Kwargs → Prop}
    (hon : ∀ kwargs, K kwargs → ∀ name ∈ fields.map Prod.fst,
      cls.isEnabled flags kwargs name = .ok (on name))
    (hset : ∀ kwargs f, K kwargs → ∀ name ∈ fields.map Prod.fst, K (kwargs.set name f))
    (h : K kwargs) :
    Takes (readFields cls flags fields kwargs length) bs (fieldsSpan on fields length bs) Any := by
  induction fields generalizing kwargs length bs with
  | nil => exact Takes.pure _ trivial
  | cons field fields ih =>
    obtain ⟨name, type⟩ := field
    have hmem : name ∈ ((name, type) :: fields).map Prod.fst := by simp
    have hrest : ∀ kwargs, K kwargs → ∀ length bs,
        Takes (readFields cls flags fields kwargs length) bs (fieldsSpan on fields length bs) Any :=
      fun kwargs h length bs => ih
        (fun kwargs h n hn => hon kwargs h n (by rw [List.map_cons]; exact .tail _ hn))
        (fun kwargs f h n hn => hset kwargs f h n (by rw [List.map_cons]; exact .tail _ hn)) h
    have hname := hon kwargs h name hmem
    cases hthere : on name with
    | true =>
      rw [hthere] at hname
      refine takes_field (P := fun _ => True) hname hthere ?_ fun f _ =>
        hrest _ (hset kwargs f h name hmem) _ _
      exact ⟨fun hle => by simpa using (takes_type type length bs).ok hle,
        (takes_type type length bs).error⟩
    | false =>
      rw [hthere] at hname
      unfold readFields fieldsSpan
      rw [hthere, if_neg (by simp)]
      exact Takes.lift_bind hname (by simpa using hrest kwargs h length bs)

end

/-- But for a connect packet, the flags of the header say which fields are there. -/
lemma isEnabled_there {cls : PacketClass} (h : cls ≠ .connect) (flagsInt : ℕ) (f : ConnectFlags)
    (kwargs : Kwargs) (name : FieldName) :
    cls.isEnabled (cls.flagsFromInt flagsInt) kwargs name = .ok (there cls flagsInt f name) := by
  cases cls with
  | connect => exact absurd rfl h
  | publish => cases name <;> rfl
  | _ => rfl

/-- In a connect packet, its own flags say which of the fields after them are there. -/
lemma isEnabled_connect {f : ConnectFlags} {kwargs : Kwargs}
    (h : kwargs .connectFlags = some (.value (.connectFlags f))) (flagsInt : ℕ)
    (name : FieldName) :
    PacketClass.connect.isEnabled (.int flagsInt) kwargs name =
      .ok (there .connect flagsInt f name) := by
  have hflags : kwargs.connectFlags = .ok f := by simp only [Kwargs.connectFlags, h]
  cases name with
  | lastWillTopic | lastWillMessage | username | password =>
    simp only [PacketClass.isEnabled, hflags]
    rfl
  | _ => rfl

lemma takes_connect (flagsInt length : ℕ) (bs : Bytes) :
    Takes (PacketClass.connect.readPayload flagsInt length) bs
      (classSpan .connect flagsInt length bs) Any := by
  have hany : ∀ (type : PacketType) (length : ℤ) (bs : Bytes),
      Takes (type.read length) bs (typeSpan length bs type)
        fun r => r.2 = (typeSpan length bs type, typeLeft length bs type) ∧ True :=
    fun type length bs => ⟨fun hle => by simpa using (takes_type type length bs).ok hle,
      (takes_type type length bs).error⟩
  unfold PacketClass.readPayload classSpan
  refine takes_field (P := fun _ => True) rfl rfl (hany _ _ _) fun protocolName _ => ?_
  refine takes_field (P := fun _ => True) rfl rfl (hany _ _ _) fun protocolLevel _ => ?_
  refine takes_field (P := fun r => r.1 = .value (.connectFlags (connectFlagsAt bs))) rfl rfl ?_
    fun f hf => ?_
  · refine (takes_connectFlags _ _).map ?_
    rintro _ rfl
    refine Takes.pure _ ⟨rfl, ?_⟩
    simp only [typeSpan, basicSpan, List.drop_drop, connectFlagsAt]
  · refine takes_readFields (K := fun kwargs =>
        kwargs .connectFlags = some (.value (.connectFlags (connectFlagsAt bs)))) ?_ ?_ ?_
    · intro kwargs hkwargs name _
      exact isEnabled_connect hkwargs flagsInt name
    · intro kwargs g hkwargs name hname
      have hne : FieldName.connectFlags ≠ name := by
        rintro rfl
        simp at hname
      simpa only [Kwargs.set, if_neg hne] using hkwargs
    · simpa only [Kwargs.set, if_true, Option.some.injEq] using hf

/-- **A payload takes its span.** -/
theorem takes_readPayload_class (cls : PacketClass) (flagsInt length : ℕ) (bs : Bytes) :
    Takes (cls.readPayload flagsInt length) bs (classSpan cls flagsInt length bs) Any := by
  by_cases hcls : cls = .connect
  · rw [hcls]
    exact takes_connect flagsInt length bs
  · exact takes_readFields (K := fun _ => True)
      (fun kwargs _ name _ => isEnabled_there hcls flagsInt _ kwargs name)
      (fun _ _ _ _ _ => trivial) trivial

/-! ### Packets -/

/-- When a packet is read, its header byte, the bytes of the length and as many payload bytes as
they announce have been taken, and nothing else. -/
def InSync (bs : Bytes) : Prop :=
  ∀ p rest, readNextPacket.run bs = .ok (p, rest) →
    ∃ (header : UInt8) (lengthBytes payload : Bytes),
      bs = header :: (lengthBytes ++ (payload ++ rest)) ∧
      decodePacketLength.run (lengthBytes ++ (payload ++ rest)) =
        .ok (payload.length, payload ++ rest)

/-- The fields of the packet span the announced length, or more than the stream has. -/
def Fills (bs : Bytes) : Prop :=
  ∀ msgType flags tail cls length body, decodeHeader.run bs = .ok ((msgType, flags), tail) →
    inferPacketClass msgType = .ok cls → decodePacketLength.run tail = .ok (length, body) →
    classSpan cls flags length body = length ∨ body.length < classSpan cls flags length body

lemma read_ok {n : ℕ} {bs a rest : Bytes} (h : (Streams.read n).run bs = .ok (a, rest)) :
    bs = a ++ rest ∧ a.length = n := by
  have htakes := takes_read n bs
  by_cases hle : n ≤ bs.length
  · obtain ⟨_, hrun, rfl⟩ := htakes.ok hle
    rw [h] at hrun
    cases hrun
    exact ⟨(List.take_append_drop n bs).symm, List.length_take_of_le hle⟩
  · obtain ⟨e, hrun⟩ := htakes.error (by omega)
    rw [h] at hrun
    cases hrun

lemma decodeHeader_ok {bs rest : Bytes} {r : ℕ × ℕ} (h : decodeHeader.run bs = .ok (r, rest)) :
    ∃ header, bs = header :: rest := by
  obtain ⟨⟨byte1, tail⟩, hread, hpure⟩ := ok_of_bind h
  cases hpure
  obtain ⟨hbs, hlength⟩ := read_ok hread
  obtain ⟨header, rfl⟩ := List.length_eq_one_iff.mp hlength
  exact ⟨header, hbs⟩

lemma readInt_lt {size n : ℕ} {bs rest : Bytes} (h : (readInt size).run bs = .ok (n, rest)) :
    n < 256 ^ size := by
  obtain ⟨a, mid, hread, hpure⟩ := run_bind_ok h
  cases hpure
  rw [← (read_ok hread).2]
  exact ofBE_lt a

lemma read_some (cls : PacketClass) (flags : ℕ) : cls.read (some flags) = do
    let length ← decodePacketLength
    let (kwargs, _) ← cls.readPayload flags length
    return ⟨cls, cls.flagsFromInt flags, length, kwargs⟩ := rfl

/-- A field that is enabled is read before the others. -/
lemma readFields_cons {cls : PacketClass} {flags : Flags} {name : FieldName} {type : PacketType}
    {fields : List (FieldName × PacketType)} {kwargs kwargs' : Kwargs} {length : ℤ} {n : ℕ}
    {bs rest : Bytes} (hon : cls.isEnabled flags kwargs name = .ok true)
    (h : (readFields cls flags ((name, type) :: fields) kwargs length).run bs =
      .ok ((kwargs', n), rest)) :
    ∃ f k left mid m, (type.read length).run bs = .ok ((f, k, left), mid) ∧
      (readFields cls flags fields (kwargs.set name f) (left - (k : ℕ))).run mid =
        .ok ((kwargs', m), rest) := by
  obtain ⟨on, mid, hlift, h⟩ := run_bind_ok h
  obtain ⟨heq, rfl⟩ := run_liftM_ok hlift
  obtain rfl : true = on := Except.ok.inj (hon.symm.trans heq)
  rw [if_pos rfl] at h
  obtain ⟨⟨f, k, left⟩, mid, hread, h⟩ := run_bind_ok h
  obtain ⟨⟨kwargs'', m⟩, mid', hrest, hpure⟩ := run_bind_ok h
  cases hpure
  exact ⟨f, k, left, mid, m, hread, hrest⟩

/-- What reading a packet has done when it returns: the payload has taken its span. -/
lemma readNextPacket_ok {bs rest : Bytes} {p : Packet} (h : readNextPacket.run bs = .ok (p, rest)) :
    ∃ msgType flags tail cls length body, decodeHeader.run bs = .ok ((msgType, flags), tail) ∧
      inferPacketClass msgType = .ok cls ∧ decodePacketLength.run tail = .ok (length, body) ∧
      classSpan cls flags length body ≤ body.length ∧
      rest = body.drop (classSpan cls flags length body) := by
  obtain ⟨⟨msgType, flags⟩, tail, hheader, hnext⟩ := run_bind_ok h
  obtain ⟨cls, tail', hcls, hread⟩ := run_bind_ok hnext
  obtain ⟨hcls, htail⟩ := run_liftM_ok hcls
  rw [htail, read_some] at hread
  obtain ⟨length, body, hlength, hbody⟩ := run_bind_ok hread
  obtain ⟨⟨kwargs, n⟩, left, hpayload, hpure⟩ := run_bind_ok hbody
  cases hpure
  have htakes := takes_readPayload_class cls flags length body
  refine ⟨msgType, flags, tail, cls, length, body, hheader, hcls, hlength, ?_⟩
  by_cases hle : classSpan cls flags length body ≤ body.length
  · obtain ⟨a, hrun, -⟩ := htakes.ok hle
    rw [hpayload] at hrun
    cases hrun
    exact ⟨hle, rfl⟩
  · obtain ⟨e, hrun⟩ := htakes.error (by omega)
    rw [hpayload] at hrun
    cases hrun

/-- A packet whose payload the stream has is read. -/
lemma readNextPacket_of_span {bs tail body : Bytes} {msgType flags length : ℕ} {cls : PacketClass}
    (hheader : decodeHeader.run bs = .ok ((msgType, flags), tail))
    (hcls : inferPacketClass msgType = .ok cls)
    (hlength : decodePacketLength.run tail = .ok (length, body))
    (hle : classSpan cls flags length body ≤ body.length) :
    ∃ p, readNextPacket.run bs = .ok (p, body.drop (classSpan cls flags length body)) := by
  obtain ⟨⟨kwargs, n⟩, hpayload, -⟩ := (takes_readPayload_class cls flags length body).ok hle
  refine ⟨⟨cls, cls.flagsFromInt flags, length, kwargs⟩, ?_⟩
  have hread : (cls.read (some flags)).run tail =
      .ok (⟨cls, cls.flagsFromInt flags, length, kwargs⟩,
        body.drop (classSpan cls flags length body)) := by
    simp only [read_some, StateT.run_bind, hlength, ok_bind, hpayload]
    rfl
  simp only [readNextPacket, StateT.run_bind, hheader, ok_bind, run_liftM hcls, hread]

/-- **Framing stays in sync** exactly on the streams whose packet fills the length that its header
announces, or runs past the end of the stream. -/
theorem inSync_iff_fills (bs : Bytes) : InSync bs ↔ Fills bs := by
  refine ⟨?_, ?_⟩
  · intro h msgType flags tail cls length body hheader hcls hlength
    by_cases hle : classSpan cls flags length body ≤ body.length
    · left
      obtain ⟨p, hread⟩ := readNextPacket_of_span hheader hcls hlength hle
      obtain ⟨header, lengthBytes, payload, hbs, hannounced⟩ := h p _ hread
      obtain ⟨header', hbs'⟩ := decodeHeader_ok hheader
      obtain ⟨-, rfl⟩ := List.cons.inj (hbs'.symm.trans hbs)
      rw [hannounced] at hlength
      obtain ⟨rfl, hbody⟩ := Prod.mk.inj (Except.ok.inj hlength)
      have hcount := congrArg List.length hbody
      rw [List.length_append, List.length_drop] at hcount
      omega
    · exact .inr (by omega)
  · intro h p rest hread
    obtain ⟨msgType, flags, tail, cls, length, body, hheader, hcls, hlength, hle, rfl⟩ :=
      readNextPacket_ok hread
    have hspan : classSpan cls flags length body = length :=
      (h msgType flags tail cls length body hheader hcls hlength).resolve_right (by omega)
    obtain ⟨header, rfl⟩ := decodeHeader_ok hheader
    obtain ⟨lengthBytes, rfl, -⟩ := RemainingLength.decodePacketLength_ok hlength
    rw [hspan] at hle
    refine ⟨header, lengthBytes, body.take length, ?_, ?_⟩
    · rw [hspan, List.take_append_drop]
    · rw [hspan, List.take_append_drop, List.length_take_of_le hle]
      exact hlength

/-- A ping request that announces two bytes leaves them on the stream. -/
theorem ping_with_payload_out_of_sync : ¬InSync [0xC0, 2, 0xC0, 0] := by
  intro h
  obtain ⟨p, hread⟩ : ∃ p, readNextPacket.run [0xC0, 2, 0xC0, 0] = .ok (p, [0xC0, 0]) := ⟨_, rfl⟩
  obtain ⟨header, lengthBytes, payload, hbs, hlength⟩ := h p _ hread
  -- one length byte and no payload byte are left for the two bytes it announces
  have hcount := congrArg List.length hbs
  simp only [List.length_cons, List.length_append, List.length_nil] at hcount
  match lengthBytes, payload, hbs with
  | [], [b], hbs =>
    cases hbs
    cases hlength
  | [b], [], hbs =>
    cases hbs
    cases hlength
  | [], [], _ => simp at hcount
  | a :: b :: lengthBytes, payload, _ => simp at hcount; omega
  | [a], b :: payload, _ => simp at hcount; omega
  | [], a :: b :: payload, _ => simp at hcount

end MoteBroker.Framing

import MoteBroker.Streams

/-!
The types of packet fields: how a field is read from the stream with the length that is left,
how it is written, and that it is read as it was written.
-/

namespace MoteBroker.PacketTypes

open ByteReader MoteBroker.Topics MoteBroker.Streams

inductive FieldName
  | protocolName | protocolLevel | connectFlags | keepAlive | clientId
  | lastWillTopic | lastWillMessage | username | password
  | sessionParent | returnCode | topic | id | data | requests | responseCodes | topics | qos
  deriving DecidableEq, Repr

structure ConnectFlags where
  data : ℕ
  cleanSession : Bool
  enableLastWill : Bool
  retainLastWill : Bool
  enablePassword : Bool
  enableUsername : Bool
  lastWillQos : ℕ
  deriving DecidableEq, Repr

/-- `ConnectFlags.from_int`. -/
def ConnectFlags.fromInt (data : ℕ) : ConnectFlags where
  data := data
  cleanSession := data &&& 0x02 ≠ 0
  enableLastWill := data &&& 0x04 ≠ 0
  retainLastWill := data &&& 0x20 ≠ 0
  enablePassword := data &&& 0x40 ≠ 0
  enableUsername := data &&& 0x80 ≠ 0
  lastWillQos := (data &&& 0x18) >>> 3

inductive Value
  | none
  | int (n : ℕ)
  | str (s : Str)
  | bytes (b : Bytes)
  | connectFlags (f : ConnectFlags)
  deriving DecidableEq, Repr

/-- What a packet holds in a field: a value, a list of values or a list of payloads. -/
inductive Field
  | value (v : Value)
  | list (vs : List Value)
  | payloads (ps : List (List (FieldName × Value)))
  deriving DecidableEq, Repr

/-- The types whose values are not lists. -/
inductive Basic
  | staticInt (size : ℕ)
  | packetId
  | dynamicStr
  | dynamicBytes
  | remainingBytes
  | connectFlags
  deriving DecidableEq, Repr

inductive PacketType
  | basic (type : Basic)
  | dynamicList (type : Basic)
  | dynamicListOf (fields : List (FieldName × Basic))
  deriving DecidableEq, Repr

/-! ### Reading -/

/-- The value, and how many bytes it has taken; `length` is `kwargs["length"]`. -/
def Basic.read (length : ℤ) : Basic → Stream (Value × ℕ)
  | .staticInt size => do return (.int (← readInt size), size)
  | .packetId => do return (.int (← readInt 2), 2)
  | .dynamicStr => do
    let (s, n) ← decodeStr
    return (.str s, n)
  | .dynamicBytes => do
    let (b, n) ← decodeBytes
    return (.bytes b, n)
  | .remainingBytes =>
    if length < 1 then return (.none, 0)
    else do return (.bytes (← Streams.read length.toNat), length.toNat)
  | .connectFlags => do return (.connectFlags (.fromInt (← readInt 1)), 1)

/-- The loop of a list of values, which takes what it reads off the length. Every item takes at
least one byte, so `turns` may be the length. -/
def readItems (type : Basic) : ℕ → ℤ → Stream (List Value × ℕ × ℤ)
  | turns + 1, length =>
    if length > 0 then do
      let (item, n) ← type.read length
      let (items, count, length) ← readItems type turns (length - n)
      return (item :: items, n + count, length)
    else return ([], 0, length)
  | 0, length => return ([], 0, length)

def readPayload : List (FieldName × Basic) → ℤ → Stream (List (FieldName × Value) × ℕ × ℤ)
  | [], length => return ([], 0, length)
  | (name, type) :: fields, length => do
    let (v, n) ← type.read length
    let (kwargs, count, length) ← readPayload fields (length - n)
    return ((name, v) :: kwargs, n + count, length)

def readPayloads (fields : List (FieldName × Basic)) :
    ℕ → ℤ → Stream (List (List (FieldName × Value)) × ℕ × ℤ)
  | turns + 1, length =>
    if length > 0 then do
      let (item, n, length) ← readPayload fields length
      let (items, count, length) ← readPayloads fields turns length
      return (item :: items, n + count, length)
    else return ([], 0, length)
  | 0, length => return ([], 0, length)

/-- The field, how many bytes it has taken, and what it has left of the length. -/
def PacketType.read (length : ℤ) : PacketType → Stream (Field × ℕ × ℤ)
  | .basic type => do
    let (v, n) ← type.read length
    return (.value v, n, length)
  | .dynamicList type => do
    let (vs, n, length) ← readItems type length.toNat length
    return (.list vs, n, length)
  | .dynamicListOf fields => do
    let (ps, n, length) ← readPayloads fields length.toNat length
    return (.payloads ps, n, length)

/-! ### Writing -/

def Basic.toBytes : Basic → Value → Except Exc Bytes
  | .staticInt size, .int n => if size = 1 ∨ size = 2 then pack size n else .error .typeError
  | .staticInt _, _ => .error .structError
  | .packetId, .int n => pack 2 n
  | .packetId, _ => .error .structError
  | .dynamicStr, .str s => do return (← pack 2 (Utf8.encode s).length) ++ Utf8.encode s
  | .dynamicStr, _ => .error .attributeError
  | .remainingBytes, .none => .ok []
  | .remainingBytes, .bytes b => .ok b
  -- the empty string extends the payload by nothing
  | .remainingBytes, .str [] => .ok []
  | .remainingBytes, _ => .error .typeError
  -- these two have no `to_bytes` of their own
  | .dynamicBytes, _ | .connectFlags, _ => .error .typeError

def itemsToBytes (type : Basic) : List Value → Except Exc Bytes
  | [] => .ok []
  | v :: vs => do return (← type.toBytes v) ++ (← itemsToBytes type vs)

/-- `packet_type.to_bytes(self.kwargs.get(name))`. -/
def PacketType.toBytes : PacketType → Option Field → Except Exc Bytes
  | .basic type, some (.value v) => type.toBytes v
  | .basic type, none => type.toBytes .none
  | .dynamicList type, some (.list vs) => itemsToBytes type vs
  | .dynamicListOf _, some (.payloads []) => .ok []
  -- a payload has no `to_bytes`
  | .dynamicListOf _, some (.payloads _) => .error .attributeError
  | _, _ => .error .typeError

/-! ### What is written is read -/

/-- The types that take as many bytes as their value says, whatever is left. -/
inductive Basic.Sized : Basic → Value → Prop
  | staticInt {size n : ℕ} (hs : size = 1 ∨ size = 2) (h : n < 256 ^ size) :
    Sized (.staticInt size) (.int n)
  | packetId {n : ℕ} (h : n < 256 ^ 2) : Sized .packetId (.int n)
  | dynamicStr {s : Str} (h : (Utf8.encode s).length < 256 ^ 2) : Sized .dynamicStr (.str s)

lemma Basic.Sized.reads {type : Basic} {v : Value} (h : type.Sized v) :
    ∃ bs, type.toBytes v = .ok bs ∧ 0 < bs.length ∧
      ∀ length, Reads (type.read length) bs (v, bs.length) := by
  cases h with
  | @staticInt size n hs h =>
    refine ⟨toBE size n, by simp [Basic.toBytes, hs, pack, h], ?_, fun length => ?_⟩
    · rw [length_toBE]; omega
    · rw [length_toBE]
      exact (reads_readInt h).map fun n => (Value.int n, size)
  | @packetId n h =>
    refine ⟨toBE 2 n, by simp only [Basic.toBytes, pack, if_pos h], by simp, fun length => ?_⟩
    rw [length_toBE]
    exact (reads_readInt h).map fun n => (Value.int n, 2)
  | @dynamicStr s h =>
    refine ⟨toBE 2 (Utf8.encode s).length ++ Utf8.encode s,
      by simp only [Basic.toBytes, pack, if_pos h]; rfl, by simp, fun length => ?_⟩
    have hlen : (toBE 2 (Utf8.encode s).length ++ Utf8.encode s).length =
        (Utf8.encode s).length + 2 := by simp; omega
    rw [hlen]
    exact (reads_decodeStr h).bind_nil (Reads.pure _)

/-- The fields that fit the format. The last two take what is left, so they come last. -/
inductive PacketType.Fits : PacketType → Field → Prop
  | sized {type : Basic} {v : Value} (h : type.Sized v) : Fits (.basic type) (.value v)
  | noBytes : Fits (.basic .remainingBytes) (.value .none)
  | bytes {b : Bytes} (h : b ≠ []) : Fits (.basic .remainingBytes) (.value (.bytes b))
  | dynamicList {type : Basic} {vs : List Value} (h : ∀ v ∈ vs, type.Sized v) :
    Fits (.dynamicList type) (.list vs)

/-- A list is read back when its bytes are what is left: the length runs out with the items. -/
lemma reads_readItems {type : Basic} {vs : List Value} (h : ∀ v ∈ vs, type.Sized v) :
    ∃ bs, itemsToBytes type vs = .ok bs ∧ vs.length ≤ bs.length ∧
      ∀ turns, vs.length ≤ turns →
        Reads (readItems type turns bs.length) bs (vs, bs.length, 0) := by
  induction vs with
  | nil =>
    refine ⟨[], rfl, le_refl _, fun turns _ => ?_⟩
    cases turns with
    | zero => exact Reads.pure _
    | succ turns => exact Reads.pure _
  | cons v vs ih =>
    obtain ⟨cs, hcs, hle, hrec⟩ := ih fun w hw => h w (List.mem_cons_of_mem _ hw)
    obtain ⟨bs, hbs, hpos, hread⟩ := (h v List.mem_cons_self).reads
    refine ⟨bs ++ cs, by simp [itemsToBytes, hbs, hcs], by simp; omega, fun turns ht => ?_⟩
    obtain ⟨turns, rfl⟩ : ∃ n, turns = n + 1 := ⟨turns - 1, by simp at ht; omega⟩
    have hlength : (((bs ++ cs).length : ℕ) : ℤ) - bs.length = cs.length := by
      simp
    have hgt : (((bs ++ cs).length : ℕ) : ℤ) > 0 := by simp; omega
    unfold readItems
    rw [if_pos hgt]
    refine (hread _).bind ?_
    simp only [hlength]
    refine (hrec turns (by simpa using ht)).bind_nil ?_
    rw [List.length_append]
    exact Reads.pure _

/-- A field whose value says its size is read back, whatever is left of the packet. -/
lemma Basic.Sized.reads_field {type : Basic} {v : Value} (h : type.Sized v) :
    ∃ bs, (PacketType.basic type).toBytes (some (.value v)) = .ok bs ∧
      ∀ length, Reads ((PacketType.basic type).read length) bs (.value v, bs.length, length) := by
  obtain ⟨bs, hbs, -, hread⟩ := h.reads
  exact ⟨bs, hbs, fun length => (hread length).bind_nil (Reads.pure _)⟩

/-- **A field is read as it was written** when its bytes are what is left of the packet. -/
theorem PacketType.Fits.reads {type : PacketType} {f : Field} (h : type.Fits f) :
    ∃ bs, type.toBytes (some f) = .ok bs ∧
      ∃ length, Reads (type.read bs.length) bs (f, bs.length, length) := by
  cases h with
  | sized h =>
    obtain ⟨bs, hbs, hread⟩ := h.reads_field
    exact ⟨bs, hbs, bs.length, hread bs.length⟩
  | noBytes => exact ⟨[], rfl, 0, Reads.pure _⟩
  | @bytes b h =>
    refine ⟨b, rfl, b.length, ?_⟩
    have hpos : ¬((b.length : ℤ) < 1) := by
      have := List.length_pos_iff.mpr h
      omega
    have hread : Reads (Basic.read b.length .remainingBytes) b (.bytes b, b.length) := by
      unfold Basic.read
      rw [if_neg hpos, Int.toNat_natCast]
      exact (reads_read b).map fun bs => (Value.bytes bs, b.length)
    exact hread.bind_nil (Reads.pure _)
  | @dynamicList type vs h =>
    obtain ⟨bs, hbs, hle, hread⟩ := reads_readItems h
    refine ⟨bs, hbs, 0, ?_⟩
    have hread := hread bs.length hle
    unfold PacketType.read
    rw [Int.toNat_natCast]
    exact hread.bind_nil (Reads.pure _)

end MoteBroker.PacketTypes

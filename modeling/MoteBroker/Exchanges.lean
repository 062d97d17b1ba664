import MoteBroker.Messages
import MoteBroker.Packets

/-!
The packet exchanges of one connection: the conditions that its write loop and its packet threads
wait on, and the read loop, which meets them.
-/

namespace MoteBroker.Exchanges

open MoteBroker.Topics MoteBroker.TreeItems MoteBroker.Messages MoteBroker.Packets

/-! ### Packets -/

/-- The message of the broker, or the publish of the client, that a packet is about. No code reads
it. -/
inductive Exchange
  | outgoing (n : ℕ)
  | incoming (n : ℕ)
  deriving DecidableEq

/-- A packet that has an id and nothing else. -/
structure Acknowledge where
  cls : PacketClass
  id : ℕ
  exchange : Exchange
  deriving DecidableEq

inductive FromClient
  | publish (n : ℕ) (packet : PublishPacket)
  | acknowledge (a : Acknowledge)
  deriving DecidableEq

/-- A message of QoS 0 has no packet id. -/
inductive ToClient
  | publish (n : ℕ) (id : Option ℕ) (message : OutgoingMessage)
  | acknowledge (a : Acknowledge)
  deriving DecidableEq

def ToClient.message : ToClient → Option OutgoingMessage
  | .publish _ _ message => some message
  | .acknowledge _ => none

def FromClient.acknowledgement : FromClient → Option Acknowledge
  | .acknowledge a => some a
  | .publish .. => none

/-! ### The handler -/

structure PacketCondition where
  typeCode : ℕ
  id : ℕ
  result : Option Acknowledge
  /-- Which `Condition` object it is. -/
  condition : ℕ
  deriving DecidableEq

/-- What the thread of a PUBLISH packet does next. A number is its `Condition` object. -/
inductive Pc
  | starting
  /-- To write the PUBACK. -/
  | acknowledging
  /-- To write the PUBREC. -/
  | receiving (condition : ℕ)
  | waiting (condition : ℕ)
  | publishing
  /-- To write the PUBCOMP. -/
  | completing
  /-- The write of the PUBREC has raised. -/
  | failed (condition : ℕ)
  | ended
  deriving DecidableEq

structure Thread where
  exchange : ℕ
  packet : PublishPacket
  pc : Pc
  deriving DecidableEq

/-- What the write loop does next. -/
inductive Writer
  | idle
  /-- To write a message of QoS 0. -/
  | unnumbered (message : OutgoingMessage)
  /-- `self.next_packet_id`. -/
  | numbering (message : OutgoingMessage)
  | registering (message : OutgoingMessage) (id : ℕ)
  /-- To write the PUBLISH. -/
  | publishing (message : OutgoingMessage) (id condition : ℕ)
  | waiting (message : OutgoingMessage) (id condition : ℕ)
  | releasing (message : OutgoingMessage) (id : ℕ)
  /-- To write the PUBREL. -/
  | sending (message : OutgoingMessage) (id condition : ℕ)
  | completing (message : OutgoingMessage) (id condition : ℕ)
  /-- `self.used_ids.remove(packet_id)`. -/
  | finishing (id : ℕ)
  /-- The write of a packet has raised, with the condition for its answer in the set. -/
  | failed (cls : PacketClass) (id condition : ℕ)
  | ended
  deriving DecidableEq

structure Handler where
  packetConditions : List PacketCondition
  /-- How many `Condition` objects there have been. -/
  conditions : ℕ
  usedIds : List ℕ
  messageQueue : List OutgoingMessage
  /-- How many messages the write loop has taken. -/
  taken : ℕ
  writer : Writer
  threads : List Thread
  /-- `UnexpectedPacketType` has been raised. -/
  unexpected : Bool
  /-- The calls of `Broker.publish`. -/
  published : List (ℕ × IncomingMessage)

def Handler.new : Handler := ⟨[], 0, [], [], 0, .idle, [], false, []⟩

/-- The loop of `next_packet_id`, for as many turns. -/
def nextPacketIdFrom (used_ids : List ℕ) : ℕ → ℕ → Option ℕ
  | 0, _ => none
  | turns + 1, i => if i ∈ used_ids then nextPacketIdFrom used_ids turns (i + 1) else some i

/-- `none` is `TooManyPacketIds`. -/
def Handler.nextPacketId (h : Handler) : Option ℕ := nextPacketIdFrom h.usedIds 65535 0

/-- `none` is the `KeyError` of a condition that is in the set already. -/
def Handler.createPacketCondition (h : Handler) (cls : PacketClass) (packet_id : ℕ) :
    Option (ℕ × Handler) :=
  let packet_condition : PacketCondition := ⟨cls.typeCode, packet_id, none, h.conditions⟩
  if packet_condition ∈ h.packetConditions then none
  else some (h.conditions,
    { h with
      packetConditions := h.packetConditions ++ [packet_condition]
      conditions := h.conditions + 1 })

def PacketCondition.Matches (c : PacketCondition) (packet : Acknowledge) : Prop :=
  c.typeCode = packet.cls.typeCode ∧ c.id = packet.id

instance (c : PacketCondition) (packet : Acknowledge) : Decidable (c.Matches packet) :=
  inferInstanceAs (Decidable (_ ∧ _))

def PacketCondition.meet (c : PacketCondition) (packet : Acknowledge) : PacketCondition :=
  { c with result := some packet }

/-- What `packet_notify` does when it finds this condition first. -/
def Handler.packetNotify (h : Handler) (packet : Acknowledge) (condition : ℕ) : Option Handler :=
  if ∃ c ∈ h.packetConditions, c.condition = condition ∧ c.Matches packet then
    some { h with packetConditions := h.packetConditions.map fun c =>
      if c.condition = condition then c.meet packet else c }
  else none

/-- The read loop takes a packet: the thread of a PUBLISH is started, another packet meets a
condition. -/
def Handler.handlePacket (h : Handler) (condition : ℕ) : FromClient → Option Handler
  | .publish n packet => some { h with threads := h.threads ++ [⟨n, packet, .starting⟩] }
  | .acknowledge packet =>
    if ∃ c ∈ h.packetConditions, c.Matches packet then h.packetNotify packet condition
    else some { h with unexpected := true }

/-- `wait_for_packet`, once the condition has been met. -/
def Handler.waitForPacket (h : Handler) (condition : ℕ) : Option Handler :=
  if ∃ c ∈ h.packetConditions, c.condition = condition ∧ c.result ≠ none then
    some { h with packetConditions := h.packetConditions.filter (·.condition ≠ condition) }
  else none

/-! ### The packet threads -/

def Handler.goto (h : Handler) (k : ℕ) (t : Thread) (pc : Pc) : Handler :=
  { h with threads := h.threads.set k { t with pc := pc } }

/-- `Broker.publish` may fail; a message that cannot be made does not get there. -/
def Handler.publish (h : Handler) (k : ℕ) (t : Thread) (fails : Bool) (pc : Pc) : Handler :=
  match fromPacket t.packet with
  | .ok message =>
    { h with published := h.published ++ [(t.exchange, message)] }.goto k t
      (if fails then .ended else pc)
  | .error _ => h.goto k t .ended

/-- The acknowledgement that the thread writes. -/
def Thread.acknowledge (t : Thread) (cls : PacketClass) : ToClient :=
  .acknowledge ⟨cls, t.packet.id, .incoming t.exchange⟩

/-- The next step of `handle_publish` in thread `k`, with what it writes. `Broker.publish` or the
write may fail. -/
def Handler.handlePublish (h : Handler) (k : ℕ) (t : Thread) (fails : Bool) :
    Option (Handler × List ToClient) :=
  match t.pc with
  | .starting =>
    match t.packet.qos with
    | 0 => some (h.publish k t fails .ended, [])
    | 1 => some (h.publish k t fails .acknowledging, [])
    | 2 =>
      match h.createPacketCondition .publishReleased t.packet.id with
      | some (condition, h) => some (h.goto k t (.receiving condition), [])
      | none => some (h.goto k t .ended, [])
    | _ => some (h.goto k t .ended, [])
  | .acknowledging =>
    some (h.goto k t .ended, if fails then [] else [t.acknowledge .publishAcknowledge])
  | .receiving condition =>
    if fails then some (h.goto k t (.failed condition), [])
    else some (h.goto k t (.waiting condition), [t.acknowledge .publishReceived])
  | .waiting condition => (h.waitForPacket condition).map fun h => (h.goto k t .publishing, [])
  | .publishing => some (h.publish k t fails .completing, [])
  | .completing =>
    some (h.goto k t .ended, if fails then [] else [t.acknowledge .publishComplete])
  | .failed _ | .ended => none

/-! ### The write loop -/

/-- What answers the PUBLISH. -/
def answerClass (message : OutgoingMessage) : PacketClass :=
  if message.qos = 1 then .publishAcknowledge else .publishReceived

def Handler.write (h : Handler) (writer : Writer) : Handler := { h with writer := writer }

/-- A condition is created in the write loop; a `KeyError` ends it. -/
def Handler.writerCreates (h : Handler) (cls : PacketClass) (packet_id : ℕ) (next : ℕ → Writer) :
    Handler :=
  match h.createPacketCondition cls packet_id with
  | some (condition, h) => h.write (next condition)
  | none => { h with usedIds := h.usedIds.erase packet_id, writer := .ended }

/-- A write has raised: `send_message` gives the id back, and the loop ends. -/
def Handler.writeFails (h : Handler) (cls : PacketClass) (id condition : ℕ) : Handler :=
  { h with usedIds := h.usedIds.erase id, writer := .failed cls id condition }

/-- The next step of `write_loop` and `send_message`, with what it writes. A write may fail, and the
loop may find that the connection is not alive. -/
def Handler.sendMessage (h : Handler) (fails : Bool) : Option (Handler × List ToClient) :=
  match h.writer with
  | .idle =>
    if fails then some (h.write .ended, [])
    else
      match h.messageQueue with
      | [] => none
      | message :: queue =>
        some ({ h with
          messageQueue := queue
          taken := h.taken + 1
          writer := if message.qos = 0 then .unnumbered message else .numbering message }, [])
  | .unnumbered message =>
    if fails then some (h.write .ended, [])
    else some (h.write .idle, [.publish h.taken none message])
  | .numbering message =>
    match h.nextPacketId with
    | some id =>
      some ({ h with usedIds := h.usedIds.insert id, writer := .registering message id }, [])
    | none => some (h.write .ended, [])
  | .registering message id =>
    some (h.writerCreates (answerClass message) id (.publishing message id), [])
  | .publishing message id condition =>
    if fails then some (h.writeFails (answerClass message) id condition, [])
    else some (h.write (.waiting message id condition), [.publish h.taken (some id) message])
  | .waiting message id condition =>
    (h.waitForPacket condition).map fun h =>
      (h.write (if message.qos = 2 then .releasing message id else .finishing id), [])
  | .releasing message id =>
    some (h.writerCreates .publishComplete id (.sending message id), [])
  | .sending message id condition =>
    if fails then some (h.writeFails .publishComplete id condition, [])
    else some (h.write (.completing message id condition),
      [.acknowledge ⟨.publishReleased, id, .outgoing h.taken⟩])
  | .completing _ id condition =>
    (h.waitForPacket condition).map fun h => (h.write (.finishing id), [])
  | .finishing id => some ({ h with usedIds := h.usedIds.erase id, writer := .idle }, [])
  | .failed .. | .ended => none

/-- The packet id of the message that the write loop is sending. -/
def Writer.id : Writer → Option ℕ
  | .registering _ id | .publishing _ id _ | .waiting _ id _ | .releasing _ id | .sending _ id _
  | .completing _ id _ | .finishing id => some id
  | _ => none

/-- The message that the write loop has taken and not written yet. -/
def Writer.unsent : Writer → List OutgoingMessage
  | .unnumbered message | .numbering message | .registering message _
  | .publishing message _ _ => [message]
  | _ => []

/-- The write loop has ended. -/
def Writer.Over : Writer → Prop
  | .failed .. | .ended => True
  | _ => False

/-! ### Who waits on a condition -/

/-- What does not change about a condition. -/
structure Key where
  typeCode : ℕ
  id : ℕ
  condition : ℕ
  deriving DecidableEq

def PacketCondition.key (c : PacketCondition) : Key := ⟨c.typeCode, c.id, c.condition⟩

/-- The condition in the set that is the thread's. -/
def Thread.key (t : Thread) : Option Key :=
  match t.pc with
  | .receiving condition | .waiting condition | .failed condition =>
    some ⟨PacketClass.publishReleased.typeCode, t.packet.id, condition⟩
  | _ => none

def Writer.key : Writer → Option Key
  | .publishing message id condition | .waiting message id condition =>
    some ⟨(answerClass message).typeCode, id, condition⟩
  | .sending _ id condition | .completing _ id condition =>
    some ⟨PacketClass.publishComplete.typeCode, id, condition⟩
  | .failed cls id condition => some ⟨cls.typeCode, id, condition⟩
  | _ => none

inductive Holder
  | writer
  | thread (k : ℕ)
  deriving DecidableEq

def Handler.key (h : Handler) : Holder → Option Key
  | .writer => h.writer.key
  | .thread k => h.threads[k]?.bind Thread.key

/-- The acknowledgement, and the condition, that the write loop waits for; its message has this
number. -/
def Writer.waits (n : ℕ) : Writer → Option (Acknowledge × ℕ)
  | .waiting message id condition => some (⟨answerClass message, id, .outgoing n⟩, condition)
  | .completing _ id condition => some (⟨.publishComplete, id, .outgoing n⟩, condition)
  | _ => none

def Thread.waits (t : Thread) : Option (Acknowledge × ℕ) :=
  match t.pc with
  | .waiting condition => some (⟨.publishReleased, t.packet.id, .incoming t.exchange⟩, condition)
  | _ => none

def Handler.waits (h : Handler) : Holder → Option (Acknowledge × ℕ)
  | .writer => h.writer.waits h.taken
  | .thread k => h.threads[k]?.bind Thread.waits

/-- Every condition in the set is that of one thread, and every thread that waits has one there. -/
structure Wired (h : Handler) : Prop where
  nodup : (h.packetConditions.map (·.condition)).Nodup
  fresh : ∀ c ∈ h.packetConditions, c.condition < h.conditions
  held : ∀ c ∈ h.packetConditions, ∃ w, h.key w = some c.key
  kept : ∀ w x, h.key w = some x → ∃ c ∈ h.packetConditions, c.key = x
  distinct : ∀ w w' x x', h.key w = some x → h.key w' = some x' → x.condition = x'.condition →
    w = w'

lemma wired_new : Wired .new where
  nodup := List.nodup_nil
  fresh _ h := (nomatch h)
  held _ h := (nomatch h)
  kept w x h := by cases w <;> cases h
  distinct w _ x _ h := by cases w <;> cases h

section
variable {h h' : Handler}

/-- A condition is known by its `Condition` object. -/
lemma Wired.eq_of_condition (hw : Wired h) {c c' : PacketCondition} (hc : c ∈ h.packetConditions)
    (hc' : c' ∈ h.packetConditions) (heq : c.condition = c'.condition) : c = c' :=
  List.inj_on_of_nodup_map hw.nodup hc hc' heq

lemma Wired.lt (hw : Wired h) {w : Holder} {x : Key} (hx : h.key w = some x) :
    x.condition < h.conditions := by
  obtain ⟨c, hc, rfl⟩ := hw.kept w x hx
  exact hw.fresh c hc

/-- **The guard never fires**: a new condition has a new `Condition` object, so no condition in the
set equals it. -/
theorem Wired.createPacketCondition (hw : Wired h) (cls : PacketClass) (packet_id : ℕ) :
    h.createPacketCondition cls packet_id = some (h.conditions,
      { h with
        packetConditions := h.packetConditions ++ [⟨cls.typeCode, packet_id, none, h.conditions⟩]
        conditions := h.conditions + 1 }) := by
  unfold Handler.createPacketCondition
  rw [if_neg]
  exact fun hmem => absurd (hw.fresh _ hmem) (lt_irrefl _)

/-- A condition is created for somebody who has none. -/
lemma Wired.create (hw : Wired h) {w : Holder} {tc id : ℕ}
    (hconds : h'.packetConditions = h.packetConditions ++ [⟨tc, id, none, h.conditions⟩])
    (hnext : h'.conditions = h.conditions + 1)
    (hkey : ∀ v, h'.key v = if v = w then some ⟨tc, id, h.conditions⟩ else h.key v)
    (hnone : h.key w = none) : Wired h' where
  nodup := by
    rw [hconds, List.map_append]
    refine hw.nodup.append (List.nodup_singleton _) fun i hi hi' => ?_
    obtain ⟨c, hc, rfl⟩ := List.mem_map.mp hi
    have heq : c.condition = h.conditions := List.mem_singleton.mp hi'
    exact absurd (hw.fresh c hc) (heq ▸ lt_irrefl _)
  fresh c hc := by
    rw [hconds, List.mem_append, List.mem_singleton] at hc
    rw [hnext]
    rcases hc with hc | rfl
    · exact Nat.lt_succ_of_lt (hw.fresh c hc)
    · exact Nat.lt_succ_self _
  held c hc := by
    rw [hconds, List.mem_append, List.mem_singleton] at hc
    rcases hc with hc | rfl
    · obtain ⟨v, hv⟩ := hw.held c hc
      refine ⟨v, ?_⟩
      rw [hkey, if_neg, hv]
      rintro rfl
      exact (nomatch hnone.symm.trans hv)
    · exact ⟨w, by rw [hkey, if_pos rfl]; rfl⟩
  kept v x hv := by
    rw [hkey] at hv
    rw [hconds]
    split_ifs at hv with hvw
    · exact ⟨_, List.mem_append_right _ List.mem_cons_self, Option.some.inj hv⟩
    · obtain ⟨c, hc, hx⟩ := hw.kept v x hv
      exact ⟨c, List.mem_append_left _ hc, hx⟩
  distinct v v' x x' hv hv' heq := by
    rw [hkey] at hv hv'
    split_ifs at hv hv' with hvw hvw' hvw'
    · exact hvw.trans hvw'.symm
    · cases hv
      exact absurd (hw.lt hv') (heq ▸ lt_irrefl _)
    · cases hv'
      exact absurd (hw.lt hv) (heq ▸ lt_irrefl _)
    · exact hw.distinct v v' x x' hv hv' heq

/-- A condition is removed by whom it belongs to. -/
lemma Wired.remove (hw : Wired h) {w : Holder} {x : Key} (hx : h.key w = some x)
    (hconds : h'.packetConditions = h.packetConditions.filter (·.condition ≠ x.condition))
    (hnext : h'.conditions = h.conditions)
    (hkey : ∀ v, h'.key v = if v = w then none else h.key v) : Wired h' where
  nodup := by
    rw [hconds]
    exact hw.nodup.sublist (List.filter_sublist.map _)
  fresh c hc := by
    rw [hconds] at hc
    rw [hnext]
    exact hw.fresh c (List.mem_filter.mp hc).1
  held c hc := by
    rw [hconds] at hc
    obtain ⟨hc, hne⟩ := List.mem_filter.mp hc
    obtain ⟨v, hv⟩ := hw.held c hc
    refine ⟨v, ?_⟩
    rw [hkey, if_neg, hv]
    rintro rfl
    rw [hx] at hv
    cases hv
    simp [PacketCondition.key] at hne
  kept v y hv := by
    rw [hkey] at hv
    split_ifs at hv with hvw
    obtain ⟨c, hc, rfl⟩ := hw.kept v y hv
    refine ⟨c, ?_, rfl⟩
    rw [hconds, List.mem_filter]
    refine ⟨hc, decide_eq_true fun heq => hvw ?_⟩
    exact hw.distinct v w c.key x hv hx heq
  distinct v v' y y' hv hv' := by
    rw [hkey] at hv hv'
    split_ifs at hv hv'
    exact hw.distinct v v' y y' hv hv'

/-- Nobody gets or loses a condition. -/
lemma Wired.keep (hw : Wired h)
    (hconds : h'.packetConditions.map (·.key) = h.packetConditions.map (·.key))
    (hnext : h'.conditions = h.conditions) (hkey : ∀ v, h'.key v = h.key v) : Wired h' := by
  have hmem : ∀ x, (∃ c ∈ h'.packetConditions, c.key = x) ↔
      ∃ c ∈ h.packetConditions, c.key = x := by
    intro x
    rw [← List.mem_map, ← List.mem_map, hconds]
  have hids : h'.packetConditions.map (·.condition) = h.packetConditions.map (·.condition) := by
    have hmap := congrArg (List.map Key.condition) hconds
    rw [List.map_map, List.map_map] at hmap
    exact hmap
  refine ⟨hids ▸ hw.nodup, fun c hc => ?_, fun c hc => ?_, fun v x hv => ?_, ?_⟩
  · obtain ⟨c', hc', heq⟩ := (hmem c.key).mp ⟨c, hc, rfl⟩
    have hlt := hw.fresh c' hc'
    rw [hnext, ← show c'.condition = c.condition from congrArg Key.condition heq]
    exact hlt
  · obtain ⟨c', hc', heq⟩ := (hmem c.key).mp ⟨c, hc, rfl⟩
    obtain ⟨v, hv⟩ := hw.held c' hc'
    exact ⟨v, by rw [hkey, hv, heq]⟩
  · exact (hmem x).mpr (hw.kept v x ((hkey v).symm.trans hv))
  · intro v v' x x' hv hv'
    exact hw.distinct v v' x x' ((hkey v).symm.trans hv) ((hkey v').symm.trans hv')

end

/-! ### What a step does -/

def Handler.create (h : Handler) (cls : PacketClass) (id : ℕ) : Handler :=
  { h with
    packetConditions := h.packetConditions ++ [⟨cls.typeCode, id, none, h.conditions⟩]
    conditions := h.conditions + 1 }

def Handler.remove (h : Handler) (condition : ℕ) : Handler :=
  { h with packetConditions := h.packetConditions.filter (·.condition ≠ condition) }

def Handler.Met (h : Handler) (condition : ℕ) : Prop :=
  ∃ c ∈ h.packetConditions, c.condition = condition ∧ c.result ≠ none

/-- What a step of thread `k` does and writes. -/
inductive Works (h : Handler) (k : ℕ) (t : Thread) : Handler → List ToClient → Prop
  | publish {fails : Bool} {pc : Pc}
    (hpc : t.pc = .publishing ∧ pc = .completing ∨ t.pc = .starting ∧
      (t.packet.qos = 0 ∧ pc = .ended ∨ t.packet.qos = 1 ∧ pc = .acknowledging)) :
    Works h k t (h.publish k t fails pc) []
  | create (hpc : t.pc = .starting) (hqos : t.packet.qos = 2) :
    Works h k t ((h.create .publishReleased t.packet.id).goto k t (.receiving h.conditions)) []
  | stop (hpc : t.pc = .starting) (hqos : t.packet.qos ≠ 2) : Works h k t (h.goto k t .ended) []
  | acknowledge {fails : Bool} (hpc : t.pc = .acknowledging) :
    Works h k t (h.goto k t .ended) (if fails then [] else [t.acknowledge .publishAcknowledge])
  | fail {condition : ℕ} (hpc : t.pc = .receiving condition) :
    Works h k t (h.goto k t (.failed condition)) []
  | receive {condition : ℕ} (hpc : t.pc = .receiving condition) :
    Works h k t (h.goto k t (.waiting condition)) [t.acknowledge .publishReceived]
  | meet {condition : ℕ} (hpc : t.pc = .waiting condition) (hmet : h.Met condition) :
    Works h k t ((h.remove condition).goto k t .publishing) []
  | complete {fails : Bool} (hpc : t.pc = .completing) :
    Works h k t (h.goto k t .ended) (if fails then [] else [t.acknowledge .publishComplete])

/-- What a step of the write loop does and writes. -/
inductive Writes (h : Handler) : Handler → List ToClient → Prop
  | stop (hw : h.writer = .idle ∨
      ∃ message, h.writer = .unnumbered message ∨ h.writer = .numbering message) :
    Writes h (h.write .ended) []
  | take {message : OutgoingMessage} {queue : List OutgoingMessage} (hw : h.writer = .idle)
    (hq : h.messageQueue = message :: queue) :
    Writes h { h with
      messageQueue := queue
      taken := h.taken + 1
      writer := if message.qos = 0 then .unnumbered message else .numbering message } []
  | publishUnnumbered {message : OutgoingMessage} (hw : h.writer = .unnumbered message) :
    Writes h (h.write .idle) [.publish h.taken none message]
  | number {message : OutgoingMessage} {id : ℕ} (hw : h.writer = .numbering message)
    (hid : h.nextPacketId = some id) :
    Writes h { h with usedIds := h.usedIds.insert id, writer := .registering message id } []
  | register {message : OutgoingMessage} {id : ℕ} (hw : h.writer = .registering message id) :
    Writes h ((h.create (answerClass message) id).write (.publishing message id h.conditions)) []
  | fail {cls : PacketClass} {id condition : ℕ}
    (hw : ∃ message, h.writer = .publishing message id condition ∧ cls = answerClass message ∨
      h.writer = .sending message id condition ∧ cls = .publishComplete) :
    Writes h (h.writeFails cls id condition) []
  | publish {message : OutgoingMessage} {id condition : ℕ}
    (hw : h.writer = .publishing message id condition) :
    Writes h (h.write (.waiting message id condition)) [.publish h.taken (some id) message]
  | answered {message : OutgoingMessage} {id condition : ℕ}
    (hw : h.writer = .waiting message id condition) (hmet : h.Met condition) :
    Writes h ((h.remove condition).write
      (if message.qos = 2 then .releasing message id else .finishing id)) []
  | release {message : OutgoingMessage} {id : ℕ} (hw : h.writer = .releasing message id) :
    Writes h ((h.create .publishComplete id).write (.sending message id h.conditions)) []
  | send {message : OutgoingMessage} {id condition : ℕ}
    (hw : h.writer = .sending message id condition) :
    Writes h (h.write (.completing message id condition))
      [.acknowledge ⟨.publishReleased, id, .outgoing h.taken⟩]
  | completed {message : OutgoingMessage} {id condition : ℕ}
    (hw : h.writer = .completing message id condition) (hmet : h.Met condition) :
    Writes h ((h.remove condition).write (.finishing id)) []
  | finish {id : ℕ} (hw : h.writer = .finishing id) :
    Writes h { h with usedIds := h.usedIds.erase id, writer := .idle } []

section
variable {h h' : Handler} {out : List ToClient}

lemma waitForPacket_eq {condition : ℕ} (hs : h.waitForPacket condition = some h') :
    h.Met condition ∧ h' = h.remove condition := by
  unfold Handler.waitForPacket at hs
  split_ifs at hs with hmet
  exact ⟨hmet, (Option.some.inj hs).symm⟩

lemma works_of_handlePublish (hw : Wired h) {k : ℕ} {t : Thread} {fails : Bool}
    (hs : h.handlePublish k t fails = some (h', out)) : Works h k t h' out := by
  unfold Handler.handlePublish at hs
  split at hs
  case h_1 hpc =>
    split at hs
    case h_1 hqos => cases hs; exact .publish (.inr ⟨hpc, .inl ⟨hqos, rfl⟩⟩)
    case h_2 hqos => cases hs; exact .publish (.inr ⟨hpc, .inr ⟨hqos, rfl⟩⟩)
    case h_3 hqos =>
      rw [hw.createPacketCondition] at hs
      cases hs
      exact .create hpc hqos
    case h_4 hqos => cases hs; exact .stop hpc hqos
  case h_2 hpc => cases hs; exact .acknowledge hpc
  case h_3 hpc =>
    split_ifs at hs
    · cases hs; exact .fail hpc
    · cases hs; exact .receive hpc
  case h_4 hpc =>
    obtain ⟨h₁, hwait, heq⟩ := Option.map_eq_some_iff.mp hs
    obtain ⟨hmet, rfl⟩ := waitForPacket_eq hwait
    cases heq
    exact .meet hpc hmet
  case h_5 hpc => cases hs; exact .publish (.inl ⟨hpc, rfl⟩)
  case h_6 hpc => cases hs; exact .complete hpc
  case h_7 | h_8 => cases hs

lemma writes_of_sendMessage (hw : Wired h) {fails : Bool}
    (hs : h.sendMessage fails = some (h', out)) : Writes h h' out := by
  unfold Handler.sendMessage at hs
  split at hs
  case h_1 hpc =>
    split_ifs at hs
    · cases hs; exact .stop (.inl hpc)
    · split at hs
      · cases hs
      · rename_i hq
        cases hs
        exact .take hpc hq
  case h_2 hpc =>
    split_ifs at hs
    · cases hs; exact .stop (.inr ⟨_, .inl hpc⟩)
    · cases hs; exact .publishUnnumbered hpc
  case h_3 hpc =>
    split at hs
    case h_1 hid => cases hs; exact .number hpc hid
    case h_2 => cases hs; exact .stop (.inr ⟨_, .inr hpc⟩)
  case h_4 hpc =>
    unfold Handler.writerCreates at hs
    rw [hw.createPacketCondition] at hs
    cases hs
    exact .register hpc
  case h_5 hpc =>
    split_ifs at hs
    · cases hs; exact .fail ⟨_, .inl ⟨hpc, rfl⟩⟩
    · cases hs; exact .publish hpc
  case h_6 hpc =>
    obtain ⟨h₁, hwait, heq⟩ := Option.map_eq_some_iff.mp hs
    obtain ⟨hmet, rfl⟩ := waitForPacket_eq hwait
    cases heq
    exact .answered hpc hmet
  case h_7 hpc =>
    unfold Handler.writerCreates at hs
    rw [hw.createPacketCondition] at hs
    cases hs
    exact .release hpc
  case h_8 hpc =>
    split_ifs at hs
    · cases hs; exact .fail ⟨_, .inr ⟨hpc, rfl⟩⟩
    · cases hs; exact .send hpc
  case h_9 hpc =>
    obtain ⟨h₁, hwait, heq⟩ := Option.map_eq_some_iff.mp hs
    obtain ⟨hmet, rfl⟩ := waitForPacket_eq hwait
    cases heq
    exact .completed hpc hmet
  case h_10 hpc => cases hs; exact .finish hpc
  case h_11 | h_12 => cases hs

lemma goto_key {k : ℕ} {t : Thread} (hk : h.threads[k]? = some t) (pc : Pc) (w : Holder) :
    (h.goto k t pc).key w = if w = .thread k then Thread.key { t with pc := pc } else h.key w := by
  cases w with
  | writer => rfl
  | thread j =>
    change ((h.threads.set k { t with pc := pc })[j]?).bind Thread.key = _
    split_ifs with hjk
    · obtain rfl := Holder.thread.inj hjk
      rw [List.getElem?_set_self (List.getElem?_eq_some_iff.mp hk).1]
      rfl
    · rw [List.getElem?_set_ne fun heq => hjk (congrArg _ heq.symm)]
      rfl

lemma write_key (writer : Writer) (w : Holder) :
    (h.write writer).key w = if w = .writer then writer.key else h.key w := by
  cases w <;> rfl

lemma goto_waits {k : ℕ} {t : Thread} (hk : h.threads[k]? = some t) (pc : Pc) (w : Holder) :
    (h.goto k t pc).waits w =
      if w = .thread k then Thread.waits { t with pc := pc } else h.waits w := by
  cases w with
  | writer => rfl
  | thread j =>
    change ((h.threads.set k { t with pc := pc })[j]?).bind Thread.waits = _
    split_ifs with hjk
    · obtain rfl := Holder.thread.inj hjk
      rw [List.getElem?_set_self (List.getElem?_eq_some_iff.mp hk).1]
      rfl
    · rw [List.getElem?_set_ne fun heq => hjk (congrArg _ heq.symm)]
      rfl

/-- Who waits has the condition for which it waits. -/
lemma key_of_waits {w : Holder} {a : Acknowledge} {condition : ℕ}
    (hx : h.waits w = some (a, condition)) :
    h.key w = some ⟨a.cls.typeCode, a.id, condition⟩ := by
  cases w with
  | writer =>
    change h.writer.waits h.taken = _ at hx
    change h.writer.key = _
    unfold Writer.waits at hx
    split at hx <;> cases hx
    · rename_i heq
      rw [heq]
      rfl
    · rename_i heq
      rw [heq]
      rfl
  | thread k =>
    obtain ⟨t, ht, hx⟩ := Option.bind_eq_some_iff.mp hx
    change h.threads[k]?.bind Thread.key = _
    rw [ht, Option.bind_some]
    unfold Thread.waits at hx
    split at hx <;> cases hx
    rename_i hpc
    simp [Thread.key, hpc]

lemma Thread.of_key {t : Thread} {x : Key} (hx : t.key = some x) :
    x.typeCode = PacketClass.publishReleased.typeCode ∧ x.id = t.packet.id ∧
      (t.pc = .receiving x.condition ∨ t.pc = .waiting x.condition ∨
        t.pc = .failed x.condition) := by
  unfold Thread.key at hx
  split at hx <;> cases hx <;> rename_i hpc <;> simp [hpc]

/-- A call of `Broker.publish` leads to the next step, or to the end. -/
lemma publish_eq (h : Handler) (k : ℕ) (t : Thread) (fails : Bool) (pc : Pc) :
    ∃ published pc', (pc' = .ended ∨ pc' = pc) ∧
      h.publish k t fails pc = { h with published := published }.goto k t pc' := by
  unfold Handler.publish
  split
  · exact ⟨_, if fails then .ended else pc, by split_ifs <;> simp, rfl⟩
  · exact ⟨_, .ended, .inl rfl, rfl⟩

/-- A thread moves without getting or losing a condition. -/
lemma Wired.goto (hw : Wired h) {k : ℕ} {t : Thread} {pc : Pc} (hk : h.threads[k]? = some t)
    (hkey : Thread.key { t with pc := pc } = t.key) : Wired (h.goto k t pc) := by
  refine hw.keep rfl rfl fun v => ?_
  rw [goto_key hk, hkey]
  split_ifs with hv
  · rw [hv]
    exact (congrArg (·.bind Thread.key) hk).symm
  · rfl

/-- The write loop moves without getting or losing a condition. -/
lemma Wired.write (hw : Wired h) {w : Writer} (hkey : w.key = h.writer.key) :
    Wired (h.write w) := by
  refine hw.keep rfl rfl fun v => ?_
  rw [write_key, hkey]
  split_ifs with hv
  · rw [hv]
    rfl
  · rfl

theorem Wired.works (hw : Wired h) {k : ℕ} {t : Thread} (hk : h.threads[k]? = some t)
    (hs : Works h k t h' out) : Wired h' := by
  have hkey : h.key (.thread k) = t.key := congrArg (·.bind Thread.key) hk
  cases hs with
  | @publish fails pc hpc =>
    obtain ⟨published, pc', hpc', heq⟩ := publish_eq h k t fails pc
    rw [heq]
    have hw' : Wired { h with published := published } :=
      hw.keep rfl rfl fun v => by cases v <;> rfl
    refine hw'.goto hk ?_
    rcases hpc with ⟨hpc, rfl⟩ | ⟨hpc, ⟨-, rfl⟩ | ⟨-, rfl⟩⟩ <;> rcases hpc' with rfl | rfl <;>
      simp [Thread.key, hpc]
  | create hpc =>
    refine hw.create (w := .thread k) rfl rfl (fun v => ?_) (by rw [hkey]; simp [Thread.key, hpc])
    rw [goto_key (h := h.create _ _) hk]
    cases v <;> rfl
  | stop hpc => exact hw.goto hk (by simp [Thread.key, hpc])
  | acknowledge hpc => exact hw.goto hk (by simp [Thread.key, hpc])
  | fail hpc => exact hw.goto hk (by simp [Thread.key, hpc])
  | receive hpc => exact hw.goto hk (by simp [Thread.key, hpc])
  | @meet condition hpc hmet =>
    have hx : h.key (.thread k) =
        some ⟨PacketClass.publishReleased.typeCode, t.packet.id, condition⟩ := by
      rw [hkey]
      simp [Thread.key, hpc]
    refine hw.remove hx rfl rfl fun v => ?_
    rw [goto_key (h := h.remove condition) hk]
    cases v <;> rfl
  | complete hpc => exact hw.goto hk (by simp [Thread.key, hpc])

theorem Wired.writes (hw : Wired h) (hs : Writes h h' out) : Wired h' := by
  have hkey : h.key .writer = h.writer.key := rfl
  cases hs with
  | stop hpc => exact hw.write (by rcases hpc with hpc | ⟨_, hpc | hpc⟩ <;> rw [hpc] <;> rfl)
  | @take message queue hpc hq =>
    have hw' : Wired { h with messageQueue := queue, taken := h.taken + 1 } :=
      hw.keep rfl rfl fun v => by cases v <;> rfl
    refine hw'.write (w := if message.qos = 0 then .unnumbered message else .numbering message) ?_
    change _ = h.writer.key
    rw [hpc]
    split_ifs <;> rfl
  | publishUnnumbered hpc => exact hw.write (by rw [hpc]; rfl)
  | @number message id hpc =>
    have hw' : Wired { h with usedIds := h.usedIds.insert id } :=
      hw.keep rfl rfl fun v => by cases v <;> rfl
    refine hw'.write (w := .registering message id) ?_
    change _ = h.writer.key
    rw [hpc]
    rfl
  | register hpc =>
    refine hw.create (w := .writer) rfl rfl (fun v => ?_) (by rw [hkey, hpc]; rfl)
    rw [write_key]
    cases v <;> rfl
  | @fail cls id condition hpc =>
    have hw' : Wired { h with usedIds := h.usedIds.erase id } :=
      hw.keep rfl rfl fun v => by cases v <;> rfl
    refine hw'.write (w := .failed cls id condition) ?_
    change _ = h.writer.key
    obtain ⟨message, ⟨hpc, rfl⟩ | ⟨hpc, rfl⟩⟩ := hpc <;> rw [hpc] <;> rfl
  | publish hpc => exact hw.write (by rw [hpc]; rfl)
  | @answered message id condition hpc hmet =>
    refine hw.remove (w := .writer) (by rw [hkey, hpc]; rfl) rfl rfl fun v => ?_
    rw [write_key]
    split_ifs <;> rfl
  | release hpc =>
    refine hw.create (w := .writer) rfl rfl (fun v => ?_) (by rw [hkey, hpc]; rfl)
    rw [write_key]
    cases v <;> rfl
  | send hpc => exact hw.write (by rw [hpc]; rfl)
  | completed hpc hmet =>
    refine hw.remove (w := .writer) (by rw [hkey, hpc]; rfl) rfl rfl fun v => ?_
    rw [write_key]
    split_ifs <;> rfl
  | @finish id hpc =>
    have hw' : Wired { h with usedIds := h.usedIds.erase id } :=
      hw.keep rfl rfl fun v => by cases v <;> rfl
    refine hw'.write (w := .idle) ?_
    change _ = h.writer.key
    rw [hpc]
    rfl

/-- What the read loop does with a packet. -/
inductive Reads (h : Handler) (condition : ℕ) : FromClient → Handler → Prop
  | publish {n : ℕ} {packet : PublishPacket} :
    Reads h condition (.publish n packet)
      { h with threads := h.threads ++ [⟨n, packet, .starting⟩] }
  | notify {packet : Acknowledge} {c : PacketCondition} (hc : c ∈ h.packetConditions)
    (hcond : c.condition = condition) (hmatch : c.Matches packet) :
    Reads h condition (.acknowledge packet) { h with
      packetConditions := h.packetConditions.map fun c =>
        if c.condition = condition then c.meet packet else c }
  | unexpected {packet : Acknowledge} (hnone : ∀ c ∈ h.packetConditions, ¬c.Matches packet) :
    Reads h condition (.acknowledge packet) { h with unexpected := true }

lemma reads_of_handlePacket {condition : ℕ} {packet : FromClient}
    (hs : h.handlePacket condition packet = some h') : Reads h condition packet h' := by
  unfold Handler.handlePacket at hs
  split at hs
  case h_1 => cases hs; exact .publish
  case h_2 packet =>
    unfold Handler.packetNotify at hs
    split_ifs at hs with hany hc
    · cases hs
      obtain ⟨c, hc, hcond, hmatch⟩ := hc
      exact .notify hc hcond hmatch
    · cases hs
      exact .unexpected fun c hc hmatch => hany ⟨c, hc, hmatch⟩

theorem Wired.reads (hw : Wired h) {condition : ℕ} {packet : FromClient}
    (hs : Reads h condition packet h') : Wired h' := by
  cases hs with
  | publish =>
    refine hw.keep rfl rfl fun v => ?_
    cases v with
    | writer => rfl
    | thread j =>
      change ((h.threads ++ [_])[j]?).bind Thread.key = (h.threads[j]?).bind Thread.key
      rcases lt_or_ge j h.threads.length with hlt | hge
      · rw [List.getElem?_append_left hlt]
      · rw [List.getElem?_append_right hge, List.getElem?_eq_none hge]
        cases h' : [_][j - h.threads.length]? with
        | none => rfl
        | some t =>
          obtain rfl := List.mem_singleton.mp (List.mem_of_getElem? h')
          rfl
  | notify =>
    refine hw.keep ?_ rfl fun v => by cases v <;> rfl
    rw [List.map_map]
    refine List.map_congr_left fun c _ => ?_
    simp only [Function.comp_apply]
    split_ifs <;> rfl
  | unexpected => exact hw.keep rfl rfl fun v => by cases v <;> rfl

/-- The write loop stands where it was. -/
structure SameWriter (h h' : Handler) : Prop where
  writer : h'.writer = h.writer
  usedIds : h'.usedIds = h.usedIds
  messageQueue : h'.messageQueue = h.messageQueue
  taken : h'.taken = h.taken

lemma Works.sameWriter {k : ℕ} {t : Thread} (hs : Works h k t h' out) : SameWriter h h' := by
  cases hs with
  | @publish fails pc =>
    obtain ⟨published, pc', -, heq⟩ := publish_eq h k t fails pc
    rw [heq]
    exact ⟨rfl, rfl, rfl, rfl⟩
  | _ => exact ⟨rfl, rfl, rfl, rfl⟩

lemma Reads.sameWriter {condition : ℕ} {packet : FromClient} (hs : Reads h condition packet h') :
    SameWriter h h' := by
  cases hs <;> exact ⟨rfl, rfl, rfl, rfl⟩

/-- A thread writes no message. -/
lemma Works.message {k : ℕ} {t : Thread} (hs : Works h k t h' out) :
    out.filterMap ToClient.message = [] := by
  cases hs with
  | acknowledge | complete => split_ifs <;> rfl
  | _ => rfl

lemma Works.unexpected {k : ℕ} {t : Thread} (hs : Works h k t h' out) :
    h'.unexpected = h.unexpected := by
  cases hs with
  | @publish fails pc =>
    obtain ⟨published, pc', -, heq⟩ := publish_eq h k t fails pc
    rw [heq]
    rfl
  | _ => rfl

/-- The packet threads stand where they were. -/
lemma Writes.threads (hs : Writes h h' out) :
    h'.threads = h.threads ∧ h'.unexpected = h.unexpected ∧ h'.published = h.published := by
  cases hs <;> exact ⟨rfl, rfl, rfl⟩

/-- A step of a thread takes only that thread further. -/
lemma Works.threads {k : ℕ} {t : Thread} (hs : Works h k t h' out) :
    ∃ pc, h'.threads = h.threads.set k { t with pc := pc } := by
  cases hs with
  | @publish fails pc =>
    obtain ⟨published, pc', -, heq⟩ := publish_eq h k t fails pc
    rw [heq]
    exact ⟨pc', rfl⟩
  | _ => exact ⟨_, rfl⟩

/-- Only a publish of QoS 2 has more than one step, apart from the acknowledgement. -/
def Thread.Fits (t : Thread) : Prop :=
  t.pc = .starting ∨ t.pc = .acknowledging ∨ t.pc = .ended ∨ t.packet.qos = 2

lemma Works.fits {k : ℕ} {t : Thread} (hs : Works h k t h' out) (ht : t.Fits) :
    ∃ pc, h'.threads = h.threads.set k { t with pc := pc } ∧ Thread.Fits { t with pc := pc } := by
  have hended : Thread.Fits { t with pc := .ended } := .inr (.inr (.inl rfl))
  have htwo : t.pc ≠ .starting → t.pc ≠ .acknowledging → t.pc ≠ .ended → t.packet.qos = 2 :=
    fun h₁ h₂ h₃ => by simpa [Thread.Fits, h₁, h₂, h₃] using ht
  cases hs with
  | @publish fails pc hpc =>
    obtain ⟨published, pc', hpc', heq⟩ := publish_eq h k t fails pc
    rw [heq]
    refine ⟨pc', rfl, ?_⟩
    rcases hpc' with rfl | rfl
    · exact hended
    · rcases hpc with ⟨hpc, rfl⟩ | ⟨-, ⟨-, rfl⟩ | ⟨-, rfl⟩⟩
      · exact .inr (.inr (.inr (htwo (by simp [hpc]) (by simp [hpc]) (by simp [hpc]))))
      · exact hended
      · exact .inr (.inl rfl)
  | create hpc hqos => exact ⟨_, rfl, .inr (.inr (.inr hqos))⟩
  | fail hpc | receive hpc | meet hpc =>
    exact ⟨_, rfl, .inr (.inr (.inr (htwo (by simp [hpc]) (by simp [hpc]) (by simp [hpc]))))⟩
  | stop | acknowledge | complete => exact ⟨_, rfl, hended⟩

/-- The write loop and the threads do not wait for packets of the same type. -/
structure Typed (h : Handler) : Prop where
  outgoing : ∀ x, h.writer.key = some x → x.typeCode ≠ PacketClass.publishReleased.typeCode
  fits : ∀ t ∈ h.threads, t.Fits

lemma typed_new : Typed .new := ⟨fun _ hx => (nomatch hx), fun _ ht => (nomatch ht)⟩

lemma answerClass_ne (message : OutgoingMessage) :
    (answerClass message).typeCode ≠ PacketClass.publishReleased.typeCode := by
  unfold answerClass
  split_ifs <;> decide

lemma publishComplete_ne :
    PacketClass.publishComplete.typeCode ≠ PacketClass.publishReleased.typeCode := by
  decide

theorem Typed.works (ht : Typed h) {k : ℕ} {t : Thread} (hk : h.threads[k]? = some t)
    (hs : Works h k t h' out) : Typed h' where
  outgoing := by
    rw [hs.sameWriter.writer]
    exact ht.outgoing
  fits u hu := by
    obtain ⟨pc, heq, hfits⟩ := hs.fits (ht.fits t (List.mem_of_getElem? hk))
    rw [heq] at hu
    rcases List.mem_or_eq_of_mem_set hu with hu | rfl
    · exact ht.fits u hu
    · exact hfits

theorem Typed.writes (ht : Typed h) (hs : Writes h h' out) : Typed h' where
  outgoing x hx := by
    have hold := ht.outgoing
    cases hs with
    | register | publish => cases hx; exact answerClass_ne _
    | release | send => cases hx; exact publishComplete_ne
    | fail hw =>
      cases hx
      obtain ⟨message, ⟨-, rfl⟩ | ⟨-, rfl⟩⟩ := hw
      · exact answerClass_ne _
      · exact publishComplete_ne
    | take | answered => dsimp only [Handler.write] at hx; split_ifs at hx <;> cases hx
    | _ => cases hx
  fits := by
    rw [hs.threads.1]
    exact ht.fits

theorem Typed.reads (ht : Typed h) {condition : ℕ} {packet : FromClient}
    (hs : Reads h condition packet h') : Typed h' where
  outgoing := by
    rw [hs.sameWriter.writer]
    exact ht.outgoing
  fits u hu := by
    cases hs with
    | publish =>
      rcases List.mem_append.mp hu with hu | hu
      · exact ht.fits u hu
      · rw [List.mem_singleton.mp hu]
        exact .inl rfl
    | notify | unexpected => exact ht.fits u hu

/-! ### Which conditions have been met -/

lemma met_create {cls : PacketClass} {id i : ℕ} :
    (h.create cls id).Met i ↔ h.Met i := by
  refine ⟨fun ⟨c, hc, hcond, hresult⟩ => ?_, fun ⟨c, hc, hcond, hresult⟩ =>
    ⟨c, List.mem_append_left _ hc, hcond, hresult⟩⟩
  rcases List.mem_append.mp hc with hc | hc
  · exact ⟨c, hc, hcond, hresult⟩
  · rw [List.mem_singleton.mp hc] at hresult
    exact absurd rfl hresult

lemma Wired.not_met_create (hw : Wired h) (cls : PacketClass) (id : ℕ) :
    ¬(h.create cls id).Met h.conditions := by
  rintro ⟨c, hc, hcond, hresult⟩
  rcases List.mem_append.mp hc with hc | hc
  · exact absurd (hw.fresh c hc) (hcond ▸ lt_irrefl _)
  · rw [List.mem_singleton.mp hc] at hresult
    exact hresult rfl

lemma met_remove {i j : ℕ} (hij : i ≠ j) : (h.remove j).Met i ↔ h.Met i := by
  refine ⟨fun ⟨c, hc, hcond, hresult⟩ => ⟨c, (List.mem_filter.mp hc).1, hcond, hresult⟩,
    fun ⟨c, hc, hcond, hresult⟩ => ⟨c, List.mem_filter.mpr ⟨hc, ?_⟩, hcond, hresult⟩⟩
  exact decide_eq_true (hcond ▸ hij)

/-- The condition in the set that thread `k` has is not that of the write loop. -/
lemma Wired.met_writes (hw : Wired h) (hs : Writes h h' out) {k : ℕ} {x : Key}
    (hx : h.key (.thread k) = some x) : h'.Met x.condition ↔ h.Met x.condition := by
  have hne : ∀ y, h.writer.key = some y → x.condition ≠ y.condition := fun y hy heq =>
    (nomatch hw.distinct (.thread k) .writer x y hx hy heq)
  cases hs with
  | register | release => exact met_create
  | answered hpc | completed hpc => exact met_remove (hne _ (by rw [hpc]; rfl))
  | _ => exact Iff.rfl

end

end MoteBroker.Exchanges

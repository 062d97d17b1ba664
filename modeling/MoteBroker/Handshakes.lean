import MoteBroker.Exchanges
import MoteBroker.Lib.Runs
import Mathlib.Data.List.Perm.Basic

/-!
One connection with a conforming client: the messages of the broker and the publishes of the client
cross each other, over one channel in each direction, and no acknowledgement goes astray.
-/

namespace MoteBroker.Handshakes

open MoteBroker.Topics MoteBroker.Messages MoteBroker.Packets MoteBroker.Exchanges

/-! ### The system -/

/-- The acknowledgement with which a conforming client answers a packet. -/
def answer : ToClient → Option Acknowledge
  | .publish n (some id) message =>
    match message.qos with
    | 1 => some ⟨.publishAcknowledge, id, .outgoing n⟩
    | 2 => some ⟨.publishReceived, id, .outgoing n⟩
    | _ => none
  | .publish _ none _ => none
  | .acknowledge ⟨.publishReceived, id, exchange⟩ => some ⟨.publishReleased, id, exchange⟩
  | .acknowledge ⟨.publishReleased, id, exchange⟩ => some ⟨.publishComplete, id, exchange⟩
  | .acknowledge _ => none

structure Client where
  /-- The acknowledgements that it has not sent yet. -/
  owed : List Acknowledge
  /-- The ids of its publishes of QoS 2 that are not complete. -/
  inUse : List ℕ
  received : List OutgoingMessage
  /-- How many publishes it has sent. -/
  publishes : ℕ

structure System where
  handler : Handler
  toClient : List ToClient
  toBroker : List FromClient
  client : Client
  /-- All messages that have been queued. -/
  queued : List OutgoingMessage

def initial : System := ⟨.new, [], [], ⟨[], [], [], 0⟩, []⟩

def Client.receive (client : Client) (packet : ToClient) : Client :=
  { client with
    owed := client.owed ++ (answer packet).toList
    inUse := match packet with
      | .acknowledge ⟨.publishComplete, id, _⟩ => client.inUse.filter (· ≠ id)
      | _ => client.inUse
    received := match packet with
      | .publish _ _ message => client.received ++ [message]
      | _ => client.received }

/-- The threads of the broker, the read loop with the condition it finds first, and the client,
which receives a packet, sends what it owes in any order, or publishes. -/
inductive Event
  | queue (message : OutgoingMessage)
  | write (fails : Bool)
  | read (condition : ℕ)
  | work (k : ℕ) (fails : Bool)
  | receive
  | answer (i : ℕ)
  | publish (packet : PublishPacket)

def step (s : System) : Event → Option System
  | .queue message =>
    if message.qos ≤ 2 then
      some { s with
        handler := { s.handler with messageQueue := s.handler.messageQueue ++ [message] }
        queued := s.queued ++ [message] }
    else none
  | .write fails => (s.handler.sendMessage fails).map fun (handler, packets) =>
      { s with handler := handler, toClient := s.toClient ++ packets }
  | .read condition =>
    match s.toBroker with
    | [] => none
    | packet :: packets =>
      if s.handler.unexpected then none
      else (s.handler.handlePacket condition packet).map fun handler =>
        { s with handler := handler, toBroker := packets }
  | .work k fails =>
    s.handler.threads[k]?.bind fun t =>
      (s.handler.handlePublish k t fails).map fun (handler, packets) =>
        { s with handler := handler, toClient := s.toClient ++ packets }
  | .receive =>
    match s.toClient with
    | [] => none
    | packet :: packets => some { s with toClient := packets, client := s.client.receive packet }
  | .answer i =>
    s.client.owed[i]?.map fun a =>
      { s with
        toBroker := s.toBroker ++ [.acknowledge a]
        client := { s.client with owed := s.client.owed.eraseIdx i } }
  -- an id is not used for two publishes of QoS 2 at a time
  | .publish packet =>
    if packet.qos = 2 ∧ packet.id ∈ s.client.inUse then none
    else some { s with
      toBroker := s.toBroker ++ [.publish s.client.publishes packet]
      client := { s.client with
        inUse := if packet.qos = 2 then packet.id :: s.client.inUse else s.client.inUse
        publishes := s.client.publishes + 1 } }

/-! ### The property -/

/-- The acknowledgements on their way: what will provoke them is in the channel to the client, or
the client owes them, or they are in the channel to the broker. -/
def due (s : System) : List Acknowledge :=
  s.toClient.filterMap answer ++ s.client.owed ++ s.toBroker.filterMap FromClient.acknowledgement

/-- The id is in use by the message with this number. -/
def InUse (s : System) (n id : ℕ) : Prop :=
  (s.handler.writer.id = some id ∧ n = s.handler.taken) ∨
    ∃ a ∈ due s, a.exchange = .outgoing n ∧ a.id = id

structure Safe (s : System) : Prop where
  /-- `UnexpectedPacketType` is never raised. -/
  expected : s.handler.unexpected = false
  /-- The next acknowledgement finds a condition, and only that of who waits for it. -/
  own : ∀ a packets, s.toBroker = .acknowledge a :: packets →
    ∃ w condition, s.handler.waits w = some (a, condition) ∧
      (∃ c ∈ s.handler.packetConditions, c.Matches a) ∧
      ∀ c ∈ s.handler.packetConditions, c.Matches a → c.condition = condition
  /-- The client receives the messages in the order in which they were queued. -/
  order : s.client.received <+: s.queued
  /-- No message is lost while the write loop runs. -/
  complete : ¬s.handler.writer.Over →
    s.queued = s.client.received ++ s.toClient.filterMap ToClient.message ++
      s.handler.writer.unsent ++ s.handler.messageQueue
  ids : ∀ n m id, InUse s n id → InUse s m id → n = m
  used : s.handler.usedIds = s.handler.writer.id.toList
  idle : s.handler.writer = .idle → s.handler.usedIds = [] ∧
    ∀ c ∈ s.handler.packetConditions, c.typeCode = PacketClass.publishReleased.typeCode

/-! ### What a step does -/

inductive Trans (s : System) : Event → System → Prop
  | queue {m : OutgoingMessage} (hqos : m.qos ≤ 2) :
    Trans s (.queue m) { s with
      handler := { s.handler with messageQueue := s.handler.messageQueue ++ [m] }
      queued := s.queued ++ [m] }
  | write {fails : Bool} {h : Handler} {out : List ToClient} (hs : Writes s.handler h out) :
    Trans s (.write fails) { s with handler := h, toClient := s.toClient ++ out }
  | read {condition : ℕ} {p : FromClient} {ps : List FromClient} {h : Handler}
    (hp : s.toBroker = p :: ps) (hs : Reads s.handler condition p h) :
    Trans s (.read condition) { s with handler := h, toBroker := ps }
  | work {k : ℕ} {fails : Bool} {t : Thread} {h : Handler} {out : List ToClient}
    (hk : s.handler.threads[k]? = some t) (hs : Works s.handler k t h out) :
    Trans s (.work k fails) { s with handler := h, toClient := s.toClient ++ out }
  | receive {p : ToClient} {ps : List ToClient} (hp : s.toClient = p :: ps) :
    Trans s .receive { s with toClient := ps, client := s.client.receive p }
  | answer {i : ℕ} {a : Acknowledge} (ha : s.client.owed[i]? = some a) :
    Trans s (.answer i) { s with
      toBroker := s.toBroker ++ [.acknowledge a]
      client := { s.client with owed := s.client.owed.eraseIdx i } }
  | publish {p : PublishPacket} (hfree : p.qos = 2 → p.id ∉ s.client.inUse) :
    Trans s (.publish p) { s with
      toBroker := s.toBroker ++ [.publish s.client.publishes p]
      client := { s.client with
        inUse := if p.qos = 2 then p.id :: s.client.inUse else s.client.inUse
        publishes := s.client.publishes + 1 } }

lemma trans_of_step {s s' : System} {e : Event} (hw : Wired s.handler) (hs : step s e = some s') :
    Trans s e s' := by
  cases e with
  | queue m =>
    simp only [step] at hs
    split_ifs at hs with hqos
    cases hs
    exact .queue hqos
  | write fails =>
    obtain ⟨⟨h, out⟩, hsend, heq⟩ := Option.map_eq_some_iff.mp hs
    cases heq
    exact .write (writes_of_sendMessage hw hsend)
  | read condition =>
    simp only [step] at hs
    split at hs
    case h_1 => cases hs
    case h_2 hp =>
      split_ifs at hs
      obtain ⟨h, hread, heq⟩ := Option.map_eq_some_iff.mp hs
      cases heq
      exact .read hp (reads_of_handlePacket hread)
  | work k fails =>
    obtain ⟨t, hk, hs⟩ := Option.bind_eq_some_iff.mp hs
    obtain ⟨⟨h, out⟩, hwork, heq⟩ := Option.map_eq_some_iff.mp hs
    cases heq
    exact .work hk (works_of_handlePublish hw hwork)
  | receive =>
    simp only [step] at hs
    split at hs
    case h_1 => cases hs
    case h_2 hp => cases hs; exact .receive hp
  | answer i =>
    obtain ⟨a, ha, heq⟩ := Option.map_eq_some_iff.mp hs
    cases heq
    exact .answer ha
  | publish p =>
    simp only [step] at hs
    split at hs
    case isTrue => cases hs
    case isFalse hfree => cases hs; exact .publish fun hqos hid => hfree ⟨hqos, hid⟩

/-! ### The messages -/

/-- The message that the write loop is sending with a packet id. -/
def numbered : Writer → Option OutgoingMessage
  | .numbering m | .registering m _ | .publishing m _ _ | .waiting m _ _ | .releasing m _
  | .sending m _ _ | .completing m _ _ => some m
  | _ => none

structure Ordered (s : System) : Prop where
  order : ∃ lost, s.queued = s.client.received ++ s.toClient.filterMap ToClient.message ++ lost ++
    s.handler.writer.unsent ++ s.handler.messageQueue ∧ (lost = [] ∨ s.handler.writer.Over)
  used : s.handler.usedIds = s.handler.writer.id.toList
  qos : ∀ m ∈ s.handler.messageQueue, m.qos ≤ 2
  numbered : ∀ m, numbered s.handler.writer = some m → m.qos = 1 ∨ m.qos = 2

lemma ordered_initial : Ordered initial :=
  ⟨⟨[], rfl, .inl rfl⟩, rfl, fun _ h => (nomatch h), fun _ h => (nomatch h)⟩

section
variable {s s' : System} {e : Event}

/-- Nothing happens to the messages. -/
lemma Ordered.frame (h : Ordered s) (hsame : SameWriter s.handler s'.handler)
    (hclient : s'.toClient.filterMap ToClient.message = s.toClient.filterMap ToClient.message)
    (hreceived : s'.client.received = s.client.received) (hqueued : s'.queued = s.queued) :
    Ordered s' := by
  obtain ⟨horder, hused, hqos, hnumbered⟩ := h
  refine ⟨?_, ?_, ?_, ?_⟩
  · rw [hqueued, hreceived, hclient, hsame.writer, hsame.messageQueue]
    exact horder
  · rw [hsame.usedIds, hsame.writer]
    exact hused
  · rw [hsame.messageQueue]
    exact hqos
  · rw [hsame.writer]
    exact hnumbered

/-- The write loop is at work, so that nothing has been lost. -/
lemma Ordered.order_of (h : Ordered s) (hover : ¬s.handler.writer.Over) :
    s.queued = s.client.received ++ s.toClient.filterMap ToClient.message ++
      s.handler.writer.unsent ++ s.handler.messageQueue := by
  obtain ⟨lost, heq, rfl | hlost⟩ := h.order
  · rw [List.append_nil] at heq
    exact heq
  · exact absurd hlost hover

/-- The write loop goes on, and writes or loses what it has not sent. -/
lemma Ordered.advance (h : Ordered s) (hover : ¬s.handler.writer.Over) {h' : Handler}
    {out : List ToClient} (lost : List OutgoingMessage)
    (horder : s.handler.writer.unsent ++ s.handler.messageQueue =
      out.filterMap ToClient.message ++ lost ++ h'.writer.unsent ++ h'.messageQueue)
    (hlost : lost = [] ∨ h'.writer.Over) (hused : h'.usedIds = h'.writer.id.toList)
    (hqueue : ∀ m ∈ h'.messageQueue, m ∈ s.handler.messageQueue)
    (hnumbered : ∀ m, Handshakes.numbered h'.writer = some m → m.qos = 1 ∨ m.qos = 2) :
    Ordered { s with handler := h', toClient := s.toClient ++ out } := by
  refine ⟨⟨lost, ?_, hlost⟩, hused, fun m hm => h.qos m (hqueue m hm), hnumbered⟩
  rw [h.order_of hover, List.append_assoc, horder]
  simp only [List.filterMap_append, List.append_assoc]

lemma Ordered.write (h : Ordered s) {h' : Handler} {out : List ToClient}
    (hs : Writes s.handler h' out) :
    Ordered { s with handler := h', toClient := s.toClient ++ out } := by
  have hused := h.used
  have hold := h.numbered
  cases hs with
  | stop hw =>
    have hid : s.handler.usedIds = [] := by
      rw [hused]
      rcases hw with hw | ⟨m, hw | hw⟩ <;> rw [hw] <;> rfl
    refine h.advance ?_ s.handler.writer.unsent ?_ (.inr trivial) hid (fun _ hm => hm)
      fun _ hm => (nomatch hm)
    · rcases hw with hw | ⟨m, hw | hw⟩ <;> rw [hw] <;> exact id
    · simp [Handler.write, Writer.unsent]
  | @take m queue hw hq =>
    rw [hw] at hused
    refine h.advance (by rw [hw]; exact id) [] ?_ (.inl rfl) ?_ (fun m' hm => ?_) ?_
    · rw [hw, hq]
      dsimp only
      split_ifs <;> rfl
    · rw [hused]
      dsimp only
      split_ifs <;> rfl
    · rw [hq]
      exact List.mem_cons_of_mem _ hm
    · dsimp only
      intro m' hm'
      split_ifs at hm' with hzero
      · cases hm'
      · cases hm'
        have hle := h.qos m (by rw [hq]; exact List.mem_cons_self)
        omega
  | publishUnnumbered hw =>
    rw [hw] at hused
    exact h.advance (by rw [hw]; exact id) [] (by rw [hw]; rfl) (.inl rfl) hused (fun _ hm => hm)
      fun _ hm => (nomatch hm)
  | number hw hid =>
    rw [hw] at hused hold
    refine h.advance (by rw [hw]; exact id) [] (by rw [hw]; rfl) (.inl rfl) ?_ (fun _ hm => hm) hold
    change s.handler.usedIds.insert _ = [_]
    rw [hused]
    rfl
  | register hw | publish hw | release hw | send hw =>
    rw [hw] at hused hold
    exact h.advance (by rw [hw]; exact id) [] (by rw [hw]; rfl) (.inl rfl) hused (fun _ hm => hm)
      hold
  | @fail cls id condition hw =>
    have hid : s.handler.usedIds.erase id = [] := by
      rw [hused]
      obtain ⟨m, ⟨hw, -⟩ | ⟨hw, -⟩⟩ := hw <;> rw [hw] <;> simp [Writer.id]
    refine h.advance ?_ s.handler.writer.unsent ?_ (.inr trivial) hid (fun _ hm => hm)
      fun _ hm => (nomatch hm)
    · obtain ⟨m, ⟨hw, -⟩ | ⟨hw, -⟩⟩ := hw <;> rw [hw] <;> exact fun h => h
    · simp [Handler.writeFails, Writer.unsent]
  | @answered m id condition hw hmet =>
    rw [hw] at hused hold
    refine h.advance (by rw [hw]; exact fun h => h) [] ?_ (.inl rfl) ?_ (fun _ hm => hm) ?_
    · rw [hw]
      dsimp only [Handler.write]
      split_ifs <;> rfl
    · dsimp only [Handler.write, Handler.remove]
      rw [hused]
      split_ifs <;> rfl
    · dsimp only [Handler.write]
      intro m' hm'
      split_ifs at hm'
      · exact hold m' hm'
      · cases hm'
  | completed hw hmet =>
    rw [hw] at hused
    exact h.advance (by rw [hw]; exact fun h => h) [] (by rw [hw]; rfl) (.inl rfl) hused
      (fun _ hm => hm) fun _ hm => (nomatch hm)
  | @finish id hw =>
    rw [hw] at hused
    refine h.advance (by rw [hw]; exact fun h => h) [] (by rw [hw]; rfl) (.inl rfl) ?_
      (fun _ hm => hm) fun _ hm => (nomatch hm)
    change s.handler.usedIds.erase id = []
    rw [hused]
    simp [Writer.id]

theorem Ordered.step (h : Ordered s) (ht : Trans s e s') : Ordered s' := by
  cases ht with
  | @queue m hqos =>
    obtain ⟨lost, heq, hlost⟩ := h.order
    refine ⟨⟨lost, ?_, hlost⟩, h.used, fun m' hm' => ?_, h.numbered⟩
    · simp only [heq, List.append_assoc]
    · rcases List.mem_append.mp hm' with hm' | hm'
      · exact h.qos m' hm'
      · rwa [List.mem_singleton.mp hm']
  | write hs => exact h.write hs
  | read hp hs => exact h.frame hs.sameWriter rfl rfl rfl
  | work hk hs =>
    refine h.frame hs.sameWriter ?_ rfl rfl
    rw [List.filterMap_append, hs.message, List.append_nil]
  | @receive p ps hp =>
    obtain ⟨lost, heq, hlost⟩ := h.order
    refine ⟨⟨lost, ?_, hlost⟩, h.used, h.qos, h.numbered⟩
    rw [heq, hp]
    cases p <;> simp [Client.receive, ToClient.message, List.filterMap_cons]
  | answer ha => exact h.frame ⟨rfl, rfl, rfl, rfl⟩ rfl rfl rfl
  | publish hfree => exact h.frame ⟨rfl, rfl, rfl, rfl⟩ rfl rfl rfl

end

/-! ### The ids of the client -/

def announced : FromClient → Option ℕ
  | .publish _ p => if p.qos = 2 then some p.id else none
  | .acknowledge _ => none

def active (t : Thread) : Option ℕ :=
  if t.packet.qos = 2 ∧ t.pc ≠ .ended then some t.packet.id else none

def completed : ToClient → Option ℕ
  | .acknowledge ⟨.publishComplete, id, _⟩ => some id
  | _ => none

/-- The ids of the publishes of QoS 2 on their way: to the broker, in a thread, or back to the
client. -/
def ids (s : System) : List ℕ :=
  s.toBroker.filterMap announced ++ s.handler.threads.filterMap active ++
    s.toClient.filterMap completed

structure Distinct (s : System) : Prop where
  count : ∀ id, (ids s).count id ≤ 1
  inUse : ∀ id ∈ ids s, id ∈ s.client.inUse

lemma distinct_initial : Distinct initial :=
  ⟨fun _ => Nat.zero_le _, fun _ h => (nomatch h)⟩

lemma count_filterMap_set {α β : Type} [DecidableEq β] {l : List α} {k : ℕ} {a : α}
    (h : l[k]? = some a) (f : α → Option β) (b : α) (x : β) :
    ((l.set k b).filterMap f).count x + (f a).toList.count x =
      (l.filterMap f).count x + (f b).toList.count x := by
  induction l generalizing k with
  | nil => cases h
  | cons c l ih =>
    cases k with
    | zero =>
      obtain rfl := Option.some.inj h
      rw [List.set_cons_zero]
      cases hc : f c <;> cases hb : f b <;> simp [hc, hb, List.count_cons]
      omega
    | succ k =>
      have hrec := ih h
      rw [List.set_cons_succ]
      cases hc : f c with
      | none => simpa [List.filterMap_cons, hc] using hrec
      | some y =>
        simp only [List.filterMap_cons, hc, List.count_cons]
        omega

section
variable {s s' : System} {e : Event}

/-- Ids only go out of use. -/
lemma Distinct.shrink (h : Distinct s) (hcount : ∀ id, (ids s').count id ≤ (ids s).count id)
    (hinUse : s'.client.inUse = s.client.inUse) : Distinct s' where
  count id := (hcount id).trans (h.count id)
  inUse id hid := by
    rw [hinUse]
    exact h.inUse id (List.count_pos_iff.mp ((List.count_pos_iff.mpr hid).trans_le (hcount id)))

lemma completed_of_writes {h h' : Handler} {out : List ToClient} (hs : Writes h h' out) :
    out.filterMap completed = [] := by
  cases hs <;> rfl

lemma active_le {t : Thread} (ht : t.pc ≠ .ended) (pc : Pc) (id : ℕ) :
    (active { t with pc := pc }).toList.count id ≤ (active t).toList.count id := by
  unfold active
  dsimp only
  split_ifs with h h'
  · exact le_refl _
  · exact absurd ⟨h.1, ht⟩ h'
  · exact Nat.zero_le _
  · exact le_refl _

/-- Where a thread goes, its id does not multiply. -/
lemma active_of_works {h h' : Handler} {k : ℕ} {t : Thread} {out : List ToClient}
    (hs : Works h k t h' out) (hfits : t.Fits) :
    ∃ pc, h'.threads = h.threads.set k { t with pc := pc } ∧
      ∀ id, (active { t with pc := pc }).toList.count id + (out.filterMap completed).count id ≤
        (active t).toList.count id := by
  cases hs with
  | @publish fails pc hpc =>
    obtain ⟨published, pc', -, heq⟩ := publish_eq h k t fails pc
    rw [heq]
    refine ⟨pc', rfl, active_le ?_ pc'⟩
    rcases hpc with ⟨hpc, -⟩ | ⟨hpc, -⟩ <;> rw [hpc] <;> simp
  | create hpc | stop hpc | fail hpc | receive hpc | meet hpc =>
    exact ⟨_, rfl, active_le (by rw [hpc]; simp) _⟩
  | acknowledge hpc =>
    refine ⟨_, rfl, ?_⟩
    split_ifs <;> exact active_le (by rw [hpc]; simp) _
  | complete hpc =>
    refine ⟨_, rfl, ?_⟩
    split_ifs
    · exact active_le (by rw [hpc]; simp) _
    · have hqos : t.packet.qos = 2 := by simpa [Thread.Fits, hpc] using hfits
      intro id
      simp [active, Thread.acknowledge, completed, hqos, hpc]

/-- Where the read loop puts a publish, its id does not multiply. -/
lemma active_of_reads {h h' : Handler} {condition : ℕ} {p : FromClient}
    (hs : Reads h condition p h') :
    h'.threads.filterMap active = h.threads.filterMap active ++ (announced p).toList := by
  cases hs with
  | @publish n packet =>
    rw [List.filterMap_append]
    simp only [announced, active, List.filterMap_cons, List.filterMap_nil]
    split_ifs <;> simp_all
  | notify => exact (List.append_nil _).symm
  | unexpected => exact (List.append_nil _).symm

/-- The client reads a packet: a PUBCOMP puts its id out of use. -/
lemma Distinct.receive (h : Distinct s) {p : ToClient} {ps : List ToClient}
    (hp : s.toClient = p :: ps) :
    Distinct { s with toClient := ps, client := s.client.receive p } := by
  have hcount : ∀ id, (ids s).count id = (ids { s with toClient := ps }).count id +
      (completed p).toList.count id := fun id => by
    simp only [ids, hp, List.count_append]
    cases hpc : completed p <;> simp [hpc, List.count_cons]
    omega
  refine ⟨fun id => ?_, fun id hid => ?_⟩
  · exact le_trans (Nat.le_add_right _ _) (hcount id ▸ h.count id)
  · have hpos := List.count_pos_iff.mpr hid
    have heq := hcount id
    have hle := h.count id
    have hold : id ∈ s.client.inUse :=
      h.inUse id (List.count_pos_iff.mp (heq ▸ Nat.lt_of_lt_of_le hpos (Nat.le_add_right _ _)))
    unfold Client.receive
    dsimp only
    split
    case h_1 id' _ =>
      -- the id that goes out of use is not on its way any more
      refine List.mem_filter.mpr ⟨hold, decide_eq_true fun hii => ?_⟩
      have hone :
          (completed (.acknowledge ⟨.publishComplete, id', ‹_›⟩)).toList.count id = 1 := by
        simp [completed, hii]
      change 0 < (ids { s with toClient := ps }).count id at hpos
      omega
    case h_2 => exact hold

/-- The state after a publish of the client. -/
abbrev System.publish (s : System) (p : PublishPacket) : System :=
  { s with
    toBroker := s.toBroker ++ [.publish s.client.publishes p]
    client := { s.client with
      publishes := s.client.publishes + 1
      inUse := if p.qos = 2 then p.id :: s.client.inUse else s.client.inUse } }

lemma count_publish (s : System) (p : PublishPacket) (id : ℕ) :
    (ids (s.publish p)).count id =
      (ids s).count id + if p.qos = 2 ∧ p.id = id then 1 else 0 := by
  simp only [ids, List.filterMap_append, List.count_append]
  by_cases hqos : p.qos = 2
  · simp [announced, hqos, List.count_cons]
    omega
  · simp [announced, hqos]

/-- The client publishes with an id that is out of use. -/
lemma Distinct.publish (h : Distinct s) {p : PublishPacket}
    (hfree : p.qos = 2 → p.id ∉ s.client.inUse) : Distinct (s.publish p) := by
  have hnot : p.qos = 2 → (ids s).count p.id = 0 := fun hqos =>
    List.count_eq_zero.mpr fun hid => hfree hqos (h.inUse _ hid)
  refine ⟨fun id => ?_, fun id hid => ?_⟩
  · have hle := h.count id
    rw [count_publish]
    split_ifs with hnew
    · rw [← hnew.2, hnot hnew.1]
    · exact hle
  · have hpos := List.count_pos_iff.mpr hid
    rw [count_publish] at hpos
    have hcase : id ∈ s.client.inUse ∨ p.qos = 2 ∧ p.id = id := by
      by_cases hnew : p.qos = 2 ∧ p.id = id
      · exact .inr hnew
      · rw [if_neg hnew] at hpos
        exact .inl (h.inUse id (List.count_pos_iff.mp hpos))
    change id ∈ if p.qos = 2 then p.id :: s.client.inUse else s.client.inUse
    rcases hcase with hold | ⟨hqos, rfl⟩
    · split_ifs
      · exact List.mem_cons_of_mem _ hold
      · exact hold
    · rw [if_pos hqos]
      exact List.mem_cons_self

theorem Distinct.step (h : Distinct s) (hty : Typed s.handler) (ht : Trans s e s') :
    Distinct s' := by
  cases ht with
  | queue => exact h.shrink (fun _ => le_refl _) rfl
  | @write fails h' out hs =>
    refine h.shrink (fun id => ?_) rfl
    simp only [ids, hs.threads.1, List.filterMap_append, completed_of_writes hs, List.append_nil]
    exact le_refl _
  | @read condition p ps h' hp hs =>
    refine h.shrink (fun id => ?_) rfl
    simp only [ids, hp, active_of_reads hs, List.count_append]
    cases hpa : announced p with
    | none => simp [hpa]
    | some y => simp [hpa, List.count_cons]; omega
  | @work k fails t h' out hk hs =>
    obtain ⟨pc, hthreads, hle⟩ := active_of_works hs (hty.fits t (List.mem_of_getElem? hk))
    refine h.shrink (fun id => ?_) rfl
    have hset := count_filterMap_set hk active { t with pc := pc } id
    have hle := hle id
    simp only [ids, hthreads, List.filterMap_append, List.count_append]
    omega
  | receive hp => exact h.receive hp
  | answer ha =>
    refine h.shrink (fun id => ?_) rfl
    simp [ids, announced, List.filterMap_cons]
  | publish hfree => exact h.publish hfree

end

/-! ### The acknowledgements -/

/-- No two conditions that are waited on, or are to be, have the same type and the same id. -/
def Exclusive (h : Handler) : Prop :=
  ∀ w w' x x', h.key w = some x → h.key w' = some x' → x.typeCode = x'.typeCode → x.id = x'.id →
    w = w'

/-- Every acknowledgement on its way is awaited by one, and only who waits has been answered. -/
structure Answered (h : Handler) (due : List Acknowledge) : Prop where
  count : ∀ a, due.count a ≤ 1
  awaited : ∀ a ∈ due, ∃ w x, h.waits w = some (a, x) ∧
    ⟨a.cls.typeCode, a.id, none, x⟩ ∈ h.packetConditions
  unmet : ∀ c ∈ h.packetConditions, c.result ≠ none → ∃ w a, h.waits w = some (a, c.condition)

section
variable {h h' : Handler} {due due' : List Acknowledge}

/-- Who waits goes on waiting; conditions may have been created. -/
lemma Answered.keep (ha : Answered h due)
    (hold : ∀ c ∈ h.packetConditions, c ∈ h'.packetConditions)
    (hnew : ∀ c ∈ h'.packetConditions, c ∈ h.packetConditions ∨ c.result = none)
    (hwaits : ∀ w p, h.waits w = some p → h'.waits w = some p)
    (hdue : ∀ a, due'.count a = due.count a) : Answered h' due' where
  count a := hdue a ▸ ha.count a
  awaited a hmem := by
    have hmem : a ∈ due := List.count_pos_iff.mp (hdue a ▸ List.count_pos_iff.mpr hmem)
    obtain ⟨w, x, hx, hc⟩ := ha.awaited a hmem
    exact ⟨w, x, hwaits w _ hx, hold _ hc⟩
  unmet c hc hmet := by
    rcases hnew c hc with hc | hnone
    · obtain ⟨w, a, hx⟩ := ha.unmet c hc hmet
      exact ⟨w, a, hwaits w _ hx⟩
    · exact absurd hnone hmet

/-- A packet is written that provokes the acknowledgement `a`, with the condition for it in the
set. -/
lemma Answered.send (ha : Answered h due) (hw : Wired h) (hex : Exclusive h) {w : Holder}
    {a : Acknowledge} {x : ℕ} (hkey : h.key w = some ⟨a.cls.typeCode, a.id, x⟩)
    (hnone : h.waits w = none) (hconds : h'.packetConditions = h.packetConditions)
    (hwaits : ∀ v, h'.waits v = if v = w then some (a, x) else h.waits v)
    (hdue : ∀ b, due'.count b = due.count b + [a].count b) : Answered h' due' := by
  have hkeep : ∀ v p, h.waits v = some p → h'.waits v = some p := fun v p hv => by
    rw [hwaits, if_neg, hv]
    rintro rfl
    exact (nomatch hnone.symm.trans hv)
  have hfree : due.count a = 0 := List.count_eq_zero.mpr fun hmem => by
    obtain ⟨v, y, hv, -⟩ := ha.awaited a hmem
    obtain rfl := hex v w _ _ (key_of_waits hv) hkey rfl rfl
    exact (nomatch hnone.symm.trans hv)
  refine ⟨fun b => ?_, fun b hb => ?_, fun c hc hmet => ?_⟩
  · rw [hdue, List.count_singleton]
    split_ifs with hab
    · rw [← eq_of_beq hab, hfree]
    · exact ha.count b
  · have hpos := List.count_pos_iff.mpr hb
    rw [hdue, List.count_singleton] at hpos
    split_ifs at hpos with hab
    · obtain rfl := eq_of_beq hab
      refine ⟨w, x, by rw [hwaits, if_pos rfl], ?_⟩
      -- the condition has not been met before the packet is written
      obtain ⟨c, hc, heq⟩ := hw.kept w _ hkey
      have hunmet : c.result = none := by
        by_contra hmet
        obtain ⟨v, b, hv⟩ := ha.unmet c hc hmet
        have hcond : c.condition = x := congrArg Key.condition heq
        obtain rfl := hw.distinct v w _ _ (key_of_waits hv) hkey hcond
        exact (nomatch hnone.symm.trans hv)
      rw [hconds]
      obtain ⟨tc, id, result, condition⟩ := c
      cases heq
      cases hunmet
      exact hc
    · obtain ⟨v, y, hv, hc⟩ := ha.awaited b (List.count_pos_iff.mp hpos)
      exact ⟨v, y, hkeep v _ hv, hconds ▸ hc⟩
  · rw [hconds] at hc
    obtain ⟨v, b, hv⟩ := ha.unmet c hc hmet
    exact ⟨v, b, hkeep v _ hv⟩

/-- Who has been answered removes its condition. -/
lemma Answered.remove (ha : Answered h due) (hw : Wired h) {w : Holder} {a : Acknowledge} {x : ℕ}
    (hx : h.waits w = some (a, x)) (hmet : h.Met x)
    (hconds : h'.packetConditions = h.packetConditions.filter (·.condition ≠ x))
    (hwaits : ∀ v, v ≠ w → h'.waits v = h.waits v) (hdue : ∀ b, due'.count b = due.count b) :
    Answered h' due' := by
  refine ⟨fun b => hdue b ▸ ha.count b, fun b hb => ?_, fun c hc hresult => ?_⟩
  · have hb : b ∈ due := List.count_pos_iff.mp (hdue b ▸ List.count_pos_iff.mpr hb)
    obtain ⟨v, y, hv, hc⟩ := ha.awaited b hb
    have hvw : v ≠ w := by
      rintro rfl
      rw [hx] at hv
      cases hv
      obtain ⟨c, hc', hcond, hresult⟩ := hmet
      rw [hw.eq_of_condition hc' hc hcond] at hresult
      exact hresult rfl
    refine ⟨v, y, (hwaits v hvw).trans hv, ?_⟩
    rw [hconds]
    refine List.mem_filter.mpr ⟨hc, decide_eq_true fun hyx => hvw ?_⟩
    exact hw.distinct v w _ _ (key_of_waits hv) (key_of_waits hx) hyx
  · rw [hconds] at hc
    obtain ⟨hc, hne⟩ := List.mem_filter.mp hc
    obtain ⟨v, b, hv⟩ := ha.unmet c hc hresult
    refine ⟨v, b, (hwaits v ?_).trans hv⟩
    rintro rfl
    rw [hx] at hv
    cases hv
    simp at hne

/-- The acknowledgement that is read is awaited on one condition, and no other matches it. -/
lemma Answered.own (ha : Answered h due) (hw : Wired h) (hex : Exclusive h) {a : Acknowledge}
    (hmem : a ∈ due) : ∃ w x, h.waits w = some (a, x) ∧
      (∃ c ∈ h.packetConditions, c.Matches a) ∧
      ∀ c ∈ h.packetConditions, c.Matches a → c.condition = x := by
  obtain ⟨w, x, hx, hc⟩ := ha.awaited a hmem
  refine ⟨w, x, hx, ⟨_, hc, rfl, rfl⟩, fun c' hc' hmatch => ?_⟩
  obtain ⟨v, hv⟩ := hw.held c' hc'
  have hkey := key_of_waits hx
  obtain rfl := hex v w _ _ hv hkey hmatch.1 hmatch.2
  rw [hkey] at hv
  exact (congrArg Key.condition (Option.some.inj hv)).symm

/-- The acknowledgement meets its condition. -/
lemma Answered.notify (ha : Answered h due) (hw : Wired h) (hex : Exclusive h) {a : Acknowledge}
    {c : PacketCondition} (hc : c ∈ h.packetConditions) (hmatch : c.Matches a)
    (hconds : h'.packetConditions = h.packetConditions.map fun d =>
      if d.condition = c.condition then d.meet a else d)
    (hwaits : ∀ v, h'.waits v = h.waits v)
    (hdue : ∀ b, due.count b = due'.count b + [a].count b) : Answered h' due' := by
  have hmem : a ∈ due := List.count_pos_iff.mp (by rw [hdue, List.count_singleton_self]; omega)
  obtain ⟨w, x, hx, -, hown⟩ := ha.own hw hex hmem
  have hcx := hown c hc hmatch
  refine ⟨fun b => ?_, fun b hb => ?_, fun d hd hresult => ?_⟩
  · have hle := ha.count b
    rw [hdue] at hle
    omega
  · have hpos := List.count_pos_iff.mpr hb
    have hle := ha.count b
    rw [hdue, List.count_singleton] at hle
    have hba : b ≠ a := by
      rintro rfl
      rw [if_pos (beq_self_eq_true b)] at hle
      omega
    obtain ⟨v, y, hv, hd⟩ := ha.awaited b (List.count_pos_iff.mp (by rw [hdue]; omega))
    refine ⟨v, y, (hwaits v).trans hv, ?_⟩
    have hne : y ≠ c.condition := fun hyc => hba <| by
      obtain rfl := hw.distinct v w _ _ (key_of_waits hv) (key_of_waits hx) (hyc.trans hcx)
      rw [hx] at hv
      exact (congrArg Prod.fst (Option.some.inj hv)).symm
    rw [hconds]
    exact List.mem_map.mpr ⟨_, hd, if_neg hne⟩
  · rw [hconds] at hd
    obtain ⟨d', hd', rfl⟩ := List.mem_map.mp hd
    split_ifs at hresult ⊢ with hcond
    · exact ⟨w, a, by rw [hwaits, hx, ← hcx, ← hcond]; rfl⟩
    · obtain ⟨v, b, hv⟩ := ha.unmet d' hd' hresult
      exact ⟨v, b, (hwaits v).trans hv⟩

end

section
variable {s s' : System} {e : Event}

lemma key_thread {h : Handler} {k : ℕ} {x : Key} (hx : h.key (.thread k) = some x) :
    ∃ t, h.threads[k]? = some t ∧ x.typeCode = PacketClass.publishReleased.typeCode ∧
      x.id = t.packet.id ∧ t.pc ≠ .starting ∧ t.pc ≠ .acknowledging ∧ t.pc ≠ .ended := by
  obtain ⟨t, ht, hx⟩ := Option.bind_eq_some_iff.mp hx
  obtain ⟨hcode, hid, hpc⟩ := Thread.of_key hx
  refine ⟨t, ht, hcode, hid, ?_⟩
  rcases hpc with hpc | hpc | hpc <;> simp [hpc]

/-- The ids of the client do not clash, and those of the broker belong to other types. -/
lemma exclusive (hty : Typed s.handler) (hd : Distinct s) : Exclusive s.handler := by
  have hnodup : (s.handler.threads.filterMap active).Nodup := List.nodup_iff_count.mpr fun id => by
    have hle := hd.count id
    simp only [ids, List.count_append] at hle
    omega
  have hactive : ∀ k x, s.handler.key (.thread k) = some x → ∃ t, s.handler.threads[k]? = some t ∧
      active t = some x.id := fun k x hx => by
    obtain ⟨t, ht, -, hid, hstart, hack, hend⟩ := key_thread hx
    refine ⟨t, ht, ?_⟩
    rcases hty.fits t (List.mem_of_getElem? ht) with hpc | hpc | hpc | hqos
    · exact absurd hpc hstart
    · exact absurd hpc hack
    · exact absurd hpc hend
    · rw [active, if_pos ⟨hqos, hend⟩, hid]
  have hpair := List.pairwise_iff_getElem.mp (List.pairwise_filterMap.mp hnodup)
  have hne : ∀ j k x y, j < k → s.handler.key (.thread j) = some x →
      s.handler.key (.thread k) = some y → x.id ≠ y.id := fun j k x y hjk hx hy => by
    obtain ⟨t, ht, hat⟩ := hactive j x hx
    obtain ⟨u, hu, hau⟩ := hactive k y hy
    obtain ⟨hj, rfl⟩ := List.getElem?_eq_some_iff.mp ht
    obtain ⟨hk, rfl⟩ := List.getElem?_eq_some_iff.mp hu
    exact hpair j k hj hk hjk _ hat _ hau
  intro w w' x x' hx hx' htype hid
  cases w with
  | writer =>
    cases w' with
    | writer => rfl
    | thread k =>
      obtain ⟨t, -, hcode, -⟩ := key_thread hx'
      exact absurd (htype.trans hcode) (hty.outgoing x hx)
  | thread j =>
    cases w' with
    | writer =>
      obtain ⟨t, -, hcode, -⟩ := key_thread hx
      exact absurd (htype.symm.trans hcode) (hty.outgoing x' hx')
    | thread k =>
      rcases lt_trichotomy j k with hjk | rfl | hkj
      · exact absurd hid (hne j k x x' hjk hx hx')
      · rfl
      · exact absurd hid.symm (hne k j x' x hkj hx' hx)

/-- The write loop does not wait, and the threads stand where they were. -/
lemma keeps_waits_writer {h h' : Handler} (hnone : h.waits .writer = none)
    (hthreads : h'.threads = h.threads) (w : Holder) (p : Acknowledge × ℕ)
    (hp : h.waits w = some p) : h'.waits w = some p := by
  cases w with
  | writer => exact (nomatch hnone.symm.trans hp)
  | thread k =>
    change h'.threads[k]?.bind Thread.waits = some p
    rw [hthreads]
    exact hp

lemma waits_of_write {h h' : Handler} (hthreads : h'.threads = h.threads) (v : Holder) :
    h'.waits v = if v = .writer then h'.writer.waits h'.taken else h.waits v := by
  cases v with
  | writer => rfl
  | thread k =>
    change h'.threads[k]?.bind Thread.waits = _
    rw [hthreads]
    rfl

/-- The thread does not wait before its step. -/
lemma keeps_waits_thread {h : Handler} {k : ℕ} {t : Thread} (hk : h.threads[k]? = some t)
    (hnone : t.waits = none) (pc : Pc) (w : Holder) (p : Acknowledge × ℕ)
    (hp : h.waits w = some p) : (h.goto k t pc).waits w = some p := by
  rw [goto_waits hk, if_neg, hp]
  rintro rfl
  have hpt : t.waits = some p := (congrArg (·.bind Thread.waits) hk).symm.trans hp
  exact (nomatch hnone.symm.trans hpt)

lemma count_due_append (s : System) (h' : Handler) (out : List ToClient) (a : Acknowledge) :
    (due { s with handler := h', toClient := s.toClient ++ out }).count a =
      (due s).count a + (out.filterMap answer).count a := by
  simp only [due, List.filterMap_append, List.count_append]
  omega

lemma Answered.write (ha : Answered s.handler (due s)) (hw : Wired s.handler)
    (hty : Typed s.handler) (ho : Ordered s) (hd : Distinct s) {h' : Handler}
    {out : List ToClient} (hs : Writes s.handler h' out) :
    Answered h' (due { s with handler := h', toClient := s.toClient ++ out }) := by
  have hthreads := hs.threads.1
  have hsame : ∀ c ∈ s.handler.packetConditions, c ∈ s.handler.packetConditions ∨ c.result = none :=
    fun c hc => .inl hc
  have hnew : ∀ cls id, ∀ c ∈ (s.handler.create cls id).packetConditions,
      c ∈ s.handler.packetConditions ∨ c.result = none := fun cls id c hc => by
    rcases List.mem_append.mp hc with hc | hc
    · exact .inl hc
    · rw [List.mem_singleton.mp hc]
      exact .inr rfl
  have hdue : out.filterMap answer = [] → ∀ a,
      (due { s with handler := h', toClient := s.toClient ++ out }).count a = (due s).count a :=
    fun hout a => by rw [count_due_append, hout, List.count_nil, Nat.add_zero]
  have hwaits : s.handler.waits .writer = s.handler.writer.waits s.handler.taken := rfl
  cases hs with
  | stop hw' =>
    refine ha.keep (fun _ hc => hc) hsame (keeps_waits_writer ?_ hthreads) (hdue rfl)
    rcases hw' with hw' | ⟨m, hw' | hw'⟩ <;> rw [hwaits, hw'] <;> rfl
  | take hw' hq =>
    exact ha.keep (fun _ hc => hc) hsame (keeps_waits_writer (by rw [hwaits, hw']; rfl) hthreads)
      (hdue rfl)
  | publishUnnumbered hw' =>
    exact ha.keep (fun _ hc => hc) hsame (keeps_waits_writer (by rw [hwaits, hw']; rfl) hthreads)
      (hdue rfl)
  | number hw' hid =>
    exact ha.keep (fun _ hc => hc) hsame (keeps_waits_writer (by rw [hwaits, hw']; rfl) hthreads)
      (hdue rfl)
  | register hw' =>
    exact ha.keep (fun _ hc => List.mem_append_left _ hc) (hnew _ _)
      (keeps_waits_writer (by rw [hwaits, hw']; rfl) hthreads) (hdue rfl)
  | fail hw' =>
    refine ha.keep (fun _ hc => hc) hsame (keeps_waits_writer ?_ hthreads) (hdue rfl)
    obtain ⟨m, ⟨hw', -⟩ | ⟨hw', -⟩⟩ := hw' <;> rw [hwaits, hw'] <;> rfl
  | @publish m id condition hw' =>
    have hqos := ho.numbered m (by rw [hw']; rfl)
    have hanswer : answer (.publish s.handler.taken (some id) m) =
        some ⟨answerClass m, id, .outgoing s.handler.taken⟩ := by
      rcases hqos with hqos | hqos <;> simp [answer, answerClass, hqos]
    refine ha.send hw (exclusive hty hd) (w := .writer)
      (a := ⟨answerClass m, id, .outgoing s.handler.taken⟩) (x := condition)
      (by rw [Handler.key, hw']; rfl) (by rw [hwaits, hw']; rfl) rfl (waits_of_write hthreads) ?_
    intro b
    rw [count_due_append, List.filterMap_cons, hanswer, List.filterMap_nil]
  | @answered m id condition hw' hmet =>
    exact ha.remove hw (w := .writer) (by rw [hwaits, hw']; rfl) hmet rfl
      (fun v hv => by rw [waits_of_write hthreads, if_neg hv]) (hdue rfl)
  | release hw' =>
    exact ha.keep (fun _ hc => List.mem_append_left _ hc) (hnew _ _)
      (keeps_waits_writer (by rw [hwaits, hw']; rfl) hthreads) (hdue rfl)
  | @send m id condition hw' =>
    refine ha.send hw (exclusive hty hd) (w := .writer)
      (a := ⟨.publishComplete, id, .outgoing s.handler.taken⟩) (x := condition)
      (by rw [Handler.key, hw']; rfl) (by rw [hwaits, hw']; rfl) rfl (waits_of_write hthreads) ?_
    intro b
    rw [count_due_append]
    rfl
  | completed hw' hmet =>
    exact ha.remove hw (w := .writer) (by rw [hwaits, hw']; rfl) hmet rfl
      (fun v hv => by rw [waits_of_write hthreads, if_neg hv]) (hdue rfl)
  | finish hw' =>
    exact ha.keep (fun _ hc => hc) hsame (keeps_waits_writer (by rw [hwaits, hw']; rfl) hthreads)
      (hdue rfl)

lemma Answered.work (ha : Answered s.handler (due s)) (hw : Wired s.handler) (hty : Typed s.handler)
    (hd : Distinct s) {k : ℕ} {t : Thread} {h' : Handler} {out : List ToClient}
    (hk : s.handler.threads[k]? = some t) (hs : Works s.handler k t h' out) :
    Answered h' (due { s with handler := h', toClient := s.toClient ++ out }) := by
  have hsame : ∀ c ∈ s.handler.packetConditions, c ∈ s.handler.packetConditions ∨ c.result = none :=
    fun c hc => .inl hc
  have hdue : out.filterMap answer = [] → ∀ a,
      (due { s with handler := h', toClient := s.toClient ++ out }).count a = (due s).count a :=
    fun hout a => by rw [count_due_append, hout, List.count_nil, Nat.add_zero]
  have hwaits : s.handler.waits (.thread k) = t.waits := congrArg (·.bind Thread.waits) hk
  cases hs with
  | @publish fails pc hpc =>
    obtain ⟨published, pc', -, heq⟩ := publish_eq s.handler k t fails pc
    rw [heq] at hdue ⊢
    have hnone : t.waits = none := by
      rcases hpc with ⟨hpc, -⟩ | ⟨hpc, -⟩ <;> simp [Thread.waits, hpc]
    have hkeep := keeps_waits_thread (h := { s.handler with published := published }) hk hnone pc'
    refine ha.keep (fun _ hc => hc) hsame (fun w p hp => hkeep w p ?_) (hdue rfl)
    cases w <;> exact hp
  | create hpc hqos =>
    have hnone : t.waits = none := by simp [Thread.waits, hpc]
    have hkeep := keeps_waits_thread (h := s.handler.create .publishReleased t.packet.id) hk hnone
      (.receiving s.handler.conditions)
    refine ha.keep (fun _ hc => List.mem_append_left _ hc) (fun c hc => ?_)
      (fun w p hp => hkeep w p ?_) (hdue rfl)
    · rcases List.mem_append.mp hc with hc | hc
      · exact .inl hc
      · rw [List.mem_singleton.mp hc]
        exact .inr rfl
    · cases w <;> exact hp
  | stop hpc =>
    exact ha.keep (fun _ hc => hc) hsame (keeps_waits_thread hk (by simp [Thread.waits, hpc]) _)
      (hdue rfl)
  | acknowledge hpc =>
    refine ha.keep (fun _ hc => hc) hsame (keeps_waits_thread hk (by simp [Thread.waits, hpc]) _)
      (hdue ?_)
    split_ifs <;> rfl
  | fail hpc =>
    exact ha.keep (fun _ hc => hc) hsame (keeps_waits_thread hk (by simp [Thread.waits, hpc]) _)
      (hdue rfl)
  | @receive condition hpc =>
    refine ha.send hw (exclusive hty hd) (w := .thread k)
      (a := ⟨.publishReleased, t.packet.id, .incoming t.exchange⟩) (x := condition) ?_
      (by rw [hwaits]; simp [Thread.waits, hpc]) rfl (fun v => goto_waits hk _ v) ?_
    · refine (congrArg (·.bind Thread.key) hk).trans ?_
      simp [Thread.key, hpc]
    · intro b
      rw [count_due_append]
      rfl
  | @meet condition hpc hmet =>
    refine ha.remove hw (w := .thread k)
      (a := ⟨.publishReleased, t.packet.id, .incoming t.exchange⟩) (x := condition)
      (by rw [hwaits]; simp [Thread.waits, hpc]) hmet rfl (fun v hv => ?_) (hdue rfl)
    rw [goto_waits (h := s.handler.remove condition) hk, if_neg hv]
    cases v <;> rfl
  | complete hpc =>
    refine ha.keep (fun _ hc => hc) hsame (keeps_waits_thread hk (by simp [Thread.waits, hpc]) _)
      (hdue ?_)
    split_ifs <;> rfl

/-- The read loop never finds an acknowledgement unexpected. -/
lemma Answered.read (ha : Answered s.handler (due s)) (hw : Wired s.handler) (hty : Typed s.handler)
    (hd : Distinct s) {condition : ℕ} {p : FromClient} {ps : List FromClient} {h' : Handler}
    (hp : s.toBroker = p :: ps) (hs : Reads s.handler condition p h') :
    h'.unexpected = s.handler.unexpected ∧
      Answered h' (due { s with handler := h', toBroker := ps }) := by
  have hdue : ∀ a, (due s).count a = (due { s with handler := h', toBroker := ps }).count a +
      p.acknowledgement.toList.count a := fun a => by
    simp only [due, hp, List.count_append]
    cases hpa : p.acknowledgement <;> simp [hpa, List.count_cons]
    omega
  cases hs with
  | @publish n packet =>
    refine ⟨rfl, ha.keep (fun _ hc => hc) (fun _ hc => .inl hc) (fun w x hx => ?_)
      fun a => (hdue a).symm⟩
    cases w with
    | writer => exact hx
    | thread k =>
      obtain ⟨t, ht, hx⟩ := Option.bind_eq_some_iff.mp hx
      change ((s.handler.threads ++ [_])[k]?).bind Thread.waits = _
      rw [List.getElem?_append_left (List.getElem?_eq_some_iff.mp ht).1, ht]
      exact hx
  | @notify a c hc hcond hmatch =>
    refine ⟨rfl, ha.notify hw (exclusive hty hd) hc hmatch (by rw [hcond]) (fun v => ?_) hdue⟩
    cases v <;> rfl
  | @unexpected a hnone =>
    have hmem : a ∈ due s := List.count_pos_iff.mp <| by
      rw [hdue]
      simp [FromClient.acknowledgement]
    obtain ⟨w, x, -, ⟨c, hc, hmatch⟩, -⟩ := ha.own hw (exclusive hty hd) hmem
    exact absurd hmatch (hnone c hc)

theorem Answered.step (ha : Answered s.handler (due s)) (hw : Wired s.handler)
    (hty : Typed s.handler) (ho : Ordered s) (hd : Distinct s) (ht : Trans s e s') :
    Answered s'.handler (due s') := by
  have hkeep : ∀ {h' : Handler} {due' : List Acknowledge},
      h'.packetConditions = s.handler.packetConditions → h'.waits = s.handler.waits →
      (∀ a, due'.count a = (due s).count a) → Answered h' due' := fun hconds hwaits hdue =>
    ha.keep (fun c hc => by rw [hconds]; exact hc)
      (fun c hc => .inl (by rw [hconds] at hc; exact hc))
      (fun w p hp => by rw [hwaits]; exact hp) hdue
  cases ht with
  | queue => exact hkeep rfl (funext fun w => by cases w <;> rfl) fun _ => rfl
  | write hs => exact ha.write hw hty ho hd hs
  | read hp hs => exact (ha.read hw hty hd hp hs).2
  | work hk hs => exact ha.work hw hty hd hk hs
  | @receive p ps hp =>
    refine hkeep rfl rfl fun a => ?_
    simp only [due, hp, Client.receive, List.count_append]
    cases hpa : answer p <;> simp [hpa, List.count_cons]
    omega
  | @answer i a ha' =>
    obtain ⟨hi, rfl⟩ := List.getElem?_eq_some_iff.mp ha'
    refine hkeep rfl rfl fun b => ?_
    have hperm := (List.getElem_cons_eraseIdx_perm hi).count_eq b
    simp only [due, List.filterMap_append, List.count_append, ← hperm, List.count_cons]
    simp [FromClient.acknowledgement, List.count_singleton]
    omega
  | publish =>
    exact hkeep rfl rfl fun _ => by simp [due, FromClient.acknowledgement, List.filterMap_cons]

/-! ### Safety -/

structure Invariant (s : System) : Prop where
  wired : Wired s.handler
  typed : Typed s.handler
  ordered : Ordered s
  distinct : Distinct s
  answered : Answered s.handler (due s)
  expected : s.handler.unexpected = false

lemma invariant_initial : Invariant initial :=
  ⟨wired_new, typed_new, ordered_initial, distinct_initial,
    ⟨fun _ => Nat.zero_le _, fun _ h => (nomatch h), fun _ h => (nomatch h)⟩, rfl⟩

theorem Invariant.step (h : Invariant s) (ht : Trans s e s') : Invariant s' := by
  refine ⟨?_, ?_, h.ordered.step ht, h.distinct.step h.typed ht,
    h.answered.step h.wired h.typed h.ordered h.distinct ht, ?_⟩
  · cases ht with
    | queue => exact h.wired.keep rfl rfl fun v => by cases v <;> rfl
    | write hs => exact h.wired.writes hs
    | read hp hs => exact h.wired.reads hs
    | work hk hs => exact h.wired.works hk hs
    | _ => exact h.wired
  · cases ht with
    | queue => exact ⟨h.typed.outgoing, h.typed.fits⟩
    | write hs => exact h.typed.writes hs
    | read hp hs => exact h.typed.reads hs
    | work hk hs => exact h.typed.works hk hs
    | _ => exact h.typed
  · cases ht with
    | write hs => exact hs.threads.2.1.trans h.expected
    | read hp hs => exact (h.answered.read h.wired h.typed h.distinct hp hs).1.trans h.expected
    | work hk hs => exact hs.unexpected.trans h.expected
    | _ => exact h.expected

/-- Only the write loop waits for an answer to a message. -/
lemma taken_of_due (h : Invariant s) {a : Acknowledge} {n : ℕ} (ha : a ∈ due s)
    (hn : a.exchange = .outgoing n) : n = s.handler.taken := by
  obtain ⟨w, x, hx, -⟩ := h.answered.awaited a ha
  cases w with
  | writer =>
    change s.handler.writer.waits s.handler.taken = _ at hx
    unfold Writer.waits at hx
    split at hx <;> cases hx <;> cases hn <;> rfl
  | thread k =>
    obtain ⟨t, -, hx⟩ := Option.bind_eq_some_iff.mp hx
    unfold Thread.waits at hx
    split at hx <;> cases hx
    cases hn

lemma Invariant.safe (h : Invariant s) : Safe s where
  expected := h.expected
  own a packets hp := by
    refine h.answered.own h.wired (exclusive h.typed h.distinct) ?_
    simp [due, hp, FromClient.acknowledgement]
  order := by
    obtain ⟨lost, heq, -⟩ := h.ordered.order
    rw [heq]
    simp only [List.append_assoc]
    exact List.prefix_append ..
  complete := h.ordered.order_of
  ids n m id hn hm := by
    have htaken : ∀ n, InUse s n id → n = s.handler.taken := by
      rintro n (⟨-, hn⟩ | ⟨a, ha, hn, -⟩)
      · exact hn
      · exact taken_of_due h ha hn
    rw [htaken n hn, htaken m hm]
  used := h.ordered.used
  idle hidle := by
    refine ⟨by rw [h.ordered.used, hidle]; rfl, fun c hc => ?_⟩
    obtain ⟨w, hx⟩ := h.wired.held c hc
    cases w with
    | writer =>
      change s.handler.writer.key = _ at hx
      rw [hidle] at hx
      cases hx
    | thread k =>
      obtain ⟨t, -, hcode, -⟩ := key_thread hx
      exact hcode

end

/-- **The handshakes of the broker's messages are safe** with a conforming client, in every order of
steps: no acknowledgement is unexpected or meets the condition of another exchange, and the messages
arrive in their order, each once. -/
theorem handshakes_safe {s : System} {es : List Event}
    (hrun : Runs.run step initial es = some s) : Safe s := by
  have hstep : ∀ t e t', Invariant t → step t e = some t' → Invariant t' := fun t e t' h hs =>
    h.step (trans_of_step h.wired hs)
  exact (Runs.run_invariant_of_step hstep invariant_initial hrun).safe

/-- A message of QoS 2, and a publish of the client with the same packet id. -/
def crossing : List Event :=
  [.queue ⟨"light".toList, 2, .payload (some [49])⟩,
    .publish ⟨"door".toList, some [48], 2, false, 0⟩,
    .read 0, .work 0 false, .work 0 false, .write false, .write false, .write false, .write false,
    .receive, .receive, .answer 1, .answer 0, .read 1, .read 0, .write false, .work 0 false,
    .write false, .write false, .work 0 false]

theorem handshakes_safe_crossing :
    ∃ s, Runs.run step initial crossing = some s ∧
      s.client.received = [⟨"light".toList, 2, .payload (some [49])⟩] ∧
      s.handler.published.length = 1 ∧ Safe s :=
  ⟨_, rfl, rfl, rfl, @handshakes_safe _ crossing rfl⟩

end MoteBroker.Handshakes

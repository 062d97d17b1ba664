import MoteBroker.Lib.Runs
import MoteBroker.Subscriptions

/-!
The connections of the broker: the read loop, the write loop and the packet threads of every
connection, the server that stops them, `Broker.clients` and the subscriptions, step by step.
-/

namespace MoteBroker.Connections

open NestedDict MoteBroker.Topics MoteBroker.RecursiveDefaultDict MoteBroker.Messages
open MoteBroker.Broker MoteBroker.CreateMessages MoteBroker.Subscriptions

/-! ### The state -/

/-- What the read loop reads first: the client id and the last will. -/
structure ConnectPacket where
  clientId : Str
  lastWill : Option IncomingMessage

/-- What a read loop does next. -/
inductive Reader
  /-- `self.id = connect_packet.client_id`. -/
  | connecting
  /-- `self.last_will = self.get_last_will(connect_packet)`. -/
  | identified
  /-- To write the acknowledgement and look up the previous client. -/
  | adding
  /-- `prev.connection_override = True`. -/
  | overriding (prev : ℕ)
  /-- `prev.linked = False`. -/
  | unlinking (prev : ℕ)
  /-- `prev.close()`, and then its `handle_disconnected`. -/
  | closing (prev : ℕ)
  /-- `self.clients[client.id] = client`, once the cleanup of the previous client is over. -/
  | storing
  /-- `self.linked = True`. -/
  | linking
  /-- To test `self.alive`. -/
  | looping
  | reading
  /-- In the `finally` block, before `self.close()`. -/
  | failed
  /-- To test `self.linked`. -/
  | testing
  | ended
  deriving DecidableEq

/-- What a write loop does next: it has failed when it is to test `self.linked`. -/
inductive Writer
  | running | failed | ended
  deriving DecidableEq

/-- How far the server has come with `disconnect()`. -/
inductive Stopper
  | waiting | unlinked | done
  deriving DecidableEq

/-- The thread of a SUBSCRIBE or UNSUBSCRIBE packet, with what it has still to do. -/
inductive PacketThread
  | subscribing (requests : List (Str × ℕ))
  /-- `self.subscriptions.add(topic_str)`. -/
  | registered (topic_str : Str) (requests : List (Str × ℕ))
  | unsubscribing (topics : List Str)
  /-- `self.subscriptions.remove(topic)`. -/
  | unsubscribed (topic : Str) (topics : List Str)
  | ended
  deriving DecidableEq

inductive Mark
  | overridden | lastWill
  deriving DecidableEq

structure Connection where
  /-- What the client sends in its CONNECT packet. -/
  packet : ConnectPacket
  id : Option Str
  lastWill : Option IncomingMessage
  alive : Bool
  linked : Bool
  connectionOverride : Bool
  subscriptions : List Str
  reader : Reader
  writer : Writer
  stopper : Stopper
  threads : List PacketThread
  /-- The connection has been put in `Broker.clients`. -/
  stored : Bool
  /-- How often one of its loops or the server has called `handle_disconnected`. -/
  entries : ℕ
  /-- A cleanup has read `subscriptions`, has ended these subscriptions, has removed the client,
  is over. -/
  hasRead : Bool
  purged : Bool
  popped : Bool
  cleaned : Bool
  /-- The overrides and the publications of the last will, in order. -/
  log : List Mark

/-- Who calls `handle_disconnected`: a loop of the connection, the server, or the read loop of
the connection that overrides it. -/
inductive Actor
  | reader (c : ℕ) | writer (c : ℕ) | stop (c : ℕ) | override (c : ℕ)
  deriving DecidableEq

/-- What a call of `handle_disconnected` does next. -/
inductive Pc
  /-- `*self.subscriptions`. -/
  | reading
  /-- `Broker.unsubscribe`, under the lock. -/
  | unsubscribing (topics : List Str)
  /-- To test `self.connection_override`. -/
  | testing
  | removing
  | publishing
  deriving DecidableEq

structure Cleanup where
  target : ℕ
  pc : Pc
  deriving DecidableEq

structure System where
  conns : ℕ → Connection
  /-- `Broker.clients`. -/
  clients : AList fun _ : Str => ℕ
  subscriptions : Rdd ClientSet
  /-- The connection that has registered what is in the tree for a topic and a client id. -/
  owner : List Str × Str → Option ℕ
  cleanups : Actor → Option Cleanup

def Connection.new (packet : ConnectPacket) : Connection :=
  ⟨packet, none, none, true, false, false, [], .connecting, .running, .waiting, [],
    false, 0, false, false, false, false, []⟩

/-- No connection has been read from yet. -/
def initial (packet : ℕ → ConnectPacket) : System :=
  ⟨fun c => .new (packet c), ∅, .nil, fun _ => none, fun _ => none⟩

/-! ### The steps -/

def System.modify (s : System) (c : ℕ) (f : Connection → Connection) : System :=
  { s with conns := Function.update s.conns c (f (s.conns c)) }

def System.goto (s : System) (c : ℕ) (reader : Reader) : System :=
  s.modify c fun conn => { conn with reader := reader }

def System.setCleanup (s : System) (a : Actor) (cleanup : Option Cleanup) : System :=
  { s with cleanups := Function.update s.cleanups a cleanup }

/-- A loop of the connection or the server calls `handle_disconnected`. -/
def System.enter (s : System) (a : Actor) (c : ℕ) : System :=
  (s.modify c fun conn => { conn with entries := conn.entries + 1 }).setCleanup a
    (some ⟨c, .reading⟩)

/-- The next step of the read loop, when what it reads and writes does not fail. -/
def System.read (s : System) (c : ℕ) : Option System :=
  match (s.conns c).reader with
  | .connecting =>
    some <| s.modify c fun conn =>
      { conn with id := some conn.packet.clientId, reader := .identified }
  | .identified =>
    some <| s.modify c fun conn =>
      { conn with lastWill := conn.packet.lastWill, reader := .adding }
  | .adding =>
    match (s.conns c).id.bind fun id => s.clients.lookup id with
    | some prev => some (s.goto c (.overriding prev))
    | none => some (s.goto c .storing)
  | .overriding prev =>
    some <| (s.modify prev fun conn =>
      { conn with connectionOverride := true, log := conn.log ++ [.overridden] }).goto c
        (.unlinking prev)
  | .unlinking prev =>
    some <| (s.modify prev fun conn => { conn with linked := false }).goto c (.closing prev)
  | .closing prev =>
    some <| ((s.modify prev fun conn => { conn with alive := false }).goto c .storing).setCleanup
      (.override c) (some ⟨prev, .reading⟩)
  | .storing =>
    match s.cleanups (.override c), (s.conns c).id with
    | none, some id =>
      some { s.modify c fun conn => { conn with stored := true, reader := .linking } with
        clients := s.clients.insert id c }
    | _, _ => none
  | .linking => some <| s.modify c fun conn => { conn with linked := true, reader := .looping }
  | .looping => some (s.goto c (if (s.conns c).alive then .reading else .failed))
  | .reading => none
  | .failed => some <| s.modify c fun conn => { conn with alive := false, reader := .testing }
  | .testing =>
    if (s.conns c).linked then some ((s.goto c .ended).enter (.reader c) c)
    else some (s.goto c .ended)
  | .ended => none

/-- Where a read or write of the read loop may fail. -/
def Reader.mayFail : Reader → Bool
  | .connecting | .adding | .looping | .reading => true
  | _ => false

/-- The part of `unsubscribe` under the lock. -/
def System.unsubscribe (s : System) (c : ℕ) (topics : List Str) : Option System :=
  match unsubscribeTopics ((s.conns c).id.getD []) s.subscriptions topics with
  | .ok subscriptions =>
    some { s with
      subscriptions := subscriptions
      owner := fun k => if k.2 = (s.conns c).id.getD [] ∧ k.1 ∈ topics.map split then none
        else s.owner k }
  | .error _ => none

/-- The part of `subscribe` under the lock. -/
def System.register (s : System) (c : ℕ) (topic_str : Str) (qos : ℕ) : Option System :=
  match registerTopic s.subscriptions ((s.conns c).id.getD []) topic_str qos with
  | .ok subscriptions =>
    some { s with
      subscriptions := subscriptions
      owner := Function.update s.owner (split topic_str, (s.conns c).id.getD []) (some c) }
  | .error _ => none

/-- `remove_client`. -/
def System.removeClient (s : System) (c : ℕ) : System :=
  match (s.conns c).id with
  | some id => if id = [] then s else { s with clients := s.clients.erase id }
  | none => s

/-- The next step of a call of `handle_disconnected`. -/
def System.clean (s : System) (a : Actor) : Cleanup → System
  | ⟨c, .reading⟩ =>
    (s.modify c fun conn => { conn with hasRead := true }).setCleanup a
      (some ⟨c, .unsubscribing (s.conns c).subscriptions⟩)
  | ⟨c, .unsubscribing topics⟩ =>
    match s.unsubscribe c topics with
    | some s =>
      (s.modify c fun conn => { conn with purged := true }).setCleanup a (some ⟨c, .testing⟩)
    | none => s.setCleanup a none
  | ⟨c, .testing⟩ =>
    if (s.conns c).connectionOverride then
      (s.modify c fun conn => { conn with cleaned := true }).setCleanup a none
    else s.setCleanup a (some ⟨c, .removing⟩)
  | ⟨c, .removing⟩ =>
    ((s.removeClient c).modify c fun conn => { conn with popped := true }).setCleanup a
      (some ⟨c, .publishing⟩)
  | ⟨c, .publishing⟩ =>
    (s.modify c fun conn =>
      { conn with
        cleaned := true
        log := conn.log ++ conn.lastWill.toList.map fun _ => .lastWill }).setCleanup a none

def System.setThread (s : System) (c k : ℕ) (t : PacketThread) : System :=
  s.modify c fun conn => { conn with threads := conn.threads.set k t }

/-- The next step of a packet thread; a call that raises ends it. -/
def System.work (s : System) (c k : ℕ) : PacketThread → Option System
  | .subscribing [] | .unsubscribing [] => some (s.setThread c k .ended)
  | .subscribing ((topic, qos) :: requests) =>
    match requestTopic topic with
    | .error _ => some (s.setThread c k .ended)
    | .ok (topic_str, _) =>
      match s.register c topic_str qos with
      | some s => some (s.setThread c k (.registered topic_str requests))
      | none => some (s.setThread c k .ended)
  | .registered topic_str requests =>
    some <| (s.modify c fun conn =>
      { conn with subscriptions := conn.subscriptions.insert topic_str }).setThread c k
        (.subscribing requests)
  | .unsubscribing (topic :: topics) =>
    match s.unsubscribe c [topic] with
    | some s => some (s.setThread c k (.unsubscribed topic topics))
    | none => some (s.setThread c k .ended)
  | .unsubscribed topic topics =>
    some <| (s.modify c fun conn =>
      { conn with subscriptions := conn.subscriptions.filter (· ≠ topic) }).setThread c k
        (.unsubscribing topics)
  | .ended => none

/-- Where a packet thread may fail without having done anything since its last step. -/
def PacketThread.mayFail : PacketThread → Bool
  | .subscribing _ | .unsubscribing _ => true
  | _ => false

inductive Event
  | reader (c : ℕ)
  | readerFails (c : ℕ)
  /-- The read loop has read a packet and starts its thread. -/
  | packet (c : ℕ) (thread : PacketThread)
  | writerFails (c : ℕ)
  | writerEnds (c : ℕ)
  /-- The write loop, which has failed, tests `self.linked`. -/
  | writer (c : ℕ)
  | stop (c : ℕ)
  | cleanup (a : Actor)
  | thread (c k : ℕ)
  | threadFails (c k : ℕ)

def step (s : System) : Event → Option System
  | .reader c => s.read c
  | .readerFails c => if (s.conns c).reader.mayFail then some (s.goto c .failed) else none
  | .packet c thread =>
    if (s.conns c).reader = .reading ∧ thread.mayFail then
      some <| s.modify c fun conn =>
        { conn with reader := .looping, threads := conn.threads ++ [thread] }
    else none
  | .writerFails c =>
    if (s.conns c).writer = .running then
      some <| s.modify c fun conn => { conn with alive := false, writer := .failed }
    else none
  | .writerEnds c =>
    if (s.conns c).writer = .running then
      some <| s.modify c fun conn => { conn with writer := .ended }
    else none
  | .writer c =>
    if (s.conns c).writer = .failed then
      let s' := s.modify c fun conn => { conn with writer := .ended }
      if (s.conns c).linked then some (s'.enter (.writer c) c) else some s'
    else none
  | .stop c =>
    match (s.conns c).stopper with
    | .waiting =>
      some <| s.modify c fun conn => { conn with linked := false, stopper := .unlinked }
    | .unlinked =>
      some <| (s.modify c fun conn =>
        { conn with alive := false, stopper := .done }).enter (.stop c) c
    | .done => none
  | .cleanup a => (s.cleanups a).map (s.clean a)
  | .thread c k => (s.conns c).threads[k]?.bind (s.work c k)
  | .threadFails c k =>
    match (s.conns c).threads[k]? with
    | some t => if t.mayFail then some (s.setThread c k .ended) else none
    | none => none

/-! ### Some runs -/

/-- Every client is called `app`. -/
def appPacket (lastWill : Option IncomingMessage) (_ : ℕ) : ConnectPacket :=
  ⟨"app".toList, lastWill⟩

/-- Connection `c` comes into service, when there is no previous client, and waits for a packet. -/
def connects (c : ℕ) : List Event := List.replicate 6 (.reader c)

/-- Reading fails, and the read loop of connection `c` calls `handle_disconnected`. -/
def disconnects (c : ℕ) : List Event := [.readerFails c, .reader c, .reader c]

/-- A call of `handle_disconnected` runs to its end. -/
def cleans (a : Actor) : List Event := List.replicate 5 (.cleanup a)

/-! ### What a step does -/

/-- Before the connection has been put in `Broker.clients`. -/
def Reader.early : Reader → Prop
  | .connecting | .identified | .adding | .overriding _ | .unlinking _ | .closing _
  | .storing => True
  | _ => False

/-- In `add_client`, with the previous client found. -/
def Reader.replaces (prev : ℕ) : Reader → Prop
  | .overriding p | .unlinking p | .closing p => p = prev
  | _ => False

/-- In `add_client`, after the override of the previous client. -/
def Reader.succeeds (prev : ℕ) : Reader → Prop
  | .unlinking p | .closing p => p = prev
  | .storing => True
  | _ => False

/-- In service. -/
def Reader.serving : Reader → Prop
  | .linking | .looping | .reading => True
  | _ => False

/-- How a read loop moves outside `add_client`. -/
def Reader.Moves (r r' : Reader) : Prop :=
  r' = r ∨ (∀ prev, ¬r.succeeds prev) ∧ ¬r'.early ∧ (r'.serving → r.serving)

/-- Only where the threads are has changed, and whether the connection is alive and linked. -/
structure Moved (x y : Connection) : Prop where
  same : y = { x with alive := y.alive, linked := y.linked, reader := y.reader, writer := y.writer,
                      stopper := y.stopper }
  alive : y.alive = true → x.alive = true
  reader : x.reader.Moves y.reader

inductive Trans (s : System) : Event → System → Prop
  | identify {c : ℕ} (h : (s.conns c).reader = .connecting) :
    Trans s (.reader c) (s.modify c fun conn =>
      { conn with id := some conn.packet.clientId, reader := .identified })
  | setWill {c : ℕ} (h : (s.conns c).reader = .identified) :
    Trans s (.reader c) (s.modify c fun conn =>
      { conn with lastWill := conn.packet.lastWill, reader := .adding })
  | found {c prev : ℕ} {id : Str} (h : (s.conns c).reader = .adding)
    (hid : (s.conns c).id = some id) (hprev : s.clients.lookup id = some prev) :
    Trans s (.reader c) (s.goto c (.overriding prev))
  | notFound {c : ℕ} (h : (s.conns c).reader = .adding) : Trans s (.reader c) (s.goto c .storing)
  | override {c prev : ℕ} (h : (s.conns c).reader = .overriding prev) :
    Trans s (.reader c) ((s.modify prev fun conn =>
      { conn with connectionOverride := true, log := conn.log ++ [.overridden] }).goto c
        (.unlinking prev))
  | unlink {c prev : ℕ} (h : (s.conns c).reader = .unlinking prev) :
    Trans s (.reader c) ((s.modify prev fun conn => { conn with linked := false }).goto c
      (.closing prev))
  | close {c prev : ℕ} (h : (s.conns c).reader = .closing prev) :
    Trans s (.reader c) (((s.modify prev fun conn => { conn with alive := false }).goto c
      .storing).setCleanup (.override c) (some ⟨prev, .reading⟩))
  | store {c : ℕ} {id : Str} (h : (s.conns c).reader = .storing) (hid : (s.conns c).id = some id) :
    Trans s (.reader c)
      { s.modify c fun conn => { conn with stored := true, reader := .linking } with
        clients := s.clients.insert id c }
  | moves {e : Event} {c : ℕ} {y : Connection} (hy : Moved (s.conns c) y) :
    Trans s e (s.modify c fun _ => y)
  | enterReader {c : ℕ} (h : (s.conns c).reader = .testing) (hl : (s.conns c).linked = true) :
    Trans s (.reader c) ((s.goto c .ended).enter (.reader c) c)
  | enterWriter {c : ℕ} (hl : (s.conns c).linked = true) :
    Trans s (.writer c)
      ((s.modify c fun conn => { conn with writer := .ended }).enter (.writer c) c)
  | enterStop {c : ℕ} (h : (s.conns c).stopper = .unlinked) :
    Trans s (.stop c)
      ((s.modify c fun conn => { conn with alive := false, stopper := .done }).enter (.stop c) c)
  | packet {c : ℕ} {t : PacketThread} (h : (s.conns c).reader = .reading) (ht : t.mayFail) :
    Trans s (.packet c t) (s.modify c fun conn =>
      { conn with reader := .looping, threads := conn.threads ++ [t] })
  | cleanRead {a : Actor} {c : ℕ} (h : s.cleanups a = some ⟨c, .reading⟩) :
    Trans s (.cleanup a) ((s.modify c fun conn => { conn with hasRead := true }).setCleanup a
      (some ⟨c, .unsubscribing (s.conns c).subscriptions⟩))
  | cleanUnsubscribe {a : Actor} {c : ℕ} {topics : List Str} {S : Rdd ClientSet}
    (h : s.cleanups a = some ⟨c, .unsubscribing topics⟩)
    (hS : unsubscribeTopics ((s.conns c).id.getD []) s.subscriptions topics = .ok S) :
    Trans s (.cleanup a) (({ s with
      subscriptions := S
      owner := fun k => if k.2 = (s.conns c).id.getD [] ∧ k.1 ∈ topics.map split then none
        else s.owner k }.modify c fun conn => { conn with purged := true }).setCleanup a
          (some ⟨c, .testing⟩))
  | cleanRaises {a : Actor} {c : ℕ} {topics : List Str}
    (h : s.cleanups a = some ⟨c, .unsubscribing topics⟩) :
    Trans s (.cleanup a) (s.setCleanup a none)
  | cleanOverridden {a : Actor} {c : ℕ} (h : s.cleanups a = some ⟨c, .testing⟩)
    (ho : (s.conns c).connectionOverride = true) :
    Trans s (.cleanup a) ((s.modify c fun conn => { conn with cleaned := true }).setCleanup a none)
  | cleanTest {a : Actor} {c : ℕ} (h : s.cleanups a = some ⟨c, .testing⟩)
    (ho : (s.conns c).connectionOverride = false) :
    Trans s (.cleanup a) (s.setCleanup a (some ⟨c, .removing⟩))
  | cleanRemove {a : Actor} {c : ℕ} (h : s.cleanups a = some ⟨c, .removing⟩) :
    Trans s (.cleanup a) (((s.removeClient c).modify c fun conn =>
      { conn with popped := true }).setCleanup a (some ⟨c, .publishing⟩))
  | cleanPublish {a : Actor} {c : ℕ} (h : s.cleanups a = some ⟨c, .publishing⟩) :
    Trans s (.cleanup a) ((s.modify c fun conn =>
      { conn with
        cleaned := true
        log := conn.log ++ conn.lastWill.toList.map fun _ => .lastWill }).setCleanup a none)
  | threadEnds {e : Event} {c k : ℕ} {t : PacketThread}
    (h : (s.conns c).threads[k]? = some t) (ht : t.mayFail = true) :
    Trans s e (s.setThread c k .ended)
  | register {c k qos : ℕ} {topic topic_str : Str} {tree : Bool} {requests : List (Str × ℕ)}
    {S : Rdd ClientSet}
    (h : (s.conns c).threads[k]? = some (.subscribing ((topic, qos) :: requests)))
    (htopic : requestTopic topic = .ok (topic_str, tree))
    (hS : registerTopic s.subscriptions ((s.conns c).id.getD []) topic_str qos = .ok S) :
    Trans s (.thread c k) ({ s with
      subscriptions := S
      owner := Function.update s.owner (split topic_str, (s.conns c).id.getD []) (some c)
      }.setThread c k (.registered topic_str requests))
  | add {c k : ℕ} {topic_str : Str} {requests : List (Str × ℕ)}
    (h : (s.conns c).threads[k]? = some (.registered topic_str requests)) :
    Trans s (.thread c k) ((s.modify c fun conn =>
      { conn with subscriptions := conn.subscriptions.insert topic_str }).setThread c k
        (.subscribing requests))
  | unsubscribe {c k : ℕ} {topic : Str} {topics : List Str} {S : Rdd ClientSet}
    (h : (s.conns c).threads[k]? = some (.unsubscribing (topic :: topics)))
    (hS : unsubscribeTopics ((s.conns c).id.getD []) s.subscriptions [topic] = .ok S) :
    Trans s (.thread c k) ({ s with
      subscriptions := S
      owner := fun k => if k.2 = (s.conns c).id.getD [] ∧ k.1 ∈ [topic].map split then none
        else s.owner k }.setThread c k (.unsubscribed topic topics))
  | remove {c k : ℕ} {topic : Str} {topics : List Str}
    (h : (s.conns c).threads[k]? = some (.unsubscribed topic topics)) :
    Trans s (.thread c k) ((s.modify c fun conn =>
      { conn with subscriptions := conn.subscriptions.filter (· ≠ topic) }).setThread c k
        (.unsubscribing topics))

lemma trans_of_read {s s' : System} {c : ℕ} (hs : s.read c = some s') :
    Trans s (.reader c) s' := by
  unfold System.read at hs
  split at hs
  case h_1 h => cases hs; exact .identify h
  case h_2 h => cases hs; exact .setWill h
  case h_3 h =>
    split at hs
    case h_1 prev hprev =>
      obtain ⟨id, hid, hprev⟩ := Option.bind_eq_some_iff.mp hprev
      cases hs
      exact .found h hid hprev
    case h_2 => cases hs; exact .notFound h
  case h_4 h => cases hs; exact .override h
  case h_5 h => cases hs; exact .unlink h
  case h_6 h => cases hs; exact .close h
  case h_7 h =>
    split at hs
    case h_1 id _ hid => cases hs; exact .store h hid
    case h_2 => cases hs
  case h_8 h =>
    cases hs
    exact .moves ⟨rfl, fun ha => ha, .inr ⟨by simp [h, Reader.succeeds], fun he => he.elim,
      fun _ => by rw [h]; trivial⟩⟩
  case h_9 h =>
    cases hs
    refine .moves ⟨rfl, fun ha => ha, .inr ⟨by simp [h, Reader.succeeds], ?_, fun _ => ?_⟩⟩
    · dsimp only
      split_ifs <;> exact fun he => he
    · rw [h]
      trivial
  case h_10 => cases hs
  case h_11 h =>
    cases hs
    exact .moves ⟨rfl, fun ha => (nomatch ha),
      .inr ⟨by simp [h, Reader.succeeds], fun he => he.elim, fun hr => hr.elim⟩⟩
  case h_12 h =>
    split at hs
    case isTrue hl => cases hs; exact .enterReader h hl
    case isFalse =>
      cases hs
      exact .moves ⟨rfl, fun ha => ha, .inr ⟨by simp [h, Reader.succeeds], fun he => he.elim,
        fun hr => hr.elim⟩⟩
  case h_13 => cases hs

lemma trans_of_work {s s' : System} {c k : ℕ} {t : PacketThread}
    (ht : (s.conns c).threads[k]? = some t) (hs : s.work c k t = some s') :
    Trans s (.thread c k) s' := by
  unfold System.work at hs
  split at hs
  case h_1 => cases hs; exact .threadEnds ht rfl
  case h_2 => cases hs; exact .threadEnds ht rfl
  case h_3 topic qos requests =>
    split at hs
    case h_1 => cases hs; exact .threadEnds ht rfl
    case h_2 topic_str tree htopic =>
      unfold System.register at hs
      cases hS : registerTopic s.subscriptions ((s.conns c).id.getD []) topic_str qos with
      | ok S => rw [hS] at hs; cases hs; exact .register ht htopic hS
      | error e => rw [hS] at hs; cases hs; exact .threadEnds ht rfl
  case h_4 => cases hs; exact .add ht
  case h_5 topic topics =>
    unfold System.unsubscribe at hs
    cases hS : unsubscribeTopics ((s.conns c).id.getD []) s.subscriptions [topic] with
    | ok S => rw [hS] at hs; cases hs; exact .unsubscribe ht hS
    | error e => rw [hS] at hs; cases hs; exact .threadEnds ht rfl
  case h_6 => cases hs; exact .remove ht
  case h_7 => cases hs

lemma trans_of_clean {s : System} {a : Actor} {cleanup : Cleanup}
    (h : s.cleanups a = some cleanup) : Trans s (.cleanup a) (s.clean a cleanup) := by
  obtain ⟨c, pc⟩ := cleanup
  cases pc with
  | reading => exact .cleanRead h
  | unsubscribing topics =>
    cases hS : unsubscribeTopics ((s.conns c).id.getD []) s.subscriptions topics with
    | ok S =>
      simp only [System.clean, System.unsubscribe, hS]
      exact .cleanUnsubscribe h hS
    | error e =>
      simp only [System.clean, System.unsubscribe, hS]
      exact .cleanRaises h
  | testing =>
    unfold System.clean
    dsimp only
    split_ifs with ho
    · exact .cleanOverridden h ho
    · exact .cleanTest h (Bool.eq_false_iff.mpr ho)
  | removing => exact .cleanRemove h
  | publishing => exact .cleanPublish h

/-- The transitions are all that a step can do. -/
theorem trans_of_step {s s' : System} {e : Event} (hs : step s e = some s') : Trans s e s' := by
  have hstay : ∀ r : Reader, r.Moves r := fun r => .inl rfl
  cases e with
  | reader c => exact trans_of_read hs
  | readerFails c =>
    simp only [step] at hs
    split_ifs at hs with h
    cases hs
    refine .moves ⟨rfl, fun ha => ha,
      .inr ⟨fun prev hr => ?_, fun he => he.elim, fun hr => hr.elim⟩⟩
    cases hreader : (s.conns c).reader <;> simp_all [Reader.mayFail, Reader.succeeds]
  | packet c t =>
    simp only [step] at hs
    split_ifs at hs with h
    cases hs
    exact .packet h.1 h.2
  | writerFails c =>
    simp only [step] at hs
    split_ifs at hs
    cases hs
    exact .moves ⟨rfl, fun ha => (nomatch ha), hstay _⟩
  | writerEnds c =>
    simp only [step] at hs
    split_ifs at hs
    cases hs
    exact .moves ⟨rfl, fun ha => ha, hstay _⟩
  | writer c =>
    simp only [step] at hs
    split_ifs at hs with h hl
    · cases hs; exact .enterWriter hl
    · cases hs; exact .moves ⟨rfl, fun ha => ha, hstay _⟩
  | stop c =>
    simp only [step] at hs
    split at hs
    case h_1 => cases hs; exact .moves ⟨rfl, fun ha => ha, hstay _⟩
    case h_2 h => cases hs; exact .enterStop h
    case h_3 => cases hs
  | cleanup a =>
    obtain ⟨cleanup, h, hs⟩ := Option.map_eq_some_iff.mp hs
    cases hs
    exact trans_of_clean h
  | thread c k =>
    obtain ⟨t, ht, hs⟩ := Option.bind_eq_some_iff.mp hs
    exact trans_of_work ht hs
  | threadFails c k =>
    simp only [step] at hs
    split at hs
    case h_1 t ht =>
      split_ifs at hs with hfail
      cases hs
      exact .threadEnds ht hfail
    case h_2 => cases hs

/-! ### What is where after a step -/

section
variable (s : System) (c d : ℕ) (f : Connection → Connection) (a : Actor)

lemma modify_conns : (s.modify c f).conns d = if d = c then f (s.conns c) else s.conns d :=
  Function.update_apply ..

lemma modify_modify (g : Connection → Connection) :
    (s.modify c f).modify c g = s.modify c fun conn => g (f conn) := by
  simp [System.modify]

lemma goto_conns (r : Reader) :
    (s.goto c r).conns d = if d = c then { s.conns c with reader := r } else s.conns d :=
  modify_conns ..

lemma setCleanup_cleanups (b : Actor) (cleanup : Option Cleanup) :
    (s.setCleanup a cleanup).cleanups b = if b = a then cleanup else s.cleanups b :=
  Function.update_apply ..

lemma setCleanup_conns (cleanup : Option Cleanup) : (s.setCleanup a cleanup).conns = s.conns := rfl

lemma removeClient_eq :
    s.removeClient c = { s with clients := (s.removeClient c).clients } := by
  unfold System.removeClient
  split
  · split_ifs <;> rfl
  · rfl

end

end MoteBroker.Connections

import MoteBroker.CreateMessages
import MoteBroker.Retain

/-!
The broker: its state, and what a publish, a subscription, the end of a subscription and one
turn of the main loop do to it.

A call returns the state it leaves and the exception it raises, if any; a call that waits for ever
has `noReturn` in place of an exception.
-/

namespace MoteBroker.Broker

open NestedDict MoteBroker.Topics MoteBroker.RecursiveDefaultDict MoteBroker.TreeItems
open MoteBroker.Messages MoteBroker.Retain MoteBroker.CreateMessages

/-- A connection: its client id, and a number that no other connection has. -/
structure Client where
  id : Str
  conn : ℕ
  deriving DecidableEq, Repr

structure State where
  /-- The connected clients by id. -/
  clients : AList fun _ : Str => ℕ
  /-- The message queue of every connection. -/
  queues : Client → List OutgoingMessage
  subscriptions : Rdd ClientSet
  treeManager : TreeManager
  /-- The tasks of the table manager. -/
  tableTasks : List Row
  broadcastQueue : List (List Row)

/-- The broker before anything has happened. -/
def initial : State := ⟨∅, fun _ => [], .nil, ⟨.nil, []⟩, [], []⟩

/-- `client.queue_message(message)`. -/
def State.queueMessage (s : State) (client : Client) (message : OutgoingMessage) : State :=
  { s with queues := Function.update s.queues client (s.queues client ++ [message]) }

/-! ### The main loop -/

/-- `str(Topic.from_nodes(topic_nodes))`. -/
def topicStr (topic_nodes : List Str) : Str :=
  match Topic.fromNodes topic_nodes with
  | some topic => topic.fullStr
  | none => "None".toList

/-- The loop over the clients of one message. -/
def State.sendTo (topic : Str) (data : Payload) : State → List (Str × ℕ) → State
  | s, [] => s
  | s, (client_id, qos) :: rest =>
    match s.clients.lookup client_id with
    | none => State.sendTo topic data s rest
    | some conn =>
      State.sendTo topic data
        (s.queueMessage ⟨client_id, conn⟩ ⟨topic, qos, .payload data⟩) rest

/-- The items of a client map. -/
def clientItems (cs : ClientSet) : List (Str × ℕ) := cs.entries.map fun e => (e.1, e.2)

def State.sendAll : State → List Message → State × Option Exc
  | s, [] => (s, none)
  | s, message :: messages =>
    match message.branch with
    | .clients cs =>
      (s.sendTo (topicStr message.base) message.data (clientItems cs)).sendAll messages
    | .qos _ => (s, some .attributeError)

def State.processOutgoingRows (s : State) (rows : List Row) : State × Option Exc :=
  match createMessagesForSubscriptions s.subscriptions rows with
  | .ok messages => s.sendAll messages
  | .error e => (s, some e)

/-- One turn of `main_loop`, if there is something to take: exceptions are logged. -/
def State.mainLoop (s : State) : Option State :=
  match s.broadcastQueue with
  | [] => none
  | rows :: queue =>
    let s := { s with broadcastQueue := queue }
    if rows = [] then some s else some (s.processOutgoingRows rows).1

/-! ### Publishing -/

/-- `rows`, for the broadcast queue, and the tree after them. -/
def State.publishRows (s : State) (message : IncomingMessage) : State × Except Exc (List Row) :=
  if message.retain then
    let (tm, rows) := s.treeManager.processMessage message
    ({ s with treeManager := tm }, rows)
  else (s, message.asSingleRow.map fun row => [row])

def State.broadcast (s : State) (rows : List Row) : State :=
  { s with broadcastQueue := s.broadcastQueue ++ [rows] }

def State.publish (s : State) (message : IncomingMessage) : State × Option Exc :=
  match message.table with
  | .error e => (s, some e)
  | .ok true =>
    ({ s with tableTasks := s.tableTasks ++
        [⟨message.topic.nodeList, message.data, message.qos⟩] }, none)
  | .ok false =>
    match s.publishRows message with
    | (s, .ok rows) => (s.broadcast rows, none)
    | (s, .error e) => (s, some e)

/-! ### Subscriptions -/

/-- `topic_str` and `tree` of a request: a leading separator asks for the retained messages. -/
def requestTopic : Str → Except Exc (Str × Bool)
  | [] => .error .indexError
  | c :: topic => .ok (if c = topicSep then (topic, true) else (c :: topic, false))

/-- The first half of `subscribe`: the retained messages go to the client's queue. For the topic of
a table the table manager is asked, which `main_loop` has not entered: nobody answers. -/
def State.sendRetained (s : State) (client : Client) (topic_str : Str) (qos : ℕ) (tree : Bool) :
    Except Exc State :=
  if tree then
    (s.treeManager.getMessage (Topic.fromStr topic_str) qos).map (s.queueMessage client)
  else
    match (Topic.fromStr topic_str).forTable with
    | .ok true => .error .noReturn
    | .ok false => .ok s
    | .error e => .error e

/-- The second half, under the subscription lock. -/
def registerTopic (subscriptions : Rdd ClientSet) (client_id topic_str : Str) (qos : ℕ) :
    Except Exc (Rdd ClientSet) :=
  (lshift ∅ (AList.insert client_id qos) subscriptions (Topic.fromStr topic_str).nodeList).map
    Prod.snd

def State.register (s : State) (client : Client) (topic_str : Str) (qos : ℕ) :
    Except Exc State :=
  (registerTopic s.subscriptions client.id topic_str qos).map fun subscriptions =>
    { s with subscriptions := subscriptions }

def State.subscribe (s : State) (client : Client) (topic_str : Str) (qos : ℕ) (tree : Bool) :
    Except Exc State := do
  let s ← s.sendRetained client topic_str qos tree
  s.register client topic_str qos

/-- One topic of `unsubscribe`. -/
def unsubscribeTopic (subscriptions : Rdd ClientSet) (client_id topic_str : Str) :
    Except Exc (Rdd ClientSet) :=
  match lshift ∅ (AList.erase client_id) subscriptions (Topic.fromStr topic_str).nodeList with
  | .ok (client_set, subscriptions) =>
    if client_set = ∅ then cascadeDelete ∅ subscriptions (Topic.fromStr topic_str).nodeList
    else .ok subscriptions
  | .error e => .error e

def unsubscribeTopics (client_id : Str) :
    Rdd ClientSet → List Str → Except Exc (Rdd ClientSet)
  | subscriptions, [] => .ok subscriptions
  | subscriptions, topic_str :: topics => do
    unsubscribeTopics client_id (← unsubscribeTopic subscriptions client_id topic_str) topics

def State.unsubscribe (s : State) (client : Client) (topics : List Str) : Except Exc State :=
  (unsubscribeTopics client.id s.subscriptions topics).map fun subscriptions =>
    { s with subscriptions := subscriptions }

/-! ### What sending does -/

lemma topicStr_split (t : Str) : topicStr (split t) = t := by
  obtain ⟨n, ns, h⟩ := List.exists_cons_of_ne_nil (split_ne_nil t)
  have hj := join_split t
  rw [h] at hj ⊢
  exact hj

@[simp] lemma queueMessage_self (s : State) (c : Client) (m : OutgoingMessage) :
    (s.queueMessage c m).queues c = s.queues c ++ [m] := by simp [State.queueMessage]

lemma queueMessage_ne (s : State) {c c' : Client} (m : OutgoingMessage) (h : c' ≠ c) :
    (s.queueMessage c m).queues c' = s.queues c' := by
  simp [State.queueMessage, Function.update_of_ne h]

/-- What a message adds to the queue of a client: itself with the client's qos, if the client
is the one connected under its id. -/
def deliveredTo (s : State) (client : Client) (topic : Str) (data : Payload)
    (l : List (Str × ℕ)) : List OutgoingMessage :=
  if s.clients.lookup client.id = some client.conn then
    (l.filter fun e => e.1 = client.id).map fun e => ⟨topic, e.2, .payload data⟩
  else []

lemma sendTo_spec (s : State) (topic : Str) (data : Payload) (l : List (Str × ℕ)) :
    ∃ queues, s.sendTo topic data l = { s with queues := queues } ∧
      ∀ c, queues c = s.queues c ++ deliveredTo s c topic data l := by
  induction l generalizing s with
  | nil => exact ⟨s.queues, rfl, fun c => by simp [deliveredTo]⟩
  | cons e l ih =>
    obtain ⟨client_id, qos⟩ := e
    cases hl : s.clients.lookup client_id with
    | none =>
      obtain ⟨queues, hq, hc⟩ := ih s
      refine ⟨queues, by simp [State.sendTo, hl, hq], fun c => ?_⟩
      rw [hc, deliveredTo, deliveredTo]
      by_cases h : s.clients.lookup c.id = some c.conn
      · have : client_id ≠ c.id := fun e => by rw [e, h] at hl; cases hl
        simp [h, this]
      · simp [h]
    | some conn =>
      obtain ⟨queues, hq, hc⟩ := ih (s.queueMessage ⟨client_id, conn⟩ ⟨topic, qos, .payload data⟩)
      refine ⟨queues, by rw [State.sendTo, hl]; exact hq, fun c => ?_⟩
      have hcl : (s.queueMessage ⟨client_id, conn⟩ ⟨topic, qos, .payload data⟩).clients =
          s.clients := rfl
      rw [hc, deliveredTo, deliveredTo, hcl]
      by_cases hcc : c = ⟨client_id, conn⟩
      · subst hcc
        simp [hl]
      · rw [queueMessage_ne _ _ hcc]
        by_cases h : s.clients.lookup c.id = some c.conn
        · have : client_id ≠ c.id := fun e => hcc (by
            rw [← e, hl, Option.some.injEq] at h
            rw [e, h])
          simp [h, this]
        · simp [h]

/-- The messages for a client among those to be sent. -/
def mailFor (s : State) (client : Client) (ms : List Message) : List OutgoingMessage :=
  ms.flatMap fun m => match m.branch with
    | .clients cs => deliveredTo s client (topicStr m.base) m.data (clientItems cs)
    | .qos _ => []

/-- What sending messages does when each of them is for clients. -/
lemma sendAll_spec (s : State) {ms : List Message} (h : ∀ m ∈ ms, ∃ cs, m.branch = .clients cs) :
    ∃ queues, s.sendAll ms = ({ s with queues := queues }, none) ∧
      ∀ c, queues c = s.queues c ++ mailFor s c ms := by
  induction ms generalizing s with
  | nil => exact ⟨s.queues, rfl, fun c => by simp [mailFor]⟩
  | cons m ms ih =>
    obtain ⟨cs, hcs⟩ := h m List.mem_cons_self
    obtain ⟨q₁, h₁, hc₁⟩ := sendTo_spec s (topicStr m.base) m.data (clientItems cs)
    obtain ⟨q₂, h₂, hc₂⟩ := ih { s with queues := q₁ } fun m hm => h m (List.mem_cons_of_mem _ hm)
    refine ⟨q₂, by simp [State.sendAll, hcs, h₁, h₂], fun c => ?_⟩
    rw [hc₂]
    simp only [hc₁, mailFor, List.flatMap_cons, hcs, List.append_assoc]
    rfl

/-- Sending messages queues a first part of them: all, or those before one that is for no
clients. -/
lemma sendAll_sent (s : State) (ms : List Message) :
    ∃ sent queues, sent <+: ms ∧ (s.sendAll ms).1 = { s with queues := queues } ∧
      ∀ c, queues c = s.queues c ++ mailFor s c sent := by
  induction ms generalizing s with
  | nil => exact ⟨[], s.queues, List.nil_prefix, rfl, fun c => by simp [mailFor]⟩
  | cons m ms ih =>
    cases hm : m.branch with
    | qos n => exact ⟨[], s.queues, List.nil_prefix, by simp [State.sendAll, hm],
        fun c => by simp [mailFor]⟩
    | clients cs =>
      obtain ⟨q, hq, hqc⟩ := sendTo_spec s (topicStr m.base) m.data (clientItems cs)
      obtain ⟨sent, queues, hsent, hqueues, hmail⟩ := ih { s with queues := q }
      refine ⟨m :: sent, queues, (List.prefix_cons_inj m).mpr hsent, ?_, fun c => ?_⟩
      · simp only [State.sendAll, hm, hq, hqueues]
      · rw [hmail]
        simp only [hqc, mailFor, List.flatMap_cons, hm, List.append_assoc]
        rfl

/-- A turn of the main loop takes the first batch off the queue and queues messages. -/
lemma mainLoop_cases {s s' : State} (h : s.mainLoop = some s') :
    ∃ rows queue queues, s.broadcastQueue = rows :: queue ∧
      s' = { s with broadcastQueue := queue, queues := queues } := by
  unfold State.mainLoop at h
  split at h
  case h_1 => cases h
  case h_2 rows queue hqueue =>
    refine ⟨rows, queue, ?_⟩
    dsimp only at h
    split_ifs at h
    · cases h
      exact ⟨s.queues, hqueue, rfl⟩
    · obtain rfl := Option.some.inj h
      unfold State.processOutgoingRows
      split
      · obtain ⟨-, queues, -, hqueues, -⟩ := sendAll_sent { s with broadcastQueue := queue } _
        exact ⟨queues, hqueue, hqueues⟩
      · exact ⟨s.queues, hqueue, rfl⟩

lemma exists_mainLoop {s : State} {rows : List Row} {queue : List (List Row)}
    (h : s.broadcastQueue = rows :: queue) : ∃ s', s.mainLoop = some s' := by
  simp only [State.mainLoop, h]
  split_ifs <;> exact ⟨_, rfl⟩

lemma filter_clientItems (cs : ClientSet) (id : Str) :
    (clientItems cs).filter (fun e => e.1 = id) =
      ((cs.lookup id).map fun q => (id, q)).toList := by
  obtain ⟨l, hl⟩ := cs
  change ((l.map fun e => (e.1, e.2)).filter fun e => e.1 = id) =
    ((l.dlookup id).map fun q => (id, q)).toList
  induction l with
  | nil => rfl
  | cons e l ih =>
    have ih := ih (List.nodupKeys_of_nodupKeys_cons hl)
    by_cases he : e.1 = id
    · have hno : l.dlookup id = none := List.dlookup_eq_none.mpr
        (he ▸ List.notMem_keys_of_nodupKeys_cons hl)
      rw [hno] at ih
      obtain ⟨k, q⟩ := e
      obtain rfl : k = id := he
      simpa [List.dlookup_cons_eq] using ih
    · rw [List.map_cons, List.filter_cons_of_neg (by simpa using he), ih,
        List.dlookup_cons_ne _ _ (Ne.symm he)]

/-- What a message says to a client. -/
def mailOf (id : Str) (m : Message) : Option OutgoingMessage :=
  match m.branch with
  | .clients cs => (cs.lookup id).map fun q => ⟨topicStr m.base, q, .payload m.data⟩
  | .qos _ => none

lemma mailFor_eq (s : State) (client : Client) (ms : List Message) :
    mailFor s client ms =
      if s.clients.lookup client.id = some client.conn then ms.filterMap (mailOf client.id)
      else [] := by
  induction ms with
  | nil => simp [mailFor]
  | cons m ms ih =>
    rw [mailFor, List.flatMap_cons, ← mailFor, ih, List.filterMap_cons]
    cases hb : m.branch with
    | qos n => simp [mailOf, hb]
    | clients cs =>
      simp only [mailOf, hb, deliveredTo]
      split_ifs with hc
      · rw [filter_clientItems]
        cases cs.lookup client.id <;> simp
      · rfl

end MoteBroker.Broker

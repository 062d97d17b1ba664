import Mathlib.Data.Finset.Basic
import MoteBroker.Answerable
import MoteBroker.Framing
import MoteBroker.Subscriptions

/-!
`handle_subscribe` and `handle_unsubscribe`: what a SUBSCRIBE or UNSUBSCRIBE packet does to the
broker and to the handler's own record of its subscriptions, and how it is answered.
-/

namespace MoteBroker.Requests

open NestedDict MoteBroker.Topics MoteBroker.RecursiveDefaultDict MoteBroker.TreeItems
open ByteReader MoteBroker.Streams MoteBroker.PacketTypes MoteBroker.Packets
open MoteBroker.CreateMessages MoteBroker.Broker MoteBroker.Subscriptions MoteBroker.Answerable

/-! ### Packets -/

structure SubscribePayload where
  topic : Str
  qos : Fin 256
  deriving DecidableEq, Repr

structure SubscribePacket where
  id : Fin 65536
  requests : List SubscribePayload
  /-- A packet is longer than its requests are many. -/
  fits : requests.length + 2 < 2 ^ 28

structure UnsubscribePacket where
  id : Fin 65536
  topics : List Str

/-- The packet that `handle_unsubscribe` writes. -/
def unsubscribeAcknowledgePacket (id : ℕ) : Packet where
  cls := .unsubscribeAcknowledge
  flags := .int 0
  length := 0
  kwargs
    | .id => some (.value (.int id))
    | _ => none

/-- The fields of a request, as they are read. -/
def SubscribePayload.kwargs (request : SubscribePayload) : List (FieldName × Value) :=
  [(.topic, .str request.topic), (.qos, .int request.qos)]

/-- The packet that has been read is this one. -/
def SubscribePacket.ReadAs (packet : SubscribePacket) (p : Packet) : Prop :=
  p.cls = .subscribe ∧ p.kwargs .id = some (.value (.int packet.id)) ∧
    p.kwargs .requests = some (.payloads (packet.requests.map SubscribePayload.kwargs))

lemma readPayload_request {length left : ℤ} {n : ℕ} {kwargs : List (FieldName × Value)}
    {bs rest : Bytes}
    (h : (readPayload [(.topic, .dynamicStr), (.qos, .staticInt 1)] length).run bs =
      .ok ((kwargs, n, left), rest)) : ∃ request : SubscribePayload, kwargs = request.kwargs := by
  obtain ⟨⟨v, k⟩, mid, hstr, h⟩ := run_bind_ok h
  obtain ⟨⟨topic, k'⟩, mid', -, hpure⟩ := run_bind_ok hstr
  cases hpure
  obtain ⟨⟨tail, k, left'⟩, mid'', hqos, hpure⟩ := run_bind_ok h
  cases hpure
  obtain ⟨⟨v, k⟩, mid, hint, h⟩ := run_bind_ok hqos
  obtain ⟨qos, mid', hread, hpure⟩ := run_bind_ok hint
  cases hpure
  cases h
  exact ⟨⟨topic, qos, Framing.readInt_lt hread⟩, rfl⟩

lemma readPayloads_requests {turns n : ℕ} {length left : ℤ} {bs rest : Bytes}
    {ps : List (List (FieldName × Value))}
    (h : (readPayloads [(.topic, .dynamicStr), (.qos, .staticInt 1)] turns length).run bs =
      .ok ((ps, n, left), rest)) :
    ∃ requests : List SubscribePayload,
      ps = requests.map SubscribePayload.kwargs ∧ requests.length ≤ turns := by
  induction turns generalizing length bs ps n left with
  | zero => cases h; exact ⟨[], rfl, le_refl _⟩
  | succ turns ih =>
    unfold readPayloads at h
    split_ifs at h
    · obtain ⟨⟨item, k, l⟩, mid, hitem, h⟩ := run_bind_ok h
      obtain ⟨⟨items, k', l'⟩, mid', hitems, hpure⟩ := run_bind_ok h
      cases hpure
      obtain ⟨request, rfl⟩ := readPayload_request hitem
      obtain ⟨requests, rfl, hle⟩ := ih hitems
      exact ⟨request :: requests, rfl, Nat.succ_le_succ hle⟩
    · cases h
      exact ⟨[], rfl, Nat.zero_le _⟩

/-- **Every SUBSCRIBE packet that is read** has an id of two bytes and requests whose qos is a byte,
not more of them than fit a packet. -/
theorem read_subscribe {bs rest : Bytes} {p : Packet} (h : readNextPacket.run bs = .ok (p, rest))
    (hcls : p.cls = .subscribe) : ∃ packet : SubscribePacket, packet.ReadAs p := by
  obtain ⟨⟨msgType, flags⟩, tail, -, h⟩ := run_bind_ok h
  obtain ⟨cls, tail', -, h⟩ := run_bind_ok h
  rw [Framing.read_some] at h
  obtain ⟨length, body, hlength, h⟩ := run_bind_ok h
  obtain ⟨⟨kwargs, n⟩, left, hpayload, hpure⟩ := run_bind_ok h
  cases hpure
  obtain rfl : cls = .subscribe := hcls
  have hlt := RemainingLength.decodePacketLength_lt hlength
  -- the id, and then the requests in what is left of the length
  obtain ⟨f, k, l, mid, _, hid, h⟩ := Framing.readFields_cons rfl hpayload
  obtain ⟨f', k', l', mid', _, hrequests, h⟩ := Framing.readFields_cons rfl h
  cases h
  obtain ⟨⟨v, m⟩, _, hint, hpure⟩ := run_bind_ok hid
  cases hpure
  obtain ⟨id, _, hint, hpure⟩ := run_bind_ok hint
  cases hpure
  obtain ⟨⟨ps, m, l⟩, _, hps, hpure⟩ := run_bind_ok hrequests
  cases hpure
  obtain ⟨requests, rfl, hle⟩ := readPayloads_requests hps
  exact ⟨⟨⟨id, Framing.readInt_lt hint⟩, requests, by omega⟩, rfl, rfl, rfl⟩

/-! ### The handler -/

structure Handler where
  client : Client
  broker : State
  /-- `self.subscriptions`. -/
  subscriptions : Finset Str
  /-- The packets that have been written. -/
  written : List Bytes

/-- `packet.write(self)`. -/
def Handler.write (h : Handler) (packet : Packet) : Except Exc Handler :=
  packet.toBytes.map fun bs => { h with written := h.written ++ [bs] }

/-- One request of `handle_subscribe`, with its code. -/
def Handler.serve (h : Handler) (request : SubscribePayload) : Except Exc (Handler × ℕ) := do
  let (topic_str, tree) ← requestTopic request.topic
  -- `Broker.subscribe` returns `True` when it returns
  let (broker, accepted) ←
    (h.broker.subscribe h.client topic_str request.qos tree).map fun broker => (broker, true)
  if accepted then
    return ({ h with
      broker := broker
      subscriptions := insert topic_str h.subscriptions }, request.qos)
  else return ({ h with broker := broker }, 0x80)

/-- The loop of `handle_subscribe`. What has been done before an exception stays. -/
def Handler.serveAll (h : Handler) : List SubscribePayload → Handler × Except Exc (List ℕ)
  | [] => (h, .ok [])
  | request :: requests =>
    match h.serve request with
    | .error e => (h, .error e)
    | .ok (h, code) =>
      let (h, codes) := h.serveAll requests
      (h, codes.map (code :: ·))

def Handler.handleSubscribe (h : Handler) (packet : SubscribePacket) : Handler × Option Exc :=
  match h.serveAll packet.requests with
  | (h, .error e) => (h, some e)
  | (h, .ok codes) =>
    match h.write (subscribeAcknowledgePacket packet.id codes) with
    | .ok h => (h, none)
    | .error e => (h, some e)

/-- The loop of `handle_unsubscribe`. -/
def Handler.release (h : Handler) (id : ℕ) : List Str → Handler × Option Exc
  | [] => (h, none)
  | topic :: topics =>
    match h.broker.unsubscribe h.client [topic] with
    | .error e => (h, some e)
    | .ok broker =>
      let h := { h with broker := broker, subscriptions := h.subscriptions.erase topic }
      match h.write (unsubscribeAcknowledgePacket id) with
      | .ok h => h.release id topics
      | .error e => (h, some e)

def Handler.handleUnsubscribe (h : Handler) (packet : UnsubscribePacket) : Handler × Option Exc :=
  h.release packet.id packet.topics

/-! ### One request -/

/-- The filter that a topic of a SUBSCRIBE packet asks for. -/
def filterOf : Str → Str
  | [] => []
  | c :: topic => if c = topicSep then topic else c :: topic

/-- What is registered for a client and a filter. -/
def entry (s : State) (id filter : Str) : Option ℕ :=
  (valueAt s.subscriptions (split filter)).bind fun cs => cs.lookup id

/-- `Broker.subscribe` would return. -/
def Handler.CanServe (h : Handler) (request : SubscribePayload) : Prop :=
  ∃ topic_str tree broker, requestTopic request.topic = .ok (topic_str, tree) ∧
    h.broker.subscribe h.client topic_str request.qos tree = .ok broker

/-- A request that can be served: its topic is not empty and not for a table, and retained messages
that it asks for can be read. -/
def Servable (tree : Rdd Payload) (request : SubscribePayload) : Prop :=
  request.topic ≠ [] ∧ request.topic.head? ≠ some tableFlag ∧
    (request.topic.head? = some topicSep → Readable (split (filterOf request.topic)) tree)

/-- The retained tree and the subscriptions are as the broker keeps them. -/
structure Sound (s : State) (m : Registry) : Prop where
  shape : Shape s.treeManager.tree
  distinct : s.treeManager.tree.Distinct
  store : Represents s.subscriptions m

section
variable {h h' : Handler} {m : Registry} {request : SubscribePayload} {code : ℕ}

lemma requestTopic_ok {topic topic_str : Str} {tree : Bool}
    (ht : requestTopic topic = .ok (topic_str, tree)) :
    topic_str = filterOf topic ∧ topic ≠ [] ∧ (tree = true ↔ topic.head? = some topicSep) := by
  cases topic with
  | nil => cases ht
  | cons c topic =>
    by_cases hc : c = topicSep
    · simp only [requestTopic, if_pos hc] at ht
      cases ht
      simp [filterOf, hc]
    · simp only [requestTopic, if_neg hc] at ht
      cases ht
      simp [filterOf, hc]

lemma filterOf_of_ne {topic : Str} (h : topic.head? ≠ some topicSep) : filterOf topic = topic := by
  cases topic with
  | nil => rfl
  | cons c topic => exact if_neg fun hc => h (congrArg some hc)

lemma exists_requestTopic {topic : Str} (ht : topic ≠ []) :
    ∃ tree, requestTopic topic = .ok (filterOf topic, tree) := by
  cases topic with
  | nil => exact absurd rfl ht
  | cons c topic =>
    by_cases hc : c = topicSep
    · exact ⟨true, by simp [requestTopic, filterOf, hc]⟩
    · exact ⟨false, by simp [requestTopic, filterOf, hc]⟩

/-- A request that is served is registered, and gets its qos. -/
lemma serve_ok (hs : h.serve request = .ok (h', code)) :
    code = request.qos ∧ ∃ tree broker,
      requestTopic request.topic = .ok (filterOf request.topic, tree) ∧
      h.broker.subscribe h.client (filterOf request.topic) request.qos tree = .ok broker ∧
      h' = { h with
        broker := broker
        subscriptions := insert (filterOf request.topic) h.subscriptions } := by
  obtain ⟨⟨topic_str, tree⟩, htopic, hs⟩ := ok_of_bind hs
  obtain ⟨rfl, -, -⟩ := requestTopic_ok htopic
  dsimp only at hs
  cases hsub : h.broker.subscribe h.client (filterOf request.topic) request.qos tree with
  | error e => rw [hsub] at hs; cases hs
  | ok broker =>
    rw [hsub] at hs
    cases hs
    exact ⟨rfl, tree, broker, htopic, hsub, rfl⟩

/-- The code refuses no request: it serves it, or raises. -/
lemma serve_iff : (∃ r, h.serve request = .ok r) ↔ h.CanServe request := by
  refine ⟨?_, ?_⟩
  · rintro ⟨⟨h', code⟩, hs⟩
    obtain ⟨-, tree, broker, htopic, hsub, -⟩ := serve_ok hs
    exact ⟨_, tree, broker, htopic, hsub⟩
  · rintro ⟨topic_str, tree, broker, htopic, hsub⟩
    unfold Handler.serve
    rw [htopic, ok_bind]
    dsimp only
    rw [hsub]
    exact ⟨_, rfl⟩

/-- The second half of a subscription does not raise. -/
lemma Sound.register {s : State} (hs : Sound s m) (client : Client) (topic_str : Str) (qos : ℕ) :
    ∃ S, (∀ s₁ : State, s₁.subscriptions = s.subscriptions →
        s₁.register client topic_str qos = .ok { s₁ with subscriptions := S }) ∧
      ∀ queues, Sound { s with queues := queues, subscriptions := S }
        (Function.update m (split topic_str, client.id) (some qos)) := by
  obtain ⟨S, hS, hrep⟩ := hs.store.register client.id topic_str qos
  refine ⟨S, fun s₁ h₁ => ?_, fun _ => ⟨hs.shape, hs.distinct, hrep⟩⟩
  unfold State.register
  rw [h₁, hS]
  rfl

/-- What `Broker.subscribe` does, and when it returns. -/
lemma Sound.subscribe {s : State} (hs : Sound s m) (client : Client) (topic_str : Str) (qos : ℕ)
    (tree : Bool) :
    ((∃ s', s.subscribe client topic_str qos tree = .ok s') ↔
      if tree then Readable (split topic_str) s.treeManager.tree
      else (split topic_str).head? ≠ some [] ∧ ¬ForTable (split topic_str)) ∧
    ∀ s', s.subscribe client topic_str qos tree = .ok s' →
      s'.treeManager = s.treeManager ∧
      Sound s' (Function.update m (split topic_str, client.id) (some qos)) := by
  -- only the first half may raise, and it registers nothing
  obtain ⟨S, hregister, hafter⟩ := hs.register client topic_str qos
  cases tree with
  | true =>
    have hget := getMessage_ok_iff hs.shape hs.distinct topic_str qos
    simp only [if_true]
    rw [← hget]
    cases hm : s.treeManager.getMessage (Topic.fromStr topic_str) qos with
    | error e =>
      have herr : s.subscribe client topic_str qos true = .error e := by
        simp [State.subscribe, State.sendRetained, hm, Except.map]
      rw [herr]
      refine ⟨by simp, fun s' hs' => ?_⟩
      cases hs'
    | ok message =>
      have hok : s.subscribe client topic_str qos true =
          .ok { s.queueMessage client message with subscriptions := S } := by
        simp only [State.subscribe, State.sendRetained, if_true, hm, Except.map, ok_bind]
        exact hregister _ rfl
      rw [hok]
      refine ⟨by simp, fun s' hs' => ?_⟩
      cases hs'
      exact ⟨rfl, hafter _⟩
  | false =>
    simp only [Bool.false_eq_true, if_false]
    have hsend := sendRetained_false s client topic_str qos
    by_cases hserved : (split topic_str).head? ≠ some [] ∧ ¬ForTable (split topic_str)
    · rw [if_neg hserved.1, if_neg hserved.2] at hsend
      have hok : s.subscribe client topic_str qos false =
          .ok { s with subscriptions := S } := by
        rw [State.subscribe, hsend, ok_bind]
        exact hregister _ rfl
      rw [hok]
      refine ⟨by simp [hserved], fun s' hs' => ?_⟩
      cases hs'
      exact ⟨rfl, hafter s.queues⟩
    · obtain ⟨e, he⟩ : ∃ e, s.sendRetained client topic_str qos false = .error e := by
        rw [hsend]
        split_ifs with hhead htable
        · exact ⟨_, rfl⟩
        · exact ⟨_, rfl⟩
        · exact absurd ⟨hhead, htable⟩ hserved
      rw [State.subscribe, he, error_bind]
      refine ⟨by simpa using hserved, fun s' hs' => ?_⟩
      cases hs'

/-- **When a request can be served**, by its topic and the retained tree. -/
lemma canServe_iff (hs : Sound h.broker m) :
    h.CanServe request ↔ Servable h.broker.treeManager.tree request := by
  have hsub := fun tree => (hs.subscribe h.client (filterOf request.topic) request.qos tree).1
  refine ⟨?_, ?_⟩
  · rintro ⟨topic_str, tree, broker, htopic, hok⟩
    obtain ⟨rfl, hne, htree⟩ := requestTopic_ok htopic
    have hserved := (hsub tree).mp ⟨broker, hok⟩
    refine ⟨hne, fun hflag => ?_, fun hhead => ?_⟩
    · have hsep : request.topic.head? ≠ some topicSep := by rw [hflag]; decide
      rw [if_neg (mt htree.mp hsep), filterOf_of_ne hsep] at hserved
      exact hserved.2 ((forTable_split _).mpr hflag)
    · rwa [htree.mpr hhead, if_pos rfl] at hserved
  · rintro ⟨hne, htable, hread⟩
    obtain ⟨tree, htopic⟩ := exists_requestTopic hne
    obtain ⟨-, -, htree⟩ := requestTopic_ok htopic
    obtain ⟨broker, hok⟩ : ∃ broker, h.broker.subscribe h.client (filterOf request.topic)
        request.qos tree = .ok broker := by
      rw [hsub tree]
      cases tree with
      | true => exact hread (htree.mp rfl)
      | false =>
        have hsep : request.topic.head? ≠ some topicSep := fun h => by simpa using htree.mpr h
        rw [filterOf_of_ne hsep]
        refine ⟨fun hhead => ?_, mt (forTable_split _).mp htable⟩
        obtain ⟨c, topic, ht⟩ := List.exists_cons_of_ne_nil hne
        rw [ht] at hhead hsep
        exact head_split_cons (fun hc => hsep (congrArg some hc)) topic hhead
    exact ⟨_, tree, broker, htopic, hok⟩

/-! ### The loop over the requests -/

/-- What is registered after requests that are served. -/
def registryAfter (m : Registry) (id : Str) (requests : List SubscribePayload) : Registry :=
  requests.foldl (fun m request =>
    Function.update m (split (filterOf request.topic), id) (some (request.qos : ℕ))) m

lemma registryAfter_ne_none {id : Str} {requests : List SubscribePayload} {k : List Str × Str}
    (hk : m k ≠ none ∨ ∃ request ∈ requests, k = (split (filterOf request.topic), id)) :
    registryAfter m id requests k ≠ none := by
  induction requests generalizing m with
  | nil => exact hk.resolve_right (by simp)
  | cons request requests ih =>
    refine ih ?_
    dsimp only
    by_cases heq : k = (split (filterOf request.topic), id)
    · left
      rw [heq, Function.update_self]
      exact Option.some_ne_none _
    · rw [Function.update_of_ne heq]
      refine hk.imp_right fun ⟨r, hr, hkr⟩ => ?_
      rcases List.mem_cons.mp hr with rfl | hr
      · exact absurd hkr heq
      · exact ⟨r, hr, hkr⟩

/-- Requests that can be served are served, one after the other. -/
lemma Sound.serveAll (hs : Sound h.broker m) {requests : List SubscribePayload}
    (hserve : ∀ request ∈ requests, Servable h.broker.treeManager.tree request) :
    ∃ h', h.serveAll requests = (h', .ok (requests.map fun request => (request.qos : ℕ))) ∧
      h'.written = h.written ∧ h'.client = h.client ∧
      Sound h'.broker (registryAfter m h.client.id requests) := by
  induction requests generalizing h m with
  | nil => exact ⟨h, rfl, rfl, rfl, hs⟩
  | cons request requests ih =>
    obtain ⟨⟨h₁, code⟩, hone⟩ :=
      serve_iff.mpr ((canServe_iff hs).mpr (hserve request List.mem_cons_self))
    obtain ⟨rfl, tree, broker, -, hsub, rfl⟩ := serve_ok hone
    obtain ⟨htree, hs₁⟩ := (hs.subscribe _ _ _ _).2 broker hsub
    obtain ⟨h', hall, hwritten, hclient, hs'⟩ := ih
      (h := { h with
        broker := broker
        subscriptions := insert (filterOf request.topic) h.subscriptions }) hs₁
      fun r hr => by
        rw [show _ = _ from htree]
        exact hserve r (List.mem_cons_of_mem _ hr)
    refine ⟨h', ?_, hwritten, hclient, hs'⟩
    unfold Handler.serveAll
    rw [hone]
    dsimp only
    rw [hall]
    rfl

/-- A request that cannot be served ends the loop, and nothing is written. -/
lemma Sound.serveAll_error (hs : Sound h.broker m) {requests : List SubscribePayload}
    (hserve : ¬∀ request ∈ requests, Servable h.broker.treeManager.tree request) :
    ∃ h' e, h.serveAll requests = (h', .error e) ∧ h'.written = h.written := by
  induction requests generalizing h m with
  | nil => exact absurd (fun _ hr => (nomatch hr)) hserve
  | cons request requests ih =>
    unfold Handler.serveAll
    cases hone : h.serve request with
    | error e => exact ⟨h, e, rfl, rfl⟩
    | ok r =>
      obtain ⟨h₁, code⟩ := r
      have hcan := (canServe_iff hs).mp (serve_iff.mp ⟨_, hone⟩)
      obtain ⟨rfl, tree, broker, -, hsub, rfl⟩ := serve_ok hone
      obtain ⟨htree, hs₁⟩ := (hs.subscribe _ _ _ _).2 broker hsub
      obtain ⟨h', e, hall, hwritten⟩ := ih
        (h := { h with
          broker := broker
          subscriptions := insert (filterOf request.topic) h.subscriptions }) hs₁
        fun hrest => hserve fun r hr => by
          rcases List.mem_cons.mp hr with rfl | hr
          · exact hcan
          · have := hrest r hr
            rwa [show _ = _ from htree] at this
      refine ⟨h', e, ?_, hwritten⟩
      dsimp only
      rw [hall]
      rfl

end

/-! ### The answer -/

/-- One SUBACK has been written, with the id of the packet and a code for each request: the code is
the qos of the request just when its filter is registered, and `0x80` just when it could not be
served, which registers nothing. -/
structure Answered (h : Handler) (packet : SubscribePacket) (h' : Handler) : Prop where
  written : ∃ codes bs, (subscribeAcknowledgePacket packet.id codes).toBytes = .ok bs ∧
    h'.written = h.written ++ [bs] ∧
    List.Forall₂ (fun request code =>
      (code = (request.qos : ℕ) ↔ entry h'.broker h.client.id (filterOf request.topic) ≠ none) ∧
      (code = 0x80 ↔ ¬h.CanServe request)) packet.requests codes
  refused : ∀ request ∈ packet.requests, ¬h.CanServe request →
    entry h'.broker h.client.id (filterOf request.topic) ≠ none →
    entry h.broker h.client.id (filterOf request.topic) ≠ none ∨
      ∃ other ∈ packet.requests, h.CanServe other ∧ filterOf other.topic = filterOf request.topic

lemma exists_suback (packet : SubscribePacket) :
    ∃ bs, (subscribeAcknowledgePacket packet.id
      (packet.requests.map fun request => (request.qos : ℕ))).toBytes = .ok bs := by
  have hcodes : ∀ code ∈ packet.requests.map (fun request => (request.qos : ℕ)), code < 256 := by
    intro code hcode
    obtain ⟨request, -, rfl⟩ := List.mem_map.mp hcode
    exact request.qos.isLt
  obtain ⟨bs, -, hbs, -⟩ := (subscribeAcknowledgePacket_fits packet.id.isLt hcodes
    (by simpa using packet.fits)).reads
  exact ⟨bs, hbs⟩

/-- **When a SUBSCRIBE packet is answered faithfully**: when each of its requests can be served, and
none asks for the qos that means failure. -/
theorem answered_iff {h : Handler} {m : Registry} (hs : Sound h.broker m)
    (packet : SubscribePacket) :
    Answered h packet (h.handleSubscribe packet).1 ↔
      ∀ request ∈ packet.requests,
        Servable h.broker.treeManager.tree request ∧ (request.qos : ℕ) ≠ 0x80 := by
  have hcan : ∀ request, h.CanServe request ↔ Servable h.broker.treeManager.tree request :=
    fun request => canServe_iff hs
  by_cases hserve : ∀ request ∈ packet.requests, Servable h.broker.treeManager.tree request
  · obtain ⟨h', hall, hwritten, hclient, hs'⟩ := hs.serveAll hserve
    obtain ⟨bs, hbs⟩ := exists_suback packet
    have hhandle : (h.handleSubscribe packet).1 = { h' with written := h.written ++ [bs] } := by
      unfold Handler.handleSubscribe Handler.write
      rw [hall]
      dsimp only
      rw [hbs, ← hwritten]
      rfl
    have hentry : ∀ request ∈ packet.requests,
        entry h'.broker h.client.id (filterOf request.topic) ≠ none := by
      intro request hr
      unfold entry
      rw [hs'.store.lookup]
      exact registryAfter_ne_none (.inr ⟨request, hr, rfl⟩)
    rw [hhandle]
    refine ⟨?_, ?_⟩
    · rintro ⟨⟨codes, bs', -, -, hcodes⟩, -⟩ request hr
      refine ⟨hserve request hr, fun hqos => ?_⟩
      obtain ⟨i, hi, rfl⟩ := List.getElem_of_mem hr
      obtain ⟨hcode, hfail⟩ := hcodes.get hi (hcodes.length_eq ▸ hi)
      exact hfail.mp ((hcode.mpr (hentry _ hr)).trans hqos) ((hcan _).mpr (hserve _ hr))
    · intro hok
      refine ⟨⟨_, bs, hbs, rfl, ?_⟩, fun request hr hno => ?_⟩
      · rw [List.forall₂_map_right_iff, List.forall₂_same]
        intro request hr
        refine ⟨iff_of_true rfl (hentry request hr), iff_of_false (hok request hr).2 ?_⟩
        exact not_not.mpr ((hcan request).mpr (hserve request hr))
      · exact absurd ((hcan request).mpr (hserve request hr)) hno
  · -- the exception leaves no answer
    obtain ⟨h', e, hall, hwritten⟩ := hs.serveAll_error hserve
    have hhandle : (h.handleSubscribe packet).1 = h' := by
      unfold Handler.handleSubscribe
      rw [hall]
    rw [hhandle]
    refine iff_of_false (fun hans => ?_) fun hok => hserve fun request hr => (hok request hr).1
    obtain ⟨codes, bs, -, heq, -⟩ := hans.written
    rw [hwritten] at heq
    exact absurd heq (by simp)

/-- A picture is kept in the hall. -/
def hall : Rdd Payload :=
  .node "hall".toList (.node "picture".toList (.leaf leafKey (some [0xFF]) .nil) .nil) .nil

def app (tree : Rdd Payload) : Handler where
  client := ⟨"app".toList, 1⟩
  broker := { initial with treeManager := ⟨tree, []⟩ }
  subscriptions := ∅
  written := []

def subscription (topic : Str) (qos : Fin 256) : SubscribePacket := ⟨7, [⟨topic, qos⟩], by simp⟩

lemma sound_app {tree : Rdd Payload} (hs : Shape tree) (hd : tree.Distinct) :
    Sound (app tree).broker fun _ => none := ⟨hs, hd, represents_nil⟩

theorem answered_picture :
    Answered (app hall) (subscription "/hall/picture".toList 1)
      ((app hall).handleSubscribe (subscription "/hall/picture".toList 1)).1 := by
  refine (answered_iff (sound_app (by decide) (by decide)) _).mpr fun request hr => ?_
  obtain rfl := List.mem_singleton.mp hr
  refine ⟨⟨by decide, by decide, fun _ => ⟨?_, fun hwild => absurd (by decide) hwild⟩⟩, by decide⟩
  rintro ⟨P, rest, p, hF, -⟩
  have hmem : everythingCard ∈ split "hall/picture".toList := by
    rw [show split "hall/picture".toList = _ from hF]
    simp
  exact absurd hmem (by decide)

/-- The picture is no text, so that the request for all that is kept in the hall has no answer. -/
theorem hall_not_answered :
    ¬Answered (app hall) (subscription "/hall/+".toList 1)
      ((app hall).handleSubscribe (subscription "/hall/+".toList 1)).1 := by
  intro hans
  obtain ⟨codes, bs, -, hwritten, -⟩ := hans.written
  have hnone : ((app hall).handleSubscribe (subscription "/hall/+".toList 1)).1.written = [] := by
    decide
  rw [hnone] at hwritten
  cases hwritten

end MoteBroker.Requests

import MoteBroker.Requests

/-!
Unsubscribing: the subscription tree and the handler's own record of its subscriptions over runs of
SUBSCRIBE and UNSUBSCRIBE packets, and when the second undoes the first.
-/

namespace MoteBroker.Unsubscriptions

open NestedDict MoteBroker.Topics MoteBroker.RecursiveDefaultDict MoteBroker.Packets
open MoteBroker.CreateMessages MoteBroker.Broker MoteBroker.Subscriptions MoteBroker.Requests

/-! ### Runs of packets -/

inductive ClientPacket
  | subscribe (packet : SubscribePacket)
  | unsubscribe (packet : UnsubscribePacket)

/-- A packet is handled in a thread of its own, which an exception ends. -/
def handlePacket (h : Handler) : ClientPacket → Handler
  | .subscribe packet => (h.handleSubscribe packet).1
  | .unsubscribe packet => (h.handleUnsubscribe packet).1

def handleAll (h : Handler) (packets : List ClientPacket) : Handler :=
  packets.foldl handlePacket h

/-- The tree represents the registry, where the client is registered for all that the handler
records. -/
structure Aligned (h : Handler) (m : Registry) : Prop where
  store : Represents h.broker.subscriptions m
  recorded : ∀ filter ∈ h.subscriptions, m (split filter, h.client.id) ≠ none

/-- What UNSUBSCRIBE has done about a topic: its filter is not registered any more nor recorded, and
all filters that no topic of the packet asks for are as before. -/
structure Undone (h h' : Handler) (topics : List Str) (topic : Str) : Prop where
  unregistered : entry h'.broker h.client.id (filterOf topic) = none
  forgotten : filterOf topic ∉ h'.subscriptions
  others : ∀ id filter, (id = h.client.id → filter ∉ topics.map filterOf) →
    entry h'.broker id filter = entry h.broker id filter
  kept : ∀ filter ∉ topics.map filterOf, filter ∈ h'.subscriptions ↔ filter ∈ h.subscriptions

/-- The filter of the topic is named by the packet as it is, or not registered; and the packet names
no registered filter that none of its topics asks for. -/
structure Names (h : Handler) (topics : List Str) (topic : Str) : Prop where
  filter : filterOf topic ∈ topics ∨ entry h.broker h.client.id (filterOf topic) = none
  only : ∀ t ∈ topics, t ∈ topics.map filterOf ∨ entry h.broker h.client.id t = none

/-- The states that the loop of `handle_unsubscribe` passes through. -/
def releaseStates (h : Handler) (id : ℕ) : List Str → List Handler
  | [] => [h]
  | topic :: topics =>
    match h.broker.unsubscribe h.client [topic] with
    | .error _ => [h]
    | .ok broker =>
      let h₁ := { h with broker := broker }
      let h₂ := { h₁ with subscriptions := h₁.subscriptions.erase topic }
      match h₂.write (unsubscribeAcknowledgePacket id) with
      | .ok h₃ => h :: h₁ :: h₂ :: releaseStates h₃ id topics
      | .error _ => [h, h₁, h₂]

/-- The client has neither an entry for the topics nor a record of them. -/
def Removed (client : Str) (topics : List Str) (h : Handler) : Prop :=
  ∀ topic ∈ topics, entry h.broker client topic = none ∧ topic ∉ h.subscriptions

/-- `handle_unsubscribe` returns and removes the topics and nothing else, and it writes one UNSUBACK
with the id of the packet, in no state before all are removed. -/
structure AcknowledgedOnce (h : Handler) (packet : UnsubscribePacket) : Prop where
  returns : (h.handleUnsubscribe packet).2 = none
  removed : Removed h.client.id packet.topics (h.handleUnsubscribe packet).1
  others : ∀ id filter, (id = h.client.id → filter ∉ packet.topics) →
    entry (h.handleUnsubscribe packet).1.broker id filter = entry h.broker id filter
  kept : ∀ filter ∉ packet.topics,
    filter ∈ (h.handleUnsubscribe packet).1.subscriptions ↔ filter ∈ h.subscriptions
  once : ∃ bs, (unsubscribeAcknowledgePacket packet.id).toBytes = .ok bs ∧
    (h.handleUnsubscribe packet).1.written = h.written ++ [bs]
  after : ∀ h' ∈ releaseStates h packet.id packet.topics, h'.written ≠ h.written →
    Removed h.client.id packet.topics h'

section
variable {h : Handler} {m : Registry}

lemma Aligned.entry (ha : Aligned h m) (id filter : Str) :
    entry h.broker id filter = m (split filter, id) := ha.store.lookup _ _

/-- Requests keep the two records aligned, whether all are served or not. -/
lemma Aligned.serveAll (ha : Aligned h m) (requests : List SubscribePayload) :
    ∃ m', Aligned (h.serveAll requests).1 m' ∧ (h.serveAll requests).1.client = h.client := by
  induction requests generalizing h m with
  | nil => exact ⟨m, ha, rfl⟩
  | cons request requests ih =>
    unfold Handler.serveAll
    cases hone : h.serve request with
    | error e => exact ⟨m, ha, rfl⟩
    | ok r =>
      obtain ⟨h₁, code⟩ := r
      obtain ⟨rfl, tree, broker, -, hsub, rfl⟩ := serve_ok hone
      refine ih (m := Function.update m (split (filterOf request.topic), h.client.id)
        (some (request.qos : ℕ))) ⟨?_, fun filter hf => ?_⟩
      · have hcall : call h.broker (.subscribe h.client (filterOf request.topic) request.qos tree) =
            .ok broker := hsub
        rcases call_spec ha.store (.subscribe h.client (filterOf request.topic) request.qos tree)
          with ⟨-, s', hs', hrep⟩ | ⟨-, e, he, -⟩
        · rw [hcall] at hs'
          cases hs'
          exact hrep
        · rw [hcall] at he
          cases he
      · by_cases heq : filter = filterOf request.topic
        · rw [heq, Function.update_self]
          exact Option.some_ne_none _
        · rw [Function.update_of_ne fun hk => heq (split_injective (congrArg Prod.fst hk))]
          exact ha.recorded filter ((Finset.mem_insert.mp hf).resolve_left heq)

lemma exists_unsuback {id : ℕ} (hid : id < 65536) :
    ∃ bs, (unsubscribeAcknowledgePacket id).toBytes = .ok bs := by
  have hpayload : fieldsToBytes (unsubscribeAcknowledgePacket id).cls
      (unsubscribeAcknowledgePacket id).flags (unsubscribeAcknowledgePacket id).kwargs
      (unsubscribeAcknowledgePacket id).cls.fields = .ok (ByteReader.toBE 2 id) := by
    simp [fieldsToBytes, PacketClass.fields, PacketClass.isEnabled, unsubscribeAcknowledgePacket,
      PacketTypes.PacketType.toBytes, PacketTypes.Basic.toBytes, Streams.pack, hid]
  have hheader : ∀ n, (unsubscribeAcknowledgePacket id).getHeaderBytes n =
      .ok (0xB0 :: Streams.lengthBytes n) := fun n => by
    have hbyte : (unsubscribeAcknowledgePacket id).cls.typeCode <<< 4 |||
        (unsubscribeAcknowledgePacket id).flags.toInt = 0xB0 := by
      simp [unsubscribeAcknowledgePacket, PacketClass.typeCode, Flags.toInt]
    unfold Packet.getHeaderBytes
    rw [hbyte, if_pos (show 0xB0 < 256 by decide)]
    rfl
  unfold Packet.toBytes
  rw [hpayload, ok_bind, hheader]
  exact ⟨_, rfl⟩

/-- The registry without the entries of a client for topics. -/
def registryWithout (m : Registry) (id : Str) (topics : List Str) : Registry := fun k =>
  if k.2 = id ∧ k.1 ∈ topics.map split then none else m k

lemma registryWithout_cons (m : Registry) (id topic : Str) (topics : List Str) :
    registryWithout (registryWithout m id [topic]) id topics =
      registryWithout m id (topic :: topics) := by
  funext k
  by_cases hid : k.2 = id
  · by_cases htopic : k.1 = split topic
    · simp [registryWithout, hid, htopic]
    · simp [registryWithout, hid, htopic]
  · simp [registryWithout, hid]

lemma registryWithout_nil (m : Registry) (id : Str) : registryWithout m id [] = m :=
  funext fun k => if_neg (by simp)

lemma registryWithout_split (m : Registry) (client id filter : Str) (topics : List Str) :
    registryWithout m client topics (split filter, id) =
      if id = client ∧ filter ∈ topics then none else m (split filter, id) := by
  have hsplit : split filter ∈ topics.map split ↔ filter ∈ topics :=
    List.mem_map_of_injective fun _ _ => split_injective
  simp only [registryWithout, hsplit]

lemma unsubscribe_one (hstore : Represents h.broker.subscriptions m) (topic : Str) :
    ∃ S, h.broker.unsubscribe h.client [topic] = .ok { h.broker with subscriptions := S } ∧
      Represents S (registryWithout m h.client.id [topic]) := by
  obtain ⟨S, hS, hrep⟩ := hstore.unsubscribeTopics h.client.id [topic]
  refine ⟨S, ?_, hrep⟩
  unfold State.unsubscribe
  rw [hS]
  rfl

/-- UNSUBSCRIBE takes the topics, as they are, from both records, with one UNSUBACK for each. -/
lemma release_spec (hstore : Represents h.broker.subscriptions m) {id : ℕ} {bs : Bytes}
    (hbs : (unsubscribeAcknowledgePacket id).toBytes = .ok bs) (topics : List Str) :
    ∃ h', h.release id topics = (h', none) ∧ h'.client = h.client ∧
      Represents h'.broker.subscriptions (registryWithout m h.client.id topics) ∧
      (∀ filter, filter ∈ h'.subscriptions ↔ filter ∈ h.subscriptions ∧ filter ∉ topics) ∧
      h'.written = h.written ++ List.replicate topics.length bs := by
  induction topics generalizing h m with
  | nil =>
    refine ⟨h, rfl, rfl, ?_, by simp, (List.append_nil _).symm⟩
    rw [registryWithout_nil]
    exact hstore
  | cons topic topics ih =>
    obtain ⟨S, hbroker, hrep⟩ := unsubscribe_one hstore topic
    obtain ⟨h', hrest, hclient, hrep', hmem, hwritten⟩ := ih
      (h := { h with
        broker := { h.broker with subscriptions := S }
        subscriptions := h.subscriptions.erase topic
        written := h.written ++ [bs] })
      (m := registryWithout m h.client.id [topic]) hrep
    refine ⟨h', ?_, hclient, ?_, fun filter => ?_, ?_⟩
    · unfold Handler.release
      rw [hbroker]
      dsimp only
      unfold Handler.write
      rw [hbs]
      exact hrest
    · rw [← registryWithout_cons]
      exact hrep'
    · rw [hmem, Finset.mem_erase, List.mem_cons, not_or]
      tauto
    · rw [hwritten, List.append_assoc, List.length_cons, List.replicate_succ]
      rfl

/-- The two records stay aligned. -/
lemma Aligned.release (ha : Aligned h m) {id : ℕ} (hid : id < 65536) (topics : List Str) :
    ∃ h', h.release id topics = (h', none) ∧ h'.client = h.client ∧
      Aligned h' (registryWithout m h.client.id topics) ∧
      ∀ filter, filter ∈ h'.subscriptions ↔ filter ∈ h.subscriptions ∧ filter ∉ topics := by
  obtain ⟨bs, hbs⟩ := exists_unsuback hid
  obtain ⟨h', hrelease, hclient, hrep, hmem, -⟩ := release_spec ha.store hbs topics
  refine ⟨h', hrelease, hclient, ⟨hrep, fun filter hf => ?_⟩, hmem⟩
  obtain ⟨hf, hno⟩ := (hmem filter).mp hf
  have hkept : ¬(h.client.id = h.client.id ∧ filter ∈ topics) := fun hin => hno hin.2
  rw [hclient, registryWithout_split, if_neg hkept]
  exact ha.recorded filter hf

lemma Aligned.packet (ha : Aligned h m) (packet : ClientPacket) :
    ∃ m', Aligned (handlePacket h packet) m' := by
  cases packet with
  | subscribe packet =>
    obtain ⟨m', ha', -⟩ := ha.serveAll packet.requests
    change ∃ m', Aligned (h.handleSubscribe packet).1 m'
    unfold Handler.handleSubscribe
    split
    case h_1 h' e hall =>
      rw [hall] at ha'
      exact ⟨m', ha'⟩
    case h_2 h' codes hall =>
      rw [hall] at ha'
      unfold Handler.write
      cases (subscribeAcknowledgePacket packet.id codes).toBytes with
      | error e => exact ⟨m', ha'⟩
      | ok bs => exact ⟨m', ha'.store, ha'.recorded⟩
  | unsubscribe packet =>
    obtain ⟨h', hrelease, -, ha', -⟩ := ha.release packet.id.isLt packet.topics
    refine ⟨registryWithout m h.client.id packet.topics, ?_⟩
    change Aligned (h.release packet.id packet.topics).1 _
    rw [hrelease]
    exact ha'

/-- **The two records stay aligned** whatever packets are handled. -/
lemma Aligned.packets (ha : Aligned h m) (packets : List ClientPacket) :
    ∃ m', Aligned (handleAll h packets) m' := by
  induction packets generalizing h m with
  | nil => exact ⟨m, ha⟩
  | cons packet packets ih =>
    obtain ⟨m', ha'⟩ := ha.packet packet
    exact ih ha'

end

/-- **When UNSUBSCRIBE undoes SUBSCRIBE.** From a handler that records nothing, after any packets,
an UNSUBSCRIBE has undone the subscription to a topic exactly when it names the filter of the topic,
unless that is not registered, and no registered filter that it does not ask for. -/
theorem undone_iff {h₀ : Handler} {m : Registry} (hnew : h₀.subscriptions = ∅)
    (hstore : Represents h₀.broker.subscriptions m) (packets : List ClientPacket)
    (packet : UnsubscribePacket) (topic : Str) :
    Undone (handleAll h₀ packets) ((handleAll h₀ packets).handleUnsubscribe packet).1
        packet.topics topic ↔
      Names (handleAll h₀ packets) packet.topics topic := by
  obtain ⟨m, ha⟩ := Aligned.packets ⟨hstore, fun filter hf => by simp [hnew] at hf⟩ packets
  generalize handleAll h₀ packets = h at ha ⊢
  obtain ⟨h', hrelease, hclient, ha', hmem⟩ := ha.release packet.id.isLt packet.topics
  rw [show (h.handleUnsubscribe packet).1 = h' by rw [Handler.handleUnsubscribe, hrelease]]
  -- what is left of the registry
  have hentry : ∀ id filter, entry h'.broker id filter =
      if id = h.client.id ∧ filter ∈ packet.topics then none else entry h.broker id filter := by
    intro id filter
    rw [ha'.entry, ha.entry, registryWithout_split]
  refine ⟨?_, ?_⟩
  · intro hundone
    refine ⟨?_, fun t ht => ?_⟩
    · have := hundone.unregistered
      rw [hentry] at this
      split_ifs at this with hc
      · exact .inl hc.2
      · exact .inr this
    · by_cases hasked : t ∈ packet.topics.map filterOf
      · exact .inl hasked
      · right
        rw [← hundone.others h.client.id t fun _ => hasked, hentry, if_pos ⟨rfl, ht⟩]
  · intro hnames
    have hgone : ∀ t ∈ packet.topics, t ∉ packet.topics.map filterOf →
        entry h.broker h.client.id t = none := fun t ht hasked =>
      (hnames.only t ht).resolve_left hasked
    have hunreg : entry h'.broker h.client.id (filterOf topic) = none := by
      rw [hentry]
      split_ifs with hc
      · rfl
      · exact hnames.filter.resolve_left fun hf => hc ⟨rfl, hf⟩
    refine ⟨hunreg, fun hrec => ?_, fun id filter hasked => ?_, fun filter hasked => ?_⟩
    · have := ha'.recorded _ hrec
      rw [hclient, ← ha'.entry] at this
      exact this hunreg
    · rw [hentry]
      split_ifs with hc
      · obtain ⟨rfl, hf⟩ := hc
        exact (hgone filter hf (hasked rfl)).symm
      · rfl
    · rw [hmem]
      refine ⟨fun hf => hf.1, fun hf => ⟨hf, fun ht => ?_⟩⟩
      have := ha.recorded _ hf
      rw [← ha.entry] at this
      exact this (hgone filter ht hasked)

/-- Topics without a leading separator are their own filters. -/
lemma names_of_plain (h : Handler) {topics : List Str} {topic : Str} (htopic : topic ∈ topics)
    (hplain : ∀ t ∈ topics, t.head? ≠ some topicSep) : Names h topics topic := by
  have hfilter : ∀ t ∈ topics, filterOf t = t := by
    intro t ht
    have hhead := hplain t ht
    cases t with
    | nil => rfl
    | cons c t => exact if_neg fun hc => hhead (congrArg some hc)
  refine ⟨.inl ?_, fun t ht => .inl (List.mem_map.mpr ⟨t, ht, hfilter t ht⟩)⟩
  rw [hfilter topic htopic]
  exact htopic

def lights : ClientPacket := .subscribe (subscription "lights".toList 1)
def keptLights : ClientPacket := .subscribe (subscription "/lights".toList 1)

theorem undone_lights :
    Undone (handleAll (app .nil) [lights, keptLights])
      ((handleAll (app .nil) [lights, keptLights]).handleUnsubscribe ⟨8, ["lights".toList]⟩).1
      ["lights".toList] "lights".toList :=
  (@undone_iff (app .nil) _ rfl represents_nil [lights, keptLights] ⟨8, ["lights".toList]⟩
    _).mpr (names_of_plain _ List.mem_cons_self (by decide))

/-- The client is still registered for what it asked for with a leading separator. -/
theorem kept_lights_not_undone :
    entry (handleAll (app .nil) [keptLights]).broker "app".toList "lights".toList = some 1 ∧
      ¬Undone (handleAll (app .nil) [keptLights])
        ((handleAll (app .nil) [keptLights]).handleUnsubscribe ⟨8, ["/lights".toList]⟩).1
        ["/lights".toList] "/lights".toList := by
  have hbefore : entry (handleAll (app .nil) [keptLights]).broker "app".toList "lights".toList =
      some 1 := by decide
  refine ⟨hbefore, fun hundone => ?_⟩
  have hnew : Aligned (app .nil) fun _ => none := ⟨represents_nil, fun _ hf => by simp [app] at hf⟩
  obtain ⟨m, ha⟩ := hnew.packets [keptLights]
  obtain ⟨h', hrelease, -, ha', -⟩ := ha.release (show 8 < 65536 by decide) ["/lights".toList]
  have hafter : ((handleAll (app .nil) [keptLights]).handleUnsubscribe
      ⟨8, ["/lights".toList]⟩).1 = h' := congrArg Prod.fst hrelease
  have hstill : entry h'.broker "app".toList "lights".toList = some 1 := by
    rw [ha'.entry, registryWithout, if_neg (by decide), ← ha.entry]
    exact hbefore
  rw [hafter] at hundone
  exact absurd (hstill.symm.trans hundone.unregistered) (by simp)

/-! ### One acknowledgement -/

/-- The last of the states is the one in which the loop has ended. -/
lemma getLast_releaseStates (h : Handler) (id : ℕ) (topics : List Str) :
    (releaseStates h id topics).getLast? = some (h.release id topics).1 := by
  induction topics generalizing h with
  | nil => rfl
  | cons topic topics ih =>
    unfold releaseStates Handler.release
    cases h.broker.unsubscribe h.client [topic] with
    | error e => rfl
    | ok broker =>
      dsimp only
      cases Handler.write _ (unsubscribeAcknowledgePacket id) with
      | error e => rfl
      | ok h₃ =>
        dsimp only
        simp only [List.getLast?_cons, ih h₃, Option.getD_some]

section
variable {h : Handler} {m : Registry}

/-- With one topic, nothing is written before the last state. -/
lemma mem_releaseStates_one (hstore : Represents h.broker.subscriptions m) {id : ℕ}
    (hid : id < 65536) (topic : Str) {h' : Handler} (hmem : h' ∈ releaseStates h id [topic]) :
    h'.written = h.written ∨ h' = (h.release id [topic]).1 := by
  obtain ⟨S, hbroker, -⟩ := unsubscribe_one hstore topic
  obtain ⟨bs, hbs⟩ := exists_unsuback hid
  have hstates : releaseStates h id [topic] =
      [h, { h with broker := { h.broker with subscriptions := S } },
        { h with
          broker := { h.broker with subscriptions := S }
          subscriptions := h.subscriptions.erase topic },
        { h with
          broker := { h.broker with subscriptions := S }
          subscriptions := h.subscriptions.erase topic
          written := h.written ++ [bs] }] := by
    rw [releaseStates, hbroker]
    dsimp only
    rw [Handler.write, hbs]
    rfl
  have hlast := getLast_releaseStates h id [topic]
  rw [hstates] at hmem hlast
  simp only [List.mem_cons, List.not_mem_nil, or_false] at hmem
  rcases hmem with rfl | rfl | rfl | rfl
  · exact .inl rfl
  · exact .inl rfl
  · exact .inl rfl
  · exact .inr (Option.some.inj hlast)

/-- Whatever the topics, they are removed from both records, and all else is left alone. -/
lemma handleUnsubscribe_spec (hstore : Represents h.broker.subscriptions m)
    (packet : UnsubscribePacket) :
    (h.handleUnsubscribe packet).2 = none ∧
      Removed h.client.id packet.topics (h.handleUnsubscribe packet).1 ∧
      (∀ id filter, (id = h.client.id → filter ∉ packet.topics) →
        entry (h.handleUnsubscribe packet).1.broker id filter = entry h.broker id filter) ∧
      (∀ filter ∉ packet.topics,
        filter ∈ (h.handleUnsubscribe packet).1.subscriptions ↔ filter ∈ h.subscriptions) ∧
      ∃ bs, (unsubscribeAcknowledgePacket packet.id).toBytes = .ok bs ∧
        (h.handleUnsubscribe packet).1.written =
          h.written ++ List.replicate packet.topics.length bs := by
  obtain ⟨bs, hbs⟩ := exists_unsuback packet.id.isLt
  obtain ⟨h', hrelease, -, hrep, hmem, hwritten⟩ := release_spec hstore hbs packet.topics
  rw [show h.handleUnsubscribe packet = (h', none) from hrelease]
  have hentry : ∀ id filter, entry h'.broker id filter =
      if id = h.client.id ∧ filter ∈ packet.topics then none else entry h.broker id filter := by
    intro id filter
    have hafter : entry h'.broker id filter = _ := hrep.lookup _ _
    have hbefore : entry h.broker id filter = _ := hstore.lookup _ _
    rw [hafter, hbefore, registryWithout_split]
  refine ⟨rfl, fun topic htopic => ?_, fun id filter hno => ?_, fun filter hno => ?_,
    bs, hbs, hwritten⟩
  · refine ⟨?_, fun hrecorded => ?_⟩
    · rw [hentry, if_pos ⟨rfl, htopic⟩]
    · exact ((hmem topic).mp hrecorded).2 htopic
  · rw [hentry, if_neg fun hin => hno hin.1 hin.2]
  · exact ⟨fun hf => ((hmem filter).mp hf).1, fun hf => (hmem filter).mpr ⟨hf, hno⟩⟩

end

/-- **When UNSUBSCRIBE is acknowledged once.** Every packet removes what it lists and nothing else,
but an UNSUBACK is written for each topic, so that there is exactly one, after all removals, exactly
for the packets that list one topic. -/
theorem acknowledgedOnce_iff {h : Handler} {m : Registry}
    (hstore : Represents h.broker.subscriptions m) (packet : UnsubscribePacket) :
    AcknowledgedOnce h packet ↔ packet.topics.length = 1 := by
  obtain ⟨hreturns, hremoved, hothers, hkept, bs, hbs, hwritten⟩ :=
    handleUnsubscribe_spec hstore packet
  constructor
  · intro honce
    obtain ⟨bs', -, hwritten'⟩ := honce.once
    rw [hwritten] at hwritten'
    have hlength := congrArg List.length (List.append_cancel_left hwritten')
    rwa [List.length_replicate] at hlength
  · intro hone
    refine ⟨hreturns, hremoved, hothers, hkept, ⟨bs, hbs, by rw [hwritten, hone]; rfl⟩, ?_⟩
    intro h' hstate hwrites
    obtain ⟨topic, htopics⟩ := List.length_eq_one_iff.mp hone
    rw [htopics] at hstate
    have hlast := (mem_releaseStates_one hstore packet.id.isLt topic hstate).resolve_left hwrites
    rw [hlast, ← htopics]
    exact hremoved

theorem acknowledgedOnce_lights : AcknowledgedOnce (app .nil) ⟨8, ["lights".toList]⟩ :=
  (@acknowledgedOnce_iff (app .nil) _ represents_nil ⟨8, ["lights".toList]⟩).mpr rfl

/-- Two topics are acknowledged twice. -/
theorem two_topics_not_acknowledgedOnce :
    ¬AcknowledgedOnce (app .nil) ⟨8, ["lights".toList, "doors".toList]⟩ := by
  intro honce
  have hstore : Represents (app .nil).broker.subscriptions fun _ => none := represents_nil
  obtain ⟨-, -, -, -, bs, -, hwritten⟩ :=
    handleUnsubscribe_spec hstore ⟨8, ["lights".toList, "doors".toList]⟩
  obtain ⟨bs', -, hwritten'⟩ := honce.once
  have hlength := congrArg List.length (hwritten.symm.trans hwritten')
  cases hlength

end MoteBroker.Unsubscriptions

import MoteBroker.Lib.PubSub
import MoteBroker.Lib.Simulation
import MoteBroker.SyncedSubscriber
import MoteBroker.Walk

/-!
The broker as a publish/subscribe service: whatever its clients, publishers and main loop do one
after the other, it does what the abstract service does.
-/

namespace MoteBroker.Service

open NestedDict Wildcard MoteBroker.Topics MoteBroker.RecursiveDefaultDict
open MoteBroker.TreeItems MoteBroker.CreateMessages MoteBroker.Rows MoteBroker.Messages
open MoteBroker.Retain MoteBroker.Broker MoteBroker.Subscriptions MoteBroker.Walk

/-! ### The system -/

/-- `add_client`, but for the end of the client's previous connection. -/
def addClient (b : State) (client : Client) : State :=
  { b with clients := b.clients.insert client.id client.conn }

/-- `remove_client`. -/
def removeClient (b : State) (client_id : Str) : State :=
  { b with clients := b.clients.erase client_id }

/-- `publish` up to the broadcast queue: the broker afterwards, and the rows that are to be put
there, unless there are none. -/
def compute (b : State) (p : Publish) (retain : Bool) : State × Option (List Row) :=
  match IncomingMessage.fromRawData p.raw_topic p.data p.qos retain with
  | .error _ => (b, none)
  | .ok message =>
    match message.table with
    | .error _ => (b, none)
    | .ok true => ((b.publish message).1, none)
    | .ok false => ((b.publishRows message).1, (b.publishRows message).2.toOption)

structure System where
  broker : State
  /-- The rows of the publishers that have not put them on the broadcast queue yet. -/
  computed : List (List Row)
  /-- The rows that the main loop has taken. -/
  dispatched : List (List Row)

def initial : System := ⟨Broker.initial, [], []⟩

inductive Event
  | addClient (client : Client)
  | removeClient (client_id : Str)
  | sendRetained (client : Client) (topic_str : Str) (qos : ℕ) (tree : Bool)
  | register (client : Client) (topic_str : Str) (qos : ℕ)
  | unsubscribe (client : Client) (topics : List Str)
  | publish (p : Publish) (retain : Bool)
  | put (k : ℕ)
  | mainLoop

/-- A call that raises leaves the broker as it was. -/
def step (s : System) : Event → Option System
  | .addClient client => some { s with broker := addClient s.broker client }
  | .removeClient client_id => some { s with broker := removeClient s.broker client_id }
  | .sendRetained client topic_str qos tree => some { s with
      broker := (s.broker.sendRetained client topic_str qos tree).toOption.getD s.broker }
  | .register client topic_str qos => some { s with
      broker := (s.broker.register client topic_str qos).toOption.getD s.broker }
  | .unsubscribe client topics => some { s with
      broker := (s.broker.unsubscribe client topics).toOption.getD s.broker }
  | .publish p retain => some { s with
      broker := (compute s.broker p retain).1
      computed := s.computed ++ (compute s.broker p retain).2.toList }
  | .put k =>
    match s.computed[k]? with
    | none => none
    | some rows => some { s with
        broker := s.broker.broadcast rows, computed := s.computed.eraseIdx k }
  | .mainLoop => s.broker.mainLoop.map fun broker => { s with
      broker := broker, dispatched := s.dispatched ++ s.broker.broadcastQueue.head?.toList }

/-! ### The service -/

abbrev Batch := PubSub.Batch (List Str) Payload
abbrev ServiceEvent := PubSub.Event (List Str) (List Str) Str ℕ ℕ Payload
abbrev ServiceState := PubSub.State (List Str) (List Str) Str ℕ ℕ Payload

/-- The topics and payloads of rows. -/
def entries (rows : List Row) : Batch := rows.map fun row => (row.topic, row.data)

/-- A message for the filter can be built: an object has only texts in it. -/
def Legible (F : List Str) (batch : Batch) : Prop :=
  manyCard ∈ F → ∀ topic data, LastWrite.last batch topic = some data → Decodes data

noncomputable abbrev serviceStep : ServiceState → ServiceEvent → Option ServiceState :=
  PubSub.step (Matches manyCard) Legible

/-- What an event is to the service; nothing, where a call raises or has nothing to say. -/
def does (s : System) : Event → Option ServiceEvent
  | .addClient client => some (.connect client.id client.conn)
  | .removeClient client_id => some (.disconnect client_id)
  | .sendRetained client topic_str qos tree =>
    match s.broker.sendRetained client topic_str qos tree with
    | .error _ => none
    | .ok _ =>
      if tree then some (.snapshot (client.id, client.conn) (split topic_str) qos) else none
  | .register client topic_str qos => some (.register (split topic_str) client.id qos)
  | .unsubscribe client topics => some (.unregister (topics.map split) client.id)
  | .publish p retain => (compute s.broker p retain).2.map fun rows => .accept (entries rows) retain
  | .put k => some (.put k)
  | .mainLoop => some .dispatch

/-- No key of a payload tree is the separator. -/
def Keyed : Event → Prop
  | .publish p retain => ∀ message,
    IncomingMessage.fromRawData p.raw_topic p.data p.qos retain = .ok message → retain →
      Fit (fun n => n ≠ leafKey) (fun _ => True) message
  | _ => True

/-- A message says what the client is told about the filter. -/
inductive Means (topic_str : Str) : PubSub.Told (List Str) ℕ Payload → OutgoingMessage → Prop
  | news {rows : List Row} {qos : ℕ} {data : Payload}
    (built : buildMessageData rows (split topic_str) (decide (manyCard ∈ split topic_str)) =
      .ok data)
    (reply : Reply (split topic_str) rows data) :
    Means topic_str (.news qos (entries rows)) ⟨topic_str, qos, .payload data⟩
  | snapshot {tm : TreeManager} {qos : ℕ} {message : OutgoingMessage} (shape : Shape tm.tree)
    (h : tm.getMessage (Topic.fromStr topic_str) qos = .ok message) :
    Means topic_str (.snapshot qos (valueAt tm.tree)) message

/-- The messages in a client's queue under the string of a filter. -/
def mailUnder (b : State) (client : Client) (topic_str : Str) : List OutgoingMessage :=
  (b.queues client).filter fun m => m.topic = topic_str

/-- Rows that the leaf key does not occur in. -/
def Clear (rows : List Row) : Prop := ∀ row ∈ rows, row.topic ≠ [] ∧ leafKey ∉ row.topic

/-- The broker has what the service has, and has queued what the service has told, behind the
messages that the queues began with. -/
structure Refines (base : Client → List OutgoingMessage) (a : ServiceState) (s : System) :
    Prop where
  connected : ∀ id, a.connected id = s.broker.clients.lookup id
  registered : Represents s.broker.subscriptions fun k => a.registered k.1 k.2
  spelled : ∀ F id, a.registered F id ≠ none → ∃ t, F = split t
  shape : Shape s.broker.treeManager.tree
  distinct : s.broker.treeManager.tree.Distinct
  retained : a.retained = valueAt s.broker.treeManager.tree
  accepted : a.accepted = s.computed.map entries
  waiting : a.waiting = s.broker.broadcastQueue.map entries
  dispatched : a.dispatched = s.dispatched.map entries
  computed : ∀ rows ∈ s.computed, Clear rows
  queued : ∀ rows ∈ s.broker.broadcastQueue, Clear rows
  told : ∀ client : Client, ∃ mail, s.broker.queues client = base client ++ mail ∧
    ∀ t, List.Forall₂ (Means t) (a.told (client.id, client.conn) (split t))
      (mail.filter fun m => m.topic = t)

section
variable {base : Client → List OutgoingMessage} {a : ServiceState} {s : System}

lemma client_eq {c client : Client} : (c.id, c.conn) = (client.id, client.conn) ↔ c = client := by
  obtain ⟨id, conn⟩ := c
  obtain ⟨id', conn'⟩ := client
  simp

/-- A client is told something, and the message that says it is queued. -/
lemma Refines.tell (h : Refines base a s) (client : Client) {t : Str}
    {told : PubSub.Told (List Str) ℕ Payload} {m : OutgoingMessage} (hm : Means t told m)
    (htopic : m.topic = t) : Refines base (a.tell (client.id, client.conn) (split t) told)
      { s with broker := s.broker.queueMessage client m } where
  connected := h.connected
  registered := h.registered
  spelled := h.spelled
  shape := h.shape
  distinct := h.distinct
  retained := h.retained
  accepted := h.accepted
  waiting := h.waiting
  dispatched := h.dispatched
  computed := h.computed
  queued := h.queued
  told c := by
    obtain ⟨mail, hmail, hold⟩ := h.told c
    simp only [PubSub.State.tell, Function.update_apply, client_eq]
    by_cases hc : c = client
    · subst hc
      refine ⟨mail ++ [m], by rw [queueMessage_self, hmail, List.append_assoc], fun u => ?_⟩
      rw [List.filter_append]
      by_cases hu : split u = split t
      · obtain rfl := split_injective hu
        simp only [if_true, htopic, Function.update_self, List.filter_cons_of_pos, decide_true,
          List.filter_nil]
        exact List.rel_append (hold u) (.cons hm .nil)
      · have hne : m.topic ≠ u := fun he => hu (by rw [← he, htopic])
        simpa [hu, hne] using hold u
    · exact ⟨mail, by rw [queueMessage_ne _ _ hc, hmail], fun u => by simpa [hc] using hold u⟩

lemma getMessage_topic {tm : TreeManager} {topic : Topic} {qos : ℕ} {m : OutgoingMessage}
    (h : tm.getMessage topic qos = .ok m) : m.topic = topic.fullStr := by
  obtain ⟨x, -, hm⟩ := ok_of_bind h
  unfold OutgoingMessage.fromTreeItem at hm
  split at hm
  · cases hm
    rfl
  · cases hm
    rfl
  · obtain ⟨b, -, rfl⟩ := ok_of_map hm
    rfl

lemma Refines.sendRetained (h : Refines base a s) (client : Client) (t : Str) (q : ℕ)
    (tree : Bool) :
    ∃ a', Runs.run serviceStep a (does s (.sendRetained client t q tree)).toList = some a' ∧
      Refines base a' { s with
        broker := (s.broker.sendRetained client t q tree).toOption.getD s.broker } := by
  cases hsend : s.broker.sendRetained client t q tree with
  | error e =>
    refine ⟨a, ?_, h⟩
    simp only [does, hsend]
    rfl
  | ok b =>
    have hbroker := hsend
    unfold State.sendRetained at hbroker
    cases tree with
    | true =>
      rw [if_pos rfl] at hbroker
      obtain ⟨m, hm, rfl⟩ := ok_of_map hbroker
      refine ⟨a.tell (client.id, client.conn) (split t) (.snapshot q a.retained), ?_,
        h.tell client ?_ (getMessage_topic hm)⟩
      · simp only [does, hsend, if_true]
        rfl
      · rw [h.retained]
        exact .snapshot h.shape hm
    | false =>
      rw [if_neg Bool.false_ne_true] at hbroker
      split at hbroker <;> cases hbroker
      refine ⟨a, ?_, h⟩
      simp only [does, hsend, Bool.false_eq_true, if_false]
      rfl

lemma Refines.register (h : Refines base a s) (client : Client) (t : Str) (q : ℕ) :
    Refines base { a with
        registered := fun G x => if G = split t ∧ x = client.id then some q else a.registered G x }
      { s with broker := (s.broker.register client t q).toOption.getD s.broker } := by
  obtain ⟨S', hS', hr⟩ := h.registered.register client.id t q
  have hregister : s.broker.register client t q = .ok { s.broker with subscriptions := S' } := by
    simp [State.register, hS', Except.map]
  rw [hregister]
  refine { h with registered := ?_, spelled := fun F id hF => ?_ }
  · have hupdate : (fun k : List Str × Str =>
        if k.1 = split t ∧ k.2 = client.id then some q else a.registered k.1 k.2) =
        Function.update (fun k => a.registered k.1 k.2) (split t, client.id) (some q) := by
      funext k
      obtain ⟨G, x⟩ := k
      simp [Function.update_apply]
    change Represents S' fun k => if k.1 = split t ∧ k.2 = client.id then some q
      else a.registered k.1 k.2
    rw [hupdate]
    exact hr
  · dsimp only at hF
    split_ifs at hF with hG
    · exact ⟨t, hG.1⟩
    · exact h.spelled F id hF

lemma Refines.unsubscribe (h : Refines base a s) (client : Client) (topics : List Str) :
    Refines base { a with
        registered := fun G x => if x = client.id ∧ G ∈ topics.map split then none
          else a.registered G x }
      { s with broker := (s.broker.unsubscribe client topics).toOption.getD s.broker } := by
  obtain ⟨S', hS', hr⟩ := h.registered.unsubscribeTopics client.id topics
  have hunsubscribe : s.broker.unsubscribe client topics =
      .ok { s.broker with subscriptions := S' } := by
    simp [State.unsubscribe, hS', Except.map]
  rw [hunsubscribe]
  refine { h with registered := hr, spelled := fun F id hF => ?_ }
  dsimp only at hF
  split_ifs at hF
  · exact absurd rfl hF
  · exact h.spelled F id hF

/-! ### Publishers -/

/-- A retained publish raises and changes nothing, or the tree takes its rows. -/
lemma publishRows_retained {b b' : State} {message : IncomingMessage} {r : Except Exc (List Row)}
    {t : Str} (hretain : message.retain = true) (hnodes : message.topic.nodeList = split t)
    (hs : Shape b.treeManager.tree) (hd : b.treeManager.tree.Distinct)
    (hf : Fit (fun n => n ≠ leafKey) (fun _ => True) message)
    (h : b.publishRows message = (b', r)) :
    (b' = b ∧ ∃ e, r = .error e) ∨ ∃ rows tree,
      r = .ok rows ∧ b' = { b with treeManager := ⟨tree, b.treeManager.tasks ++ rows⟩ } ∧
      Shape tree ∧ tree.Distinct ∧ Clear rows ∧
      ∀ p, valueAt tree p =
        (LastWrite.last (entries rows) p).or (valueAt b.treeManager.tree p) := by
  unfold State.publishRows at h
  rw [if_pos hretain] at h
  unfold TreeManager.processMessage at h
  cases hrows : messageRows message b.treeManager.tree with
  | error e =>
    rw [hrows] at h
    cases h
    exact .inl ⟨rfl, e, rfl⟩
  | ok rows =>
    have hkeep := messageRows_ok SyncedSubscriber.singleLevel_ne_leafKey
      ⟨trivial, fun _ => trivial⟩ hnodes hs hd (SyncedSubscriber.keysOf_ne _) hf hrows
    have hclear : Clear rows := fun row hr =>
      ⟨(hkeep row hr).nonempty, fun hm => (hkeep row hr).nodes _ hm rfl⟩
    obtain ⟨tree, ht, hs', hd', -, hval⟩ := setLeaves_spec hs hclear
    have hretained : b.treeManager.retainRows rows =
        (⟨tree, b.treeManager.tasks ++ rows⟩, none) := by
      simp [TreeManager.retainRows, TreeManager.addTasks, ht]
    simp only [hrows, hretained] at h
    cases h
    refine .inr ⟨rows, tree, rfl, rfl, hs', hd' hd, hclear, fun p => ?_⟩
    rw [hval, LastWrite.overwrite, last_leafWrites]
    change _ = (LastWrite.last (rows.map fun row => (row.topic, row.data)) p).or _
    cases LastWrite.last (rows.map fun row => (row.topic, row.data)) p <;> rfl

/-- The row of a plain publish has the nodes of its topic. -/
lemma asSingleRow_clear {message : IncomingMessage} {row : Row} {t : Str}
    (hnodes : message.topic.nodeList = split t) (h : message.asSingleRow = .ok row) :
    Clear [row] := by
  unfold IncomingMessage.asSingleRow at h
  split_ifs at h
  cases h
  intro row hr
  rw [List.mem_singleton.mp hr, hnodes]
  exact path_split t

/-- A batch that is accepted is on its way. -/
lemma Refines.accept (h : Refines base a s) {rows : List Row} (hclear : Clear rows) :
    Refines base { a with accepted := a.accepted ++ [entries rows] }
      { s with computed := s.computed ++ [rows] } :=
  { h with
    accepted := by simp [h.accepted]
    computed := fun batch hbatch => by
      rcases List.mem_append.mp hbatch with hbatch | hbatch
      · exact h.computed batch hbatch
      · rw [List.mem_singleton.mp hbatch]
        exact hclear }

lemma Refines.publish (h : Refines base a s) {p : Publish} {retain : Bool}
    (hkeyed : Keyed (.publish p retain)) :
    ∃ a', Runs.run serviceStep a (does s (.publish p retain)).toList = some a' ∧
      Refines base a' { s with
        broker := (compute s.broker p retain).1
        computed := s.computed ++ (compute s.broker p retain).2.toList } := by
  have hnothing : ∀ b, compute s.broker p retain = (b, none) →
      Refines base a { s with broker := b } →
      ∃ a', Runs.run serviceStep a (does s (.publish p retain)).toList = some a' ∧
        Refines base a' { s with
          broker := (compute s.broker p retain).1
          computed := s.computed ++ (compute s.broker p retain).2.toList } := fun b hb hr => by
    refine ⟨a, ?_, ?_⟩
    · simp only [does, hb]
      rfl
    · rw [hb]
      simpa using hr
  cases hraw : IncomingMessage.fromRawData p.raw_topic p.data p.qos retain with
  | error e => exact hnothing s.broker (by simp only [compute, hraw]) h
  | ok message =>
    obtain ⟨hretain, t, hnodes⟩ := fromRawData_nodes hraw
    cases htable : message.table with
    | error e => exact hnothing s.broker (by simp only [compute, hraw, htable]) h
    | ok table =>
      cases table with
      | true =>
        refine hnothing (s.broker.publish message).1 (by simp only [compute, hraw, htable]) ?_
        simp only [State.publish, htable]
        exact { h with }
      | false =>
        have hcompute : compute s.broker p retain =
            ((s.broker.publishRows message).1, (s.broker.publishRows message).2.toOption) := by
          simp only [compute, hraw, htable]
        cases hpublish : s.broker.publishRows message with
        | mk b r =>
          rw [hpublish] at hcompute
          cases retain with
          | true =>
            rcases publishRows_retained hretain hnodes h.shape h.distinct
              (hkeyed message hraw rfl) hpublish with
              ⟨rfl, e, rfl⟩ | ⟨rows, tree, rfl, rfl, hs, hd, hclear, hval⟩
            · exact hnothing _ hcompute h
            · refine ⟨{ a with
                accepted := a.accepted ++ [entries rows]
                retained := fun p => (LastWrite.last (entries rows) p).or (a.retained p) }, ?_, ?_⟩
              · simp only [does, hcompute]
                rfl
              · rw [hcompute]
                exact { h.accept hclear with
                  shape := hs, distinct := hd
                  retained := funext fun p => by rw [hval, h.retained] }
          | false =>
            unfold State.publishRows at hpublish
            rw [hretain, if_neg Bool.false_ne_true] at hpublish
            cases hpublish
            cases hrow : message.asSingleRow with
            | error e => exact hnothing s.broker (by rw [hcompute, hrow]; rfl) h
            | ok row =>
              rw [hrow] at hcompute
              refine ⟨{ a with accepted := a.accepted ++ [entries [row]] }, ?_, ?_⟩
              · simp only [does, hcompute]
                rfl
              · rw [hcompute]
                exact h.accept (asSingleRow_clear hnodes hrow)

lemma Refines.put (h : Refines base a s) {k : ℕ} {rows : List Row}
    (hk : s.computed[k]? = some rows) :
    ∃ a', serviceStep a (.put k) = some a' ∧
      Refines base a' { s with
        broker := s.broker.broadcast rows, computed := s.computed.eraseIdx k } := by
  have hak : a.accepted[k]? = some (entries rows) := by rw [h.accepted, List.getElem?_map, hk]; rfl
  refine ⟨{ a with
    accepted := a.accepted.eraseIdx k, waiting := a.waiting ++ [entries rows] }, ?_, ?_⟩
  · simp only [serviceStep, PubSub.step, hak]
  · exact { h with
      accepted := by rw [h.accepted, List.eraseIdx_map]
      waiting := by simp [State.broadcast, h.waiting]
      computed := fun batch hbatch => h.computed batch (List.mem_of_mem_eraseIdx hbatch)
      queued := fun batch hbatch => by
        rcases List.mem_append.mp hbatch with hbatch | hbatch
        · exact h.queued batch hbatch
        · rw [List.mem_singleton.mp hbatch]
          exact h.computed rows (List.mem_of_getElem? hk) }

/-! ### The main loop -/

variable {rows : List Row} {F : List Str}

lemma about_entries (F : List Str) (rows : List Row) :
    PubSub.about (Matches manyCard) F (entries rows) = entries (matching rows 0 F) := by
  rw [matching_zero]
  unfold PubSub.about entries
  rw [List.filter_map]
  refine congrArg _ (List.filter_congr fun row _ => ?_)
  simp

lemma last_entries (topic : List Str) : LastWrite.last (entries (matching rows 0 F)) topic =
    if Matches manyCard F topic then lastPayload rows topic else none := by
  rw [matching_zero]
  split_ifs with h
  · refine (LastWrite.last_map_filter rows fun row _ => ?_).symm
    exact ⟨fun he => ⟨he ▸ h, he⟩, And.right⟩
  · refine LastWrite.last_eq_none.mpr fun entry hentry he => ?_
    obtain ⟨row, hrow, rfl⟩ := List.mem_map.mp hentry
    rw [← he] at h
    exact h (of_decide_eq_true (List.mem_filter.mp hrow).2)

lemma legible_iff : Legible F (entries (matching rows 0 F)) ↔
    (manyCard ∈ F → ∀ topic data, Matches manyCard F topic →
      lastPayload rows topic = some data → Decodes data) := by
  refine forall_congr' fun _ => forall_congr' fun topic => forall_congr' fun data => ?_
  rw [last_entries]
  split_ifs with h <;> simp [h]

/-- A filter is answered unless there is something in its rows that is no text. -/
lemma answer_ok_iff (hkey : ∀ row ∈ rows, leafKey ∉ row.topic) (F : List Str) (cs : ClientSet) :
    (∃ ms, answer rows [] 0 false F cs = .ok ms) ↔
      (matching rows 0 F ≠ [] → Legible F (entries (matching rows 0 F))) := by
  rw [legible_iff]
  rcases answer_cases rows F cs with ⟨hnil, h⟩ | ⟨hanswered, data, h⟩ | ⟨hne, hno, e, h⟩
  · exact ⟨fun _ hne => absurd hnil hne, fun _ => ⟨_, h⟩⟩
  · exact ⟨fun _ _ => hanswered.text, fun _ => ⟨_, h⟩⟩
  · refine ⟨fun ⟨ms, hms⟩ => ?_, fun htext => ?_⟩
    · rw [h] at hms
      cases hms
    · refine absurd ⟨matching_ne_nil.mp hne, fun _ row hr _ hin => ?_, htext hne⟩ hno
      exact hkey row hr (List.dropLast_subset _ (captured_dropLast_subset hin))

/-- What has been built for a filter is what its rows say. -/
lemma reply_of_ok {data : Payload} (hne : rows ≠ [])
    (hlen : ∀ row ∈ rows, row.topic.length = F.length)
    (hkey : ∀ row ∈ rows, leafKey ∉ row.topic)
    (h : buildMessageData rows F (decide (manyCard ∈ F)) = .ok data) : Reply F rows data := by
  by_cases hw : manyCard ∈ F
  · have hu : (Item.node (.nil : Rdd Payload)).Uniform (cards F) := by
      obtain ⟨n, hn⟩ := Nat.exists_eq_succ_of_ne_zero (Nat.pos_iff_ne_zero.mp (cards_pos hw))
      rw [hn]
      exact Item.uniform_nil n
    obtain ⟨d, hd, hu, hdistinct, hp, hl⟩ := buildTree_spec (cards_pos hw) hlen
      (fun row hr hin => hkey row hr (List.dropLast_subset _ (captured_dropLast_subset hin)))
      hu trivial trivial
    simp only [buildMessageData, hw, decide_true, if_true, hd, ok_bind] at h
    obtain ⟨b, hb, hdata⟩ := ok_of_bind h
    cases hdata
    obtain ⟨b', hb', hread⟩ :=
      readJson_stringify hdistinct ((stringify_ok_iff hdistinct).mp ⟨b, hb⟩)
    obtain rfl := Except.ok.inj (hb.symm.trans hb')
    refine .object hw b _ rfl hread (hu.map _) (Dict.pruned_map _ hp) fun c => ?_
    rw [Dict.leafAt_map, hl]
    simp
  · obtain ⟨row, hrow⟩ : ∃ row, rows.getLast? = some row :=
      Option.isSome_iff_exists.mp (by simpa using hne)
    simp only [buildMessageData, hw, decide_false, Bool.false_eq_true, if_false, hrow] at h
    cases h
    exact .payload hw (by simp [hrow])

/-- The messages of a filter that is answered. -/
lemma messagesFor_eq (hkey : ∀ row ∈ rows, leafKey ∉ row.topic) {cs : ClientSet}
    (h : ∃ ms, answer rows [] 0 false F cs = .ok ms) :
    (matching rows 0 F = [] ∧ messagesFor rows (F, cs) = []) ∨
      matching rows 0 F ≠ [] ∧ ∃ data, messagesFor rows (F, cs) = [⟨.clients cs, F, data⟩] ∧
        buildMessageData (matching rows 0 F) F (decide (manyCard ∈ F)) = .ok data ∧
        Reply F (matching rows 0 F) data := by
  obtain ⟨ms, hms⟩ := h
  have hmessages : messagesFor rows (F, cs) = ms := by
    unfold messagesFor
    rw [hms]
  rw [hmessages]
  unfold answer at hms
  by_cases hm : matching rows 0 F = []
  · rw [if_pos hm] at hms
    cases hms
    exact .inl ⟨hm, rfl⟩
  · rw [if_neg hm, List.nil_append, Bool.false_or] at hms
    obtain ⟨data, hdata, hms⟩ := ok_of_bind hms
    cases hms
    exact .inr ⟨hm, data, rfl, hdata, reply_of_ok hm (fun row hr => length_of_mem_matching hr)
      (fun row hr => hkey row (List.mem_of_mem_filter hr)) hdata⟩

lemma Refines.valid (h : Refines base a s) : Valid s.broker.subscriptions where
  shape := h.registered.shape
  distinct := h.registered.distinct
  spelled F cs hF := by
    obtain ⟨id, q, hq⟩ := exists_lookup (h.registered.nonempty F cs hF)
    have hlookup := h.registered.lookup F id
    rw [hF, Option.bind_some, hq] at hlookup
    exact h.spelled F id (by rw [← hlookup]; simp)

/-- The broker can build a batch's messages when the service can deliver it. -/
lemma Refines.deliverable_iff (h : Refines base a s) (hkey : ∀ row ∈ rows, leafKey ∉ row.topic) :
    PubSub.Deliverable (Matches manyCard) Legible a (entries rows) ↔
      ∀ x ∈ subscribers s.broker.subscriptions,
        ∃ ms, answer rows [] 0 false x.1 x.2 = .ok ms := by
  have hvalid := h.valid
  constructor
  · rintro hall ⟨F, cs⟩ hx
    have hF := (mem_subscribers hvalid.shape hvalid.distinct F cs).mp hx
    obtain ⟨id, q, hq⟩ := exists_lookup (h.registered.nonempty F cs hF)
    have hlookup := h.registered.lookup F id
    rw [hF, Option.bind_some, hq] at hlookup
    refine (answer_ok_iff hkey F cs).mpr fun hne => ?_
    have hlegible := hall F id (by rw [← hlookup]; simp)
    rw [about_entries] at hlegible
    exact hlegible fun hnil => hne (List.map_eq_nil_iff.mp hnil)
  · intro hall F id hreg
    have hlookup := h.registered.lookup F id
    cases hF : valueAt s.broker.subscriptions F with
    | none =>
      rw [hF] at hlookup
      exact absurd hlookup.symm hreg
    | some cs =>
      have hx := (mem_subscribers hvalid.shape hvalid.distinct F cs).mpr hF
      rw [about_entries]
      exact fun hne => (answer_ok_iff hkey F cs).mp (hall _ hx) fun hnil => hne (by rw [hnil]; rfl)

/-- What one turn of the main loop does: it queues the messages of every filter, if all of them can
be built, and otherwise nothing. -/
lemma mainLoop_spec {b : State} {queue : List (List Row)} (hq : b.broadcastQueue = rows :: queue)
    (hkey : ∀ row ∈ rows, leafKey ∉ row.topic) (hS : Valid b.subscriptions) :
    ∃ queues, b.mainLoop = some { b with broadcastQueue := queue, queues := queues } ∧
      ((∀ x ∈ subscribers b.subscriptions, ∃ ms, answer rows [] 0 false x.1 x.2 = .ok ms) →
        ∀ c, queues c = b.queues c ++ if b.clients.lookup c.id = some c.conn then
          ((subscribers b.subscriptions).flatMap (messagesFor rows)).filterMap (mailOf c.id)
          else []) ∧
      (¬(∀ x ∈ subscribers b.subscriptions, ∃ ms, answer rows [] 0 false x.1 x.2 = .ok ms) →
        queues = b.queues) := by
  by_cases hne : rows = []
  · subst hne
    refine ⟨b.queues, by simp only [State.mainLoop, hq, if_true], fun _ c => ?_, fun _ => rfl⟩
    have hnone : (subscribers b.subscriptions).flatMap (messagesFor []) = [] :=
      List.flatMap_eq_nil_iff.mpr fun x _ => by simp [messagesFor, answer, matching]
    rw [hnone]
    simp
  · have hwalk : createMessagesForSubscriptions b.subscriptions rows =
        answers rows [] 0 false (subscribers b.subscriptions) := createMessages_eq hS.shape hkey
    rcases @answers_eq rows (subscribers b.subscriptions) with ⟨hall, hok⟩ | ⟨hbad, e, herror⟩
    · have hclients : ∀ msg ∈ (subscribers b.subscriptions).flatMap (messagesFor rows),
          ∃ cs, msg.branch = .clients cs := by
        intro msg hmsg
        obtain ⟨x, -, hx⟩ := List.mem_flatMap.mp hmsg
        exact ⟨x.2, (messagesFor_base hx).1⟩
      obtain ⟨queues, hsent, hmail⟩ := sendAll_spec { b with broadcastQueue := queue } hclients
      refine ⟨queues, ?_, fun _ c => ?_, fun hno => absurd hall hno⟩
      · simp only [State.mainLoop, hq, if_neg hne, State.processOutgoingRows, hwalk, hok, hsent]
      · rw [hmail, mailFor_eq]
    · refine ⟨b.queues, ?_, fun hall => ?_, fun _ => rfl⟩
      · simp only [State.mainLoop, hq, if_neg hne, State.processOutgoingRows, hwalk, herror]
      · obtain ⟨x, hx, e', he'⟩ := hbad
        obtain ⟨ms, hms⟩ := hall x hx
        rw [he'] at hms
        cases hms

/-- Under a string that no filter has, nothing is queued. -/
lemma mail_other {l : List (List Str × ClientSet)} (hnd : (l.map Prod.fst).Nodup)
    (hspelled : ∀ x ∈ l, ∃ t, x.1 = split t) {t : Str} (hno : split t ∉ l.map Prod.fst) (id : Str) :
    ((l.flatMap (messagesFor rows)).filterMap (mailOf id)).filter (fun m => m.topic = t) = [] := by
  -- as if there were the filter, but nobody subscribed to it
  have hempty : ∀ ms : List Message, (∀ m ∈ ms, m.branch = .clients ∅) →
      ms.filterMap (mailOf id) = [] := fun ms hms =>
    List.filterMap_eq_nil_iff.mpr fun m hm => by simp [mailOf, hms m hm]
  have hnobody : (messagesFor rows (split t, ∅)).filterMap (mailOf id) = [] :=
    hempty _ fun m hm => (messagesFor_base hm).1
  have hmail := mail_flatMap rows (l := (split t, ∅) :: l) (List.nodup_cons.mpr ⟨hno, hnd⟩)
    (fun x hx => by
      rcases List.mem_cons.mp hx with rfl | hx
      · exact ⟨t, rfl⟩
      · exact hspelled x hx) List.mem_cons_self id
  rw [List.flatMap_cons, List.filterMap_append, hnobody, List.nil_append] at hmail
  exact hmail

/-- A deliverable batch's news and the messages that are queued. -/
lemma Refines.news (h : Refines base a s) (hkey : ∀ row ∈ rows, leafKey ∉ row.topic)
    (hall : ∀ x ∈ subscribers s.broker.subscriptions, ∃ ms, answer rows [] 0 false x.1 x.2 = .ok ms)
    (c : Client) (t : Str) :
    List.Forall₂ (Means t)
      (a.news (Matches manyCard) (entries rows) (c.id, c.conn) (split t))
      ((if s.broker.clients.lookup c.id = some c.conn then
          ((subscribers s.broker.subscriptions).flatMap (messagesFor rows)).filterMap (mailOf c.id)
        else []).filter fun m => m.topic = t) := by
  have hvalid := h.valid
  have hnd := subscribers_nodup hvalid.shape hvalid.distinct
  have hspelled : ∀ x ∈ subscribers s.broker.subscriptions, ∃ t, x.1 = split t := fun x hx =>
    hvalid.spelled x.1 x.2 ((mem_subscribers hvalid.shape hvalid.distinct x.1 x.2).mp hx)
  have hlookup := h.registered.lookup (split t) c.id
  unfold PubSub.State.news
  rw [about_entries, h.connected]
  by_cases hc : s.broker.clients.lookup c.id = some c.conn
  case neg => simp [hc]
  rw [if_pos hc]
  simp only [hc, true_and]
  cases hF : valueAt s.broker.subscriptions (split t) with
  | none =>
    rw [hF] at hlookup
    have hno : split t ∉ (subscribers s.broker.subscriptions).map Prod.fst := fun hin => by
      obtain ⟨⟨G, cs⟩, hx, rfl⟩ := List.mem_map.mp hin
      rw [(mem_subscribers hvalid.shape hvalid.distinct _ cs).mp hx] at hF
      cases hF
    rw [mail_other hnd hspelled hno, ← hlookup]
    simp
  | some cs =>
    rw [hF, Option.bind_some] at hlookup
    have hx := (mem_subscribers hvalid.shape hvalid.distinct _ cs).mpr hF
    rw [mail_flatMap rows hnd hspelled hx c.id, ← hlookup]
    rcases messagesFor_eq hkey (hall _ hx) with ⟨hnil, hms⟩ | ⟨hne, data, hms, hbuilt, hreply⟩
    · rw [hms, hnil]
      simp [entries]
    · have hentries : entries (matching rows 0 (split t)) ≠ [] := fun hnil =>
        hne (List.map_eq_nil_iff.mp hnil)
      rw [hms, if_pos hentries]
      cases hq : cs.lookup c.id with
      | none => simp [mailOf, hq]
      | some q =>
        simp only [List.filterMap_cons, List.filterMap_nil, mailOf, hq, Option.map_some,
          topicStr_split, Option.toList_some, List.map_cons, List.map_nil]
        exact .cons (.news hbuilt hreply) .nil

lemma Refines.mainLoop (h : Refines base a s) {b : State} (hs : s.broker.mainLoop = some b) :
    ∃ a', serviceStep a .dispatch = some a' ∧ Refines base a' { s with
      broker := b, dispatched := s.dispatched ++ s.broker.broadcastQueue.head?.toList } := by
  cases hq : s.broker.broadcastQueue with
  | nil => simp [State.mainLoop, hq] at hs
  | cons rows queue =>
    have hclear : Clear rows := h.queued rows (by rw [hq]; exact List.mem_cons_self)
    have hkey : ∀ row ∈ rows, leafKey ∉ row.topic := fun row hr => (hclear row hr).2
    obtain ⟨queues, hloop, hyes, hno⟩ := mainLoop_spec hq hkey h.valid
    obtain rfl : b = _ := Option.some.inj (hs.symm.trans hloop)
    have hwaiting : a.waiting = entries rows :: queue.map entries := by rw [h.waiting, hq]; rfl
    by_cases hd : PubSub.Deliverable (Matches manyCard) Legible a (entries rows)
    · refine ⟨{ a with
        waiting := queue.map entries
        dispatched := a.dispatched ++ [entries rows]
        told := fun c F => a.told c F ++ a.news (Matches manyCard) (entries rows) c F }, ?_, ?_⟩
      · simp only [serviceStep, PubSub.step, hwaiting, if_pos hd]
      · have hall := (h.deliverable_iff hkey).mp hd
        exact { h with
          waiting := rfl
          dispatched := by simp [h.dispatched]
          queued := fun batch hbatch =>
            h.queued batch (by rw [hq]; exact List.mem_cons_of_mem _ hbatch)
          told := fun c => by
            obtain ⟨mail, hmail, hold⟩ := h.told c
            refine ⟨_, (hyes hall c).trans (by rw [hmail, List.append_assoc]), fun t => ?_⟩
            rw [List.filter_append]
            exact List.rel_append (hold t) (h.news hkey hall c t) }
    · refine ⟨{ a with
        waiting := queue.map entries
        dispatched := a.dispatched ++ [entries rows] }, ?_, ?_⟩
      · simp only [serviceStep, PubSub.step, hwaiting, if_neg hd]
      · rw [hno fun hall => hd ((h.deliverable_iff hkey).mpr hall)]
        exact { h with
          waiting := rfl
          dispatched := by simp [h.dispatched]
          queued := fun batch hbatch =>
            h.queued batch (by rw [hq]; exact List.mem_cons_of_mem _ hbatch) }

/-! ### Refinement -/

/-- **Every step of the broker is a step of the service**, or nothing. -/
theorem Refines.step {s' : System} {e : Event} (h : Refines base a s) (he : Keyed e)
    (hs : step s e = some s') :
    ∃ a', Runs.run serviceStep a (does s e).toList = some a' ∧ Refines base a' s' := by
  have hone : ∀ {d : ServiceEvent} {a' : ServiceState}, serviceStep a d = some a' →
      Runs.run serviceStep a (some d).toList = some a' := fun hd => by
    rw [Option.toList_some, Runs.run_cons, hd]
    rfl
  cases e with
  | addClient client =>
    cases hs
    refine ⟨_, rfl, { h with connected := fun id => ?_ }⟩
    simp only [Function.update_apply, Service.addClient]
    split_ifs with hid
    · rw [hid, AList.lookup_insert]
    · rw [AList.lookup_insert_ne hid, h.connected]
  | removeClient client_id =>
    cases hs
    refine ⟨_, rfl, { h with connected := fun id => ?_ }⟩
    simp only [Function.update_apply, Service.removeClient]
    split_ifs with hid
    · rw [hid, AList.lookup_erase]
    · rw [AList.lookup_erase_ne hid, h.connected]
  | sendRetained client t q tree =>
    cases hs
    exact h.sendRetained client t q tree
  | register client t q =>
    cases hs
    exact ⟨_, rfl, h.register client t q⟩
  | unsubscribe client topics =>
    cases hs
    refine ⟨_, rfl, ?_⟩
    convert h.unsubscribe client topics
  | publish p retain =>
    cases hs
    exact h.publish he
  | put k =>
    simp only [Service.step] at hs
    split at hs
    case h_1 => cases hs
    case h_2 rows hk =>
      cases hs
      obtain ⟨a', ha', hrefines⟩ := h.put hk
      exact ⟨a', hone ha', hrefines⟩
  | mainLoop =>
    obtain ⟨b, hb, rfl⟩ := Option.map_eq_some_iff.mp hs
    obtain ⟨a', ha', hrefines⟩ := h.mainLoop hb
    exact ⟨a', hone ha', hrefines⟩

end

end MoteBroker.Service

import Mathlib.Data.List.Perm.Basic
import MoteBroker.Incremental
import MoteBroker.Lib.Mirror
import MoteBroker.Lib.Runs
import MoteBroker.Subscriptions

/-!
A synced subscriber: it takes a snapshot of the tree and registers, while any number of
publishers update the tree and put their rows on the broadcast queue, and the main loop takes
them from it.
-/

namespace MoteBroker.SyncedSubscriber

open NestedDict Wildcard Mirror MoteBroker.Topics MoteBroker.RecursiveDefaultDict
open MoteBroker.TreeItems MoteBroker.FilterTree MoteBroker.CreateMessages MoteBroker.Rows
open MoteBroker.Messages MoteBroker.Retain MoteBroker.Broker MoteBroker.Subscriptions
open MoteBroker.Incremental

/-! ### The system -/

structure Subscriber where
  client : Client
  topic_str : Str
  qos : ℕ

/-- Where the subscriber's call of `subscribe` is; a snapshot is of the tree after a number of
updates. -/
inductive Phase
  | start
  | synced (updates : ℕ)
  | registered
  deriving DecidableEq

lemma Phase.cases (p : Phase) :
    p = .start ∨ (∃ updates, p = .synced updates) ∨ p = .registered := by
  cases p with
  | start => exact .inl rfl
  | synced updates => exact .inr (.inl ⟨updates, rfl⟩)
  | registered => exact .inr (.inr rfl)

structure System where
  broker : State
  /-- The rows of the publishers between the update of the tree and the queue, each under the
  number of its update. -/
  inFlight : List (ℕ × List Row)
  /-- The numbers of the batches in the broadcast queue. -/
  queued : List ℕ
  /-- The rows of all updates. -/
  history : List (List Row)
  phase : Phase

inductive Event
  | update (p : Publish)
  | put (i : ℕ)
  | mainLoop
  | sendRetained
  | register

def step (u : Subscriber) (s : System) : Event → Option System
  | .update p =>
    match IncomingMessage.fromRawData p.raw_topic p.data p.qos true with
    | .error _ => none
    | .ok message =>
      if message.table = .ok false then
        match s.broker.publishRows message with
        | (broker, .ok rows) =>
          some { s with broker := broker, inFlight := s.inFlight ++ [(s.history.length, rows)],
                        history := s.history ++ [rows] }
        | (broker, .error _) => some { s with broker := broker }
      else none
  | .put i =>
    match s.inFlight[i]? with
    | some (n, rows) =>
      some { s with broker := s.broker.broadcast rows, inFlight := s.inFlight.eraseIdx i,
                    queued := s.queued ++ [n] }
    | none => none
  | .mainLoop =>
    s.broker.mainLoop.map fun broker => { s with broker := broker, queued := s.queued.tail }
  | .sendRetained =>
    match s.phase, s.broker.sendRetained u.client u.topic_str u.qos true with
    | .start, .ok broker => some { s with broker := broker, phase := .synced s.history.length }
    | _, _ => none
  | .register =>
    match s.phase, s.broker.register u.client u.topic_str u.qos with
    | .synced _, .ok broker => some { s with broker := broker, phase := .registered }
    | _, _ => none

/-- What the messages about the topic in the subscriber's queue amount to, in their order. -/
def view (u : Subscriber) (queue : List OutgoingMessage) : View :=
  (queue.filter fun m => m.topic = u.topic_str).foldl
    (fun v m => m.data.override (split u.topic_str) v) fun _ => none

/-! ### When the subscriber is in step -/

/-- The batches that are on their way to the main loop. -/
def System.Pending (s : System) (n : ℕ) : Prop := n ∈ s.inFlight.map Prod.fst ∨ n ∈ s.queued

/-- Batch number `n` has a row for the topic. -/
def System.Updates (s : System) (n : ℕ) (topic : List Str) : Prop :=
  ∃ rows, s.history[n]? = some rows ∧ topic ∈ rows.map Row.topic

/-- A later update of the topic is still on its way. -/
def System.Covered (s : System) (n : ℕ) (topic : List Str) : Prop :=
  ∃ m, n < m ∧ s.Pending m ∧ s.Updates m topic

/-- The steps after which the subscriber can be in step. Payloads are text, and no key of a
payload tree is the separator. For every matching topic of the batch that the main loop takes:
between the snapshot and the registration, the batch was updated before the snapshot or a later
update of the topic is on its way; and afterwards, no batch with a later update of the topic has
been taken before it, unless a still later one is on its way. -/
def InStep (u : Subscriber) (s : System) : Event → Prop
  | .update p => ∀ message,
      IncomingMessage.fromRawData p.raw_topic p.data p.qos true = .ok message →
      Fit (fun n => n ≠ leafKey) Decodes message
  | .mainLoop => ∀ n queued topic, s.queued = n :: queued → s.Updates n topic →
      Matches manyCard (split u.topic_str) topic →
      match s.phase with
      | .start => True
      | .synced updates => updates ≤ n → s.Covered n topic
      | .registered => ∀ m, n < m → s.Updates m topic → s.Pending m ∨ s.Covered m topic
  | _ => True

/-- Every filter that is registered is the split of a string. -/
def Spelled (m : Registry) : Prop := ∀ F id, m (F, id) ≠ none → ∃ t, F = split t

/-- A subscriber that is connected but has neither subscribed nor been told anything about the
topic, and a broker in which nothing is under way. -/
structure Start (u : Subscriber) (s : System) : Prop where
  shape : Shape s.broker.treeManager.tree
  distinct : s.broker.treeManager.tree.Distinct
  decodes : ∀ p a, valueAt s.broker.treeManager.tree p = some a → Decodes a
  subscriptions : ∃ m, Represents s.broker.subscriptions m ∧
    Spelled m ∧ m (split u.topic_str, u.client.id) = none
  connected : s.broker.clients.lookup u.client.id = some u.client.conn
  unread : ∀ m ∈ s.broker.queues u.client, m.topic ≠ u.topic_str
  broadcastQueue : s.broker.broadcastQueue = []
  inFlight : s.inFlight = []
  queued : s.queued = []
  history : s.history = []
  phase : s.phase = .start

/-! ### Views -/

def treeView (F : List Str) (t : Rdd Payload) : View := fun c =>
  if c.length = F.count manyCard then present (valueAt t (fill manyCard F c)).join else none

/-- What rows write in the view of the filter. -/
def batch (F : List Str) (rows : List Row) : Batch (List Str) (Option Bytes) := fun c =>
  (written F rows c).map present

lemma batch_apply (F : List Str) (rows : List Row) (v : View) (c : List Str) :
    (batch F rows).apply v c = (written F rows c).elim (v c) present := by
  unfold Batch.apply batch
  cases written F rows c <;> rfl

/-- The entries of the view that rows write are those of their matching topics. -/
lemma batch_ne_none {F : List Str} (hE : everythingCard ∉ F) {rows : List Row} {c : List Str} :
    batch F rows c ≠ none ↔
      c.length = F.count manyCard ∧ fill manyCard F c ∈ rows.map Row.topic := by
  have hw : batch F rows c = none ↔ written F rows c = none := Option.map_eq_none_iff
  rw [Ne, hw]
  by_cases hc : c.length = F.count manyCard
  · rw [written, last_writes hE rows hc, LastWrite.last_eq_none]
    simp [hc]
  · simp [hc, written_length hE rows hc]

/-- The tree's view after rows have been retained. -/
lemma treeView_after {F : List Str} (hF : Path F) (hE : everythingCard ∉ F) {t t' : Rdd Payload}
    (hs : Shape t) (hd : t.Distinct) (hs' : Shape t') (hd' : t'.Distinct) {rows : List Row}
    (hval : ∀ p, valueAt t' p = LastWrite.overwrite (valueAt t) (leafWrites rows) p) :
    treeView F t' = (batch F rows).apply (treeView F t) := by
  obtain ⟨x, -, hx⟩ := filterTreeWithTopic_spec hF hE hs hd
  obtain ⟨x', -, hx'⟩ := filterTreeWithTopic_spec hF hE hs' hd'
  funext c
  have h := view_after hE hx hx' hval c
  rw [hx.view, hx'.view] at h
  rw [batch_apply]
  exact h

lemma view_append (u : Subscriber) (queue mail : List OutgoingMessage) :
    view u (queue ++ mail) =
      (mail.filter fun m => m.topic = u.topic_str).foldl
        (fun v m => m.data.override (split u.topic_str) v) (view u queue) := by
  rw [view, List.filter_append, List.foldl_append, ← view]

/-! ### What the main loop sends -/

/-- The messages to a client about one topic come from the messages under its filter. -/
lemma filter_mail {ms : List Message} {t id : Str}
    (h : ∀ m ∈ ms, ∃ t', m.base = split t') :
    (ms.filterMap (mailOf id)).filter (fun m => m.topic = t) =
      (ms.filter fun m => m.base = split t).filterMap (mailOf id) := by
  induction ms with
  | nil => rfl
  | cons m ms ih =>
    have ih := ih fun m hm => h m (List.mem_cons_of_mem _ hm)
    obtain ⟨t', ht'⟩ := h m List.mem_cons_self
    have hmail : ∀ o, mailOf id m = some o → o.topic = t' := by
      intro o ho
      unfold mailOf at ho
      split at ho
      · obtain ⟨q, -, rfl⟩ := Option.map_eq_some_iff.mp ho
        rw [ht', topicStr_split]
      · cases ho
    have hbase : m.base = split t ↔ t' = t := by
      rw [ht']
      exact ⟨fun e => split_injective e, fun e => congrArg split e⟩
    rw [List.filterMap_cons, List.filter_cons]
    cases ho : mailOf id m with
    | none =>
      by_cases hb : m.base = split t
      · simp [hb, ho, ih]
      · simp [hb, ih]
    | some o =>
      have hot := hmail o ho
      by_cases hb : m.base = split t
      · have : o.topic = t := hot.trans (hbase.mp hb)
        simp [hb, ho, ih, this]
      · have : o.topic ≠ t := fun e => hb (hbase.mpr (hot.symm.trans e))
        simp [hb, ih, this]

/-- **One turn of the main loop**: nothing but queues changes, a client that is not registered
for a topic is told nothing about it, and the view of one that is takes the batch. -/
lemma mainLoop_spec {u : Subscriber} (hE : everythingCard ∉ split u.topic_str) {b : State}
    {m : Registry} (hr : Represents b.subscriptions m) (hsp : Spelled m)
    (hconn : b.clients.lookup u.client.id = some u.client.conn) {rows : List Row}
    {queue : List (List Row)} (hq : b.broadcastQueue = rows :: queue)
    (hrows : ∀ row ∈ rows, Keeps (fun n => n ≠ leafKey) Decodes row) :
    ∃ queues mail, b.mainLoop = some { b with broadcastQueue := queue, queues := queues } ∧
      queues u.client = b.queues u.client ++ mail ∧
      (m (split u.topic_str, u.client.id) = none → ∀ msg ∈ mail, msg.topic ≠ u.topic_str) ∧
      (m (split u.topic_str, u.client.id) ≠ none → ∀ v : View,
        (mail.filter fun msg => msg.topic = u.topic_str).foldl
          (fun v msg => msg.data.override (split u.topic_str) v) v =
            (batch (split u.topic_str) rows).apply v) := by
  unfold State.mainLoop
  simp only [hq]
  by_cases hnil : rows = []
  · subst hnil
    refine ⟨b.queues, [], by simp, by simp, by simp, fun _ v => funext fun c => ?_⟩
    rw [batch_apply, written_nil (by simp [matching_zero])]
    rfl
  rw [if_neg hnil]
  have hdec : ∀ row ∈ rows, Decodes row.data := fun row hrow => (hrows row hrow).data
  obtain ⟨ms, hms, hall⟩ := createMessages_exact hr.shape
    (fun row hrow hk => (hrows row hrow).nodes _ hk rfl) hdec
  obtain ⟨queues, hqs, hmail⟩ := sendAll_spec { b with broadcastQueue := queue }
    fun msg hm => branch_of_mem hall hm
  have hmail : queues u.client = b.queues u.client ++ ms.filterMap (mailOf u.client.id) := by
    rw [hmail, mailFor_eq, if_pos hconn]
  -- the messages answer filters that are registered, so each is under the split of a string
  have hans : ∀ msg ∈ ms, ∃ x, valueAt b.subscriptions x.1 = some x.2 ∧ Answers rows x msg := by
    intro msg hm
    obtain ⟨x, hx, hxm⟩ := exists_answer hall hm
    exact ⟨x, (mem_subscribers hr.shape hr.distinct x.1 x.2).mp (List.mem_of_mem_filter hx), hxm⟩
  have hspelled : ∀ msg ∈ ms, ∃ t, msg.base = split t := by
    intro msg hm
    obtain ⟨x, hx, hxm⟩ := hans msg hm
    obtain ⟨id, q, hq⟩ := exists_lookup (hr.nonempty x.1 x.2 hx)
    have hreg : m (x.1, id) = some q := by rw [← hr.lookup, hx, Option.bind_some, hq]
    obtain ⟨t, ht⟩ := hsp x.1 id (by rw [hreg]; simp)
    exact ⟨t, hxm.base.trans ht⟩
  have hfilter := @filter_mail ms u.topic_str u.client.id hspelled
  refine ⟨queues, ms.filterMap (mailOf u.client.id),
    by simp [State.processOutgoingRows, hms, hqs], hmail, fun hno msg hm ht => ?_,
    fun hreg v => ?_⟩
  · have hin : msg ∈ (ms.filter fun m => m.base = split u.topic_str).filterMap
        (mailOf u.client.id) := by
      rw [← hfilter]
      exact List.mem_filter.mpr ⟨hm, by simpa using ht⟩
    obtain ⟨msg', hm', ho⟩ := List.mem_filterMap.mp hin
    obtain ⟨hmem, hbase⟩ := List.mem_filter.mp hm'
    obtain ⟨x, hx, hxm⟩ := hans msg' hmem
    have hx1 : x.1 = split u.topic_str := hxm.base.symm.trans (by simpa using hbase)
    have hlookup := hr.lookup x.1 u.client.id
    rw [hx, Option.bind_some, hx1, hno] at hlookup
    rw [mailOf, hxm.branch] at ho
    simp [hlookup] at ho
  · obtain ⟨q, hreg⟩ := Option.ne_none_iff_exists'.mp hreg
    rw [← hr.lookup] at hreg
    obtain ⟨cs, hcs, hlookup⟩ := Option.bind_eq_some_iff.mp hreg
    rw [hfilter]
    rcases message_for hr.shape hr.distinct hall hcs with ⟨hnone, hno⟩ | ⟨msg, hone, hmsg⟩
    · rw [hno]
      exact funext fun c => by rw [batch_apply, written_nil hnone]; rfl
    · rw [hone]
      have hout : mailOf u.client.id msg =
          some ⟨topicStr msg.base, q, .payload msg.data⟩ := by
        simp [mailOf, hmsg.branch, hlookup]
      simp only [List.filterMap_cons, hout, List.filterMap_nil, List.foldl_cons, List.foldl_nil]
      exact funext fun c => by
        rw [batch_apply]
        exact override_reply hE hmsg.data hdec v c

/-! ### The invariant -/

/-- The history as batches of writes to the view. -/
def System.batches (u : Subscriber) (s : System) : List (Batch (List Str) (Option Bytes)) :=
  s.history.map (batch (split u.topic_str))

def System.treeView (u : Subscriber) (s : System) : View :=
  SyncedSubscriber.treeView (split u.topic_str) s.broker.treeManager.tree

def System.view (u : Subscriber) (s : System) : View :=
  SyncedSubscriber.view u (s.broker.queues u.client)

/-- The batches that the subscriber will still be told about: until it is registered, those
updated since the snapshot. -/
def System.Awaited (s : System) (n : ℕ) : Prop :=
  s.Pending n ∧ ∀ updates, s.phase = .synced updates → updates ≤ n

structure Invariant (u : Subscriber) (s : System) : Prop where
  shape : Shape s.broker.treeManager.tree
  distinct : s.broker.treeManager.tree.Distinct
  decodes : ∀ p a, valueAt s.broker.treeManager.tree p = some a → Decodes a
  subscriptions : ∃ m, Represents s.broker.subscriptions m ∧ Spelled m ∧
    (m (split u.topic_str, u.client.id) ≠ none ↔ s.phase = .registered)
  connected : s.broker.clients.lookup u.client.id = some u.client.conn
  rows : ∀ rows ∈ s.history, ∀ row ∈ rows, Keeps (fun n => n ≠ leafKey) Decodes row
  inFlight : ∀ e ∈ s.inFlight, s.history[e.1]? = some e.2
  queued : List.Forall₂ (fun n rows => s.history[n]? = some rows) s.queued s.broker.broadcastQueue
  started : ∀ updates, s.phase = .synced updates → updates ≤ s.history.length
  current : Current (s.batches u) (s.treeView u)
  unread : s.phase = .start → ∀ m ∈ s.broker.queues u.client, m.topic ≠ u.topic_str
  caughtUp : s.phase ≠ .start → Behind (s.batches u) (s.treeView u) (s.view u) s.Awaited

lemma Start.invariant {u : Subscriber} {s : System} (h : Start u s) : Invariant u s where
  shape := h.shape
  distinct := h.distinct
  decodes := h.decodes
  subscriptions := by
    obtain ⟨m, hr, hsp, hno⟩ := h.subscriptions
    exact ⟨m, hr, hsp, by simp [hno, h.phase]⟩
  connected := h.connected
  rows := by simp [h.history]
  inFlight := by simp [h.inFlight]
  queued := by rw [h.queued, h.broadcastQueue]; exact .nil
  started := by simp [h.phase]
  current := by rw [System.batches, h.history]; exact current_nil _
  unread := fun _ => h.unread
  caughtUp := fun hne => absurd h.phase hne

/-! ### A publisher -/

lemma keysOf_ne (t : Rdd Payload) : KeysOf (fun n => n ≠ leafKey) t := by
  induction t with
  | nil => trivial
  | leaf k a r ih => exact ⟨id, ih⟩
  | node k s r ihs ih => exact ⟨id, ihs, ih⟩

lemma singleLevel_ne_leafKey (n : Str) (h : SingleLevel n) : n ≠ leafKey := h.ne_leafKey

/-- What a retained publish does to the tree when its data can be kept. -/
lemma publishRows_spec {b b' : State} {message : IncomingMessage} {r : Except Exc (List Row)}
    {s : Str} (hretain : message.retain = true) (hnodes : message.topic.nodeList = split s)
    (hs : Shape b.treeManager.tree) (hd : b.treeManager.tree.Distinct)
    (hf : Fit (fun n => n ≠ leafKey) Decodes message) (h : b.publishRows message = (b', r)) :
    (b' = b ∧ ∃ e, r = .error e) ∨ ∃ rows tree,
      r = .ok rows ∧ b' = { b with treeManager := ⟨tree, b.treeManager.tasks ++ rows⟩ } ∧
      Shape tree ∧ tree.Distinct ∧ (∀ row ∈ rows, Keeps (fun n => n ≠ leafKey) Decodes row) ∧
      ∀ p, valueAt tree p =
        LastWrite.overwrite (valueAt b.treeManager.tree) (leafWrites rows) p := by
  unfold State.publishRows at h
  rw [if_pos hretain] at h
  unfold TreeManager.processMessage at h
  cases hrows : messageRows message b.treeManager.tree with
  | error e =>
    rw [hrows] at h
    cases h
    exact .inl ⟨rfl, e, rfl⟩
  | ok rows =>
    have hkeep :=
      messageRows_ok singleLevel_ne_leafKey decodes_ofText hnodes hs hd (keysOf_ne _) hf hrows
    obtain ⟨tree, ht, hs', hd', -, hval⟩ := setLeaves_spec hs fun row hr =>
      ⟨(hkeep row hr).nonempty, fun hm => (hkeep row hr).nodes _ hm rfl⟩
    have hretained : b.treeManager.retainRows rows =
        (⟨tree, b.treeManager.tasks ++ rows⟩, none) := by
      simp [TreeManager.retainRows, TreeManager.addTasks, ht]
    simp only [hrows, hretained] at h
    cases h
    exact .inr ⟨rows, tree, rfl, rfl, hs', hd' hd, hkeep, hval⟩

lemma decodes_overwrite {t t' : Rdd Payload} {rows : List Row}
    (hd : ∀ p a, valueAt t p = some a → Decodes a) (hrows : ∀ row ∈ rows, Decodes row.data)
    (hval : ∀ p, valueAt t' p = LastWrite.overwrite (valueAt t) (leafWrites rows) p) (p : List Str)
    (a : Payload) (h : valueAt t' p = some a) : Decodes a := by
  rw [hval, LastWrite.overwrite, last_leafWrites] at h
  cases hl : LastWrite.last (rows.map fun row => (row.topic, row.data)) p with
  | none => rw [hl] at h; exact hd p a h
  | some d =>
    rw [hl] at h
    obtain ⟨row, hr, he⟩ := List.mem_map.mp (LastWrite.mem_of_last hl)
    cases h
    cases he
    exact hrows row hr

lemma Invariant.updated {u : Subscriber} (hE : everythingCard ∉ split u.topic_str) {s : System}
    (h : Invariant u s) {rows : List Row} {tree : Rdd Payload} (hs : Shape tree)
    (hd : tree.Distinct) (hkeep : ∀ row ∈ rows, Keeps (fun n => n ≠ leafKey) Decodes row)
    (hval : ∀ p, valueAt tree p =
      LastWrite.overwrite (valueAt s.broker.treeManager.tree) (leafWrites rows) p)
    (tasks : List Row) :
    Invariant u { s with
      broker := { s.broker with treeManager := ⟨tree, tasks⟩ }
      inFlight := s.inFlight ++ [(s.history.length, rows)]
      history := s.history ++ [rows] } := by
  have hold : ∀ {n : ℕ} {rows' : List Row}, s.history[n]? = some rows' →
      (s.history ++ [rows])[n]? = some rows' := fun hn => by
    rw [List.getElem?_append_left (List.getElem?_eq_some_iff.mp hn).1, hn]
  have hlength : (s.batches u).length = s.history.length := List.length_map _
  have hbatches : (s.history ++ [rows]).map (batch (split u.topic_str)) =
      s.batches u ++ [batch (split u.topic_str) rows] := by
    rw [List.map_append]; rfl
  have hview := treeView_after (path_split u.topic_str) hE h.shape h.distinct hs hd hval
  have hpending : ∀ n, s.Pending n →
      n ∈ (s.inFlight ++ [(s.history.length, rows)]).map Prod.fst ∨ n ∈ s.queued := fun n hn =>
    hn.imp_left fun hn => by rw [List.map_append]; exact List.mem_append_left _ hn
  refine ⟨hs, hd, decodes_overwrite h.decodes (fun row hr => (hkeep row hr).data) hval,
    h.subscriptions, h.connected, fun rows' hr => ?_, fun e he => ?_,
    h.queued.imp fun _ _ => hold, fun updates hu => ?_, ?_, h.unread, fun hne => ?_⟩
  · rcases List.mem_append.mp hr with hr | hr
    · exact h.rows rows' hr
    · rw [List.mem_singleton.mp hr]
      exact hkeep
  · rcases List.mem_append.mp he with he | he
    · exact hold (h.inFlight e he)
    · rw [List.mem_singleton.mp he]
      simp
  · have := h.started updates hu
    rw [List.length_append, List.length_singleton]
    omega
  · unfold System.batches System.treeView
    rw [hbatches, hview]
    exact h.current.append _
  · unfold System.batches System.treeView
    rw [hbatches, hview]
    refine (h.caughtUp hne).append _ ⟨?_, fun updates hu => ?_⟩ fun n hn => ⟨hpending n hn.1, hn.2⟩
    · rw [hlength]; exact .inl (by simp)
    · rw [hlength]; exact h.started updates hu

lemma Invariant.put {u : Subscriber} {s : System} (h : Invariant u s) {i n : ℕ} {rows : List Row}
    (hi : s.inFlight[i]? = some (n, rows)) :
    Invariant u { s with
      broker := s.broker.broadcast rows
      inFlight := s.inFlight.eraseIdx i
      queued := s.queued ++ [n] } := by
  obtain ⟨hlt, hget⟩ := List.getElem?_eq_some_iff.mp hi
  have hperm : ((n, rows) :: s.inFlight.eraseIdx i).Perm s.inFlight :=
    hget ▸ List.getElem_cons_eraseIdx_perm hlt
  have hmem : (n, rows) ∈ s.inFlight := List.mem_of_getElem? hi
  have hpending : ∀ m, s.Pending m →
      m ∈ (s.inFlight.eraseIdx i).map Prod.fst ∨ m ∈ s.queued ++ [n] := by
    intro m hm
    rcases hm with hm | hm
    · rcases List.mem_cons.mp ((hperm.map Prod.fst).mem_iff.mpr hm) with rfl | hm
      · exact .inr (by simp)
      · exact .inl hm
    · exact .inr (List.mem_append_left _ hm)
  refine ⟨h.shape, h.distinct, h.decodes, h.subscriptions, h.connected, h.rows, fun e he => ?_,
    ?_, h.started, h.current, h.unread, fun hne => ?_⟩
  · exact h.inFlight e (List.mem_of_mem_eraseIdx he)
  · exact List.rel_append h.queued (.cons (h.inFlight _ hmem) .nil)
  · exact (h.caughtUp hne).mono fun m hm => ⟨hpending m hm.1, hm.2⟩

/-! ### The main loop -/

lemma System.updates_of_batch {u : Subscriber} (hE : everythingCard ∉ split u.topic_str)
    {s : System} {n : ℕ} {b : Batch (List Str) (Option Bytes)} {c : List Str}
    (hb : (s.batches u)[n]? = some b) (hc : b c ≠ none) :
    c.length = (split u.topic_str).count manyCard ∧
      s.Updates n (fill manyCard (split u.topic_str) c) := by
  rw [System.batches, List.getElem?_map, Option.map_eq_some_iff] at hb
  obtain ⟨rows, hrows, rfl⟩ := hb
  have hwrite := (batch_ne_none hE).mp hc
  exact ⟨hwrite.1, rows, hrows, hwrite.2⟩

/-- A later update of a topic that is on its way covers the entry of the view. -/
lemma System.Covered.batches {u : Subscriber} (hE : everythingCard ∉ split u.topic_str)
    {s : System} {n : ℕ} {c : List Str} (hc : c.length = (split u.topic_str).count manyCard)
    (hn : ∀ updates, s.phase = .synced updates → updates ≤ n)
    (h : s.Covered n (fill manyCard (split u.topic_str) c)) :
    Mirror.Covered (s.batches u) s.Awaited n c := by
  obtain ⟨m, hm, hpending, rows, hrows, htopic⟩ := h
  refine ⟨m, batch (split u.topic_str) rows, hm, ⟨hpending, fun updates hu => ?_⟩, ?_,
    (batch_ne_none hE).mpr ⟨hc, htopic⟩⟩
  · have := hn updates hu
    omega
  · rw [System.batches, List.getElem?_map, hrows]; rfl

lemma Invariant.mainLoop {u : Subscriber} (hE : everythingCard ∉ split u.topic_str)
    {s s' : System} (h : Invariant u s) (hok : InStep u s .mainLoop)
    (hs : step u s .mainLoop = some s') : Invariant u s' := by
  obtain ⟨m, hr, hsp, hreg⟩ := h.subscriptions
  have hqueued := h.queued
  cases hq : s.broker.broadcastQueue with
  | nil => simp [step, State.mainLoop, hq] at hs
  | cons rows queue =>
    rw [hq] at hqueued
    obtain ⟨n, queued, hn, hrest, hnum⟩ := List.forall₂_cons_right_iff.mp hqueued
    have hkeep := h.rows rows (List.mem_of_getElem? hn)
    obtain ⟨queues, mail, hloop, hmail, hsilent, hheard⟩ :=
      mainLoop_spec hE hr hsp h.connected hq hkeep
    have hbatch : (s.batches u)[n]? = some (batch (split u.topic_str) rows) := by
      rw [System.batches, List.getElem?_map, hn]; rfl
    have hleft : ∀ k, s.Pending k ∧ k ≠ n → k ∈ s.inFlight.map Prod.fst ∨ k ∈ queued := by
      rintro k ⟨hk, hne⟩
      refine hk.imp_right fun hk => ?_
      rw [hnum] at hk
      exact (List.mem_cons.mp hk).resolve_left hne
    have hview : SyncedSubscriber.view u (queues u.client) =
        (mail.filter fun m => m.topic = u.topic_str).foldl
          (fun v m => m.data.override (split u.topic_str) v) (s.view u) := by
      rw [hmail, view_append]; rfl
    simp only [step, hloop, Option.map_some, hnum, List.tail_cons] at hs
    cases hs
    refine ⟨h.shape, h.distinct, h.decodes, ⟨m, hr, hsp, hreg⟩, h.connected, h.rows, h.inFlight,
      hrest, h.started, h.current, fun hstart msg hm => ?_, fun hne => ?_⟩
    · have hno : m (split u.topic_str, u.client.id) = none := by
        by_contra hsome
        exact absurd (hstart.symm.trans (hreg.mp hsome)) (by simp)
      have hm : msg ∈ s.broker.queues u.client ++ mail := hmail ▸ hm
      exact (List.mem_append.mp hm).elim (h.unread hstart msg) (hsilent hno msg)
    have hbehind := h.caughtUp hne
    have hupdates : ∀ {c}, batch (split u.topic_str) rows c ≠ none →
        c.length = (split u.topic_str).count manyCard ∧
          s.Updates n (fill manyCard (split u.topic_str) c) := fun hc =>
      System.updates_of_batch hE hbatch hc
    have hlast := fun {c} (hc : batch (split u.topic_str) rows c ≠ none) =>
      hok n queued _ hnum (hupdates hc).2 (matches_fill (hupdates hc).1)
    rcases s.phase.cases with hphase | ⟨updates, hphase⟩ | hphase
    · exact absurd hphase hne
    · simp only [hphase] at hlast
      have hno : m (split u.topic_str, u.client.id) = none := by
        by_contra hsome
        exact absurd (hphase.symm.trans (hreg.mp hsome)) (by simp)
      have hsame : SyncedSubscriber.view u (queues u.client) = s.view u := by
        have hnil : (mail.filter fun m => m.topic = u.topic_str) = [] :=
          List.filter_eq_nil_iff.mpr fun msg hm => by simpa using hsilent hno msg hm
        rw [hview, hnil]; rfl
      unfold System.view
      rw [hsame]
      by_cases hold : updates ≤ n
      · refine (hbehind.skip hbatch fun c hc => ?_).mono fun k hk =>
          ⟨hleft k ⟨hk.1.1, hk.2⟩, hk.1.2⟩
        refine (hlast hc hold).batches hE (hupdates hc).1 fun _ hu => ?_
        cases hphase.symm.trans hu
        exact hold
      · refine hbehind.mono fun k hk => ⟨hleft k ⟨hk.1, fun e => ?_⟩, hk.2⟩
        have := hk.2 updates hphase
        omega
    · simp only [hphase] at hlast
      have hsome : m (split u.topic_str, u.client.id) ≠ none := hreg.mpr hphase
      have hnot : ∀ k updates, s.phase = .synced updates → updates ≤ k := fun k updates hu =>
        absurd (hphase.symm.trans hu) (by simp)
      unfold System.view
      rw [hview, hheard hsome]
      refine (hbehind.deliver h.current hbatch fun c k d hc hk hd hdc => ?_).mono
        fun k hk => ⟨hleft k ⟨hk.1.1, hk.2⟩, hk.1.2⟩
      have hd := System.updates_of_batch hE hd hdc
      exact (hlast hc k hk hd.2).imp (fun hp => ⟨hp, hnot k⟩)
        fun hcov => hcov.batches hE hd.1 (hnot k)

/-! ### The subscriber -/

lemma sendRetained_spec {u : Subscriber} (hE : everythingCard ∉ split u.topic_str) {b b' : State}
    (hs : Shape b.treeManager.tree) (hd : b.treeManager.tree.Distinct)
    (hdec : ∀ p a, valueAt b.treeManager.tree p = some a → Decodes a)
    (hunread : ∀ m ∈ b.queues u.client, m.topic ≠ u.topic_str)
    (h : b.sendRetained u.client u.topic_str u.qos true = .ok b') :
    ∃ message, b' = b.queueMessage u.client message ∧
      view u (b'.queues u.client) = treeView (split u.topic_str) b.treeManager.tree := by
  obtain ⟨x, hx, hans⟩ := filterTreeWithTopic_spec (path_split u.topic_str) hE hs hd
  obtain ⟨message, hmessage, htopic, hover⟩ := fromTreeItem_spec hans hdec u.topic_str u.qos
  have hget : b.treeManager.getMessage (Topic.fromStr u.topic_str) u.qos = .ok message := by
    unfold TreeManager.getMessage TreeManager.filter
    rw [show (Topic.fromStr u.topic_str).nodeList = split u.topic_str from rfl, hx]
    exact hmessage
  unfold State.sendRetained at h
  rw [if_pos rfl, hget] at h
  cases h
  refine ⟨message, rfl, ?_⟩
  have hnil : ((b.queues u.client).filter fun m => m.topic = u.topic_str) = [] :=
    List.filter_eq_nil_iff.mpr fun m hm => by simpa using hunread m hm
  rw [queueMessage_self, view_append]
  have hview : view u (b.queues u.client) = fun _ => none := by rw [view, hnil]; rfl
  simp only [List.filter_cons, htopic, decide_true, if_true, List.filter_nil, List.foldl_cons,
    List.foldl_nil, hview, hover]
  exact funext hans.view

lemma Invariant.sendRetained {u : Subscriber} (hE : everythingCard ∉ split u.topic_str)
    {s s' : System} (h : Invariant u s) (hs : step u s .sendRetained = some s') :
    Invariant u s' := by
  simp only [step] at hs
  split at hs
  case h_1 broker hphase hsend =>
    cases hs
    obtain ⟨message, rfl, hview⟩ :=
      sendRetained_spec hE h.shape h.distinct h.decodes (h.unread hphase) hsend
    obtain ⟨m, hr, hsp, hreg⟩ := h.subscriptions
    refine ⟨h.shape, h.distinct, h.decodes, ⟨m, hr, hsp, ?_⟩, h.connected, h.rows, h.inFlight,
      h.queued, fun updates hu => ?_, h.current, fun hstart => ?_, fun _ => ?_⟩
    · rw [hreg, hphase]; simp
    · cases hu; exact le_refl _
    · cases hstart
    · unfold System.view
      rw [hview]
      exact behind_refl _ _ _
  case h_2 => cases hs

lemma Invariant.register {u : Subscriber} {s s' : System} (h : Invariant u s)
    (hs : step u s .register = some s') : Invariant u s' := by
  simp only [step] at hs
  split at hs
  case h_1 updates broker hphase hregister =>
    cases hs
    obtain ⟨m, hr, hsp, -⟩ := h.subscriptions
    obtain ⟨S', hS', hr'⟩ := hr.register u.client.id u.topic_str u.qos
    have hbroker : broker = { s.broker with subscriptions := S' } := by
      rw [State.register, hS'] at hregister
      exact (Except.ok.inj hregister).symm
    subst hbroker
    refine ⟨h.shape, h.distinct, h.decodes, ⟨_, hr', fun F id hne => ?_, by simp⟩, h.connected,
      h.rows, h.inFlight, h.queued, fun updates hu => ?_, h.current, fun hstart => ?_,
      fun _ => ?_⟩
    · by_cases hk : (F, id) = (split u.topic_str, u.client.id)
      · exact ⟨u.topic_str, congrArg Prod.fst hk⟩
      · rw [Function.update_of_ne hk] at hne
        exact hsp F id hne
    · cases hu
    · cases hstart
    · refine (h.caughtUp (by rw [hphase]; simp)).mono fun n hn => ⟨hn.1, fun _ hu => ?_⟩
      cases hu
  case h_2 => cases hs

/-! ### Runs -/

lemma Invariant.update {u : Subscriber} (hE : everythingCard ∉ split u.topic_str) {s s' : System}
    (h : Invariant u s) {p : Publish} (hok : InStep u s (.update p))
    (hs : step u s (.update p) = some s') : Invariant u s' := by
  simp only [step] at hs
  cases hmessage : IncomingMessage.fromRawData p.raw_topic p.data p.qos true with
  | error e => rw [hmessage] at hs; cases hs
  | ok message =>
    obtain ⟨hretain, t, hnodes⟩ := fromRawData_nodes hmessage
    have hfit := hok message hmessage
    simp only [hmessage] at hs
    split_ifs at hs with htable
    cases hpublish : s.broker.publishRows message with
    | mk broker r =>
      rcases publishRows_spec hretain hnodes h.shape h.distinct hfit hpublish with
        ⟨rfl, e, rfl⟩ | ⟨rows, tree, rfl, rfl, hshape, hdist, hkeep, hval⟩
      · rw [hpublish] at hs
        cases hs
        exact h
      · rw [hpublish] at hs
        cases hs
        exact h.updated hE hshape hdist hkeep hval _

lemma Invariant.step {u : Subscriber} (hE : everythingCard ∉ split u.topic_str) {s s' : System}
    {e : Event} (h : Invariant u s) (hok : InStep u s e)
    (hs : SyncedSubscriber.step u s e = some s') : Invariant u s' := by
  cases e with
  | update p => exact h.update hE hok hs
  | put i =>
    simp only [SyncedSubscriber.step] at hs
    split at hs
    case h_1 n rows hi => cases hs; exact h.put hi
    case h_2 => cases hs
  | mainLoop => exact h.mainLoop hE hok hs
  | sendRetained => exact h.sendRetained hE hs
  | register => exact h.register hs

/-- **A synced subscriber is in step** at the end of every run of publishers, main loop and
subscriber whose steps all keep it in step: once it is registered and nothing is under way, its
messages amount to what the filter finds in the tree. -/
theorem subscriber_in_step {u : Subscriber} (hE : everythingCard ∉ split u.topic_str)
    {s₀ s : System} (h0 : Start u s₀) {es : List Event}
    (hok : Runs.Meets (step u) (InStep u) s₀ es) (hrun : Runs.run (step u) s₀ es = some s)
    (hreg : s.phase = .registered) (hflight : s.inFlight = [])
    (hqueue : s.broker.broadcastQueue = []) :
    ∃ x, s.broker.treeManager.filter (Topic.fromStr u.topic_str) = .ok x ∧
      view u (s.broker.queues u.client) = x.view := by
  have h : Invariant u s := Runs.run_invariant
    (fun _ _ _ hi hok hs => hi.step hE hok hs) h0.invariant hok hrun
  obtain ⟨x, hx, hans⟩ :=
    filterTreeWithTopic_spec (path_split u.topic_str) hE h.shape h.distinct
  have hqueued : s.queued = [] := by
    have := h.queued
    rw [hqueue] at this
    exact List.forall₂_nil_right_iff.mp this
  have hnone : ∀ n, ¬s.Awaited n := by
    rintro n ⟨hn, -⟩
    simp [System.Pending, hflight, hqueued] at hn
  refine ⟨x, hx, ?_⟩
  calc view u (s.broker.queues u.client)
      = s.treeView u := (h.caughtUp (by rw [hreg]; simp)).eq hnone
    _ = x.view := (funext hans.view).symm

/-- A client that watches a light, and a broker in which nothing has happened. -/
def watcher : Subscriber := ⟨⟨"app".toList, 1⟩, "light".toList, 1⟩

def quiet : System :=
  ⟨{ initial with clients := (∅ : AList _).insert "app".toList 1 }, [], [], [], .start⟩

def lightOn : Publish := ⟨"light".toList, some [49], 0⟩

lemma start_quiet : Start watcher quiet where
  shape := shape_nil
  distinct := trivial
  decodes := fun p a h => by simp [quiet, initial] at h
  subscriptions := ⟨_, represents_nil, fun _ _ h => absurd rfl h, rfl⟩
  connected := rfl
  unread := fun _ h => nomatch h
  broadcastQueue := rfl
  inFlight := rfl
  queued := rfl
  history := rfl
  phase := rfl

lemma fit_lightOn (message : IncomingMessage)
    (h : IncomingMessage.fromRawData lightOn.raw_topic lightOn.data lightOn.qos true =
      .ok message) : Fit (fun n => n ≠ leafKey) Decodes message := by
  cases h
  intro b hb
  cases hb
  decide

theorem subscriber_in_step_light :
    ∃ s x, Runs.run (step watcher) quiet
        [.sendRetained, .register, .update lightOn, .put 0, .mainLoop] = some s ∧
      s.broker.treeManager.filter (Topic.fromStr watcher.topic_str) = .ok x ∧
      view watcher (s.broker.queues watcher.client) = x.view := by
  obtain ⟨s, hrun, hreg, hflight, hqueue⟩ : ∃ s, Runs.run (step watcher) quiet
      [.sendRetained, .register, .update lightOn, .put 0, .mainLoop] = some s ∧
      s.phase = .registered ∧ s.inFlight = [] ∧ s.broker.broadcastQueue = [] :=
    ⟨_, rfl, rfl, rfl, rfl⟩
  have hok : Runs.Meets (step watcher) (InStep watcher) quiet
      [.sendRetained, .register, .update lightOn, .put 0, .mainLoop] := by
    refine ⟨trivial, fun _ h => ⟨trivial, fun _ h₁ => ⟨fit_lightOn, fun _ h₂ =>
      ⟨trivial, fun _ h₃ => ⟨fun n queued topic _ _ _ => ?_, fun _ _ => trivial⟩⟩⟩⟩⟩
    cases h; cases h₁; cases h₂; cases h₃
    intro m hlt hm
    obtain ⟨rows, hrows, -⟩ := hm
    have hm : m < 1 := (List.getElem?_eq_some_iff.mp hrows).1
    omega
  obtain ⟨x, hx, hview⟩ :=
    subscriber_in_step (by decide) start_quiet hok hrun hreg hflight hqueue
  exact ⟨s, x, hrun, hx, hview⟩

/-- An update that is dispatched between the snapshot and the registration is never sent. -/
theorem update_before_registration_is_lost :
    Start watcher quiet ∧ ∃ s x, Runs.run (step watcher) quiet
        [.sendRetained, .update lightOn, .put 0, .mainLoop, .register] = some s ∧
      s.phase = .registered ∧ s.inFlight = [] ∧ s.broker.broadcastQueue = [] ∧
      s.broker.treeManager.filter (Topic.fromStr watcher.topic_str) = .ok x ∧
      x.view [] = some [49] ∧ view watcher (s.broker.queues watcher.client) [] = none :=
  ⟨start_quiet, _, _, rfl, rfl, rfl, rfl, rfl, rfl, rfl⟩

end MoteBroker.SyncedSubscriber

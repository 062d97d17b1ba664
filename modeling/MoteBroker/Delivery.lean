import MoteBroker.AllOrNothing
import MoteBroker.Service

/-!
Runs of the broker as runs of the service: what becomes of the batches that are published, and what
a client hears of them while it stays connected and subscribed.
-/

namespace MoteBroker.Delivery

open Wildcard MoteBroker.Topics MoteBroker.RecursiveDefaultDict MoteBroker.TreeItems
open MoteBroker.CreateMessages MoteBroker.Rows MoteBroker.Messages MoteBroker.Retain
open MoteBroker.Broker MoteBroker.Subscriptions MoteBroker.Service

/-! ### Runs of the broker and runs of the service -/

section
variable {base : Client → List OutgoingMessage} {a : ServiceState} {s s' : System}
  {es : List Event}

lemma refines_of_run (h : Refines base a s) (hkeyed : ∀ e ∈ es, Keyed e)
    (hrun : Runs.run step s es = some s') :
    ∃ a', Runs.run serviceStep a (Runs.doings step does s es) = some a' ∧ Refines base a' s' :=
  Runs.simulation (fun _ _ _ _ h he hs => h.step he hs) h
    (Runs.meets_of_forall s fun e he _ => hkeyed e he) hrun

end

/-- A client connects and watches every light; then a light is reported. -/
def watching : List Event :=
  [.addClient ⟨"app".toList, 1⟩, .register ⟨"app".toList, 1⟩ "light/+".toList 1]

def lit : List Event := [.publish ⟨"light/bedroom".toList, some [49], 0⟩ false, .put 0, .mainLoop]

lemma keyed_lit : ∀ e ∈ watching ++ lit, Keyed e := by
  intro e he
  have hcases : e = .addClient ⟨"app".toList, 1⟩ ∨
      e = .register ⟨"app".toList, 1⟩ "light/+".toList 1 ∨
      e = .publish ⟨"light/bedroom".toList, some [49], 0⟩ false ∨ e = .put 0 ∨ e = .mainLoop := by
    simpa [watching, lit] using he
  rcases hcases with rfl | rfl | rfl | rfl | rfl
  case inr.inr.inl => exact fun _ _ h => absurd h Bool.false_ne_true
  all_goals trivial

def watched : System := (Runs.run step initial watching).getD initial

def told : System := (Runs.run step watched lit).getD initial

lemma run_watching : Runs.run step initial watching = some watched := rfl

lemma run_lit : Runs.run step watched lit = some told := rfl

lemma sendRetained_eq (b : State) (client : Client) (t : Str) (q : ℕ) (tree : Bool) :
    ∃ queues, (b.sendRetained client t q tree).toOption.getD b = { b with queues := queues } := by
  cases hsend : b.sendRetained client t q tree with
  | error e => exact ⟨b.queues, rfl⟩
  | ok b' =>
    unfold State.sendRetained at hsend
    split_ifs at hsend
    · obtain ⟨m, -, rfl⟩ := ok_of_map hsend
      exact ⟨_, rfl⟩
    · split at hsend <;> cases hsend
      exact ⟨b.queues, rfl⟩

lemma register_eq (b : State) (client : Client) (t : Str) (q : ℕ) :
    ∃ S, (b.register client t q).toOption.getD b = { b with subscriptions := S } := by
  cases hregister : b.register client t q with
  | error e => exact ⟨b.subscriptions, rfl⟩
  | ok b' =>
    obtain ⟨S, -, rfl⟩ := ok_of_map hregister
    exact ⟨S, rfl⟩

lemma unsubscribe_eq (b : State) (client : Client) (topics : List Str) :
    ∃ S, (b.unsubscribe client topics).toOption.getD b = { b with subscriptions := S } := by
  cases hunsubscribe : b.unsubscribe client topics with
  | error e => exact ⟨b.subscriptions, rfl⟩
  | ok b' =>
    obtain ⟨S, -, rfl⟩ := ok_of_map hunsubscribe
    exact ⟨S, rfl⟩

/-- A publish looks at the retained tree only, and changes it or the tasks for the tables. -/
lemma compute_eq (tm : TreeManager) (p : Publish) (retain : Bool) : ∃ tasks tm' rows,
    (tm' = tm ∨ ∃ message, tm' = (tm.processMessage message).1) ∧
    ∀ b : State, b.treeManager = tm → compute b p retain =
      ({ b with treeManager := tm', tableTasks := b.tableTasks ++ tasks }, rows) := by
  unfold compute
  cases IncomingMessage.fromRawData p.raw_topic p.data p.qos retain with
  | error e => exact ⟨[], tm, none, .inl rfl, fun b hb => by simp [← hb]⟩
  | ok message =>
    cases htable : message.table with
    | error e => exact ⟨[], tm, none, .inl rfl, fun b hb => by simp [htable, ← hb]⟩
    | ok table =>
      cases table with
      | true =>
        exact ⟨[⟨message.topic.nodeList, message.data, message.qos⟩], tm, none, .inl rfl,
          fun b hb => by simp [State.publish, htable, ← hb]⟩
      | false =>
        by_cases hretain : message.retain = true
        · exact ⟨[], _, (tm.processMessage message).2.toOption, .inr ⟨message, rfl⟩, fun b hb => by
            simp [State.publishRows, htable, hretain, hb]⟩
        · exact ⟨[], tm, (message.asSingleRow.map fun row => [row]).toOption, .inl rfl,
            fun b hb => by simp [State.publishRows, htable, hretain, ← hb]⟩

/-! ### Reachable states -/

/-- What holds of the broker whatever has been published. -/
structure Sound (b : State) : Prop where
  registered : ∃ m, Represents b.subscriptions m ∧ ∀ F id, m (F, id) ≠ none → ∃ t, F = split t
  wellFormed : AllOrNothing.WellFormed b.treeManager.tree

section
variable {s s' : System} {e : Event} {es : List Event}

lemma Sound.of_eq {b b' : State} (h : Sound b) (hs : b'.subscriptions = b.subscriptions)
    (ht : b'.treeManager = b.treeManager) : Sound b' :=
  ⟨hs ▸ h.registered, ht ▸ h.wellFormed⟩

lemma Sound.register {b : State} (h : Sound b) (client : Client) (t : Str) (q : ℕ) :
    Sound ((b.register client t q).toOption.getD b) := by
  obtain ⟨m, hm, hspelled⟩ := h.registered
  obtain ⟨S', hS', hr⟩ := hm.register client.id t q
  have hregister : b.register client t q = .ok { b with subscriptions := S' } := by
    simp [State.register, hS', Except.map]
  rw [hregister]
  refine ⟨⟨_, hr, fun F id hF => ?_⟩, h.wellFormed⟩
  rw [Function.update_apply] at hF
  split_ifs at hF with hk
  · exact ⟨t, congrArg Prod.fst hk⟩
  · exact hspelled F id hF

lemma Sound.unsubscribe {b : State} (h : Sound b) (client : Client) (topics : List Str) :
    Sound ((b.unsubscribe client topics).toOption.getD b) := by
  obtain ⟨m, hm, hspelled⟩ := h.registered
  obtain ⟨S', hS', hr⟩ := hm.unsubscribeTopics client.id topics
  have hunsubscribe : b.unsubscribe client topics = .ok { b with subscriptions := S' } := by
    simp [State.unsubscribe, hS', Except.map]
  rw [hunsubscribe]
  refine ⟨⟨_, hr, fun F id hF => ?_⟩, h.wellFormed⟩
  dsimp only at hF
  split_ifs at hF
  · exact absurd rfl hF
  · exact hspelled F id hF

lemma Sound.compute {b : State} (h : Sound b) (p : Publish) (retain : Bool) :
    Sound (compute b p retain).1 := by
  obtain ⟨tasks, tm, rows, htm, hcompute⟩ := compute_eq b.treeManager p retain
  rw [hcompute b rfl]
  rcases htm with rfl | ⟨message, rfl⟩
  · exact h.of_eq rfl rfl
  · exact ⟨h.registered, AllOrNothing.processMessage_wellFormed h.wellFormed message⟩

lemma Sound.step (h : Sound s.broker) (hs : step s e = some s') : Sound s'.broker := by
  cases e with
  | addClient | removeClient =>
    cases hs
    exact h.of_eq rfl rfl
  | sendRetained c t q tree =>
    cases hs
    obtain ⟨queues, hqueues⟩ := sendRetained_eq s.broker c t q tree
    exact h.of_eq (by rw [hqueues]) (by rw [hqueues])
  | register c t q => cases hs; exact h.register c t q
  | unsubscribe c topics => cases hs; exact h.unsubscribe c topics
  | publish p retain => cases hs; exact h.compute p retain
  | put k =>
    simp only [Service.step] at hs
    split at hs <;> cases hs
    exact h.of_eq rfl rfl
  | mainLoop =>
    obtain ⟨b, hb, rfl⟩ := Option.map_eq_some_iff.mp hs
    obtain ⟨rows, queue, queues, -, rfl⟩ := mainLoop_cases hb
    exact h.of_eq rfl rfl

lemma sound_initial : Sound Broker.initial where
  registered := ⟨fun _ => none, represents_nil, fun _ _ h => absurd rfl h⟩
  wellFormed := ⟨shape_nil, trivial⟩

lemma sound_of_run (hrun : Runs.run step initial es = some s) : Sound s.broker :=
  @Runs.run_invariant_of_step _ _ step (fun s => Sound s.broker) (fun _ _ _ h hs => h.step hs) _ _ _
    sound_initial hrun

/-- The batches on their way keep clear of the leaf key. -/
def Pending (s : System) : Prop := ∀ rows ∈ s.computed ++ s.broker.broadcastQueue, Clear rows

/-- The service that has what the broker has, and has told nothing yet. -/
lemma exists_refines (h : Sound s.broker) (hpending : Pending s) :
    ∃ a, Refines s.broker.queues a s ∧ ∀ c F, a.told c F = [] := by
  obtain ⟨m, hm, hspelled⟩ := h.registered
  refine ⟨⟨fun id => s.broker.clients.lookup id, fun F id => m (F, id),
    valueAt s.broker.treeManager.tree, s.computed.map entries,
    s.broker.broadcastQueue.map entries, s.dispatched.map entries, fun _ _ => []⟩, ?_,
    fun _ _ => rfl⟩
  exact {
    connected := fun _ => rfl
    registered := hm
    spelled := hspelled
    shape := h.wellFormed.shape
    distinct := h.wellFormed.distinct
    retained := rfl
    accepted := rfl
    waiting := rfl
    dispatched := rfl
    computed := fun rows hr => hpending rows (List.mem_append_left _ hr)
    queued := fun rows hr => hpending rows (List.mem_append_right _ hr)
    told := fun _ => ⟨[], (List.append_nil _).symm, fun _ => .nil⟩ }

end

/-! ### What becomes of the batches -/

/-- The event is about the client and the filter. -/
def Touches (client : Client) (topic_str : Str) : Event → Prop
  | .addClient c => c.id = client.id
  | .removeClient client_id => client_id = client.id
  | .sendRetained c t _ _ => c = client ∧ t = topic_str
  | .register c t _ => t = topic_str ∧ c.id = client.id
  | .unsubscribe c topics => c.id = client.id ∧ topic_str ∈ topics
  | _ => False

section
variable {s s' : System} {e : Event} {es fs : List Event} {client : Client} {t : Str} {q : ℕ}

lemma not_touches_of_does {d : ServiceEvent} (hd : does s e = some d) (h : ¬Touches client t e) :
    ¬PubSub.Touches (client.id, client.conn) (split t) d := by
  cases e with
  | addClient c | removeClient client_id =>
    cases hd
    exact h
  | sendRetained c u q tree =>
    have htold : ¬((c.id, c.conn) = (client.id, client.conn) ∧ split u = split t) := by
      rintro ⟨hc, hu⟩
      exact h ⟨client_eq.mp hc, split_injective hu⟩
    simp only [does] at hd
    split at hd
    case h_1 => cases hd
    case h_2 =>
      split_ifs at hd
      cases hd
      exact htold
  | register c u q =>
    cases hd
    rintro ⟨hu, hc⟩
    exact h ⟨split_injective hu, hc⟩
  | unsubscribe c topics =>
    cases hd
    rintro ⟨hc, hin⟩
    obtain ⟨u, hu, he⟩ := List.mem_map.mp hin
    exact h ⟨hc, split_injective he ▸ hu⟩
  | publish p retain =>
    obtain ⟨rows, -, rfl⟩ := Option.map_eq_some_iff.mp hd
    exact id
  | put k | mainLoop =>
    cases hd
    exact id

lemma dispatched_of_step (hs : step s e = some s') : s.dispatched <+: s'.dispatched := by
  cases e with
  | put k =>
    simp only [step] at hs
    split at hs <;> cases hs
    exact List.prefix_refl _
  | mainLoop =>
    obtain ⟨b, -, rfl⟩ := Option.map_eq_some_iff.mp hs
    exact List.prefix_append _ _
  | addClient | removeClient | sendRetained | register | unsubscribe | publish =>
    cases hs
    exact List.prefix_refl _

lemma dispatched_of_run {es : List Event} (hrun : Runs.run step s es = some s') :
    s.dispatched <+: s'.dispatched := by
  have hstep : ∀ u e u', s.dispatched <+: u.dispatched → step u e = some u' →
      s.dispatched <+: u'.dispatched := fun u e u' hu hs => hu.trans (dispatched_of_step hs)
  exact Runs.run_invariant_of_step hstep (List.prefix_refl _) hrun

/-- A message under the client's filter says what the rows say, as it is built from them. -/
structure SaysRows (t : Str) (q : ℕ) (rows : List Row) (m : OutgoingMessage) : Prop where
  topic : m.topic = t
  qos : m.qos = q
  data : ∃ data, m.data = .payload data ∧
    buildMessageData (matching rows 0 (split t)) (split t) (decide (manyCard ∈ split t)) =
      .ok data ∧ Reply (split t) (matching rows 0 (split t)) data

lemma SaysRows.unique {rows : List Row} {m m' : OutgoingMessage} (h : SaysRows t q rows m)
    (h' : SaysRows t q rows m') : m = m' := by
  obtain ⟨topic, qos, data⟩ := m
  obtain ⟨topic', qos', data'⟩ := m'
  obtain ⟨rfl, rfl, d, rfl, hd, -⟩ := h
  obtain ⟨rfl, rfl, d', rfl, hd', -⟩ := h'
  rw [Except.ok.inj (hd.symm.trans hd')]

section
variable {rows rows' : List Row} {F : List Str}

lemma buildTree_congr (he : entries rows = entries rows') (tree : Rdd Payload) :
    buildTree F tree rows = buildTree F tree rows' := by
  induction rows generalizing rows' tree with
  | nil =>
    obtain rfl := List.map_eq_nil_iff.mp he.symm
    rfl
  | cons row rows ih =>
    obtain ⟨row', rows', rfl, hrow, hrows⟩ := List.map_eq_cons_iff.mp he.symm
    obtain ⟨htopic, hdata⟩ := Prod.mk.inj hrow
    simp only [buildTree, htopic, hdata]
    cases assignPath row.data tree (captured F row.topic) with
    | error e => rfl
    | ok tree => exact ih hrows.symm tree

lemma buildMessageData_congr (he : entries rows = entries rows') (wildcards : Bool) :
    buildMessageData rows F wildcards = buildMessageData rows' F wildcards := by
  have hlast : rows.getLast?.map Row.data = rows'.getLast?.map Row.data := by
    have hdata : ∀ rows : List Row, (entries rows).map Prod.snd = rows.map Row.data := fun _ => by
      simp [entries]
    rw [← List.getLast?_map, ← List.getLast?_map, ← hdata, ← hdata, he]
  unfold buildMessageData
  split_ifs
  · rw [buildTree_congr he]
  · cases h : rows.getLast? <;> cases h' : rows'.getLast? <;> simp_all

lemma reply_congr {data : Payload} (h : Reply F rows data) (he : entries rows = entries rows') :
    Reply F rows' data := by
  have hdata : ∀ rows : List Row, rows.map Row.data = (entries rows).map Prod.snd := fun rows => by
    simp [entries]
  have hwrites : ∀ rows : List Row, writes F rows =
      (entries rows).map fun entry => (captured F entry.1, entry.2) := fun rows => by
    simp [entries, writes]
  cases h with
  | payload static last =>
    refine .payload static ?_
    rw [← List.getLast?_map, hdata, ← he, ← hdata, List.getLast?_map]
    exact last
  | object wildcard b j bytes json uniform pruned leaves =>
    refine .object wildcard b j bytes json uniform pruned ?_
    rw [hwrites, ← he, ← hwrites]
    exact leaves

end

/-- What is said of some rows is said of others with the same topics and payloads. -/
lemma says_of_means {rows : List Row} {batch : Batch} {m : OutgoingMessage}
    (he : batch = entries (matching rows 0 (split t))) (h : Means t (.news q batch) m) :
    SaysRows t q rows m := by
  cases h with
  | news built reply =>
    exact ⟨rfl, rfl, _, rfl, (buildMessageData_congr he _).symm.trans built, reply_congr reply he⟩

lemma SaysRows.congr {rows rows' : List Row} {m : OutgoingMessage} (h : SaysRows t q rows m)
    (he : entries rows = entries rows') : SaysRows t q rows' m := by
  have hm : entries (matching rows 0 (split t)) = entries (matching rows' 0 (split t)) := by
    rw [← about_entries, he, about_entries]
  obtain ⟨data, hdata, built, reply⟩ := h.data
  exact ⟨h.topic, h.qos, data, hdata, (buildMessageData_congr hm _).symm.trans built,
    reply_congr reply hm⟩

lemma forall₂_join {α β γ : Type} {R : α → β → Prop} {S : α → γ → Prop} {T : β → γ → Prop}
    (h : ∀ x y z, R x y → S x z → T y z) {xs : List α} {ys : List β} {zs : List γ}
    (hy : List.Forall₂ R xs ys) (hz : List.Forall₂ S xs zs) : List.Forall₂ T ys zs := by
  induction hy generalizing zs with
  | nil =>
    cases hz
    exact .nil
  | cons hxy _ ih =>
    cases hz with
    | cons hxz hz => exact .cons (h _ _ _ hxy hxz) (ih hz)

/-- The batches that have rows for the filter. -/
def newsworthy (t : Str) (batches : List (List Row)) : List (List Row) :=
  batches.filter fun rows => matching rows 0 (split t) ≠ []

lemma newsworthy_entries (t : Str) (batches : List (List Row)) :
    PubSub.newsworthy (Matches manyCard) (split t) (batches.map entries) =
      (newsworthy t batches).map entries := by
  unfold PubSub.newsworthy newsworthy
  rw [List.filter_map]
  refine congrArg _ (List.filter_congr fun rows _ => ?_)
  have hnil : entries (matching rows 0 (split t)) = [] ↔ matching rows 0 (split t) = [] :=
    List.map_eq_nil_iff
  simp [about_entries, hnil]

lemma legible_of_text {rows : List Row} (h : ∀ row ∈ rows, Decodes row.data) (F : List Str) :
    Legible F (PubSub.about (Matches manyCard) F (entries rows)) := by
  rw [about_entries]
  intro _ topic data hlast
  obtain ⟨row, hrow, he⟩ := List.mem_map.mp (LastWrite.mem_of_last hlast)
  cases he
  exact h row (List.mem_of_mem_filter hrow)

/-- What becomes of the batches that are dispatched in a run: some of them, all if they are texts,
are served, and a client that stays registered for a filter is queued one message for each of these
that has rows for the filter. -/
structure Served (fs : List Event) (s s' : System) (batches served : List (List Row)) : Prop where
  dispatched : s'.dispatched = s.dispatched ++ batches
  sublist : served.Sublist batches
  all : (∀ rows ∈ batches, ∀ row ∈ rows, Decodes row.data) → served = batches
  stays : ∀ client t q, (∀ e ∈ fs, ¬Touches client t e) →
    s.broker.clients.lookup client.id = some client.conn →
    (valueAt s.broker.subscriptions (split t)).bind (fun cs => cs.lookup client.id) = some q →
      ∃ mail, mailUnder s'.broker client t = mailUnder s.broker client t ++ mail ∧
        List.Forall₂ (SaysRows t q) (newsworthy t served) mail

lemma served_of_run (h : Sound s.broker) (hpending : Pending s) (hkeyed : ∀ e ∈ fs, Keyed e)
    (hfs : Runs.run step s fs = some s') : ∃ batches served, Served fs s s' batches served := by
  obtain ⟨a, ha, hsilent⟩ := exists_refines h hpending
  obtain ⟨a', hrun, ha'⟩ := refines_of_run ha hkeyed hfs
  -- the service's account of the run
  obtain ⟨batches, served, hserves⟩ := PubSub.serves_of_run hrun
  -- and the broker's
  obtain ⟨rest, hrest⟩ := dispatched_of_run hfs
  have hbatches := hserves.dispatched
  rw [ha'.dispatched, ha.dispatched, ← hrest, List.map_append] at hbatches
  obtain rfl := List.append_cancel_left hbatches
  obtain ⟨served, hsub, rfl⟩ := List.sublist_map_iff.mp hserves.sublist
  refine ⟨rest, served, hrest.symm, hsub, fun htext => ?_, fun client t q hfree hc hr => ?_⟩
  · refine hsub.eq_of_length ?_
    have hsame := hserves.all fun batch hbatch G => by
      obtain ⟨rows, hrows, rfl⟩ := List.mem_map.mp hbatch
      exact legible_of_text (htext rows hrows) G
    simpa using congrArg List.length hsame
  · obtain ⟨-, -, htold⟩ := hserves.stays (client.id, client.conn) (split t) q
      (fun d hd => by
        obtain ⟨u, e, he, hdoes⟩ := Runs.mem_doings hd
        exact not_touches_of_does hdoes (hfree e he))
      (by rw [ha.connected, hc]) (by rw [← hr, ha.registered.lookup])
    obtain ⟨mail, hmail, hmeans⟩ := ha'.told client
    refine ⟨mail.filter fun m => m.topic = t, by rw [mailUnder, hmail, List.filter_append]; rfl, ?_⟩
    have hmeans := hmeans t
    rw [htold, hsilent, List.nil_append, newsworthy_entries, List.map_map,
      List.forall₂_map_left_iff] at hmeans
    exact hmeans.imp fun rows m hm => says_of_means (about_entries _ _) hm

/-- **A batch goes to all or to none**: whatever is done in a run, there are batches among those
that the main loop takes, all if their payloads are texts, which are the same for all clients: every
client that stays connected and registered for a filter is queued under it exactly one message for
each of these that has rows for the filter, in their order, with its qos, and saying what these rows
say. -/
theorem all_or_none (hes : Runs.run step initial es = some s) (hpending : Pending s)
    (hkeyed : ∀ e ∈ fs, Keyed e) (hfs : Runs.run step s fs = some s') :
    ∃ batches served, s'.dispatched = s.dispatched ++ batches ∧ served.Sublist batches ∧
      ((∀ rows ∈ batches, ∀ row ∈ rows, Decodes row.data) → served = batches) ∧
      ∀ client t q, (∀ e ∈ fs, ¬Touches client t e) →
        s.broker.clients.lookup client.id = some client.conn →
        (valueAt s.broker.subscriptions (split t)).bind (fun cs => cs.lookup client.id) = some q →
          ∃ mail, mailUnder s'.broker client t = mailUnder s.broker client t ++ mail ∧
            List.Forall₂ (SaysRows t q) (newsworthy t served) mail := by
  obtain ⟨batches, served, h⟩ := served_of_run (sound_of_run hes) hpending hkeyed hfs
  exact ⟨batches, served, h.dispatched, h.sublist, h.all, h.stays⟩

end

lemma pending_watched : Pending watched := fun _ h => absurd h List.not_mem_nil

lemma keyed_of_lit : ∀ e ∈ lit, Keyed e := fun e he => keyed_lit e (List.mem_append_right _ he)

lemma free_of_lit (client : Client) (t : Str) : ∀ e ∈ lit, ¬Touches client t e := by
  intro e he
  have hcases : e = .publish ⟨"light/bedroom".toList, some [49], 0⟩ false ∨ e = .put 0 ∨
      e = .mainLoop := by simpa [lit] using he
  rcases hcases with rfl | rfl | rfl <;> exact id

def lightRows : List Row := [⟨["light".toList, "bedroom".toList], some [49], 0⟩]

lemma text_lightRows : ∀ rows ∈ [lightRows], ∀ row ∈ rows, Decodes row.data := by
  intro rows hrows row hrow b hb
  obtain rfl := List.mem_singleton.mp hrows
  obtain rfl := List.mem_singleton.mp hrow
  cases hb
  decide

/-- The batch of the light is served, and the app is queued its message. -/
theorem all_or_none_lit :
    ∃ m, mailUnder told.broker ⟨"app".toList, 1⟩ "light/+".toList = [m] ∧
      SaysRows "light/+".toList 1 lightRows m := by
  obtain ⟨batches, served, hdispatched, -, hall, hstays⟩ :=
    all_or_none run_watching pending_watched keyed_of_lit run_lit
  obtain rfl : batches = [lightRows] := hdispatched.symm
  obtain rfl := hall text_lightRows
  obtain ⟨mail, hmail, hsays⟩ := hstays ⟨"app".toList, 1⟩ "light/+".toList 1
    (free_of_lit _ _) (by rfl) (by rfl)
  cases hsays with
  | cons hm hnil =>
    cases hnil
    exact ⟨_, hmail, hm⟩

/-! ### What others do -/

/-- The event is a publisher's or the main loop's. -/
def publishing : Event → Bool
  | .publish _ _ | .put _ | .mainLoop => true
  | _ => false

/-- What such events read and write, but for the queues of the clients. -/
def stream (s : System) : TreeManager × List (List Row) × List (List Row) × List (List Row) :=
  (s.broker.treeManager, s.computed, s.broker.broadcastQueue, s.dispatched)

section
variable {s s' u u' : System} {e : Event} {es fs fs' : List Event}

lemma stream_of_other (he : publishing e = false) (hs : step s e = some s') :
    stream s' = stream s := by
  cases e with
  | publish | put | mainLoop => cases he
  | addClient | removeClient =>
    cases hs
    rfl
  | sendRetained c t q tree =>
    cases hs
    obtain ⟨queues, hqueues⟩ := sendRetained_eq s.broker c t q tree
    simp only [stream, hqueues]
  | register c t q =>
    cases hs
    obtain ⟨S, hS⟩ := register_eq s.broker c t q
    simp only [stream, hS]
  | unsubscribe c topics =>
    cases hs
    obtain ⟨S, hS⟩ := unsubscribe_eq s.broker c topics
    simp only [stream, hS]

/-- Where the streams are the same, such an event can be taken in both, and they stay so. -/
lemma stream_of_publishing (he : publishing e = true) (h : stream s = stream u)
    (hs : step s e = some s') : ∃ u', step u e = some u' ∧ stream s' = stream u' := by
  obtain ⟨htree, hcomputed, hqueue, hdispatched⟩ :
      s.broker.treeManager = u.broker.treeManager ∧ s.computed = u.computed ∧
      s.broker.broadcastQueue = u.broker.broadcastQueue ∧ s.dispatched = u.dispatched := by
    simpa [stream] using h
  cases e with
  | addClient | removeClient | sendRetained | register | unsubscribe => cases he
  | publish p retain =>
    cases hs
    obtain ⟨tasks, tm, rows, -, hcompute⟩ := compute_eq u.broker.treeManager p retain
    refine ⟨_, rfl, ?_⟩
    simp only [stream, hcompute s.broker htree, hcompute u.broker rfl, hcomputed, hqueue,
      hdispatched]
  | put k =>
    simp only [step] at hs
    split at hs
    case h_1 => cases hs
    case h_2 rows hk =>
      cases hs
      rw [hcomputed] at hk
      have hu : step u (.put k) = some { u with
          broker := u.broker.broadcast rows, computed := u.computed.eraseIdx k } := by
        simp only [step, hk]
      refine ⟨_, hu, ?_⟩
      simp only [stream, State.broadcast, htree, hcomputed, hqueue, hdispatched]
  | mainLoop =>
    obtain ⟨b, hb, rfl⟩ := Option.map_eq_some_iff.mp hs
    obtain ⟨rows, queue, queues, hrows, rfl⟩ := mainLoop_cases hb
    rw [hqueue] at hrows
    obtain ⟨b', hb'⟩ := exists_mainLoop hrows
    obtain ⟨rows', queue', queues', hrows', rfl⟩ := mainLoop_cases hb'
    obtain ⟨rfl, rfl⟩ := List.cons.inj (hrows.symm.trans hrows')
    refine ⟨_, Option.map_eq_some_iff.mpr ⟨_, hb', rfl⟩, ?_⟩
    simp only [stream, htree, hcomputed, hqueue, hdispatched]

/-- The other events can be left out. -/
lemma run_publishing (h : stream s = stream u) (hrun : Runs.run step s es = some s') :
    ∃ u', Runs.run step u (es.filter publishing) = some u' ∧ stream s' = stream u' := by
  induction es generalizing s u with
  | nil =>
    cases hrun
    exact ⟨u, rfl, h⟩
  | cons e es ih =>
    obtain ⟨t, ht, hrun⟩ := Option.bind_eq_some_iff.mp hrun
    by_cases he : publishing e = true
    · obtain ⟨v, hv, htv⟩ := stream_of_publishing he h ht
      obtain ⟨u', hu', hsame⟩ := ih htv hrun
      refine ⟨u', ?_, hsame⟩
      rw [List.filter_cons_of_pos he, Runs.run_cons, hv]
      exact hu'
    · rw [List.filter_cons_of_neg he]
      exact ih ((stream_of_other (Bool.not_eq_true _ ▸ he) ht).trans h) hrun

/-- **What a client hears is no matter of others**: from one state on, let the same be published,
put and dispatched in two runs, texts only, whatever else the other clients do in each of them. A
client that stays connected and registered for a filter is queued the same messages under it. -/
theorem hears_alike {client : Client} {t : Str} {q : ℕ} {batches : List (List Row)}
    (hes : Runs.run step initial es = some s) (hpending : Pending s) (hkeyed : ∀ e ∈ fs, Keyed e)
    (hfs : Runs.run step s fs = some u) (hfs' : Runs.run step s fs' = some u')
    (hsame : fs.filter publishing = fs'.filter publishing)
    (hbatches : u.dispatched = s.dispatched ++ batches)
    (htext : ∀ rows ∈ batches, ∀ row ∈ rows, Decodes row.data)
    (hc : s.broker.clients.lookup client.id = some client.conn)
    (hr : (valueAt s.broker.subscriptions (split t)).bind (fun cs => cs.lookup client.id) = some q)
    (hfree : ∀ e ∈ fs ++ fs', ¬Touches client t e) :
    mailUnder u.broker client t = mailUnder u'.broker client t := by
  have hkeyed' : ∀ e ∈ fs', Keyed e := fun e he => by
    cases e with
    | publish p retain =>
      have hin := List.mem_filter.mpr ⟨he, (rfl : publishing (.publish p retain) = true)⟩
      rw [← hsame] at hin
      exact hkeyed _ (List.mem_of_mem_filter hin)
    | _ => trivial
  -- the main loop takes the same batches in both runs
  obtain ⟨v, hv, huv⟩ := run_publishing (rfl : stream s = stream s) hfs
  obtain ⟨v', hv', huv'⟩ := run_publishing (rfl : stream s = stream s) hfs'
  rw [hsame, hv'] at hv
  obtain rfl := Option.some.inj hv
  have hdispatched : u.dispatched = u'.dispatched :=
    congrArg (fun x => x.2.2.2) (huv.trans huv'.symm)
  have hsound := sound_of_run hes
  obtain ⟨rows, served, h⟩ := served_of_run hsound hpending hkeyed hfs
  obtain ⟨rows', served', h'⟩ := served_of_run hsound hpending hkeyed' hfs'
  obtain rfl := List.append_cancel_left (h.dispatched.symm.trans hbatches)
  obtain rfl := List.append_cancel_left
    (h'.dispatched.symm.trans (hdispatched.symm.trans h.dispatched))
  obtain rfl := h.all htext
  obtain rfl := h'.all htext
  -- of which the client is told the same
  obtain ⟨mail, hmail, hsays⟩ :=
    h.stays client t q (fun e he => hfree e (List.mem_append_left _ he)) hc hr
  obtain ⟨mail', hmail', hsays'⟩ :=
    h'.stays client t q (fun e he => hfree e (List.mem_append_right _ he)) hc hr
  have hunique : ∀ (rows : List Row) (m m' : OutgoingMessage), SaysRows t q rows m →
      SaysRows t q rows m' → m = m' := fun _ _ _ hm hm' => hm.unique hm'
  have heq := forall₂_join hunique hsays hsays'
  rw [List.forall₂_eq_eq_eq] at heq
  rw [hmail, hmail', heq]

end

/-- Meanwhile another client comes, asks for everything, and goes. -/
def litAmong : List Event :=
  [.addClient ⟨"tv".toList, 2⟩, .publish ⟨"light/bedroom".toList, some [49], 0⟩ false,
    .register ⟨"tv".toList, 2⟩ "light/bedroom".toList 0, .put 0,
    .sendRetained ⟨"tv".toList, 2⟩ "light/+".toList 0 true, .mainLoop,
    .unsubscribe ⟨"tv".toList, 2⟩ ["light/bedroom".toList], .removeClient "tv".toList]

def toldAmong : System := (Runs.run step watched litAmong).getD initial

lemma run_litAmong : Runs.run step watched litAmong = some toldAmong := rfl

lemma free_of_litAmong : ∀ e ∈ litAmong, ¬Touches ⟨"app".toList, 1⟩ "light/+".toList e := by
  intro e he
  have hcases : e = .addClient ⟨"tv".toList, 2⟩ ∨
      e = .publish ⟨"light/bedroom".toList, some [49], 0⟩ false ∨
      e = .register ⟨"tv".toList, 2⟩ "light/bedroom".toList 0 ∨ e = .put 0 ∨
      e = .sendRetained ⟨"tv".toList, 2⟩ "light/+".toList 0 true ∨ e = .mainLoop ∨
      e = .unsubscribe ⟨"tv".toList, 2⟩ ["light/bedroom".toList] ∨
      e = .removeClient "tv".toList := by
    simpa [litAmong] using he
  rcases hcases with rfl | rfl | rfl | rfl | rfl | rfl | rfl | rfl <;> simp [Touches]

theorem hears_alike_lit :
    (mailUnder told.broker ⟨"app".toList, 1⟩ "light/+".toList).length = 1 ∧
      mailUnder told.broker ⟨"app".toList, 1⟩ "light/+".toList =
        mailUnder toldAmong.broker ⟨"app".toList, 1⟩ "light/+".toList := by
  have hbatches : told.dispatched = watched.dispatched ++ [lightRows] := rfl
  refine ⟨rfl, ?_⟩
  refine hears_alike (q := 1) run_watching pending_watched keyed_of_lit run_lit run_litAmong rfl
    hbatches text_lightRows (by rfl) (by rfl) fun e he => ?_
  exact (List.mem_append.mp he).elim (free_of_lit _ _ e) (free_of_litAmong e)

end MoteBroker.Delivery

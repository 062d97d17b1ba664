import MoteBroker.Subscriptions
import MoteBroker.Walk

/-!
Isolation of the subscribers: what one turn of the main loop queues for the clients of a filter,
in brokers that differ in what else is subscribed.
-/

namespace MoteBroker.Isolation

open NestedDict Wildcard MoteBroker.Topics MoteBroker.RecursiveDefaultDict
open MoteBroker.TreeItems MoteBroker.Messages MoteBroker.CreateMessages MoteBroker.Broker
open MoteBroker.Walk

/-! ### The property -/

/-- What one turn of the main loop puts in a client's queue under the string of a filter. -/
def queuedFor (s : State) (client : Client) (topic_str : Str) : List OutgoingMessage :=
  match s.mainLoop with
  | some s' =>
    ((s'.queues client).drop (s.queues client).length).filter fun m => m.topic = topic_str
  | none => []

/-- The clients of the filter are queued the same by any two brokers in which the filter has
these clients and the same clients are connected, when the main loop takes the rows. -/
def Isolated (rows : List Row) (topic_str : Str) (cs : ClientSet) : Prop :=
  ∀ s s' : State, s.broadcastQueue.head? = some rows → s'.broadcastQueue.head? = some rows →
    s.clients = s'.clients → Valid s.subscriptions → Valid s'.subscriptions →
    valueAt s.subscriptions (split topic_str) = some cs →
    valueAt s'.subscriptions (split topic_str) = some cs →
    ∀ client : Client, cs.lookup client.id ≠ none →
      queuedFor s client topic_str = queuedFor s' client topic_str

/-! ### One turn of the main loop -/

section
variable {rows : List Row} {s : State}

/-- What a turn of the main loop that takes the rows queues under a topic. -/
lemma queuedFor_cases (hrows : s.broadcastQueue.head? = some rows) (hne : rows ≠ [])
    (client : Client) (topic_str : Str) :
    ((∃ e, createMessagesForSubscriptions s.subscriptions rows = .error e) ∧
        queuedFor s client topic_str = []) ∨
      ∃ ms, createMessagesForSubscriptions s.subscriptions rows = .ok ms ∧
        (∃ sent, sent <+: ms ∧ queuedFor s client topic_str =
          (mailFor s client sent).filter fun m => m.topic = topic_str) ∧
        ((∀ m ∈ ms, ∃ cs, m.branch = .clients cs) → queuedFor s client topic_str =
          (mailFor s client ms).filter fun m => m.topic = topic_str) := by
  obtain ⟨queue, hqueue⟩ : ∃ queue, s.broadcastQueue = rows :: queue :=
    ⟨s.broadcastQueue.tail, List.eq_cons_of_mem_head? hrows⟩
  have hmain : s.mainLoop = some (({ s with broadcastQueue := queue } : State).processOutgoingRows
      rows).1 := by
    unfold State.mainLoop
    rw [hqueue]
    exact if_neg hne
  cases hwalk : createMessagesForSubscriptions s.subscriptions rows with
  | error e =>
    refine .inl ⟨⟨e, rfl⟩, ?_⟩
    simp only [queuedFor, hmain, State.processOutgoingRows, hwalk, List.drop_length,
      List.filter_nil]
  | ok ms =>
    refine .inr ⟨ms, rfl, ?_, fun hclients => ?_⟩
    · obtain ⟨sent, queues, hsent, hqueues, hmail⟩ :=
        sendAll_sent { s with broadcastQueue := queue } ms
      refine ⟨sent, hsent, ?_⟩
      simp only [queuedFor, hmain, State.processOutgoingRows, hwalk, hqueues]
      rw [hmail, List.drop_left]
      rfl
    · obtain ⟨queues, hqueues, hmail⟩ := sendAll_spec { s with broadcastQueue := queue } hclients
      simp only [queuedFor, hmain, State.processOutgoingRows, hwalk, hqueues]
      rw [hmail, List.drop_left]
      rfl

/-- If the walk answers every filter, the mail of the filter is queued. -/
lemma queuedFor_of_answers (hrows : s.broadcastQueue.head? = some rows) (hne : rows ≠ [])
    (hS : Valid s.subscriptions) {topic_str : Str} {cs : ClientSet}
    (hF : valueAt s.subscriptions (split topic_str) = some cs)
    (hall : ∀ F cs, valueAt s.subscriptions F = some cs →
      walkAt cs F rows [] 0 false = .ok (messagesFor rows (F, cs))) (client : Client) :
    queuedFor s client topic_str = if s.clients.lookup client.id = some client.conn then
      (messagesFor rows (split topic_str, cs)).filterMap (mailOf client.id) else [] := by
  have hmem := mem_subscribers hS.shape hS.distinct
  have hwalk : createMessagesForSubscriptions s.subscriptions rows =
      .ok ((subscribers s.subscriptions).flatMap (messagesFor rows)) := by
    rw [createMessagesForSubscriptions, createMessages_walk hS.shape]
    exact concatAll_ok fun x hx => hall x.1 x.2 ((hmem x.1 x.2).mp hx)
  have hclients : ∀ msg ∈ (subscribers s.subscriptions).flatMap (messagesFor rows),
      ∃ cs, msg.branch = .clients cs := by
    intro msg hmsg
    obtain ⟨x, -, hx⟩ := List.mem_flatMap.mp hmsg
    exact ⟨x.2, (messagesFor_base hx).1⟩
  rcases queuedFor_cases hrows hne client topic_str with ⟨⟨e, herr⟩, -⟩ | ⟨ms, hms, -, hqueued⟩
  · rw [hwalk] at herr
    cases herr
  · obtain rfl := Except.ok.inj (hwalk.symm.trans hms)
    rw [hqueued hclients, mailFor_eq]
    split_ifs with hc
    · exact mail_flatMap rows (subscribers_nodup hS.shape hS.distinct)
        (fun x hx => hS.spelled x.1 x.2 ((hmem x.1 x.2).mp hx)) ((hmem _ _).mpr hF) client.id
    · rfl

/-- A filter that is not answered gets nothing, whatever becomes of the walk. -/
lemma queuedFor_of_not_answered (hrows : s.broadcastQueue.head? = some rows)
    (hS : Valid s.subscriptions) {topic_str : Str} (hno : ¬Answered rows (split topic_str))
    (client : Client) : queuedFor s client topic_str = [] := by
  by_cases hne : rows = []
  · subst hne
    have hqueue := List.eq_cons_of_mem_head? hrows
    have hmain : s.mainLoop = some { s with broadcastQueue := s.broadcastQueue.tail } := by
      unfold State.mainLoop
      rw [hqueue]
      exact if_pos rfl
    simp only [queuedFor, hmain, List.drop_length, List.filter_nil]
  · rcases queuedFor_cases hrows hne client topic_str with ⟨-, hnone⟩ | ⟨ms, hms, ⟨sent, hsent,
      hqueued⟩, -⟩
    · exact hnone
    · rw [hqueued, mailFor_eq]
      split_ifs
      · refine List.filter_eq_nil_iff.mpr fun m hm heq => hno ?_
        obtain ⟨msg, hmsg, hmail⟩ := List.mem_filterMap.mp hm
        -- mail comes from a filter that is answered, and has the filter's string for its topic
        obtain ⟨F, cs, ms', hF, hwalk, hmsg⟩ :=
          (createMessages_ok hS hms).2 msg (hsent.subset hmsg)
        rcases walkAt_cases rows F cs with ⟨ha, data, hdata⟩ | ⟨-, hqos⟩
        · obtain rfl := Except.ok.inj (hwalk.symm.trans hdata)
          cases List.mem_singleton.mp hmsg
          obtain ⟨t, rfl⟩ := hS.spelled F cs hF
          obtain ⟨q, -, rfl⟩ := Option.map_eq_some_iff.mp hmail
          have htopic : topicStr (split t) = topic_str := of_decide_eq_true heq
          rw [topicStr_split] at htopic
          rwa [← htopic]
        · obtain ⟨n, hn⟩ := hqos ms' hwalk msg hmsg
          simp only [mailOf, hn] at hmail
          cases hmail
      · rfl

/-- Where the walk towards one filter fails, nobody gets anything. -/
lemma queuedFor_of_error (hrows : s.broadcastQueue.head? = some rows) (hne : rows ≠ [])
    (hS : Valid s.subscriptions) {F : List Str} {cs : ClientSet}
    (hF : valueAt s.subscriptions F = some cs)
    (herr : ¬∃ ms, walkAt cs F rows [] 0 false = .ok ms) (client : Client) (topic_str : Str) :
    queuedFor s client topic_str = [] := by
  rcases queuedFor_cases hrows hne client topic_str with ⟨-, hnone⟩ | ⟨ms, hms, -⟩
  · exact hnone
  · exact absurd ((createMessages_ok hS hms).1 F cs hF) herr

end

/-! ### Isolation -/

/-- A filter that the walk cannot answer keeps the batch from the clients of those that it can. -/
lemma not_isolated {rows : List Row} {topic_str : Str} {cs : ClientSet} (hcs : cs ≠ ∅)
    (ha : Answered rows (split topic_str)) (other : Str) (cs' : ClientSet)
    (herr : ¬∃ ms, walkAt cs' (split other) rows [] 0 false = .ok ms) :
    ¬Isolated rows topic_str cs := by
  intro hiso
  obtain ⟨id, q, hq⟩ := Subscriptions.exists_lookup hcs
  have hmatching := matching_ne_nil.mpr ha.matching
  have hrows : rows ≠ [] := by
    obtain ⟨row, hrow, -⟩ := ha.matching
    exact List.ne_nil_of_mem hrow
  obtain ⟨data, hanswer⟩ : ∃ data, ∀ cs, answer rows [] 0 false (split topic_str) cs =
      .ok [⟨.clients cs, split topic_str, data⟩] := by
    obtain ⟨data, hdata⟩ := (buildMessageData_ok_iff hmatching).mpr ha
    exact ⟨data, fun cs => by simp [answer, hmatching, hdata]⟩
  have hwalk : ∀ cs, walkAt cs (split topic_str) rows [] 0 false =
      .ok [⟨.clients cs, split topic_str, data⟩] := fun cs => by
    rw [walkAt_matched cs hmatching, hanswer]
  have hother : split other ≠ split topic_str := fun heq => herr ⟨_, heq ▸ hwalk cs'⟩
  obtain ⟨S, hS, hvalue⟩ := exists_tree valid_nil topic_str cs
  obtain ⟨S', hS', hvalue'⟩ := exists_tree hS other cs'
  have hF : valueAt S (split topic_str) = some cs := by rw [hvalue, if_pos rfl]
  have hF' : valueAt S' (split topic_str) = some cs := by
    rw [hvalue', if_neg (Ne.symm hother), hF]
  let s : State := { initial with
    clients := (∅ : AList _).insert id 0, subscriptions := S, broadcastQueue := [rows] }
  let s' : State := { s with subscriptions := S' }
  have heq := hiso s s' rfl rfl rfl hS hS' hF hF' ⟨id, 0⟩ (by rw [hq]; simp)
  have hmessages : messagesFor rows (split topic_str, cs) =
      [⟨.clients cs, split topic_str, data⟩] := by simp only [messagesFor, hanswer]
  have hqueued := queuedFor_of_answers (s := s) rfl hrows hS hF (fun G ds hG => by
    rw [hvalue, valueAt_nil] at hG
    split_ifs at hG with h
    cases hG
    rw [h, hwalk, hmessages]) ⟨id, 0⟩
  have hG : valueAt S' (split other) = some cs' := by rw [hvalue', if_pos rfl]
  have hnone := queuedFor_of_error (s := s') rfl hrows hS' hG herr ⟨id, 0⟩ topic_str
  have hconnected : s.clients.lookup id = some 0 := AList.lookup_insert _
  rw [heq, hnone, if_pos hconnected, hmessages] at hqueued
  simp [mailOf, hq] at hqueued

/-- **The subscribers of a filter are isolated** from all others exactly in the batches that have
no message for it, and in those that can be answered whatever is subscribed. -/
theorem isolated_iff (rows : List Row) (topic_str : Str) {cs : ClientSet} (hcs : cs ≠ ∅) :
    Isolated rows topic_str cs ↔ (Answered rows (split topic_str) →
      Legible rows ∧ ∀ row ∈ rows, leafKey ∈ row.topic → Closed rows row.topic) := by
  rw [← answerable_iff]
  refine ⟨?_, ?_⟩
  · intro hiso ha other cs'
    by_contra herr
    exact not_isolated hcs ha other cs' herr hiso
  · intro h s s' hrows hrows' hclients hS hS' hF hF' client _
    by_cases ha : Answered rows (split topic_str)
    · have hne : rows ≠ [] := by
        obtain ⟨row, hrow, -⟩ := ha.matching
        exact List.ne_nil_of_mem hrow
      have hall : ∀ {S : Rdd ClientSet}, Valid S → ∀ F cs, valueAt S F = some cs →
          walkAt cs F rows [] 0 false = .ok (messagesFor rows (F, cs)) := by
        intro S hS F cs hvalue
        obtain ⟨t, rfl⟩ := hS.spelled F cs hvalue
        obtain ⟨ms, hms⟩ := h ha t cs
        have hanswer := walkAt_closed (answerable_iff.mp (h ha)).2 t cs
        rw [hms] at hanswer
        simp only [messagesFor, ← hanswer, hms]
      rw [queuedFor_of_answers hrows hne hS hF (hall hS),
        queuedFor_of_answers hrows' hne hS' hF' (hall hS'), hclients]
    · rw [queuedFor_of_not_answered hrows hS ha, queuedFor_of_not_answered hrows' hS' ha]

/-- One client, with qos 1. -/
def app : ClientSet := (∅ : ClientSet).insert "app".toList 1

lemma app_ne_empty : app ≠ ∅ := by
  intro h
  have hlookup : app.lookup "app".toList = some 1 := AList.lookup_insert _
  rw [h, AList.lookup_empty] at hlookup
  cases hlookup

/-- A batch about a door, and a batch with a picture in it. -/
def doorRows : List Row := [⟨["door".toList], some [49], 0⟩]
def pictureRows : List Row := [⟨["door".toList], some [49], 0⟩, ⟨["picture".toList], some [255], 0⟩]

theorem isolated_door : Isolated doorRows "door".toList app := by
  refine (isolated_iff doorRows "door".toList app_ne_empty).mpr fun _ =>
    ⟨fun topic data _ hlast => ?_, fun row hrow hin => ?_⟩
  · have hmem := LastWrite.mem_of_last hlast
    obtain ⟨-, rfl⟩ := Prod.mk.inj (List.mem_singleton.mp hmem)
    intro b hb
    cases hb
    decide
  · obtain rfl := List.mem_singleton.mp hrow
    exact absurd hin (by decide)

/-- A picture keeps a message about the door from its clients, if someone subscribes to `+`. -/
theorem picture_keeps_door_from_clients : ¬Isolated pictureRows "door".toList app := by
  have hanswered : Answered pictureRows (split "door".toList) :=
    ⟨⟨_, List.mem_cons_self, by decide⟩, fun hcard => absurd hcard (by decide),
      fun hcard => absurd hcard (by decide)⟩
  have herr : walkAt app (split "+".toList) pictureRows [] 0 false =
      .error .unicodeDecodeError := rfl
  refine not_isolated app_ne_empty hanswered "+".toList app ?_
  rintro ⟨ms, hms⟩
  rw [herr] at hms
  cases hms

end MoteBroker.Isolation

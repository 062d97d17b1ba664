import MoteBroker.Delivery
import MoteBroker.Granted
import MoteBroker.Routable

/-!
The way of a message through the broker: from the bytes of a PUBLISH packet that a client sends to
the bytes of those that the subscribers of its topic read.
-/

namespace MoteBroker.Journey

open ByteReader Wildcard MoteBroker.Topics MoteBroker.RecursiveDefaultDict MoteBroker.TreeItems
open MoteBroker.CreateMessages MoteBroker.Messages MoteBroker.Streams MoteBroker.PacketTypes
open MoteBroker.Packets MoteBroker.Broker MoteBroker.Walk
open MoteBroker.Granted hiding Event step lit
open MoteBroker.Service MoteBroker.Delivery

/-! ### Into the broker -/

/-- What `IncomingMessage.from_packet` passes to `from_raw_data`. -/
def rawData (packet : Packet) : Option (Publish × Bool) :=
  match packet.kwargs .topic, packet.kwargs .data, packet.flags with
  | some (.value (.str topic)), some (.value .none), .publish flags =>
    some (⟨topic, none, flags.qos⟩, flags.retain)
  | some (.value (.str topic)), some (.value (.bytes data)), .publish flags =>
    some (⟨topic, some data, flags.qos⟩, flags.retain)
  | _, _, _ => none

/-- The packet of a client that publishes. -/
def clientPacket (p : Publish) (retain : Bool) (id : Option ℕ) : Packet :=
  { messagePacket ⟨p.raw_topic, p.qos, .payload p.data⟩ id with
    flags := .publish (.fromKwargs retain p.qos) }

lemma clientPacket_fits {p : Publish} {id : Option ℕ} (hqos : p.qos ≤ 3)
    (htopic : (Utf8.encode p.raw_topic).length < 65536)
    (hid : Numbered ⟨p.raw_topic, p.qos, .payload p.data⟩ id) (hdata : p.data ≠ some [])
    (hlength : payloadLength ⟨p.raw_topic, p.qos, .payload p.data⟩ < 2 ^ 28) (retain : Bool) :
    (clientPacket p retain id).Fits :=
  have hmeant : Meant (.payload p.data) := ⟨nofun, fun h => hdata (by injection h)⟩
  have hfits := @messagePacket_fits ⟨p.raw_topic, p.qos, .payload p.data⟩ id hqos htopic hid hmeant
    hlength
  { written := hfits.written, flags := publish_flags_fit retain hqos
    fields := hfits.fields, length := hfits.length }

/-- What is read from a client's packet is what it was made from. -/
lemma rawData_of_same {p : Publish} {id : Option ℕ} {retain : Bool} {packet : Packet}
    (h : (clientPacket p retain id).Same packet) : rawData packet = some (p, retain) := by
  have htopic : packet.kwargs .topic = some (.value (.str p.raw_topic)) :=
    h.enabled (.topic, .basic .dynamicStr) List.mem_cons_self rfl
  have hdata : packet.kwargs .data = some (.value (dataValue (.payload p.data))) :=
    h.enabled (.data, .basic .remainingBytes)
      (by simp [clientPacket, messagePacket, PacketClass.fields]) rfl
  have hflags : packet.flags = .publish (.fromKwargs retain p.qos) := h.flags
  obtain ⟨raw_topic, data, qos⟩ := p
  unfold rawData
  rw [htopic, hdata, hflags]
  cases data <;> rfl

/-- A topic that is routable: it has no wildcards, is neither a table's nor a graft's, and does not
begin with the separator. -/
structure Plain (topic_str : Str) (retain : Bool) : Prop where
  nonempty : topic_str ≠ []
  many : '+' ∉ topic_str
  every : '#' ∉ topic_str
  table : topic_str.head? ≠ some tableFlag
  first : topic_str.head? ≠ some topicSep
  graft : retain = true → topic_str.getLast? ≠ some topicSep

/-- The row of a publish to a plain topic. -/
def rowOf (p : Publish) : Row := ⟨split p.raw_topic, p.data, p.qos⟩

lemma compute_plain {b : State} (hs : Shape b.treeManager.tree) {p : Publish} {retain : Bool}
    (h : Plain p.raw_topic retain) :
    ∃ tm, compute b p retain = ({ b with treeManager := tm }, some [rowOf p]) := by
  obtain ⟨tm, hrows, -⟩ := Routable.publishRows_plain hs (Routable.static_split h.many h.every)
    p.data p.qos retain
  have hraw := Routable.fromRawData_plain h.nonempty h.graft p.data p.qos
  have htable : (Topic.fromStr p.raw_topic).forTable = .ok false := by
    obtain ⟨c, rest, hcons⟩ := List.exists_cons_of_ne_nil h.nonempty
    have hfirst := h.first
    have htable := h.table
    rw [hcons] at hfirst htable ⊢
    rw [forTable_cons (fun hc => hfirst (congrArg some hc)),
      decide_eq_false fun hc => htable (congrArg some hc)]
  refine ⟨tm, ?_⟩
  simp only [compute, hraw, IncomingMessage.table, htable, hrows]
  rfl

lemma keyed_plain {p : Publish} {retain : Bool} (h : Plain p.raw_topic retain) :
    Keyed (.publish p retain) := by
  intro message hmessage _
  rw [Routable.fromRawData_plain h.nonempty h.graft] at hmessage
  cases hmessage
  trivial

/-! ### Publishing and hearing -/

/-- What an event publishes. -/
def publication : Event → Option (Publish × Bool)
  | .publish p retain => some (p, retain)
  | _ => none

/-- What is published in a run. -/
def publishes (es : List Event) : List (Publish × Bool) := es.filterMap publication

lemma mem_publishes {p : Publish} {retain : Bool} {es : List Event} :
    (p, retain) ∈ publishes es ↔ .publish p retain ∈ es := by
  constructor
  · intro h
    obtain ⟨e, he, hp⟩ := List.mem_filterMap.mp h
    cases e with
    | publish => cases hp; exact he
    | _ => cases hp
  · exact fun h => List.mem_filterMap.mpr ⟨_, h, rfl⟩

/-- Where batches are. -/
def batches (s : System) : List (List Row) := s.dispatched ++ s.broker.broadcastQueue ++ s.computed

/-- Nothing is on its way to the subscribers. -/
def Idle (s : System) : Prop := s.computed = [] ∧ s.broker.broadcastQueue = []

section
variable {s s' : System} {e : Event} {es fs : List Event}

lemma Idle.pending (h : Idle s) : Pending s := fun rows hrows => by
  rw [h.1, h.2] at hrows
  exact absurd hrows List.not_mem_nil

/-- A publish adds its rows to the batches; the other events only move them. -/
lemma batches_of_step (hs : step s e = some s') : (batches s').Perm (batches s ++
    (publication e).toList.flatMap fun x => (compute s.broker x.1 x.2).2.toList) := by
  have hother : publishing e = false → batches s' = batches s := fun he =>
    congrArg (fun x => x.2.2.2 ++ x.2.2.1 ++ x.2.1) (stream_of_other he hs)
  cases e with
  | addClient | removeClient | sendRetained | register | unsubscribe =>
    rw [hother rfl]
    simp [publication]
  | publish p retain =>
    cases hs
    obtain ⟨tasks, tm, rows, -, hcompute⟩ := compute_eq s.broker.treeManager p retain
    simp [batches, publication, hcompute s.broker rfl]
  | put k =>
    simp only [step] at hs
    split at hs
    case h_1 => cases hs
    case h_2 rows hk =>
      cases hs
      obtain ⟨hlt, rfl⟩ := List.getElem?_eq_some_iff.mp hk
      have hperm := List.getElem_cons_eraseIdx_perm hlt
      simp only [batches, publication, State.broadcast, Option.toList_none, List.flatMap_nil,
        List.append_nil, List.append_assoc]
      exact (hperm.append_left s.broker.broadcastQueue).append_left s.dispatched
  | mainLoop =>
    obtain ⟨b, hb, rfl⟩ := Option.map_eq_some_iff.mp hs
    obtain ⟨rows, queue, queues, hrows, rfl⟩ := mainLoop_cases hb
    simp [batches, publication, hrows]

/-- Publishes to plain topics are on their way as they are. -/
lemma batches_of_run (h : Sound s.broker)
    (hplain : ∀ p retain, .publish p retain ∈ es → Plain p.raw_topic retain)
    (hrun : Runs.run step s es = some s') :
    (batches s').Perm (batches s ++ (publishes es).map fun x => [rowOf x.1]) := by
  induction es generalizing s with
  | nil =>
    cases hrun
    simp [publishes]
  | cons e es ih =>
    obtain ⟨u, hu, hrun⟩ := Option.bind_eq_some_iff.mp hrun
    have hrest := ih (h.step hu)
      (fun p retain hp => hplain p retain (List.mem_cons_of_mem _ hp)) hrun
    have hfirst := batches_of_step hu
    have hrows : ((publication e).toList.flatMap fun x => (compute s.broker x.1 x.2).2.toList) =
        (publishes [e]).map fun x => [rowOf x.1] := by
      cases e with
      | publish p retain =>
        obtain ⟨tm, hcompute⟩ :=
          compute_plain h.wellFormed.shape (hplain p retain List.mem_cons_self)
        simp [publication, publishes, hcompute]
      | _ => rfl
    have hsplit : publishes (e :: es) = publishes [e] ++ publishes es := by
      simp only [publishes, ← List.filterMap_append, List.singleton_append]
    rw [hrows] at hfirst
    rw [hsplit, List.map_append, ← List.append_assoc]
    exact hrest.trans (hfirst.append_right _)

/-- Between two states in which nothing is on its way, what has been published has been
dispatched. -/
lemma dispatched_between (h : Sound s.broker) (hidle : Idle s) (hidle' : Idle s')
    (hplain : ∀ p retain, .publish p retain ∈ fs → Plain p.raw_topic retain)
    (hrun : Runs.run step s fs = some s') {rows : List (List Row)}
    (hrows : s'.dispatched = s.dispatched ++ rows) :
    rows.Perm ((publishes fs).map fun x => [rowOf x.1]) := by
  have hperm := batches_of_run h hplain hrun
  simp only [batches, hidle.1, hidle.2, hidle'.1, hidle'.2, List.append_nil, hrows] at hperm
  exact (List.perm_append_left_iff _).mp hperm

/-- What is on its way can be brought to its end. -/
lemma exists_idle (s : System) : ∃ gs u, (∀ e ∈ gs, e = .put 0 ∨ e = .mainLoop) ∧
    Runs.run step s gs = some u ∧ Idle u := by
  obtain ⟨broker, computed, dispatched⟩ := s
  induction computed generalizing broker with
  | cons rows computed ih =>
    -- the first publisher puts its rows
    obtain ⟨gs, u, hgs, hrun, hidle⟩ := ih (broker.broadcast rows)
    exact ⟨.put 0 :: gs, u, List.forall_mem_cons.mpr ⟨.inl rfl, hgs⟩, hrun, hidle⟩
  | nil =>
    generalize hq : broker.broadcastQueue = queue
    induction queue generalizing broker dispatched with
    | nil => exact ⟨[], _, fun _ h => absurd h List.not_mem_nil, rfl, rfl, hq⟩
    | cons rows queue ih =>
      -- the main loop takes the first batch
      obtain ⟨b, hb⟩ := exists_mainLoop hq
      obtain ⟨rows', queue', queues, hrows, rfl⟩ := mainLoop_cases hb
      obtain ⟨rfl, rfl⟩ := List.cons.inj (hq.symm.trans hrows)
      obtain ⟨gs, u, hgs, hrun, hidle⟩ := ih (dispatched ++ [rows]) { broker with
        broadcastQueue := queue, queues := queues } rfl
      refine ⟨.mainLoop :: gs, u, List.forall_mem_cons.mpr ⟨.inr rfl, hgs⟩, ?_, hidle⟩
      rw [Runs.run_cons]
      simp only [step, hb, Option.map_some, hq, List.head?_cons, Option.toList_some]
      exact hrun

lemma newsworthy_rowOf (t : Str) (ps : List (Publish × Bool)) :
    newsworthy t (ps.map fun x => [rowOf x.1]) =
      (ps.filter fun x => Matches manyCard (split t) (split x.1.raw_topic)).map
        fun x => [rowOf x.1] := by
  unfold newsworthy
  rw [List.filter_map]
  refine congrArg _ (List.filter_congr fun x _ => ?_)
  simp [matching_zero, rowOf]

/-- **Every publish is heard exactly once**: whatever happens between two states in which nothing
is on its way, publishes of texts to plain topics and a client that stays connected and registered
for a filter: the client is queued one message under the filter for each publish whose topic the
filter matches, which says what has been published, and nothing else. -/
theorem heard_exactly_once {client : Client} {t : Str} {q : ℕ}
    (hes : Runs.run step initial es = some s) (hfs : Runs.run step s fs = some s')
    (hplain : ∀ p retain, .publish p retain ∈ fs → Plain p.raw_topic retain ∧ Decodes p.data)
    (hidle : Idle s) (hidle' : Idle s')
    (hc : s.broker.clients.lookup client.id = some client.conn)
    (hr : (valueAt s.broker.subscriptions (split t)).bind (fun cs => cs.lookup client.id) = some q)
    (hfree : ∀ e ∈ fs, ¬Touches client t e) :
    ∃ heard mail, mailUnder s'.broker client t = mailUnder s.broker client t ++ mail ∧
      heard.Perm ((publishes fs).filter fun x =>
        Matches manyCard (split t) (split x.1.raw_topic)) ∧
      List.Forall₂ (fun x => SaysRows t q [rowOf x.1]) heard mail := by
  have hsound := sound_of_run hes
  have hkeyed : ∀ e ∈ fs, Keyed e := fun e he => by
    cases e with
    | publish p retain => exact keyed_plain (hplain p retain he).1
    | _ => trivial
  obtain ⟨rows, served, h⟩ := served_of_run hsound hidle.pending hkeyed hfs
  have hperm := dispatched_between hsound hidle hidle' (fun p retain hp => (hplain p retain hp).1)
    hfs h.dispatched
  have htext : ∀ batch ∈ rows, ∀ row ∈ batch, Decodes row.data := fun batch hbatch row hrow => by
    obtain ⟨x, hx, rfl⟩ := List.mem_map.mp (hperm.subset hbatch)
    rw [List.mem_singleton.mp hrow]
    exact (hplain x.1 x.2 (mem_publishes.mp hx)).2
  obtain rfl := h.all htext
  -- the batches that the client is told about are those of publishes, in some order
  have hnews : (newsworthy t served).Perm (((publishes fs).filter fun x =>
      Matches manyCard (split t) (split x.1.raw_topic)).map fun x => [rowOf x.1]) := by
    rw [← newsworthy_rowOf]
    exact hperm.filter _
  obtain ⟨heard, hheard, hsame⟩ := List.perm_comp_forall₂ hnews
    (r := fun batch x => batch = [rowOf x.1])
    (List.forall₂_map_left_iff.mpr (List.forall₂_same.mpr fun _ _ => rfl))
  obtain ⟨mail, hmail, hsays⟩ := h.stays client t q hfree hc hr
  have hjoin : ∀ (batch : List Row) (x : Publish × Bool) (m : OutgoingMessage),
      batch = [rowOf x.1] → SaysRows t q batch m → SaysRows t q [rowOf x.1] m :=
    fun _ _ _ hx hm => hx ▸ hm
  exact ⟨heard, mail, hmail, hsame, forall₂_join hjoin hheard hsays⟩

end

theorem heard_exactly_once_lit :
    ∃ heard mail, mailUnder toldAmong.broker ⟨"app".toList, 1⟩ "light/+".toList =
        mailUnder watched.broker ⟨"app".toList, 1⟩ "light/+".toList ++ mail ∧
      heard.Perm ((publishes litAmong).filter fun x =>
        Matches manyCard (split "light/+".toList) (split x.1.raw_topic)) ∧
      List.Forall₂ (fun x => SaysRows "light/+".toList 1 [rowOf x.1]) heard mail := by
  refine heard_exactly_once run_watching run_litAmong (fun p retain hp => ?_) ⟨rfl, rfl⟩ ⟨rfl, rfl⟩
    (by rfl) (by rfl) free_of_litAmong
  have hlit : Event.publish p retain = .publish ⟨"light/bedroom".toList, some [49], 0⟩ false := by
    simpa [litAmong] using hp
  cases hlit
  refine ⟨⟨by decide, by decide, by decide, by decide, by decide, by decide⟩, fun b hb => ?_⟩
  cases hb
  decide

/-! ### From bytes to bytes -/

/-- What a client sends: a text, or nothing, for a plain topic. -/
structure Sent where
  publish : Publish
  retain : Bool
  id : Option ℕ
  plain : Plain publish.raw_topic retain
  text : Decodes publish.data
  nonempty : publish.data ≠ some []
  qos : publish.qos ≤ 2
  numbered : Numbered ⟨publish.raw_topic, publish.qos, .payload publish.data⟩ id
  topic : (Utf8.encode publish.raw_topic).length < 65536
  length : (Utf8.encode publish.raw_topic).length + 4 + dataLength (.payload publish.data) < 2 ^ 28

def Sent.packet (x : Sent) : Packet := clientPacket x.publish x.retain x.id

lemma payloadLength_le (topic : Str) (qos : ℕ) (data : OutData) :
    payloadLength ⟨topic, qos, data⟩ ≤ (Utf8.encode topic).length + 4 + dataLength data := by
  simp only [payloadLength]
  split_ifs <;> omega

lemma Sent.fits (x : Sent) : x.packet.Fits :=
  clientPacket_fits (by have := x.qos; omega) x.topic x.numbered x.nonempty
    (lt_of_le_of_lt (payloadLength_le _ _ _) x.length) _

/-- What is published for a packet that has been read. -/
def Sent.published (x : Sent) : Publish × Bool := (x.publish, x.retain)

lemma published_of_same {l : List Sent} {packets : List Packet}
    (h : List.Forall₂ Packet.Same (l.map Sent.packet) packets) :
    packets.filterMap rawData = l.map Sent.published := by
  rw [List.forall₂_map_left_iff] at h
  induction h with
  | nil => rfl
  | cons hsame _ ih => rw [List.filterMap_cons, rawData_of_same hsame, ih, List.map_cons]; rfl

section
variable {s s' : System} {client : Client} {t : Str} {q : ℕ}

/-- The message of a publish for a subscriber of its topic. -/
def hears (t : Str) (q : ℕ) (x : Sent) : OutgoingMessage := ⟨t, q, .payload x.publish.data⟩

/-- What has been sent to the topic. -/
def sentTo (t : Str) (published : List Sent) : List Sent :=
  published.filter fun x => x.publish.raw_topic = t

lemma says_hears (ht : '+' ∉ t) {x : Sent} {m : OutgoingMessage}
    (h : SaysRows t q [rowOf x.publish] m) : m = hears t q x := by
  obtain ⟨topic, qos, data⟩ := m
  obtain ⟨rfl, rfl, data, rfl, -, hreply⟩ := h
  cases hreply with
  | payload _ last =>
    obtain ⟨row, hrow, rfl⟩ := Option.map_eq_some_iff.mp last
    have hmem : row ∈ [rowOf x.publish] := List.mem_of_mem_filter (List.mem_of_getLast? hrow)
    rw [List.mem_singleton.mp hmem]
    rfl
  | object wildcard => exact absurd (mem_of_mem_split wildcard (by decide)) ht

/-- What is queued for a subscriber of a topic can be written, and says what was published. -/
lemma packets_of_mail {l : List Sent} {ids : List (Option ℕ)}
    (hl : ∀ x ∈ l, x.publish.raw_topic = t) (hq : q ≤ 2)
    (hids : List.Forall₂ (fun x => Numbered (hears t q x)) l ids) :
    (∀ p ∈ List.zipWith messagePacket (l.map (hears t q)) ids, p.Fits) ∧
      ∀ heard, List.Forall₂ Packet.Same (List.zipWith messagePacket (l.map (hears t q)) ids) heard →
        heard.map rawData = l.map fun x => some (⟨t, x.publish.data, q⟩, false) := by
  induction hids with
  | nil =>
    refine ⟨fun p hp => absurd hp List.not_mem_nil, fun heard h => ?_⟩
    cases h
    rfl
  | @cons x id l ids hid _ ih =>
    obtain rfl := hl x List.mem_cons_self
    obtain ⟨hfits, hheard⟩ := ih fun y hy => hl y (List.mem_cons_of_mem _ hy)
    refine ⟨fun p hp => ?_, fun heard h => ?_⟩
    · rcases List.mem_cons.mp hp with rfl | hp
      · exact messagePacket_fits (by change q ≤ 3; omega) x.topic hid
          ⟨nofun, fun h => x.nonempty (by injection h)⟩
          (lt_of_le_of_lt (payloadLength_le _ _ _) x.length)
      · exact hfits p hp
    · cases h with
      | cons hsame hrest =>
        have hfirst := @rawData_of_same ⟨x.publish.raw_topic, x.publish.data, q⟩ id false _ hsame
        rw [List.map_cons, hfirst, hheard _ hrest]
        rfl

/-- However what has been sent is published and dispatched, the subscriber of a topic is queued what
has been sent to it. -/
lemma heard_of_run {es fs : List Event} (hes : Runs.run step initial es = some s)
    (hfs : Runs.run step s fs = some s') (hidle : Idle s) (hidle' : Idle s')
    (hc : s.broker.clients.lookup client.id = some client.conn)
    (hr : (valueAt s.broker.subscriptions (split t)).bind (fun cs => cs.lookup client.id) = some q)
    (ht : '+' ∉ t) {l : List Sent} (hl : (publishes fs).Perm (l.map Sent.published))
    (hfree : ∀ e ∈ fs, ¬Touches client t e) :
    ∃ heard : List Sent, heard.Perm (sentTo t l) ∧
      mailUnder s'.broker client t = mailUnder s.broker client t ++ heard.map (hears t q) := by
  have hplain : ∀ p retain, .publish p retain ∈ fs → Plain p.raw_topic retain ∧ Decodes p.data := by
    intro p retain hp
    obtain ⟨x, -, hx⟩ := List.mem_map.mp (hl.subset (mem_publishes.mpr hp))
    cases hx
    exact ⟨x.plain, x.text⟩
  obtain ⟨pairs, mail, hmail, hperm, hsays⟩ :=
    heard_exactly_once hes hfs hplain hidle hidle' hc hr hfree
  -- the publishes that are heard are those of what has been sent to the topic
  have hmany : manyCard ∉ split t := fun hin => ht (mem_of_mem_split hin (by decide))
  have hsent : ((l.map Sent.published).filter fun x =>
      Matches manyCard (split t) (split x.1.raw_topic)) = (sentTo t l).map Sent.published := by
    unfold sentTo
    rw [List.filter_map]
    refine congrArg _ (List.filter_congr fun x _ => ?_)
    have htopic : split t = split x.publish.raw_topic ↔ x.publish.raw_topic = t :=
      ⟨fun h => (split_injective h).symm, fun h => h ▸ rfl⟩
    simp [Sent.published, matches_iff_eq hmany, htopic]
  have hpairs := hperm.trans (hl.filter _)
  rw [hsent] at hpairs
  obtain ⟨heard, hheard, hsame⟩ := List.perm_comp_forall₂ hpairs
    (r := fun pair x => pair = Sent.published x)
    (List.forall₂_map_left_iff.mpr (List.forall₂_same.mpr fun _ _ => rfl))
  have hjoin : ∀ (pair : Publish × Bool) (x : Sent) (m : OutgoingMessage),
      pair = x.published → SaysRows t q [rowOf pair.1] m → hears t q x = m := fun _ _ _ hx hm => by
    subst hx
    exact (says_hears ht hm).symm
  have hmap := forall₂_join hjoin hheard hsays
  rw [← List.forall₂_map_left_iff, List.forall₂_eq_eq_eq] at hmap
  exact ⟨heard, hsame, by rw [hmail, hmap]⟩

lemma fits_sent (published : List Sent) : ∀ p ∈ published.map Sent.packet, p.Fits := fun p hp => by
  obtain ⟨x, -, rfl⟩ := List.mem_map.mp hp
  exact x.fits

lemma raw_topic_of_perm {l heard : List Sent} (h : heard.Perm (sentTo t l)) :
    ∀ x ∈ heard, x.publish.raw_topic = t := fun _ hx =>
  of_decide_eq_true (List.mem_filter.mp (h.subset hx)).2

/-- **From bytes to bytes**: what is published to plain topics is read from the bytes of its
packets. In whatever order it is then published and dispatched, and whatever other clients do
meanwhile, all of it can get through; and once it has, a connected subscriber of a topic has been
queued what has been published to it, each publish once, and the bytes of the packets of these
messages are read back as the same topic and data, with the qos of the subscription and without the
retain flag. -/
theorem wire_to_wire {es : List Event} (hes : Runs.run step initial es = some s) (hidle : Idle s)
    (hc : s.broker.clients.lookup client.id = some client.conn)
    (hr : (valueAt s.broker.subscriptions (split t)).bind (fun cs => cs.lookup client.id) = some q)
    (ht : '+' ∉ t) (hq : q ≤ 2) (l : List Sent) :
    ∃ bss packets, (l.map Sent.packet).mapM Packet.toBytes = .ok bss ∧
      (many readNextPacket l.length).run bss.flatten = .ok (packets, []) ∧
      packets.filterMap rawData = l.map Sent.published ∧
      ∀ fs s', Runs.run step s fs = some s' → (publishes fs).Perm (packets.filterMap rawData) →
        (∀ e ∈ fs, ¬Touches client t e) →
          (∃ gs u, (∀ e ∈ gs, e = .put 0 ∨ e = .mainLoop) ∧ Runs.run step s' gs = some u ∧
            Idle u) ∧
          (Idle s' → ∃ heard : List Sent, heard.Perm (sentTo t l) ∧
            mailUnder s'.broker client t =
              mailUnder s.broker client t ++ heard.map (hears t q) ∧
            ∀ ids, List.Forall₂ Numbered (heard.map (hears t q)) ids →
              ∃ bss' packets', (List.zipWith messagePacket (heard.map (hears t q)) ids).mapM
                  Packet.toBytes = .ok bss' ∧
                (many readNextPacket packets'.length).run bss'.flatten = .ok (packets', []) ∧
                packets'.map rawData =
                  heard.map fun x => some (⟨t, x.publish.data, q⟩, false)) := by
  -- in
  obtain ⟨bss, packets, hbss, hsame, hread⟩ := reads_packets (fits_sent l)
  have hread := hread []
  rw [List.append_nil, hsame.length_eq.symm, List.length_map] at hread
  have hsent := published_of_same hsame
  refine ⟨bss, packets, hbss, hread, hsent, fun fs s' hfs hpublished hfree =>
    ⟨exists_idle s', fun hidle' => ?_⟩⟩
  -- through
  rw [hsent] at hpublished
  obtain ⟨heard, hperm, hmail⟩ := heard_of_run hes hfs hidle hidle' hc hr ht hpublished hfree
  refine ⟨heard, hperm, hmail, fun ids hids => ?_⟩
  -- out
  obtain ⟨hfits', hheard⟩ :=
    packets_of_mail (raw_topic_of_perm hperm) hq (List.forall₂_map_left_iff.mp hids)
  obtain ⟨bss', packets', hbss', hsame', hread'⟩ := reads_packets hfits'
  have hread' := hread' []
  rw [List.append_nil] at hread'
  exact ⟨bss', packets', hbss', hread', hheard packets' hsame'⟩

end

/-- A retained report of a light, and one of a door with qos 1. -/
def bedroom : Sent where
  publish := ⟨"light/bedroom".toList, some [49], 0⟩
  retain := true
  id := none
  plain := ⟨by decide, by decide, by decide, by decide, by decide, by decide⟩
  text b hb := by cases hb; decide
  nonempty := by decide
  qos := by decide
  numbered := rfl
  topic := by decide
  length := by decide

def door : Sent where
  publish := ⟨"hall/door".toList, none, 1⟩
  retain := false
  id := some 7
  plain := ⟨by decide, by decide, by decide, by decide, by decide, by decide⟩
  text b hb := by cases hb
  nonempty := by decide
  qos := by decide
  numbered := ⟨7, by decide, rfl⟩
  topic := by decide
  length := by decide

/-- A client connects and watches the light of the bedroom. -/
def watchingOne : List Event :=
  [.addClient ⟨"app".toList, 1⟩, .register ⟨"app".toList, 1⟩ "light/bedroom".toList 1]

def watchedOne : System := (Runs.run step Service.initial watchingOne).getD Service.initial

lemma run_watchingOne : Runs.run step Service.initial watchingOne = some watchedOne := rfl

/-- The door's thread is faster, and another client watches everything meanwhile. -/
def reporting : List Event :=
  [.publish door.publish door.retain, .addClient ⟨"tv".toList, 2⟩,
    .publish bedroom.publish bedroom.retain, .put 1, .register ⟨"tv".toList, 2⟩ "light/+".toList 0,
    .put 0, .mainLoop, .mainLoop]

def reported : System := (Runs.run step watchedOne reporting).getD Service.initial

lemma run_reporting : Runs.run step watchedOne reporting = some reported := rfl

lemma free_of_reporting : ∀ e ∈ reporting,
    ¬Touches ⟨"app".toList, 1⟩ "light/bedroom".toList e := by
  intro e he
  have hcases : e = .publish door.publish door.retain ∨ e = .addClient ⟨"tv".toList, 2⟩ ∨
      e = .publish bedroom.publish bedroom.retain ∨ e = .put 1 ∨
      e = .register ⟨"tv".toList, 2⟩ "light/+".toList 0 ∨ e = .put 0 ∨ e = .mainLoop := by
    simpa [reporting] using he
  rcases hcases with rfl | rfl | rfl | rfl | rfl | rfl | rfl <;> simp [Touches]

theorem wire_to_wire_bedroom :
    ∃ bss packets, ([bedroom, door].map Sent.packet).mapM Packet.toBytes = .ok bss ∧
      (many readNextPacket 2).run bss.flatten = .ok (packets, []) ∧
      mailUnder reported.broker ⟨"app".toList, 1⟩ "light/bedroom".toList =
        [⟨"light/bedroom".toList, 1, .payload (some [49])⟩] ∧
      ∃ bss' packets', [messagePacket ⟨"light/bedroom".toList, 1, .payload (some [49])⟩
          (some 0)].mapM Packet.toBytes = .ok bss' ∧
        (many readNextPacket packets'.length).run bss'.flatten = .ok (packets', []) ∧
        packets'.map rawData = [some (⟨"light/bedroom".toList, some [49], 1⟩, false)] := by
  obtain ⟨bss, packets, hbss, hread, hsent, hthrough⟩ :=
    @wire_to_wire watchedOne ⟨"app".toList, 1⟩ "light/bedroom".toList 1 _ run_watchingOne
      ⟨rfl, rfl⟩ (by rfl) (by rfl) (by decide) (by decide) [bedroom, door]
  obtain ⟨heard, hperm, hmail, hout⟩ := (hthrough reporting reported run_reporting
    (by rw [hsent]; exact .swap _ _ _) free_of_reporting).2 ⟨rfl, rfl⟩
  obtain rfl : heard = [bedroom] := List.perm_singleton.mp hperm
  have hids : List.Forall₂ Numbered [hears "light/bedroom".toList 1 bedroom] [some 0] :=
    .cons ⟨0, by decide, rfl⟩ .nil
  exact ⟨bss, packets, hbss, hread, hmail, hout [some 0] hids⟩

end MoteBroker.Journey

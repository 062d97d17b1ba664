import MoteBroker.Journey
import MoteBroker.OutgoingLock
import MoteBroker.Transports

/-!
Two browsers: what one of them sends in the frames of its websocket, through the broker, into the
frames that the other one gets while other threads write to it.
-/

namespace MoteBroker.Browsers

open ByteReader MoteBroker.Topics MoteBroker.RecursiveDefaultDict MoteBroker.Messages
open MoteBroker.Packets MoteBroker.Broker
open MoteBroker.Granted hiding Event step lit
open MoteBroker.Service MoteBroker.Delivery MoteBroker.Journey MoteBroker.Frames
open MoteBroker.Transports

/-- The frames that have been sent are put together to the packets that have been written. -/
lemma reads_written {es : List OutgoingLock.Event} {o : OutgoingLock.System}
    (hrun : Runs.run OutgoingLock.step OutgoingLock.initial es = some o)
    (hclean : Runs.Meets OutgoingLock.step OutgoingLock.Clean OutgoingLock.initial es)
    {packets : List Packet} (hfits : ∀ p ∈ packets, p.Fits)
    (hwritten : packets.mapM Packet.toBytes = .ok o.written)
    (hcontrols : ∀ frame ∈ o.controls, frame.payload.length < 65535) :
    ∃ frames peer heard,
      (many recv o.sent.length).run (o.sent.map Frame.bytes).flatten = .ok (frames, []) ∧
      OutgoingLock.reassemble frames = some peer ∧
      (many readNextPacket heard.length).run peer.messages.flatten = .ok (heard, []) ∧
      List.Forall₂ Packet.Same packets heard := by
  have hread := OutgoingLock.reads_sent hrun hcontrols []
  rw [List.append_nil] at hread
  obtain ⟨current, hpeer, -⟩ := (OutgoingLock.reassemble_run hrun).1 hclean
  obtain ⟨bss, heard, hbss, hsame, hmany⟩ := reads_packets hfits
  obtain rfl : bss = o.written := Except.ok.inj (hbss.symm.trans hwritten)
  have hmany := hmany []
  rw [List.append_nil] at hmany
  exact ⟨o.sent, _, heard, hread, hpeer, hmany, hsame⟩

/-- **From frames to frames**: a browser sends PUBLISH packets in whatever frames, with pings
anywhere; they are read. In whatever order they are then published and dispatched, and whatever
other clients do meanwhile, all of them can get through; and once they have, a connected subscriber
of a topic has been queued what has been published to it, each publish once. Where its connection
writes the packets of these messages, with any control frames sent between theirs, and no write is
torn, it gets the same topic and data, with the qos of the subscription and without the retain
flag. -/
theorem browser_to_browser {es : List Service.Event} {s : System} {client : Client} {t : Str}
    {q : ℕ} (hes : Runs.run Service.step Service.initial es = some s) (hidle : Idle s)
    (hc : s.broker.clients.lookup client.id = some client.conn)
    (hr : (valueAt s.broker.subscriptions (split t)).bind (fun cs => cs.lookup client.id) = some q)
    (ht : '+' ∉ t) (hq : q ≤ 2) {l : List Sent} {bss : List Bytes}
    (hbss : (l.map Sent.packet).mapM Packet.toBytes = .ok bss) {frames : List ClientFrame}
    (hframes : Websocket.Conversation false frames)
    (hpayloads : Websocket.payloads frames = bss.flatten) {rest : Bytes} (hrest : rest.length < 2) :
    ∃ packets ws, (readPackets l.length).runOn Websocket.read
        ⟨Websocket.wire frames ++ rest, [], true, []⟩ = (.ok packets, ws) ∧
      packets.filterMap rawData = l.map Sent.published ∧
      ∀ fs s', Runs.run Service.step s fs = some s' →
        (publishes fs).Perm (packets.filterMap rawData) → (∀ e ∈ fs, ¬Touches client t e) →
          (∃ gs u, (∀ e ∈ gs, e = .put 0 ∨ e = .mainLoop) ∧ Runs.run Service.step s' gs = some u ∧
            Idle u) ∧
          (Idle s' → ∃ heard : List Sent, heard.Perm (sentTo t l) ∧
            mailUnder s'.broker client t =
              mailUnder s.broker client t ++ heard.map (hears t q) ∧
            ∀ ids, List.Forall₂ Numbered (heard.map (hears t q)) ids →
              ∀ es' o, Runs.run OutgoingLock.step OutgoingLock.initial es' = some o →
              Runs.Meets OutgoingLock.step OutgoingLock.Clean OutgoingLock.initial es' →
              (List.zipWith messagePacket (heard.map (hears t q)) ids).mapM Packet.toBytes =
                .ok o.written →
              (∀ frame ∈ o.controls, frame.payload.length < 65535) →
              ∃ frames' peer packets',
                (many recv o.sent.length).run (o.sent.map Frame.bytes).flatten =
                  .ok (frames', []) ∧
                OutgoingLock.reassemble frames' = some peer ∧
                (many readNextPacket packets'.length).run peer.messages.flatten =
                  .ok (packets', []) ∧
                packets'.map rawData =
                  heard.map fun x => some (⟨t, x.publish.data, q⟩, false)) := by
  -- in
  obtain ⟨bss', packets, hbss', hsame, hread⟩ := reads_packets (fits_sent l)
  obtain rfl : bss' = bss := Except.ok.inj (hbss'.symm.trans hbss)
  have hread := hread []
  rw [List.append_nil, hsame.length_eq.symm, List.length_map] at hread
  have hagrees := agrees_websocket (Websocket.wire frames ++ rest) l.length
  rw [Closing.delivered_wire hframes hrest, hpayloads, hread] at hagrees
  obtain ⟨ws, hreads⟩ : ∃ ws, (readPackets l.length).runOn Websocket.read
      ⟨Websocket.wire frames ++ rest, [], true, []⟩ = (.ok packets, ws) := by
    generalize (readPackets l.length).runOn Websocket.read _ = reads at hagrees
    obtain ⟨result, ws⟩ := reads
    cases result with
    | error e => exact hagrees.elim
    | ok packets' => exact ⟨ws, by rw [hagrees.1]⟩
  have hsent := published_of_same hsame
  refine ⟨packets, ws, hreads, hsent, fun fs s' hfs hpublished hfree =>
    ⟨exists_idle s', fun hidle' => ?_⟩⟩
  -- through
  rw [hsent] at hpublished
  obtain ⟨heard, hperm, hmail⟩ := heard_of_run hes hfs hidle hidle' hc hr ht hpublished hfree
  refine ⟨heard, hperm, hmail, ?_⟩
  intro ids hids es' o ho hclean hwritten hcontrols
  -- out
  obtain ⟨hfits, hheard⟩ :=
    packets_of_mail (raw_topic_of_perm hperm) hq (List.forall₂_map_left_iff.mp hids)
  obtain ⟨frames', peer, packets', hframes', hpeer, hmany, hsame'⟩ :=
    reads_written ho hclean hfits hwritten hcontrols
  exact ⟨frames', peer, packets', hframes', hpeer, hmany, hheard packets' hsame'⟩

def note : Sent where
  publish := ⟨['a'], some [1], 2⟩
  retain := false
  id := some 9
  plain := ⟨by decide, by decide, by decide, by decide, by decide, by decide⟩
  text b hb := by cases hb; decide
  nonempty := by decide
  qos := by decide
  numbered := ⟨9, by decide, rfl⟩
  topic := by decide
  length := by decide

lemma note_bytes :
    ([note].map Sent.packet).mapM Packet.toBytes = .ok [[52, 6, 0, 1, 97, 0, 9, 1]] := by
  have hlength : Streams.lengthBytes 6 = [6] := by
    unfold Streams.lengthBytes
    rfl
  have hheader : note.packet.getHeaderBytes 6 = .ok [52, 6] := by
    unfold Packet.getHeaderBytes
    rw [hlength]
    rfl
  have hbytes : note.packet.toBytes = .ok [52, 6, 0, 1, 97, 0, 9, 1] := by
    change (do return (← note.packet.getHeaderBytes 6) ++ _) = _
    rw [hheader]
    rfl
  rw [List.map_singleton, List.mapM_cons, hbytes]
  rfl

/-- The note in two frames, with a ping between them. -/
def noting : List ClientFrame :=
  [masked 2#4 false 1 2 3 4 [52, 6, 0, 1] (by decide), masked 9#4 true 5 6 7 8 [113] (by decide),
    masked 0#4 true 9 9 9 9 [97, 0, 9, 1] (by decide)]

lemma noting_conversation : Websocket.Conversation false noting :=
  .data rfl <| .control (.inl rfl) <| @Websocket.Conversation.data _ _ [] rfl .done

/-- A client connects and watches the notes. -/
def watching : List Service.Event :=
  [.addClient ⟨"app".toList, 1⟩, .register ⟨"app".toList, 1⟩ ['a'] 1]

def watched : System := (Runs.run Service.step Service.initial watching).getD Service.initial

lemma run_watching : Runs.run Service.step Service.initial watching = some watched := rfl

/-- The note gets through while another client comes, watches the notes too, and goes. -/
def passing : List Service.Event :=
  [.publish note.publish note.retain, .addClient ⟨"tv".toList, 2⟩, .put 0,
    .register ⟨"tv".toList, 2⟩ ['a'] 0, .mainLoop, .removeClient "tv".toList]

def passed : System := (Runs.run Service.step watched passing).getD Service.initial

lemma run_passing : Runs.run Service.step watched passing = some passed := rfl

lemma free_of_passing : ∀ e ∈ passing, ¬Touches ⟨"app".toList, 1⟩ ['a'] e := by
  intro e he
  have hcases : e = .publish note.publish note.retain ∨ e = .addClient ⟨"tv".toList, 2⟩ ∨
      e = .put 0 ∨ e = .register ⟨"tv".toList, 2⟩ ['a'] 0 ∨ e = .mainLoop ∨
      e = .removeClient "tv".toList := by
    simpa [passing] using he
  rcases hcases with rfl | rfl | rfl | rfl | rfl | rfl <;> simp [Touches]

lemma clean_crossing : Runs.Meets OutgoingLock.step OutgoingLock.Clean OutgoingLock.initial
    OutgoingLock.crossing := by
  refine ⟨trivial, fun _ h => ?_⟩
  cases h
  refine ⟨trivial, fun _ h => ?_⟩
  cases h
  refine ⟨rfl, fun _ h => ?_⟩
  cases h
  refine ⟨trivial, fun _ h => ?_⟩
  cases h
  exact ⟨trivial, fun _ _ => trivial⟩

theorem browser_to_browser_note :
    ∃ packets ws, (readPackets 1).runOn Websocket.read
        ⟨Websocket.wire noting ++ [130], [], true, []⟩ = (.ok packets, ws) ∧
      packets.filterMap rawData = [(⟨['a'], some [1], 2⟩, false)] ∧
      mailUnder passed.broker ⟨"app".toList, 1⟩ ['a'] = [⟨['a'], 1, .payload (some [1])⟩] ∧
      ∃ frames peer packets',
        (many recv 2).run (OutgoingLock.crossed.sent.map Frame.bytes).flatten = .ok (frames, []) ∧
        OutgoingLock.reassemble frames = some peer ∧
        (many readNextPacket packets'.length).run peer.messages.flatten = .ok (packets', []) ∧
        packets'.map rawData = [some (⟨['a'], some [1], 1⟩, false)] := by
  obtain ⟨packets, ws, hreads, hsent, hthrough⟩ :=
    @browser_to_browser watching watched ⟨"app".toList, 1⟩ ['a'] 1 run_watching ⟨rfl, rfl⟩
      (by rfl) (by rfl) (by decide) (by decide) [note] _ note_bytes noting noting_conversation rfl
      [130] (by decide)
  obtain ⟨heard, hperm, hmail, hout⟩ := (hthrough passing passed run_passing
    (by rw [hsent]; exact .refl _) free_of_passing).2 ⟨rfl, rfl⟩
  obtain rfl : heard = [note] := List.perm_singleton.mp hperm
  have hids : List.Forall₂ Numbered [hears ['a'] 1 note] [some 7] := .cons ⟨7, by decide, rfl⟩ .nil
  have hwritten : [messagePacket (hears ['a'] 1 note) (some 7)].mapM Packet.toBytes =
      .ok OutgoingLock.crossed.written := OutgoingLock.crossed_written
  exact ⟨packets, ws, hreads, hsent, hmail, hout [some 7] hids OutgoingLock.crossing
    OutgoingLock.crossed rfl clean_crossing hwritten (by decide)⟩

end MoteBroker.Browsers

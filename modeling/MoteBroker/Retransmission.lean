import MoteBroker.Exchanges
import MoteBroker.Lib.Runs

/-!
The publishes of QoS 2 of one client, which may send a PUBLISH again and again until it releases it:
each is published exactly once as long as only one of its packets is handled.
-/

namespace MoteBroker.Retransmission

open MoteBroker.Topics MoteBroker.Messages MoteBroker.Packets MoteBroker.Exchanges

/-! ### The system -/

structure Client where
  /-- The publishes, by their numbers. -/
  publishes : List PublishPacket
  /-- Those of QoS 2 that have not been released. -/
  opened : List ℕ
  /-- Of these, those for which a PUBREC has come. -/
  acknowledged : List ℕ

structure System where
  handler : Handler
  toClient : List ToClient
  toBroker : List FromClient
  client : Client
  /-- The publishes whose PUBREL has been read. -/
  released : List ℕ

def initial : System := ⟨.new, [], [], ⟨[], [], []⟩, []⟩

def Client.uses (client : Client) (id n : ℕ) : Bool := client.publishes[n]?.any (·.id = id)

/-- A PUBREC is taken for the publish with its id that is open. -/
def Client.receive (client : Client) : ToClient → Client
  | .acknowledge ⟨.publishReceived, id, _⟩ =>
    { client with acknowledged := client.acknowledged ++
        client.opened.filter fun n => client.uses id n && n ∉ client.acknowledged }
  | _ => client

/-- The number of the publish that a packet releases. -/
def releases : FromClient → Option ℕ
  | .acknowledge ⟨.publishReleased, _, .incoming n⟩ => some n
  | _ => none

inductive Event
  | queue (message : OutgoingMessage)
  | write (fails : Bool)
  | read (condition : ℕ)
  | work (k : ℕ) (fails : Bool)
  | receive
  /-- A new publish, whose id no open one uses. -/
  | publish (packet : PublishPacket)
  | retransmit (n : ℕ)
  | release (n : ℕ)
  /-- Any other acknowledgement. -/
  | send (a : Acknowledge)

def step (s : System) : Event → Option System
  | .queue message =>
    some { s with
      handler := { s.handler with messageQueue := s.handler.messageQueue ++ [message] } }
  | .write fails => (s.handler.sendMessage fails).map fun (handler, packets) =>
      { s with handler := handler, toClient := s.toClient ++ packets }
  | .read condition =>
    match s.toBroker with
    | [] => none
    | packet :: packets =>
      if s.handler.unexpected then none
      else (s.handler.handlePacket condition packet).map fun handler =>
        { s with
          handler := handler
          toBroker := packets
          released := s.released ++ (releases packet).toList }
  | .work k fails =>
    s.handler.threads[k]?.bind fun t =>
      (s.handler.handlePublish k t fails).map fun (handler, packets) =>
        { s with handler := handler, toClient := s.toClient ++ packets }
  | .receive =>
    match s.toClient with
    | [] => none
    | packet :: packets => some { s with toClient := packets, client := s.client.receive packet }
  | .publish packet =>
    if packet.qos = 2 ∧ s.client.opened.any (s.client.uses packet.id) then none
    else some { s with
      toBroker := s.toBroker ++ [.publish s.client.publishes.length packet]
      client := { s.client with
        publishes := s.client.publishes ++ [packet]
        opened :=
          s.client.opened ++ if packet.qos = 2 then [s.client.publishes.length] else [] } }
  | .retransmit n =>
    if n ∈ s.client.opened then
      s.client.publishes[n]?.map fun packet =>
        { s with toBroker := s.toBroker ++ [.publish n packet] }
    else none
  | .release n =>
    if n ∈ s.client.acknowledged then
      s.client.publishes[n]?.map fun packet =>
        { s with
          toBroker := s.toBroker ++ [.acknowledge ⟨.publishReleased, packet.id, .incoming n⟩]
          client := { s.client with
            opened := s.client.opened.erase n
            acknowledged := s.client.acknowledged.erase n } }
    else none
  | .send a =>
    if a.cls = .publishReleased then none
    else some { s with toBroker := s.toBroker ++ [.acknowledge a] }

/-! ### The property -/

/-- The thread has registered its condition and has something to do. -/
def Working (h : Handler) (t : Thread) : Prop :=
  match t.pc with
  | .receiving _ | .publishing | .completing => True
  | .waiting condition => h.Met condition
  | _ => False

/-- The publish has been released, and no thread is at work for it. -/
def Complete (s : System) (n : ℕ) : Prop :=
  n ∈ s.released ∧ ∀ t ∈ s.handler.threads, t.exchange = n → ¬Working s.handler t

/-- How often `Broker.publish` has been called for the publish. -/
def calls (s : System) (n : ℕ) : ℕ := s.handler.published.countP (·.1 = n)

structure ExactlyOnce (s : System) : Prop where
  once : ∀ n p, s.client.publishes[n]? = some p → p.qos = 2 → calls s n ≤ 1
  message : ∀ n m, (n, m) ∈ s.handler.published →
    ∃ p, s.client.publishes[n]? = some p ∧ fromPacket p = .ok m
  complete : ∀ n p, s.client.publishes[n]? = some p → p.qos = 2 → Complete s n → calls s n = 1
  /-- When all publishes with an id are complete, no condition is left for it. -/
  removed : ∀ id, (∀ n p, s.client.publishes[n]? = some p → p.qos = 2 → p.id = id → Complete s n) →
    ∀ c ∈ s.handler.packetConditions, c.typeCode = PacketClass.publishReleased.typeCode → c.id ≠ id

/-- The steps by which each publish has one condition. A thread registers its condition when no
other thread of the same publish has done so, and the message that it publishes can be made; a
PUBREL meets a condition that has not been met. -/
def Once (s : System) : Event → Prop
  | .work k _ => ∀ t, s.handler.threads[k]? = some t →
      (t.pc = .starting → t.packet.qos = 2 → ∀ j u, s.handler.threads[j]? = some u →
        u.exchange = t.exchange → j ≠ k → u.pc = .starting) ∧
      (t.pc = .publishing → ∃ message, fromPacket t.packet = .ok message)
  | .read condition => ∀ packet packets, s.toBroker = packet :: packets → releases packet ≠ none →
      ∀ c ∈ s.handler.packetConditions, c.condition = condition → c.result = none
  | _ => True

/-! ### What a step does -/

inductive Trans (s : System) : Event → System → Prop
  | queue {m : OutgoingMessage} :
    Trans s (.queue m) { s with
      handler := { s.handler with messageQueue := s.handler.messageQueue ++ [m] } }
  | write {fails : Bool} {h : Handler} {out : List ToClient} (hs : Writes s.handler h out) :
    Trans s (.write fails) { s with handler := h, toClient := s.toClient ++ out }
  | read {condition : ℕ} {p : FromClient} {ps : List FromClient} {h : Handler}
    (hp : s.toBroker = p :: ps) (hs : Reads s.handler condition p h) :
    Trans s (.read condition)
      { s with handler := h, toBroker := ps, released := s.released ++ (releases p).toList }
  | work {k : ℕ} {fails : Bool} {t : Thread} {h : Handler} {out : List ToClient}
    (hk : s.handler.threads[k]? = some t) (hs : Works s.handler k t h out) :
    Trans s (.work k fails) { s with handler := h, toClient := s.toClient ++ out }
  | receive {p : ToClient} {ps : List ToClient} (hp : s.toClient = p :: ps) :
    Trans s .receive { s with toClient := ps, client := s.client.receive p }
  | publish {p : PublishPacket}
    (hfree : p.qos = 2 → ∀ n ∈ s.client.opened, s.client.uses p.id n = false) :
    Trans s (.publish p) { s with
      toBroker := s.toBroker ++ [.publish s.client.publishes.length p]
      client := { s.client with
        publishes := s.client.publishes ++ [p]
        opened := s.client.opened ++ if p.qos = 2 then [s.client.publishes.length] else [] } }
  | retransmit {n : ℕ} {p : PublishPacket} (hp : s.client.publishes[n]? = some p) :
    Trans s (.retransmit n) { s with toBroker := s.toBroker ++ [.publish n p] }
  | release {n : ℕ} {p : PublishPacket} (hn : n ∈ s.client.acknowledged)
    (hp : s.client.publishes[n]? = some p) :
    Trans s (.release n) { s with
      toBroker := s.toBroker ++ [.acknowledge ⟨.publishReleased, p.id, .incoming n⟩]
      client := { s.client with
        opened := s.client.opened.erase n
        acknowledged := s.client.acknowledged.erase n } }
  | send {a : Acknowledge} (ha : a.cls ≠ .publishReleased) :
    Trans s (.send a) { s with toBroker := s.toBroker ++ [.acknowledge a] }

lemma trans_of_step {s s' : System} {e : Event} (hw : Wired s.handler) (hs : step s e = some s') :
    Trans s e s' := by
  cases e with
  | queue m => cases hs; exact .queue
  | write fails =>
    obtain ⟨⟨h, out⟩, hsend, heq⟩ := Option.map_eq_some_iff.mp hs
    cases heq
    exact .write (writes_of_sendMessage hw hsend)
  | read condition =>
    simp only [step] at hs
    split at hs
    case h_1 => cases hs
    case h_2 hp =>
      split_ifs at hs
      obtain ⟨h, hread, heq⟩ := Option.map_eq_some_iff.mp hs
      cases heq
      exact .read hp (reads_of_handlePacket hread)
  | work k fails =>
    obtain ⟨t, hk, hs⟩ := Option.bind_eq_some_iff.mp hs
    obtain ⟨⟨h, out⟩, hwork, heq⟩ := Option.map_eq_some_iff.mp hs
    cases heq
    exact .work hk (works_of_handlePublish hw hwork)
  | receive =>
    simp only [step] at hs
    split at hs
    case h_1 => cases hs
    case h_2 hp => cases hs; exact .receive hp
  | publish p =>
    simp only [step] at hs
    split at hs
    case isTrue => cases hs
    case isFalse hfree =>
      cases hs
      refine .publish fun hqos n hn => Bool.eq_false_iff.mpr fun huses => hfree ⟨hqos, ?_⟩
      exact List.any_eq_true.mpr ⟨n, hn, huses⟩
  | retransmit n =>
    simp only [step] at hs
    split_ifs at hs
    obtain ⟨p, hp, heq⟩ := Option.map_eq_some_iff.mp hs
    cases heq
    exact .retransmit hp
  | release n =>
    simp only [step] at hs
    split_ifs at hs with hn
    obtain ⟨p, hp, heq⟩ := Option.map_eq_some_iff.mp hs
    cases heq
    exact .release hn hp
  | send a =>
    simp only [step] at hs
    split_ifs at hs with ha
    cases hs
    exact .send ha

/-! ### The invariant -/

def Client.two (client : Client) (n : ℕ) : Bool := client.publishes[n]?.any (·.qos = 2)

/-- Publishes of QoS 2 with one id. -/
def Client.Alike (client : Client) (n m : ℕ) : Prop :=
  ∃ p q, client.publishes[n]? = some p ∧ client.publishes[m]? = some q ∧
    p.qos = 2 ∧ q.qos = 2 ∧ p.id = q.id

/-- The number of the publish for which a PUBREC comes. -/
def receives : ToClient → Option ℕ
  | .acknowledge ⟨.publishReceived, _, .incoming n⟩ => some n
  | _ => none

/-- The packets are what their publish says. -/
structure Filed (s : System) : Prop where
  thread : ∀ t ∈ s.handler.threads, s.client.publishes[t.exchange]? = some t.packet
  publish : ∀ n p, .publish n p ∈ s.toBroker → s.client.publishes[n]? = some p
  release : ∀ a, .acknowledge a ∈ s.toBroker → a.cls = .publishReleased →
    ∃ n p, a.exchange = .incoming n ∧ s.client.publishes[n]? = some p ∧ p.qos = 2 ∧ p.id = a.id
  receive : ∀ a, .acknowledge a ∈ s.toClient → a.cls = .publishReceived →
    ∃ n p, a.exchange = .incoming n ∧ s.client.publishes[n]? = some p ∧ p.id = a.id
  message : ∀ n m, (n, m) ∈ s.handler.published →
    ∃ p, s.client.publishes[n]? = some p ∧ fromPacket p = .ok m

/-- Every publish of QoS 2 is open, on its way to be released, or released. -/
structure Staged (s : System) : Prop where
  stage : ∀ n, s.client.opened.count n + (s.toBroker.filterMap releases).count n +
    s.released.count n = (s.client.two n).toNat
  received : ∀ n, (s.toClient.filterMap receives).count n + s.client.acknowledged.count n ≤
    s.client.opened.count n

/-- Of the publishes with one id, only the last is open, and the packets come in order. -/
structure Ordered (s : System) : Prop where
  last : ∀ n ∈ s.client.opened, ∀ m, s.client.Alike m n → m ≤ n
  behind : ∀ n ∈ s.toBroker.filterMap releases, ∀ t ∈ s.handler.threads,
    s.client.Alike t.exchange n → t.exchange ≤ n
  before : s.toBroker.Pairwise fun x y => ∀ m p n, x = .publish m p → releases y = some n →
    s.client.Alike m n → m ≤ n

/-- The thread waits, or is to wait, and has not been met. -/
def Before (h : Handler) (t : Thread) : Prop :=
  match t.pc with
  | .receiving condition | .waiting condition | .failed condition => ¬h.Met condition
  | _ => False

/-- The thread has been met. -/
def After (h : Handler) (t : Thread) : Prop :=
  match t.pc with
  | .waiting condition => h.Met condition
  | .publishing | .completing | .ended => True
  | _ => False

/-- The thread has written its PUBREC. -/
def Sent (t : Thread) : Prop :=
  match t.pc with
  | .waiting _ | .publishing | .completing | .ended => True
  | _ => False

/-- The thread has called `Broker.publish`. -/
def Done (t : Thread) : Bool := t.pc = .completing ∨ t.pc = .ended

/-- A PUBREC has been written for the publish. -/
def Received (s : System) (n : ℕ) : Prop :=
  n ∈ s.toBroker.filterMap releases ∨ n ∈ s.client.acknowledged ∨
    n ∈ s.toClient.filterMap receives ∨ n ∈ s.released

structure Threaded (s : System) : Prop where
  unique : ∀ (j k : ℕ) (t u : Thread), s.handler.threads[j]? = some t →
    s.handler.threads[k]? = some u → t.exchange = u.exchange → t.packet.qos = 2 →
      t.pc ≠ .starting → u.pc ≠ .starting → j = k
  before : ∀ t ∈ s.handler.threads, t.packet.qos = 2 → t.pc ≠ .starting →
    t.exchange ∉ s.released → Before s.handler t
  after : ∀ t ∈ s.handler.threads, t.packet.qos = 2 → t.pc ≠ .starting →
    t.exchange ∈ s.released → After s.handler t
  sent : ∀ n, Received s n → ∃ t ∈ s.handler.threads, t.exchange = n ∧ t.packet.qos = 2 ∧ Sent t
  calls : ∀ n, (∀ p, s.client.publishes[n]? = some p → p.qos = 2) →
    calls s n = s.handler.threads.countP fun t => t.exchange = n && Done t

/-! ### The packets -/

section
variable {s s' : System} {e : Event}

lemma publishes_of_trans (ht : Trans s e s') :
    ∃ ps, s'.client.publishes = s.client.publishes ++ ps := by
  cases ht with
  | @publish p => exact ⟨[p], rfl⟩
  | @receive p =>
    refine ⟨[], ?_⟩
    rw [List.append_nil]
    unfold Client.receive
    split <;> rfl
  | _ => exact ⟨[], (List.append_nil _).symm⟩

lemma publishes_mono (ht : Trans s e s') {n : ℕ} {p : PublishPacket}
    (hp : s.client.publishes[n]? = some p) : s'.client.publishes[n]? = some p := by
  obtain ⟨ps, heq⟩ := publishes_of_trans ht
  rw [heq, List.getElem?_append_left (List.getElem?_eq_some_iff.mp hp).1]
  exact hp

lemma two_iff {client : Client} {n : ℕ} :
    client.two n = true ↔ ∃ p, client.publishes[n]? = some p ∧ p.qos = 2 := by
  unfold Client.two
  cases client.publishes[n]? <;> simp

lemma Staged.opened_two (h : Staged s) {n : ℕ} (hn : n ∈ s.client.opened) :
    s.client.two n = true := by
  have hpos := List.count_pos_iff.mpr hn
  have hstage := h.stage n
  cases htwo : s.client.two n with
  | true => rfl
  | false =>
    rw [htwo] at hstage
    simp only [Bool.toNat_false] at hstage
    omega

/-- A call of `Broker.publish` is recorded, if its message can be made. -/
lemma publish_cases (h : Handler) (k : ℕ) (t : Thread) (fails : Bool) (pc : Pc) :
    (∃ m, fromPacket t.packet = .ok m ∧ h.publish k t fails pc =
      { h with published := h.published ++ [(t.exchange, m)] }.goto k t
        (if fails then .ended else pc)) ∨
    (∀ m, fromPacket t.packet ≠ .ok m) ∧ h.publish k t fails pc = h.goto k t .ended := by
  unfold Handler.publish
  cases hm : fromPacket t.packet with
  | ok m => exact .inl ⟨m, rfl, rfl⟩
  | error e => exact .inr ⟨fun m hm' => (nomatch hm'), rfl⟩

/-- What a thread publishes is the message of its packet. -/
lemma published_of_works {h h' : Handler} {k : ℕ} {t : Thread} {out : List ToClient}
    (hs : Works h k t h' out) {n : ℕ} {m : IncomingMessage} (hm : (n, m) ∈ h'.published) :
    (n, m) ∈ h.published ∨ n = t.exchange ∧ fromPacket t.packet = .ok m := by
  cases hs with
  | @publish fails pc =>
    rcases publish_cases h k t fails pc with ⟨m', hm', heq⟩ | ⟨-, heq⟩
    · rw [heq] at hm
      rcases List.mem_append.mp hm with hm | hm
      · exact .inl hm
      · cases List.mem_singleton.mp hm
        exact .inr ⟨rfl, hm'⟩
    · rw [heq] at hm
      exact .inl hm
  | _ => exact .inl hm

lemma received_of_works {h h' : Handler} {k : ℕ} {t : Thread} {out : List ToClient}
    (hs : Works h k t h' out) {a : Acknowledge} (ha : .acknowledge a ∈ out)
    (hcls : a.cls = .publishReceived) :
    a = ⟨.publishReceived, t.packet.id, .incoming t.exchange⟩ := by
  cases hs with
  | receive => cases List.mem_singleton.mp ha; rfl
  | acknowledge | complete =>
    split_ifs at ha
    · cases ha
    · cases List.mem_singleton.mp ha
      cases hcls
  | _ => cases ha

lemma released_of_writes {h h' : Handler} {out : List ToClient} (hs : Writes h h' out)
    {a : Acknowledge} (ha : .acknowledge a ∈ out) : a.cls = .publishReleased := by
  cases hs with
  | publishUnnumbered | publish => cases List.mem_singleton.mp ha
  | send => cases List.mem_singleton.mp ha; rfl
  | _ => cases ha

lemma receive_client (client : Client) (p : ToClient) :
    (client.receive p).publishes = client.publishes ∧
      (client.receive p).opened = client.opened := by
  unfold Client.receive
  split <;> exact ⟨rfl, rfl⟩

/-- The state after a packet has been read. -/
abbrev System.read (s : System) (p : FromClient) (ps : List FromClient) (h' : Handler) : System :=
  { s with handler := h', toBroker := ps, released := s.released ++ (releases p).toList }

/-- What the client has published stays. -/
lemma Filed.mono (h : Filed s) {client : Client}
    (hmono : ∀ (n : ℕ) (p : PublishPacket), s.client.publishes[n]? = some p →
      client.publishes[n]? = some p) :
    Filed { s with client := client } := by
  refine ⟨fun t ht => hmono _ _ (h.thread t ht), fun n p hp => hmono _ _ (h.publish n p hp),
    fun a ha hcls => ?_, fun a ha hcls => ?_, fun n m hm => ?_⟩
  · obtain ⟨n, p, hn, hp, hqos, hid⟩ := h.release a ha hcls
    exact ⟨n, p, hn, hmono _ _ hp, hqos, hid⟩
  · obtain ⟨n, p, hn, hp, hid⟩ := h.receive a ha hcls
    exact ⟨n, p, hn, hmono _ _ hp, hid⟩
  · obtain ⟨p, hp, hpm⟩ := h.message n m hm
    exact ⟨p, hmono _ _ hp, hpm⟩

/-- The client sends a packet. -/
lemma Filed.send {client : Client} (h : Filed { s with client := client }) {packet : FromClient}
    (hpublish : ∀ n p, packet = .publish n p → client.publishes[n]? = some p)
    (hrelease : ∀ a, packet = .acknowledge a → a.cls = .publishReleased →
      ∃ n p, a.exchange = .incoming n ∧ client.publishes[n]? = some p ∧ p.qos = 2 ∧
        p.id = a.id) :
    Filed { s with toBroker := s.toBroker ++ [packet], client := client } := by
  refine ⟨h.thread, fun n p hp => ?_, fun a ha hcls => ?_, h.receive, h.message⟩
  · rcases List.mem_append.mp hp with hp | hp
    · exact h.publish n p hp
    · exact hpublish n p (List.mem_singleton.mp hp).symm
  · rcases List.mem_append.mp ha with ha | ha
    · exact h.release a ha hcls
    · exact hrelease a (List.mem_singleton.mp ha).symm hcls

lemma Filed.read (h : Filed s) {condition : ℕ} {p : FromClient} {ps : List FromClient}
    {h' : Handler} (hp : s.toBroker = p :: ps) (hs : Reads s.handler condition p h') :
    Filed (s.read p ps h') := by
  have hsub : ∀ q ∈ ps, q ∈ s.toBroker := fun q hq => by
    rw [hp]
    exact List.mem_cons_of_mem _ hq
  refine ⟨fun t ht => ?_, fun n q hq => h.publish n q (hsub _ hq),
    fun a ha => h.release a (hsub _ ha), h.receive, ?_⟩
  · cases hs with
    | publish =>
      rcases List.mem_append.mp ht with ht | ht
      · exact h.thread t ht
      · rw [List.mem_singleton.mp ht]
        exact h.publish _ _ (by rw [hp]; exact List.mem_cons_self)
    | notify | unexpected => exact h.thread t ht
  · cases hs <;> exact h.message

lemma Filed.work (h : Filed s) {k : ℕ} {t : Thread} {h' : Handler} {out : List ToClient}
    (hk : s.handler.threads[k]? = some t) (hs : Works s.handler k t h' out) :
    Filed { s with handler := h', toClient := s.toClient ++ out } := by
  have hthread := h.thread t (List.mem_of_getElem? hk)
  refine ⟨fun u hu => ?_, h.publish, h.release, fun a ha hcls => ?_, fun n m hm => ?_⟩
  · obtain ⟨pc, heq⟩ := hs.threads
    rw [heq] at hu
    rcases List.mem_or_eq_of_mem_set hu with hu | rfl
    · exact h.thread u hu
    · exact hthread
  · rcases List.mem_append.mp ha with ha | ha
    · exact h.receive a ha hcls
    · rw [received_of_works hs ha hcls]
      exact ⟨_, _, rfl, hthread, rfl⟩
  · rcases published_of_works hs hm with hold | ⟨rfl, hmade⟩
    · exact h.message n m hold
    · exact ⟨_, hthread, hmade⟩

theorem Filed.step (h : Filed s) (hst : Staged s) (ht : Trans s e s') : Filed s' := by
  cases ht with
  | queue => exact ⟨h.thread, h.publish, h.release, h.receive, h.message⟩
  | write hs =>
    refine ⟨by rw [hs.threads.1]; exact h.thread, h.publish, h.release, fun a ha hcls => ?_,
      by rw [hs.threads.2.2]; exact h.message⟩
    rcases List.mem_append.mp ha with ha | ha
    · exact h.receive a ha hcls
    · exact (nomatch hcls.symm.trans (released_of_writes hs ha))
  | read hp hs => exact h.read hp hs
  | work hk hs => exact h.work hk hs
  | @receive p ps hp =>
    have hmono : Filed { s with client := s.client.receive p } := h.mono fun n q hq => by
      rw [(receive_client s.client p).1]
      exact hq
    refine ⟨hmono.thread, hmono.publish, hmono.release, fun a ha => hmono.receive a ?_,
      hmono.message⟩
    change _ ∈ s.toClient
    rw [hp]
    exact List.mem_cons_of_mem _ ha
  | @publish p hfree =>
    refine Filed.send (h.mono fun n q hq => ?_) (fun n q hq => ?_) fun a ha => (nomatch ha)
    · exact (List.getElem?_append_left (List.getElem?_eq_some_iff.mp hq).1).trans hq
    · cases hq
      exact List.getElem?_concat_length
  | @retransmit n p hp =>
    refine Filed.send h (fun m q hq => ?_) fun a ha => (nomatch ha)
    cases hq
    exact hp
  | @release n p hn hp =>
    have hpos := List.count_pos_iff.mpr hn
    have hle := hst.received n
    have hopen : n ∈ s.client.opened := List.count_pos_iff.mp (by omega)
    obtain ⟨q, hq, hqos⟩ := two_iff.mp (hst.opened_two hopen)
    obtain rfl := Option.some.inj (hp.symm.trans hq)
    refine Filed.send (h.mono fun _ _ hr => ?_) (fun m r hr => (nomatch hr)) fun a ha _ => ?_
    · exact hr
    · cases ha
      exact ⟨n, p, rfl, hp, hqos, rfl⟩
  | @send a ha =>
    refine Filed.send h (fun n q hq => (nomatch hq)) fun b hb hcls => ?_
    cases hb
    exact absurd hcls ha

/-! ### The stages of a publish -/

lemma receives_of_writes {h h' : Handler} {out : List ToClient} (hs : Writes h h' out) :
    out.filterMap receives = [] := by
  cases hs <;> rfl

/-- Only the thread that writes a PUBREC adds one. -/
lemma receives_of_works {h h' : Handler} {k : ℕ} {t : Thread} {out : List ToClient}
    (hs : Works h k t h' out) :
    out.filterMap receives = [] ∨
      out.filterMap receives = [t.exchange] ∧ ∃ condition, t.pc = .receiving condition := by
  cases hs with
  | receive hpc => exact .inr ⟨rfl, _, hpc⟩
  | acknowledge | complete => left; split_ifs <;> rfl
  | _ => exact .inl rfl

lemma Staged.le_one (h : Staged s) (n : ℕ) :
    s.client.opened.count n + (s.toBroker.filterMap releases).count n + s.released.count n ≤ 1 := by
  rw [h.stage n]
  exact Bool.toNat_le _

lemma releases_eq_none {a : Acknowledge} (ha : a.cls ≠ .publishReleased) :
    releases (.acknowledge a) = none := by
  unfold releases
  split
  case h_1 heq =>
    cases heq
    exact absurd rfl ha
  case h_2 => rfl

lemma two_append (client : Client) (p : PublishPacket) {opened acknowledged : List ℕ} (n : ℕ) :
    Client.two ⟨client.publishes ++ [p], opened, acknowledged⟩ n =
      (client.two n || (n = client.publishes.length && p.qos = 2 : Bool)) := by
  unfold Client.two
  rcases lt_trichotomy n client.publishes.length with hlt | rfl | hgt
  · simp [List.getElem?_append_left hlt, hlt.ne]
  · simp
  · rw [List.getElem?_append_right hgt.le, List.getElem?_eq_none hgt.le,
      List.getElem?_eq_none (by simp; omega)]
    simp [hgt.ne']

/-- A PUBREC is taken for the publish that it is about. -/
lemma count_receive (hf : Filed s) (hst : Staged s) (ho : Ordered s) {p : ToClient}
    {ps : List ToClient} (hp : s.toClient = p :: ps) (n : ℕ) :
    (s.client.receive p).acknowledged.count n =
      s.client.acknowledged.count n + (receives p).toList.count n := by
  unfold Client.receive receives
  split
  case h_1 id exchange =>
    have hmem : ToClient.acknowledge ⟨.publishReceived, id, exchange⟩ ∈ s.toClient := by
      rw [hp]
      exact List.mem_cons_self
    obtain ⟨m, q, rfl, hq, rfl⟩ := hf.receive _ hmem rfl
    have hone := hst.received m
    have hle := hst.le_one m
    rw [hp] at hone
    simp only [List.filterMap_cons, receives, List.count_cons_self] at hone
    have hopen : m ∈ s.client.opened := List.count_pos_iff.mp (by omega)
    have hnot : m ∉ s.client.acknowledged := List.count_eq_zero.mp (by omega)
    have huses : s.client.uses q.id m = true := by simp [Client.uses, hq]
    -- of the open publishes, only this one has the id
    have honly : ∀ k ∈ s.client.opened, s.client.uses q.id k = true → k = m := by
      intro k hk hid
      obtain ⟨r, hr, hrid⟩ : ∃ r, s.client.publishes[k]? = some r ∧ r.id = q.id := by
        unfold Client.uses at hid
        cases hr : s.client.publishes[k]? with
        | none => rw [hr] at hid; cases hid
        | some r => exact ⟨r, rfl, by simpa [hr] using hid⟩
      obtain ⟨r', hr', hrqos⟩ := two_iff.mp (hst.opened_two hk)
      obtain ⟨q', hq', hqqos⟩ := two_iff.mp (hst.opened_two hopen)
      rw [hr] at hr'
      rw [hq] at hq'
      cases hr'
      cases hq'
      exact le_antisymm (ho.last m hopen k ⟨r, q, hr, hq, hrqos, hqqos, hrid⟩)
        (ho.last k hk m ⟨q, r, hq, hr, hqqos, hrqos, hrid.symm⟩)
    rw [List.count_append]
    congr 1
    by_cases hnm : n = m
    · subst hnm
      rw [List.count_filter (by simp [huses, hnot])]
      simp
      omega
    · rw [List.count_eq_zero.mpr, List.count_eq_zero.mpr (by simpa using hnm)]
      intro hn
      obtain ⟨hn, hcond⟩ := List.mem_filter.mp hn
      simp only [Bool.and_eq_true] at hcond
      exact hnm (honly n hn hcond.1)
  case h_2 hne =>
    split
    case h_1 id m => exact absurd rfl (hne id _)
    case h_2 => rfl

/-- A thread that is to write its PUBREC is the first to do so for its publish. -/
lemma Threaded.not_received (h : Threaded s) {k : ℕ} {t : Thread}
    (hk : s.handler.threads[k]? = some t) {condition : ℕ}
    (hpc : t.pc = .receiving condition) : ¬Received s t.exchange := by
  intro hreceived
  obtain ⟨u, hu, hex, huqos, hsent⟩ := h.sent _ hreceived
  obtain ⟨j, hj⟩ := List.getElem?_of_mem hu
  have hne : u.pc ≠ .starting := fun heq => by rw [Sent, heq] at hsent; exact hsent
  have heq := h.unique j k u t hj hk hex huqos hne (by simp [hpc])
  rw [heq, hk] at hj
  cases hj
  rw [Sent, hpc] at hsent
  exact hsent

/-- The state after a publish of the client. -/
abbrev System.publish (s : System) (p : PublishPacket) : System :=
  { s with
    toBroker := s.toBroker ++ [.publish s.client.publishes.length p]
    client := { s.client with
      publishes := s.client.publishes ++ [p]
      opened := s.client.opened ++ if p.qos = 2 then [s.client.publishes.length] else [] } }

lemma Staged.work (h : Staged s) (hf : Filed s) (hty : Typed s.handler) (hth : Threaded s)
    {k : ℕ} {t : Thread} {h' : Handler} {out : List ToClient}
    (hk : s.handler.threads[k]? = some t) (hs : Works s.handler k t h' out) :
    Staged { s with handler := h', toClient := s.toClient ++ out } := by
  refine ⟨h.stage, fun n => ?_⟩
  have hn := h.received n
  rw [List.filterMap_append, List.count_append]
  rcases receives_of_works hs with hout | ⟨hout, condition, hpc⟩
  · rw [hout]
    exact hn
  · -- the thread is the first to write a PUBREC for its publish
    have hqos : t.packet.qos = 2 := by
      simpa [Thread.Fits, hpc] using hty.fits t (List.mem_of_getElem? hk)
    have hnot := hth.not_received hk hpc
    simp only [Received, not_or] at hnot
    have htwo := h.stage t.exchange
    rw [two_iff.mpr ⟨_, hf.thread t (List.mem_of_getElem? hk), hqos⟩,
      List.count_eq_zero.mpr hnot.1, List.count_eq_zero.mpr hnot.2.2.2] at htwo
    rw [hout, List.count_singleton]
    by_cases heq : t.exchange = n
    · subst heq
      rw [List.count_eq_zero.mpr hnot.2.1, List.count_eq_zero.mpr hnot.2.2.1]
      simp only [Bool.toNat_true, beq_self_eq_true, if_true] at htwo ⊢
      omega
    · simpa [heq] using hn

lemma Staged.publish (h : Staged s) (p : PublishPacket) : Staged (s.publish p) := by
  have hold : s.client.two s.client.publishes.length = false := by simp [Client.two]
  have hzero := h.stage s.client.publishes.length
  rw [hold] at hzero
  simp only [Bool.toNat_false] at hzero
  refine ⟨fun n => ?_, fun n => ?_⟩
  · have hn := h.stage n
    rw [two_append, List.count_append, List.filterMap_append, List.count_append]
    by_cases hqos : p.qos = 2
    · by_cases heq : n = s.client.publishes.length
      · subst heq
        simp [hqos, releases, List.filterMap_cons]
        omega
      · simpa [hqos, heq, Ne.symm heq, List.count_singleton, releases, List.filterMap_cons]
          using hn
    · simpa [hqos, releases, List.filterMap_cons] using hn
  · rw [List.count_append]
    exact le_trans (h.received n) (Nat.le_add_right _ _)

theorem Staged.step (h : Staged s) (hf : Filed s) (ho : Ordered s) (hty : Typed s.handler)
    (hth : Threaded s) (ht : Trans s e s') : Staged s' := by
  have hstage := h.stage
  have hreceived := h.received
  cases ht with
  | queue => exact ⟨hstage, hreceived⟩
  | write hs =>
    refine ⟨hstage, ?_⟩
    simp only [List.filterMap_append, receives_of_writes hs, List.append_nil]
    exact hreceived
  | @read condition p ps h' hp hs =>
    refine ⟨fun n => ?_, hreceived⟩
    have hn := hstage n
    rw [hp, List.filterMap_cons] at hn
    rw [List.count_append]
    cases hrel : releases p with
    | none => simpa [hrel] using hn
    | some m =>
      rw [hrel, List.count_cons] at hn
      simp only [Option.toList_some, List.count_singleton]
      omega
  | work hk hs => exact h.work hf hty hth hk hs
  | @receive p ps hp =>
    obtain ⟨hpublishes, hopened⟩ := receive_client s.client p
    refine ⟨fun n => ?_, fun n => ?_⟩
    · have hn := hstage n
      rw [hopened]
      simpa [Client.two, hpublishes] using hn
    · have hn := hreceived n
      rw [hopened, count_receive hf h ho hp]
      rw [hp, List.filterMap_cons] at hn
      cases hrec : receives p with
      | none => simpa [hrec] using hn
      | some m =>
        rw [hrec, List.count_cons] at hn
        simp only [Option.toList_some, List.count_singleton]
        omega
  | publish => exact h.publish _
  | retransmit =>
    exact ⟨by simpa [List.filterMap_append, List.filterMap_cons, releases] using hstage, hreceived⟩
  | @release n p hn hp =>
    have hack := List.count_pos_iff.mpr hn
    refine ⟨fun m => ?_, fun m => ?_⟩
    · have hm := hstage m
      have hle := hreceived m
      change _ = (s.client.two m).toNat
      rw [List.count_erase, List.filterMap_append, List.count_append]
      by_cases heq : n = m
      · subst heq
        simp only [List.filterMap_cons, List.filterMap_nil, releases, List.count_cons_self,
          List.count_nil, beq_self_eq_true, if_true]
        omega
      · simpa [heq, List.filterMap_cons, releases, List.count_singleton] using hm
    · have hle := hreceived m
      rw [List.count_erase, List.count_erase]
      by_cases heq : n = m
      · subst heq
        simp only [beq_self_eq_true, if_true]
        omega
      · simpa [heq] using hle
  | @send a ha =>
    refine ⟨?_, hreceived⟩
    simpa [List.filterMap_append, List.filterMap_cons, releases_eq_none ha] using hstage

/-! ### The order of the packets -/

/-- Two publishes are alike from the start. -/
lemma Client.Alike.of_append {client client' : Client} {ps : List PublishPacket} {n m : ℕ}
    (h : client'.Alike n m) (heq : client'.publishes = client.publishes ++ ps)
    (hn : n < client.publishes.length) (hm : m < client.publishes.length) : client.Alike n m := by
  unfold Client.Alike at h
  rw [heq, List.getElem?_append_left hn, List.getElem?_append_left hm] at h
  exact h

lemma Filed.release_lt (h : Filed s) {n : ℕ} (hn : n ∈ s.toBroker.filterMap releases) :
    n < s.client.publishes.length := by
  obtain ⟨packet, hpacket, hrel⟩ := List.mem_filterMap.mp hn
  unfold releases at hrel
  split at hrel
  case h_2 => cases hrel
  case h_1 =>
    cases hrel
    obtain ⟨m, p, hm, hp, -⟩ := h.release _ hpacket rfl
    cases hm
    exact (List.getElem?_eq_some_iff.mp hp).1

/-- A packet that releases nothing is sent. -/
lemma Ordered.send (h : Ordered s) {packet : FromClient} (hnone : releases packet = none) :
    Ordered { s with toBroker := s.toBroker ++ [packet] } := by
  refine ⟨h.last, ?_, ?_⟩
  · have hreleases :
        (s.toBroker ++ [packet]).filterMap releases = s.toBroker.filterMap releases := by
      simp [List.filterMap_append, hnone]
    rw [hreleases]
    exact h.behind
  · refine List.pairwise_append.mpr ⟨h.before, List.pairwise_singleton .., fun x _ y hy => ?_⟩
    rw [List.mem_singleton.mp hy, hnone]
    exact fun m p n _ hn => (nomatch hn)

lemma Ordered.read (h : Ordered s) {condition : ℕ} {p : FromClient} {ps : List FromClient}
    {h' : Handler} (hp : s.toBroker = p :: ps) (hs : Reads s.handler condition p h') :
    Ordered (s.read p ps h') := by
  obtain ⟨hlast, hbehind, hbefore⟩ := h
  rw [hp, List.pairwise_cons] at hbefore
  have hsub : ∀ n ∈ ps.filterMap releases, n ∈ s.toBroker.filterMap releases := fun n hn => by
    rw [hp]
    exact ((List.sublist_cons_self p ps).filterMap releases).subset hn
  refine ⟨hlast, fun n hn t ht => ?_, hbefore.2⟩
  cases hs with
  | publish =>
    rcases List.mem_append.mp ht with ht | ht
    · exact hbehind n (hsub n hn) t ht
    · rw [List.mem_singleton.mp ht]
      obtain ⟨y, hy, hrel⟩ := List.mem_filterMap.mp hn
      exact hbefore.1 y hy _ _ n rfl hrel
  | notify | unexpected => exact hbehind n (hsub n hn) t ht

lemma Ordered.publish (h : Ordered s) (hf : Filed s) (hst : Staged s) {p : PublishPacket}
    (hfree : p.qos = 2 → ∀ n ∈ s.client.opened, s.client.uses p.id n = false) :
    Ordered (s.publish p) := by
  have hlt : ∀ {n q}, s.client.publishes[n]? = some q → n < s.client.publishes.length :=
    fun hq => (List.getElem?_eq_some_iff.mp hq).1
  have hreleases : (s.publish p).toBroker.filterMap releases =
      s.toBroker.filterMap releases := by
    simp [List.filterMap_append, List.filterMap_cons, releases]
  refine ⟨fun n hn m halike => ?_, fun n hn t ht halike => ?_, ?_⟩
  · rcases List.mem_append.mp hn with hopen | hnew
    · obtain ⟨r, hr, -⟩ := two_iff.mp (hst.opened_two hopen)
      by_cases hm : m < s.client.publishes.length
      · exact h.last n hopen m (halike.of_append rfl hm (hlt hr))
      · -- the new publish does not use the id of an open one
        obtain ⟨q, r', hq, hr', hqqos, -, hid⟩ := halike
        rw [List.getElem?_append_left (hlt hr), hr] at hr'
        rw [List.getElem?_append_right (not_lt.mp hm)] at hq
        obtain rfl := List.mem_singleton.mp (List.mem_of_getElem? hq)
        cases hr'
        have huses := hfree hqqos n hopen
        simp [Client.uses, hr, hid] at huses
    · obtain ⟨q, -, hq, -⟩ := halike
      have hle := (List.getElem?_eq_some_iff.mp hq).1
      split_ifs at hnew
      · obtain rfl := List.mem_singleton.mp hnew
        simp only [List.length_append, List.length_singleton] at hle
        omega
      · cases hnew
  · rw [hreleases] at hn
    exact h.behind n hn t ht (halike.of_append rfl (hlt (hf.thread t ht)) (hf.release_lt hn))
  · refine List.pairwise_append.mpr ⟨?_, List.pairwise_singleton .., fun x _ y hy => ?_⟩
    · refine h.before.imp_of_mem fun {x y} hx hy hxy m q n hm hn halike => ?_
      rw [hm] at hx
      exact hxy m q n hm hn (halike.of_append rfl (hlt (hf.publish m q hx))
        (hf.release_lt (List.mem_filterMap.mpr ⟨y, hy, hn⟩)))
    · rw [List.mem_singleton.mp hy]
      exact fun m q n _ hn => (nomatch hn)

theorem Ordered.step (h : Ordered s) (hf : Filed s) (hst : Staged s) (ht : Trans s e s') :
    Ordered s' := by
  cases ht with
  | queue => exact ⟨h.last, h.behind, h.before⟩
  | write hs => exact ⟨h.last, by rw [hs.threads.1]; exact h.behind, h.before⟩
  | read hp hs => exact h.read hp hs
  | @work k fails t h' out hk hs =>
    refine ⟨h.last, fun n hn u hu => ?_, h.before⟩
    obtain ⟨pc, heq⟩ := hs.threads
    rw [heq] at hu
    rcases List.mem_or_eq_of_mem_set hu with hu | rfl
    · exact h.behind n hn u hu
    · exact h.behind n hn t (List.mem_of_getElem? hk)
  | @receive p ps hp =>
    obtain ⟨hpublishes, hopened⟩ := receive_client s.client p
    have halike : (s.client.receive p).Alike = s.client.Alike := by
      unfold Client.Alike
      rw [hpublishes]
    refine ⟨?_, ?_, ?_⟩
    · rw [hopened, halike]
      exact h.last
    · rw [halike]
      exact h.behind
    · rw [halike]
      exact h.before
  | publish hfree => exact h.publish hf hst hfree
  | retransmit => exact h.send rfl
  | @release n p hn hp =>
    have hopened : n ∈ s.client.opened := by
      have hpos := List.count_pos_iff.mpr hn
      have hle := hst.received n
      exact List.count_pos_iff.mp (by omega)
    refine ⟨fun m hm => h.last m (List.mem_of_mem_erase hm), fun m hm t ht halike => ?_, ?_⟩
    · rw [List.filterMap_append, List.mem_append] at hm
      rcases hm with hm | hm
      · exact h.behind m hm t ht halike
      · obtain rfl : m = n := List.mem_singleton.mp hm
        exact h.last m hopened _ halike
    · refine List.pairwise_append.mpr ⟨h.before, List.pairwise_singleton .., fun x _ y hy => ?_⟩
      rw [List.mem_singleton.mp hy]
      intro m q n' _ hn' halike
      cases hn'
      exact h.last n hopened m halike
  | send ha => exact h.send (releases_eq_none ha)

/-! ### The threads -/

lemma before_congr {h h' : Handler} {t : Thread}
    (hmet : ∀ x, t.key = some x → (h'.Met x.condition ↔ h.Met x.condition)) :
    Before h' t ↔ Before h t := by
  unfold Before
  cases hpc : t.pc with
  | receiving condition | waiting condition | failed condition =>
    exact not_congr (hmet ⟨PacketClass.publishReleased.typeCode, t.packet.id, condition⟩
      (by simp [Thread.key, hpc]))
  | _ => rfl

lemma after_congr {h h' : Handler} {t : Thread}
    (hmet : ∀ x, t.key = some x → (h'.Met x.condition ↔ h.Met x.condition)) :
    After h' t ↔ After h t := by
  unfold After
  cases hpc : t.pc with
  | waiting condition =>
    exact hmet ⟨PacketClass.publishReleased.typeCode, t.packet.id, condition⟩
      (by simp [Thread.key, hpc])
  | _ => rfl

lemma key_of_getElem {h : Handler} {k : ℕ} {t : Thread} (hk : h.threads[k]? = some t) :
    h.key (.thread k) = t.key :=
  congrArg (·.bind Thread.key) hk

/-- The threads stand where they were. -/
lemma Threaded.frame (h : Threaded s) (hthreads : s'.handler.threads = s.handler.threads)
    (hmet : ∀ k x, s.handler.key (.thread k) = some x →
      (s'.handler.Met x.condition ↔ s.handler.Met x.condition))
    (hpublished : s'.handler.published = s.handler.published) (hreleased : s'.released = s.released)
    (hreceived : ∀ n, Received s' n → Received s n)
    (hmono : ∀ (n : ℕ) p, s.client.publishes[n]? = some p → s'.client.publishes[n]? = some p) :
    Threaded s' := by
  have hkey : ∀ t ∈ s.handler.threads, ∀ x, t.key = some x →
      (s'.handler.Met x.condition ↔ s.handler.Met x.condition) := fun t ht x hx => by
    obtain ⟨k, hk⟩ := List.getElem?_of_mem ht
    exact hmet k x ((key_of_getElem hk).trans hx)
  refine ⟨?_, ?_, ?_, fun n hn => ?_, fun n hn => ?_⟩
  · rw [hthreads]
    exact h.unique
  · rw [hthreads, hreleased]
    exact fun t ht hqos hpc hn => (before_congr (hkey t ht)).mpr (h.before t ht hqos hpc hn)
  · rw [hthreads, hreleased]
    exact fun t ht hqos hpc hn => (after_congr (hkey t ht)).mpr (h.after t ht hqos hpc hn)
  · rw [hthreads]
    exact h.sent n (hreceived n hn)
  · unfold Retransmission.calls
    rw [hthreads, hpublished]
    exact h.calls n fun p hp => hn p (hmono n p hp)

lemma getElem?_set_cases {α : Type} {l : List α} {j k : ℕ} {a x : α}
    (h : (l.set k a)[j]? = some x) : j = k ∧ x = a ∨ j ≠ k ∧ l[j]? = some x := by
  rw [List.getElem?_set] at h
  split_ifs at h with hjk
  · cases h
    exact .inl ⟨hjk.symm, rfl⟩
  · exact .inr ⟨Ne.symm hjk, h⟩

lemma received_append {h' : Handler} {out : List ToClient} {n : ℕ} :
    Received { s with handler := h', toClient := s.toClient ++ out } n ↔
      Received s n ∨ n ∈ out.filterMap receives := by
  unfold Received
  simp only [List.filterMap_append, List.mem_append]
  tauto

/-- One thread takes a step. -/
lemma Threaded.move (h : Threaded s) (hf : Filed s) {k : ℕ} {t : Thread} {pc : Pc} {h' : Handler}
    {out : List ToClient} (hk : s.handler.threads[k]? = some t)
    (hthreads : h'.threads = s.handler.threads.set k { t with pc := pc })
    (hmet : ∀ j x, j ≠ k → s.handler.key (.thread j) = some x →
      (h'.Met x.condition ↔ s.handler.Met x.condition))
    (hout : ∀ n ∈ out.filterMap receives,
      n = t.exchange ∧ t.packet.qos = 2 ∧ Sent { t with pc := pc })
    (hone : t.packet.qos = 2 → t.pc = .starting → ∀ j u, s.handler.threads[j]? = some u →
      u.exchange = t.exchange → j ≠ k → u.pc = .starting)
    (hbefore : t.packet.qos = 2 → t.exchange ∉ s.released → Before h' { t with pc := pc })
    (hafter : t.packet.qos = 2 → t.exchange ∈ s.released → After h' { t with pc := pc })
    (hsent : t.packet.qos = 2 → Sent t → Sent { t with pc := pc })
    (hcalls : ∀ n, (t.exchange = n → t.packet.qos = 2) →
      h'.published.countP (·.1 = n) + (t.exchange = n && Done t : Bool).toNat =
        Retransmission.calls s n + (t.exchange = n && Done { t with pc := pc } : Bool).toNat) :
    Threaded { s with handler := h', toClient := s.toClient ++ out } := by
  have htm := List.mem_of_getElem? hk
  have hfiled : ∀ {u}, u ∈ s.handler.threads → u.exchange = t.exchange → u.packet = t.packet :=
    fun {u} hu heq => by
      have hpacket := hf.thread u hu
      rw [heq, hf.thread t htm] at hpacket
      exact (Option.some.inj hpacket).symm
  have hother : ∀ j u, j ≠ k → s.handler.threads[j]? = some u → u.exchange = t.exchange →
      t.packet.qos = 2 → u.pc ≠ .starting → False := fun j u hj hju hex hqos hstart => by
    by_cases hpc : t.pc = .starting
    · exact hstart (hone hqos hpc j u hju hex hj)
    · have huqos : u.packet.qos = 2 := by
        rw [hfiled (List.mem_of_getElem? hju) hex]
        exact hqos
      exact hj (h.unique j k u t hju hk hex huqos hstart hpc)
  have hmem : ∀ u ∈ h'.threads, u = { t with pc := pc } ∨
      u ∈ s.handler.threads ∧ ∀ x, u.key = some x →
        (h'.Met x.condition ↔ s.handler.Met x.condition) := fun u hu => by
    obtain ⟨j, hj⟩ := List.getElem?_of_mem hu
    rw [hthreads] at hj
    rcases getElem?_set_cases hj with ⟨-, rfl⟩ | ⟨hjk, hj⟩
    · exact .inl rfl
    · exact .inr ⟨List.mem_of_getElem? hj, fun x hx =>
        hmet j x hjk ((key_of_getElem hj).trans hx)⟩
  have hset : { t with pc := pc } ∈ h'.threads := by
    rw [hthreads]
    exact List.mem_set (List.getElem?_eq_some_iff.mp hk).1 _
  refine ⟨fun i j u v hi hj hex hqos hu hv => ?_, fun u hu hqos hstart hn => ?_,
    fun u hu hqos hstart hn => ?_, fun n hn => ?_, fun n hn => ?_⟩
  · dsimp only at hi hj
    rw [hthreads] at hi hj
    rcases getElem?_set_cases hi with ⟨hik, rfl⟩ | ⟨hik, hiu⟩ <;>
      rcases getElem?_set_cases hj with ⟨hjk, rfl⟩ | ⟨hjk, hjv⟩
    · exact hik.trans hjk.symm
    · exact (hother j v hjk hjv hex.symm hqos hv).elim
    · exact (hother i u hik hiu hex (hfiled (List.mem_of_getElem? hiu) hex ▸ hqos) hu).elim
    · exact h.unique i j u v hiu hjv hex hqos hu hv
  · rcases hmem u hu with rfl | ⟨hu, hkey⟩
    · exact hbefore hqos hn
    · exact (before_congr hkey).mpr (h.before u hu hqos hstart hn)
  · rcases hmem u hu with rfl | ⟨hu, hkey⟩
    · exact hafter hqos hn
    · exact (after_congr hkey).mpr (h.after u hu hqos hstart hn)
  · rcases received_append.mp hn with hn | hn
    · obtain ⟨u, hu, hex, hqos, hus⟩ := h.sent n hn
      obtain ⟨j, hj⟩ := List.getElem?_of_mem hu
      by_cases hjk : j = k
      · rw [hjk, hk] at hj
        cases hj
        exact ⟨_, hset, hex, hqos, hsent hqos hus⟩
      · refine ⟨u, List.mem_of_getElem? (i := j) ?_, hex, hqos, hus⟩
        dsimp only
        rw [hthreads, List.getElem?_set_ne (Ne.symm hjk)]
        exact hj
    · obtain ⟨rfl, hqos, hs⟩ := hout n hn
      exact ⟨_, hset, rfl, hqos, hs⟩
  · have hsum := hcalls n fun heq => hn t.packet (heq ▸ hf.thread t htm)
    have hold := h.calls n hn
    obtain ⟨hlt, hget⟩ := List.getElem?_eq_some_iff.mp hk
    have hle : (t.exchange = n && Done t : Bool).toNat ≤
        s.handler.threads.countP fun t => t.exchange = n && Done t := by
      cases hdone : (decide (t.exchange = n) && Done t) with
      | false => exact Nat.zero_le _
      | true => exact List.countP_pos_iff.mpr ⟨t, htm, hdone⟩
    change h'.published.countP _ = h'.threads.countP _
    rw [hthreads, List.countP_set hlt, hget, ← hold]
    rw [← hold] at hle
    have htoNat : ∀ b : Bool, b.toNat = if b then 1 else 0 := fun b => by cases b <;> rfl
    simp only [htoNat] at hsum hle ⊢
    omega

lemma Threaded.before_or_after (h : Threaded s) {t : Thread} (ht : t ∈ s.handler.threads)
    (hqos : t.packet.qos = 2) (hpc : t.pc ≠ .starting) :
    Before s.handler t ∨ After s.handler t := by
  by_cases hn : t.exchange ∈ s.released
  · exact .inr (h.after t ht hqos hpc hn)
  · exact .inl (h.before t ht hqos hpc hn)

/-- The thread of a publish that is not of QoS 2 takes a step. -/
lemma Threaded.move_of_ne (h : Threaded s) (hf : Filed s) {k : ℕ} {t : Thread} {pc : Pc}
    {h' : Handler} {out : List ToClient} (hk : s.handler.threads[k]? = some t)
    (hqos : t.packet.qos ≠ 2) (hthreads : h'.threads = s.handler.threads.set k { t with pc := pc })
    (hconds : h'.packetConditions = s.handler.packetConditions)
    (hout : out.filterMap receives = [])
    (hcalls : ∀ n, t.exchange ≠ n → h'.published.countP (·.1 = n) = Retransmission.calls s n) :
    Threaded { s with handler := h', toClient := s.toClient ++ out } := by
  have hmet : ∀ i, h'.Met i ↔ s.handler.Met i := fun i => by
    unfold Handler.Met
    rw [hconds]
  refine h.move hf hk hthreads (fun _ x _ _ => hmet x.condition) (fun n hn => ?_)
    (fun heq => absurd heq hqos) (fun heq => absurd heq hqos) (fun heq => absurd heq hqos)
    (fun heq => absurd heq hqos) (fun n hn => ?_)
  · rw [hout] at hn
    cases hn
  · have hne : t.exchange ≠ n := fun heq => hqos (hn heq)
    simp [hcalls n hne, hne]

lemma countP_published {h : Handler} {k n : ℕ} {t : Thread} {pc : Pc} {m : IncomingMessage} :
    (Handler.goto { h with published := h.published ++ [(t.exchange, m)] } k t pc).published.countP
        (·.1 = n) = h.published.countP (·.1 = n) + if t.exchange = n then 1 else 0 := by
  change (h.published ++ [(t.exchange, m)]).countP _ = _
  rw [List.countP_append, List.countP_singleton]
  simp

/-- A thread of QoS 2 that has been met publishes its message. -/
lemma Threaded.publish (h : Threaded s) (hf : Filed s) {k : ℕ} {t : Thread} {fails : Bool}
    (hk : s.handler.threads[k]? = some t) (hpc : t.pc = .publishing)
    (hmade : ∃ message, fromPacket t.packet = .ok message) :
    Threaded { s with
      handler := s.handler.publish k t fails .completing, toClient := s.toClient ++ [] } := by
  obtain ⟨message, hmessage⟩ := hmade
  rcases publish_cases s.handler k t fails .completing with ⟨m, hm, heq⟩ | ⟨hnot, -⟩
  case inr => exact absurd hmessage (hnot message)
  rw [heq]
  have hafter : After { s.handler with published := s.handler.published ++ [(t.exchange, m)] }
      { t with pc := if fails then .ended else .completing } := by
    cases fails <;> trivial
  refine h.move hf hk rfl (fun _ _ _ _ => Iff.rfl) (fun n hn => (nomatch hn))
    (fun _ heq => absurd heq (by simp [hpc])) (fun hqos hn => ?_) (fun _ _ => hafter)
    (fun _ _ => ?_) (fun n _ => ?_)
  · have hbefore := h.before t (List.mem_of_getElem? hk) hqos (by simp [hpc]) hn
    simp [Before, hpc] at hbefore
  · cases fails <;> trivial
  · rw [countP_published]
    unfold Retransmission.calls
    cases fails <;> by_cases heq : t.exchange = n <;> simp [Done, hpc, heq]

/-- The first thread of a publish registers a condition. -/
lemma Threaded.create (h : Threaded s) (hf : Filed s) (hw : Wired s.handler) {k : ℕ} {t : Thread}
    (hk : s.handler.threads[k]? = some t) (hpc : t.pc = .starting)
    (hfirst : ∀ j u, s.handler.threads[j]? = some u → u.exchange = t.exchange → j ≠ k →
      u.pc = .starting) :
    Threaded { s with
      handler := (s.handler.create .publishReleased t.packet.id).goto k t
        (.receiving s.handler.conditions)
      toClient := s.toClient ++ [] } := by
  refine h.move hf hk rfl (fun _ _ _ _ => met_create) (fun n hn => (nomatch hn))
    (fun _ _ => hfirst) (fun _ _ => hw.not_met_create _ _) (fun _ hn => ?_)
    (fun _ hsent => ?_) (fun n _ => ?_)
  · -- a publish that has been released has a thread already
    obtain ⟨u, hu, hex, -, hsent⟩ := h.sent _ (.inr (.inr (.inr hn)))
    obtain ⟨j, hj⟩ := List.getElem?_of_mem hu
    have hupc : u.pc = .starting := by
      by_cases hjk : j = k
      · rw [hjk, hk] at hj
        cases hj
        exact hpc
      · exact hfirst j u hj hex hjk
    rw [Sent, hupc] at hsent
    exact hsent.elim
  · rw [Sent, hpc] at hsent
    exact hsent.elim
  · simp [Retransmission.calls, Handler.goto, Handler.create, Done, hpc]

/-- The thread takes up what it waits for. -/
lemma Threaded.meet (h : Threaded s) (hf : Filed s) (hw : Wired s.handler) {k condition : ℕ}
    {t : Thread} (hk : s.handler.threads[k]? = some t) (hpc : t.pc = .waiting condition)
    (hmet : s.handler.Met condition) :
    Threaded { s with
      handler := (s.handler.remove condition).goto k t .publishing
      toClient := s.toClient ++ [] } := by
  have hkey : s.handler.key (.thread k) =
      some ⟨PacketClass.publishReleased.typeCode, t.packet.id, condition⟩ :=
    (key_of_getElem hk).trans (by simp [Thread.key, hpc])
  refine h.move hf hk rfl (fun j x hjk hx => met_remove fun heq => hjk ?_)
    (fun n hn => ?_) (fun _ heq => absurd heq (by simp [hpc])) (fun hqos hn => ?_)
    (fun _ _ => trivial) (fun _ _ => trivial) (fun n _ => ?_)
  · exact Holder.thread.inj (hw.distinct _ _ _ _ hx hkey heq)
  · cases hn
  · have hbefore := h.before t (List.mem_of_getElem? hk) hqos (by simp [hpc]) hn
    rw [Before, hpc] at hbefore
    exact absurd hmet hbefore
  · simp [Retransmission.calls, Handler.goto, Handler.remove, Done, hpc]

lemma Threaded.work (h : Threaded s) (hf : Filed s) (hw : Wired s.handler)
    (hty : Typed s.handler) {k : ℕ} {t : Thread} {fails : Bool} {h' : Handler}
    {out : List ToClient} (hok : Once s (.work k fails))
    (hk : s.handler.threads[k]? = some t) (hs : Works s.handler k t h' out) :
    Threaded { s with handler := h', toClient := s.toClient ++ out } := by
  obtain ⟨hone, hmade⟩ := hok t hk
  have htm := List.mem_of_getElem? hk
  have hstart : t.pc ≠ .starting → t.packet.qos = 2 → t.pc = .starting → ∀ j u,
      s.handler.threads[j]? = some u → u.exchange = t.exchange → j ≠ k → u.pc = .starting :=
    fun hpc _ heq => absurd heq hpc
  cases hs with
  | @publish fails' pc hpc =>
    rcases hpc with ⟨hpc, rfl⟩ | ⟨hpc, hqos⟩
    · exact h.publish hf hk hpc (hmade hpc)
    · have hne : t.packet.qos ≠ 2 := by omega
      rcases publish_cases s.handler k t fails' pc with ⟨m, -, heq⟩ | ⟨-, heq⟩ <;> rw [heq]
      · refine h.move_of_ne hf hk hne rfl rfl rfl fun n hn => ?_
        rw [countP_published, if_neg hn, Nat.add_zero]
        rfl
      · exact h.move_of_ne hf hk hne rfl rfl rfl fun _ _ => rfl
  | create hpc hqos => exact h.create hf hw hk hpc (hone hpc hqos)
  | stop hpc hqos => exact h.move_of_ne hf hk hqos rfl rfl rfl fun _ _ => rfl
  | @acknowledge fails' hpc =>
    have hqos : t.packet.qos ≠ 2 := fun hqos => by
      have hcase := h.before_or_after htm hqos (by simp [hpc])
      simp [Before, After, hpc] at hcase
    exact h.move_of_ne hf hk hqos rfl rfl (by cases fails' <;> rfl) fun _ _ => rfl
  | @fail condition hpc =>
    refine h.move hf hk rfl (fun _ _ _ _ => Iff.rfl) (fun n hn => (nomatch hn))
      (hstart (by simp [hpc])) (fun hqos hn => ?_) (fun hqos hn => ?_) (fun _ hsent => ?_)
      (fun n _ => ?_)
    · have hbefore := h.before t htm hqos (by simp [hpc]) hn
      rw [Before, hpc] at hbefore
      exact hbefore
    · have hafter := h.after t htm hqos (by simp [hpc]) hn
      simp [After, hpc] at hafter
    · rw [Sent, hpc] at hsent
      exact hsent.elim
    · simp [Retransmission.calls, Handler.goto, Done, hpc]
  | @receive condition hpc =>
    refine h.move hf hk rfl (fun _ _ _ _ => Iff.rfl) (fun n hn => ?_) (hstart (by simp [hpc]))
      (fun hqos hn => ?_) (fun hqos hn => ?_) (fun _ _ => trivial) (fun n _ => ?_)
    · have hqos : t.packet.qos = 2 := by simpa [Thread.Fits, hpc] using hty.fits t htm
      exact ⟨List.mem_singleton.mp hn, hqos, trivial⟩
    · have hbefore := h.before t htm hqos (by simp [hpc]) hn
      rw [Before, hpc] at hbefore
      exact hbefore
    · have hafter := h.after t htm hqos (by simp [hpc]) hn
      simp [After, hpc] at hafter
    · simp [Retransmission.calls, Handler.goto, Done, hpc]
  | meet hpc hmet => exact h.meet hf hw hk hpc hmet
  | @complete fails' hpc =>
    refine h.move hf hk rfl (fun _ _ _ _ => Iff.rfl) (fun n hn => ?_) (hstart (by simp [hpc]))
      (fun hqos hn => ?_) (fun _ _ => trivial) (fun _ _ => trivial) (fun n _ => ?_)
    · cases fails' <;> cases hn
    · have hbefore := h.before t htm hqos (by simp [hpc]) hn
      simp [Before, hpc] at hbefore
    · simp [Retransmission.calls, Handler.goto, Done, hpc]

/-- The condition that a PUBREL meets is that of the thread of its publish. -/
lemma Threaded.holder (h : Threaded s) (hf : Filed s) (hst : Staged s) (ho : Ordered s)
    (hw : Wired s.handler) (hty : Typed s.handler) {n : ℕ}
    (hn : n ∈ s.toBroker.filterMap releases) :
    ∃ (k : ℕ) (t : Thread) (condition : ℕ), s.handler.threads[k]? = some t ∧ t.exchange = n ∧
      t.packet.qos = 2 ∧ t.pc = .waiting condition ∧ ∀ c ∈ s.handler.packetConditions,
        c.typeCode = PacketClass.publishReleased.typeCode → c.id = t.packet.id →
        c.result = none → c.condition = condition := by
  obtain ⟨t, ht, rfl, hqos, hsent⟩ := h.sent n (.inl hn)
  obtain ⟨k, hk⟩ := List.getElem?_of_mem ht
  have hpos := List.count_pos_iff.mpr hn
  have hle := hst.le_one t.exchange
  have hnot : t.exchange ∉ s.released := List.count_eq_zero.mp (by omega)
  have hstart : t.pc ≠ .starting := fun heq => by rw [Sent, heq] at hsent; exact hsent
  have hbefore := h.before t ht hqos hstart hnot
  have hwaiting : ∃ condition, t.pc = .waiting condition := by
    cases hpc : t.pc with
    | waiting condition => exact ⟨condition, rfl⟩
    | _ => simp [Sent, Before, hpc] at hsent hbefore
  obtain ⟨condition, hpc⟩ := hwaiting
  refine ⟨k, t, condition, hk, rfl, hqos, hpc, fun c hc hcode hid hresult => ?_⟩
  obtain ⟨w, hx⟩ := hw.held c hc
  cases w with
  | writer => exact absurd hcode (hty.outgoing _ hx)
  | thread j =>
    obtain ⟨u, hj, hu⟩ := Option.bind_eq_some_iff.mp hx
    have hum := List.mem_of_getElem? hj
    obtain ⟨-, huid, hupc⟩ := Thread.of_key hu
    have huid : u.packet.id = t.packet.id := huid.symm.trans hid
    have huqos : u.packet.qos = 2 := by
      rcases hupc with hupc | hupc | hupc <;> simpa [Thread.Fits, hupc] using hty.fits u hum
    have hustart : u.pc ≠ .starting := by rcases hupc with hupc | hupc | hupc <;> simp [hupc]
    have hnotmet : ¬s.handler.Met c.condition := by
      rintro ⟨d, hd, hcond, hmet⟩
      rw [hw.eq_of_condition hd hc hcond] at hmet
      exact hmet hresult
    have hunot : u.exchange ∉ s.released := fun hin => by
      have hafter := h.after u hum huqos hustart hin
      rcases hupc with hupc | hupc | hupc <;> rw [After, hupc] at hafter
      · exact hafter
      · exact hnotmet hafter
      · exact hafter
    -- the publish of that thread is open or on its way to be released, so it is the last one
    have hup := hf.thread u hum
    have htp := hf.thread t ht
    have hstage := hst.stage u.exchange
    rw [two_iff.mpr ⟨_, hup, huqos⟩, List.count_eq_zero.mpr hunot] at hstage
    have hle : t.exchange ≤ u.exchange := by
      have halike : s.client.Alike t.exchange u.exchange := ⟨_, _, htp, hup, hqos, huqos, huid.symm⟩
      by_cases hopen : u.exchange ∈ s.client.opened
      · exact ho.last _ hopen _ halike
      · rw [List.count_eq_zero.mpr hopen, Bool.toNat_true] at hstage
        exact ho.behind _ (List.count_pos_iff.mp (by omega)) t ht halike
    have hge := ho.behind _ hn u hum ⟨_, _, hup, htp, huqos, hqos, huid⟩
    have heq := h.unique j k u t hj hk (le_antisymm hge hle) huqos hustart hstart
    rw [heq, hk] at hj
    cases hj
    simpa [hpc, eq_comm, PacketCondition.key] using hupc

lemma typeCode_ne {cls : PacketClass} (hcls : cls ≠ .publishReleased) :
    cls.typeCode ≠ PacketClass.publishReleased.typeCode := by
  cases cls <;> first | exact absurd rfl hcls | decide

lemma met_notify {h : Handler} {a : Acknowledge} {condition i : ℕ} (hi : i ≠ condition) :
    Handler.Met { h with packetConditions := h.packetConditions.map fun c =>
      if c.condition = condition then c.meet a else c } i ↔ h.Met i := by
  refine ⟨?_, ?_⟩
  · rintro ⟨d, hd, hcond, hresult⟩
    obtain ⟨c, hc, rfl⟩ := List.mem_map.mp hd
    split_ifs at hcond hresult with heq
    · exact absurd (hcond.symm.trans heq) hi
    · exact ⟨c, hc, hcond, hresult⟩
  · rintro ⟨c, hc, hcond, hresult⟩
    refine ⟨c, List.mem_map.mpr ⟨c, hc, if_neg fun heq => hi (hcond.symm.trans heq)⟩, hcond,
      hresult⟩

lemma released_read {p : FromClient} {ps : List FromClient} {h' : Handler}
    (hrel : releases p = none) : (s.read p ps h').released = s.released := by
  rw [System.read, hrel]
  exact List.append_nil _

lemma received_read {p : FromClient} {ps : List FromClient} {h' : Handler}
    (hp : s.toBroker = p :: ps) {n : ℕ} (hn : Received (s.read p ps h') n) : Received s n := by
  unfold Received at hn ⊢
  rw [hp, List.filterMap_cons]
  simp only [List.mem_append] at hn
  cases hrel : releases p with
  | none => simpa [hrel] using hn
  | some m =>
    simp only [hrel, Option.toList_some, List.mem_singleton] at hn
    simp only [List.mem_cons]
    tauto

/-- A PUBREL that is read is on its way for a publish with its id. -/
lemma Filed.releasing (hf : Filed s) {a : Acknowledge} {ps : List FromClient}
    (hp : s.toBroker = .acknowledge a :: ps) (hcls : a.cls = .publishReleased) :
    ∃ n q, releases (.acknowledge a) = some n ∧ n ∈ s.toBroker.filterMap releases ∧
      s.client.publishes[n]? = some q ∧ q.id = a.id := by
  obtain ⟨n, q, hn, hq, -, hid⟩ := hf.release a (by rw [hp]; exact List.mem_cons_self) hcls
  have hrel : releases (.acknowledge a) = some n := by
    obtain ⟨cls, id, exchange⟩ := a
    cases hcls
    cases hn
    rfl
  refine ⟨n, q, hrel, ?_, hq, hid⟩
  rw [hp, List.filterMap_cons, hrel]
  exact List.mem_cons_self

/-- A PUBLISH starts a thread that has nothing yet. -/
lemma Threaded.readPublish (h : Threaded s) {n : ℕ} {packet : PublishPacket}
    {ps : List FromClient} (hp : s.toBroker = .publish n packet :: ps) :
    Threaded (s.read (.publish n packet) ps
      { s.handler with threads := s.handler.threads ++ [⟨n, packet, .starting⟩] }) := by
  have hold : ∀ (j : ℕ) (t : Thread),
      (s.handler.threads ++ [⟨n, packet, .starting⟩])[j]? = some t →
      t.pc ≠ .starting → s.handler.threads[j]? = some t := fun j t hj hpc => by
    rcases lt_or_ge j s.handler.threads.length with hlt | hge
    · rwa [List.getElem?_append_left hlt] at hj
    · rw [List.getElem?_append_right hge] at hj
      rw [List.mem_singleton.mp (List.mem_of_getElem? hj)] at hpc
      exact absurd rfl hpc
  have hmem : ∀ t ∈ s.handler.threads ++ [⟨n, packet, .starting⟩], t.pc ≠ .starting →
      t ∈ s.handler.threads := fun t ht hpc => by
    obtain ⟨j, hj⟩ := List.getElem?_of_mem ht
    exact List.mem_of_getElem? (hold j t hj hpc)
  have hreleased := @released_read s (.publish n packet) ps
    { s.handler with threads := s.handler.threads ++ [⟨n, packet, .starting⟩] } rfl
  refine ⟨fun j k t u hj hk hex hqos ht hu => ?_, fun t ht hqos hpc hn => ?_,
    fun t ht hqos hpc hn => ?_, fun m hm => ?_, fun m hm => ?_⟩
  · exact h.unique j k t u (hold j t hj ht) (hold k u hk hu) hex hqos ht hu
  · exact h.before t (hmem t ht hpc) hqos hpc (hreleased ▸ hn)
  · exact h.after t (hmem t ht hpc) hqos hpc (hreleased ▸ hn)
  · obtain ⟨t, ht, hsent⟩ := h.sent m (received_read hp hm)
    exact ⟨t, List.mem_append_left _ ht, hsent⟩
  · change Retransmission.calls s m = (s.handler.threads ++ [_]).countP _
    rw [List.countP_append, h.calls m hm]
    simp [Done]

/-- A PUBREL meets the condition of the thread of its publish, and no other. -/
lemma Threaded.readRelease (h : Threaded s) (hf : Filed s) (hst : Staged s) (ho : Ordered s)
    (hw : Wired s.handler) (hty : Typed s.handler) {a : Acknowledge} {ps : List FromClient}
    (hp : s.toBroker = .acknowledge a :: ps) (hcls : a.cls = .publishReleased)
    {c : PacketCondition} (hc : c ∈ s.handler.packetConditions) (hmatch : c.Matches a)
    (hnone : c.result = none) :
    Threaded (s.read (.acknowledge a) ps
      { s.handler with packetConditions := s.handler.packetConditions.map fun x =>
          if x.condition = c.condition then x.meet a else x }) := by
  obtain ⟨n, q, hrel, hmem, hq, hid⟩ := hf.releasing hp hcls
  obtain ⟨k, t, condition, hk, rfl, htqos, hpc, hunique⟩ := h.holder hf hst ho hw hty hmem
  have htq : t.packet = q :=
    Option.some.inj ((hf.thread t (List.mem_of_getElem? hk)).symm.trans hq)
  obtain rfl : c.condition = condition :=
    hunique c hc (by rw [hmatch.1, hcls]) (by rw [hmatch.2, ← hid, htq]) hnone
  have hkey : s.handler.key (.thread k) =
      some ⟨PacketClass.publishReleased.typeCode, t.packet.id, c.condition⟩ :=
    (key_of_getElem hk).trans (by simp [Thread.key, hpc])
  -- the other threads find their conditions as they were
  have hother : ∀ u ∈ s.handler.threads, u ≠ t → ∀ x, u.key = some x →
      (Handler.Met { s.handler with packetConditions := s.handler.packetConditions.map fun x =>
        if x.condition = c.condition then x.meet a else x } x.condition ↔
          s.handler.Met x.condition) := fun u hu hut x hx => by
    obtain ⟨j, hj⟩ := List.getElem?_of_mem hu
    refine met_notify fun heq => hut ?_
    have hjk := Holder.thread.inj (hw.distinct _ _ _ _ ((key_of_getElem hj).trans hx) hkey heq)
    rw [hjk, hk] at hj
    exact (Option.some.inj hj).symm
  refine ⟨h.unique, fun u hu huqos hupc hun => ?_, fun u hu huqos hupc hun => ?_,
    fun m hm => h.sent m (received_read hp hm), h.calls⟩
  · simp only [hrel, Option.toList_some, List.mem_append, List.mem_singleton, not_or] at hun
    have hut : u ≠ t := fun heq => hun.2 (congrArg Thread.exchange heq)
    exact (before_congr (hother u hu hut)).mpr (h.before u hu huqos hupc hun.1)
  · simp only [hrel, Option.toList_some, List.mem_append, List.mem_singleton] at hun
    by_cases hut : u = t
    · subst hut
      rw [After, hpc]
      exact ⟨c.meet a, List.mem_map.mpr ⟨c, hc, if_pos rfl⟩, rfl, Option.some_ne_none a⟩
    · refine (after_congr (hother u hu hut)).mpr
        (h.after u hu huqos hupc (hun.resolve_right fun hex => ?_))
      obtain ⟨j, hj⟩ := List.getElem?_of_mem hu
      have hjk := h.unique j k u t hj hk hex huqos hupc (by simp [hpc])
      rw [hjk, hk] at hj
      exact hut (Option.some.inj hj).symm

/-- Another acknowledgement meets no condition of a thread. -/
lemma Threaded.readOther (h : Threaded s) (hw : Wired s.handler) {a : Acknowledge}
    {ps : List FromClient} (hp : s.toBroker = .acknowledge a :: ps)
    (hcls : a.cls ≠ .publishReleased) {c : PacketCondition}
    (hc : c ∈ s.handler.packetConditions) (hmatch : c.Matches a) :
    Threaded (s.read (.acknowledge a) ps
      { s.handler with packetConditions := s.handler.packetConditions.map fun x =>
          if x.condition = c.condition then x.meet a else x }) := by
  refine h.frame rfl (fun k x hx => met_notify fun heq => ?_) rfl
    (released_read (releases_eq_none hcls)) (fun n hn => received_read hp hn) fun _ _ hp => hp
  obtain ⟨t, -, hx'⟩ := Option.bind_eq_some_iff.mp hx
  obtain ⟨d, hd, hdx⟩ := hw.kept _ x hx
  have hdc : d = c := hw.eq_of_condition hd hc (by rw [← heq, ← hdx]; rfl)
  have hcode := (Thread.of_key hx').1
  rw [← hdx, hdc] at hcode
  exact typeCode_ne hcls (hmatch.1.symm.trans hcode)

lemma Threaded.read (h : Threaded s) (hf : Filed s) (hst : Staged s) (ho : Ordered s)
    (hw : Wired s.handler) (hty : Typed s.handler) {condition : ℕ} (hok : Once s (.read condition))
    {p : FromClient} {ps : List FromClient} {h' : Handler} (hp : s.toBroker = p :: ps)
    (hs : Reads s.handler condition p h') : Threaded (s.read p ps h') := by
  cases hs with
  | publish => exact h.readPublish hp
  | @notify a c hc hcond hmatch =>
    subst hcond
    by_cases hcls : a.cls = .publishReleased
    · obtain ⟨n, -, hrel, -⟩ := hf.releasing hp hcls
      have hnone := hok _ _ hp (by simp [hrel]) c hc rfl
      exact h.readRelease hf hst ho hw hty hp hcls hc hmatch hnone
    · exact h.readOther hw hp hcls hc hmatch
  | @unexpected a hnone =>
    by_cases hcls : a.cls = .publishReleased
    · -- the thread of its publish has a condition for it
      obtain ⟨n, q, -, hmem, hq, hid⟩ := hf.releasing hp hcls
      obtain ⟨k, t, condition', hk, rfl, -, hpc, -⟩ := h.holder hf hst ho hw hty hmem
      have htq : t.packet = q :=
        Option.some.inj ((hf.thread t (List.mem_of_getElem? hk)).symm.trans hq)
      obtain ⟨c, hc, hcx⟩ := hw.kept (.thread k)
        ⟨PacketClass.publishReleased.typeCode, t.packet.id, condition'⟩
        ((key_of_getElem hk).trans (by simp [Thread.key, hpc]))
      refine absurd ⟨?_, ?_⟩ (hnone c hc)
      · rw [hcls]
        exact congrArg Key.typeCode hcx
      · rw [← hid, ← htq]
        exact congrArg Key.id hcx
    · exact h.frame rfl (fun _ _ _ => Iff.rfl) rfl (released_read (releases_eq_none hcls))
        (fun n hn => received_read hp hn) fun _ _ hp => hp

theorem Threaded.step (h : Threaded s) (hf : Filed s) (hst : Staged s) (ho : Ordered s)
    (hw : Wired s.handler) (hty : Typed s.handler) (hok : Once s e) (ht : Trans s e s') :
    Threaded s' := by
  have hmono := fun n p hp => publishes_mono ht (n := n) (p := p) hp
  cases ht with
  | queue => exact h.frame rfl (fun _ _ _ => Iff.rfl) rfl rfl (fun _ hn => hn) hmono
  | write hs =>
    refine h.frame hs.threads.1 (fun k x hx => hw.met_writes hs hx) hs.threads.2.2 rfl
      (fun n hn => ?_) hmono
    rcases received_append.mp hn with hn | hn
    · exact hn
    · rw [receives_of_writes hs] at hn
      cases hn
  | read hp hs => exact h.read hf hst ho hw hty hok hp hs
  | work hk hs => exact h.work hf hw hty hok hk hs
  | @receive p ps hp =>
    refine h.frame rfl (fun _ _ _ => Iff.rfl) rfl rfl (fun n hn => ?_) hmono
    have hcount := count_receive hf hst ho hp n
    unfold Received at hn ⊢
    rw [hp, List.filterMap_cons]
    rcases hn with hn | hn | hn | hn
    · exact .inl hn
    · have hpos := List.count_pos_iff.mpr hn
      rw [hcount] at hpos
      by_cases hack : n ∈ s.client.acknowledged
      · exact .inr (.inl hack)
      · rw [List.count_eq_zero.mpr hack, Nat.zero_add] at hpos
        cases hrec : receives p with
        | none => simp [hrec] at hpos
        | some m =>
          rw [hrec] at hpos
          obtain rfl : n = m := List.mem_singleton.mp (List.count_pos_iff.mp hpos)
          exact .inr (.inr (.inl List.mem_cons_self))
    · refine .inr (.inr (.inl ?_))
      cases receives p with
      | none => exact hn
      | some m => exact List.mem_cons_of_mem _ hn
    · exact .inr (.inr (.inr hn))
  | @publish p hfree =>
    refine h.frame rfl (fun _ _ _ => Iff.rfl) rfl rfl (fun n hn => ?_) hmono
    simpa [Received, List.filterMap_append, List.filterMap_cons, releases] using hn
  | retransmit =>
    refine h.frame rfl (fun _ _ _ => Iff.rfl) rfl rfl (fun n hn => ?_) hmono
    simpa [Received, List.filterMap_append, List.filterMap_cons, releases] using hn
  | @release n p hn hp =>
    refine h.frame rfl (fun _ _ _ => Iff.rfl) rfl rfl (fun m hm => ?_) hmono
    unfold Received at hm ⊢
    rw [List.filterMap_append, List.mem_append] at hm
    rcases hm with (hm | hm) | hm | hm
    · exact .inl hm
    · obtain rfl : m = n := List.mem_singleton.mp hm
      exact .inr (.inl hn)
    · exact .inr (.inl (List.mem_of_mem_erase hm))
    · exact .inr (.inr hm)
  | @send a ha =>
    refine h.frame rfl (fun _ _ _ => Iff.rfl) rfl rfl (fun n hn => ?_) hmono
    simpa [Received, List.filterMap_append, releases_eq_none ha] using hn

/-! ### Exactly once -/

structure Invariant (s : System) : Prop where
  wired : Wired s.handler
  typed : Typed s.handler
  filed : Filed s
  staged : Staged s
  ordered : Ordered s
  threaded : Threaded s

lemma invariant_initial : Invariant initial where
  wired := wired_new
  typed := typed_new
  filed := by
    refine ⟨fun t ht => ?_, fun n p hp => ?_, fun a ha => ?_, fun a ha => ?_, fun n m hm => ?_⟩
    · cases ht
    · cases hp
    · cases ha
    · cases ha
    · cases hm
  staged := ⟨fun _ => rfl, fun _ => Nat.zero_le _⟩
  ordered := by
    refine ⟨fun n hn => ?_, fun n hn => ?_, List.Pairwise.nil⟩
    · cases hn
    · cases hn
  threaded := by
    refine ⟨fun j k t u hj => ?_, fun t ht => ?_, fun t ht => ?_, fun n hn => ?_, fun _ _ => rfl⟩
    · cases hj
    · cases ht
    · cases ht
    · rcases hn with hn | hn | hn | hn <;> cases hn

theorem Invariant.step (h : Invariant s) (hok : Once s e) (ht : Trans s e s') : Invariant s' := by
  obtain ⟨hw, hty, hf, hst, ho, hth⟩ := h
  refine ⟨?_, ?_, hf.step hst ht, hst.step hf ho hty hth ht, ho.step hf hst ht,
    hth.step hf hst ho hw hty hok ht⟩
  · cases ht with
    | queue => exact hw.keep rfl rfl fun v => by cases v <;> rfl
    | write hs => exact hw.writes hs
    | read hp hs => exact hw.reads hs
    | work hk hs => exact hw.works hk hs
    | _ => exact hw
  · cases ht with
    | queue => exact ⟨hty.outgoing, hty.fits⟩
    | write hs => exact hty.writes hs
    | read hp hs => exact hty.reads hs
    | work hk hs => exact hty.works hk hs
    | _ => exact hty

lemma countP_le_one {α : Type} {l : List α} {p : α → Bool}
    (h : ∀ (j k : ℕ) (a b : α), l[j]? = some a → l[k]? = some b → p a = true → p b = true → j = k) :
    l.countP p ≤ 1 := by
  induction l with
  | nil => exact Nat.zero_le _
  | cons a l ih =>
    cases hpa : p a with
    | false =>
      rw [List.countP_cons_of_neg (by simp [hpa])]
      exact ih fun j k b c hb hc hpb hpc => Nat.succ_injective (h (j + 1) (k + 1) b c hb hc hpb hpc)
    | true =>
      rw [List.countP_cons_of_pos hpa, List.countP_eq_zero.mpr]
      intro b hb hpb
      obtain ⟨k, hk⟩ := List.getElem?_of_mem hb
      exact (nomatch h 0 (k + 1) a b rfl hk hpa hpb)

lemma Invariant.calls_le (h : Invariant s) {n : ℕ} {p : PublishPacket}
    (hp : s.client.publishes[n]? = some p) (hqos : p.qos = 2) :
    calls s n = (s.handler.threads.countP fun t => t.exchange = n && Done t) ∧ calls s n ≤ 1 := by
  have heq := h.threaded.calls n fun q hq => by
    rw [hp] at hq
    cases hq
    exact hqos
  refine ⟨heq, heq ▸ countP_le_one fun j k t u hj hk ht hu => ?_⟩
  simp only [Bool.and_eq_true, decide_eq_true_eq] at ht hu
  have hpacket := h.filed.thread t (List.mem_of_getElem? hj)
  rw [ht.1, hp] at hpacket
  have hstart : ∀ {v : Thread}, Done v = true → v.pc ≠ .starting := fun hv hpc => by
    simp [Done, hpc] at hv
  exact h.threaded.unique j k t u hj hk (ht.1.trans hu.1.symm)
    (by rw [← Option.some.inj hpacket]; exact hqos) (hstart ht.2) (hstart hu.2)

lemma Invariant.exactlyOnce (h : Invariant s) : ExactlyOnce s where
  once n p hp hqos := (h.calls_le hp hqos).2
  message := h.filed.message
  complete n p hp hqos hcomplete := by
    obtain ⟨heq, hle⟩ := h.calls_le hp hqos
    obtain ⟨t, ht, rfl, htqos, hsent⟩ := h.threaded.sent n (.inr (.inr (.inr hcomplete.1)))
    have hidle := hcomplete.2 t ht rfl
    have hstart : t.pc ≠ .starting := fun hpc => by rw [Sent, hpc] at hsent; exact hsent
    have hafter := h.threaded.after t ht htqos hstart hcomplete.1
    have hpc : t.pc = .ended := by
      unfold After at hafter
      unfold Working at hidle
      cases hpc : t.pc with
      | ended => rfl
      | _ => simp_all
    have hpos : 0 < s.handler.threads.countP fun u => u.exchange = t.exchange && Done u :=
      List.countP_pos_iff.mpr ⟨t, ht, by simp [Done, hpc]⟩
    omega
  removed id hid c hc hcode hcid := by
    obtain ⟨w, hx⟩ := h.wired.held c hc
    cases w with
    | writer => exact h.typed.outgoing _ hx hcode
    | thread k =>
      obtain ⟨t, hk, ht⟩ := Option.bind_eq_some_iff.mp hx
      have htm := List.mem_of_getElem? hk
      obtain ⟨-, htid, hpc⟩ := Thread.of_key ht
      have hqos : t.packet.qos = 2 := by
        rcases hpc with hpc | hpc | hpc <;> simpa [Thread.Fits, hpc] using h.typed.fits t htm
      obtain ⟨hreleased, hidle⟩ := hid t.exchange t.packet (h.filed.thread t htm) hqos
        (htid.symm.trans hcid)
      have hidle := hidle t htm rfl
      have hafter := h.threaded.after t htm hqos
        (by rcases hpc with hpc | hpc | hpc <;> simp [hpc]) hreleased
      rcases hpc with hpc | hpc | hpc <;> rw [After, hpc] at hafter <;> rw [Working, hpc] at hidle
      · exact hafter
      · exact hidle hafter
      · exact hafter

end

/-- **Each publish of QoS 2 is published exactly once** in every run in which only one of its
packets is handled. -/
theorem exactly_once {s : System} {es : List Event} (hok : Runs.Meets step Once initial es)
    (hrun : Runs.run step initial es = some s) : ExactlyOnce s := by
  have hstep : ∀ t e t', Invariant t → Once t e → step t e = some t' → Invariant t' :=
    fun t e t' h hok hs => h.step hok (trans_of_step h.wired hs)
  exact (Runs.run_invariant hstep invariant_initial hok hrun).exactlyOnce

def door (data : ℕ) : PublishPacket := ⟨"door".toList, some [UInt8.ofNat data], 2, false, 0⟩

/-- A PUBLISH that is sent twice, of which one is handled, and another publish with the same id as
soon as the first is released. -/
def exchange : List Event :=
  [.publish (door 48), .retransmit 0, .read 0, .read 0, .work 0 false, .work 0 false, .receive,
    .release 0, .publish (door 49), .read 0, .read 0, .work 2 false, .work 2 false, .receive,
    .release 1, .work 0 false, .read 1, .work 2 false, .work 2 false, .work 0 false, .work 0 false,
    .work 2 false]

lemma once_work {s : System} {k : ℕ} {t : Thread} (hk : s.handler.threads[k]? = some t)
    (hothers : t.pc = .starting → ∀ u ∈ s.handler.threads, u.exchange = t.exchange →
      u.pc = .starting)
    (hmade : ∃ message, fromPacket t.packet = .ok message) (fails : Bool) :
    Once s (.work k fails) := by
  intro u hu
  obtain rfl := Option.some.inj (hk.symm.trans hu)
  exact ⟨fun hpc _ j v hj hv _ => hothers hpc v (List.mem_of_getElem? hj) hv, fun _ => hmade⟩

theorem exactly_once_exchange :
    ∃ s, Runs.run step initial exchange = some s ∧ calls s 0 = 1 ∧ calls s 1 = 1 ∧
      ExactlyOnce s := by
  refine ⟨_, rfl, rfl, rfl, @exactly_once _ exchange ?_ rfl⟩
  have hmade : ∀ n, ∃ message, fromPacket (door n) = .ok message := fun n => ⟨_, rfl⟩
  have hnone : ∀ {s : System} {c : ℕ}, s.toBroker.head?.bind releases = none →
      Once s (.read c) := by
    rintro s c h p ps hp hrel
    rw [hp] at h
    exact absurd h hrel
  have hnot : ∀ {pc : Pc} {P : Prop}, pc ≠ .starting → pc = .starting → P := fun h h' => absurd h' h
  refine .cons trivial rfl <| .cons trivial rfl <| .cons (hnone rfl) rfl <|
    .cons (hnone rfl) rfl <| .cons (once_work rfl ?_ (hmade 48) _) rfl <|
    .cons (once_work rfl (hnot (by decide)) (hmade 48) _) rfl <| .cons trivial rfl <|
    .cons trivial rfl <| .cons trivial rfl <| .cons ?_ rfl <| .cons (hnone rfl) rfl <|
    .cons (once_work rfl ?_ (hmade 49) _) rfl <|
    .cons (once_work rfl (hnot (by decide)) (hmade 49) _) rfl <| .cons trivial rfl <|
    .cons trivial rfl <| .cons (once_work rfl (hnot (by decide)) (hmade 48) _) rfl <|
    .cons ?_ rfl <|
    .cons (once_work rfl (hnot (by decide)) (hmade 49) _) rfl <|
    .cons (once_work rfl (hnot (by decide)) (hmade 49) _) rfl <|
    .cons (once_work rfl (hnot (by decide)) (hmade 48) _) rfl <|
    .cons (once_work rfl (hnot (by decide)) (hmade 48) _) rfl <|
    .cons (once_work rfl (hnot (by decide)) (hmade 49) _) rfl .nil
  · rintro - u hu -
    rcases List.mem_cons.mp hu with rfl | hu
    · rfl
    · cases List.mem_singleton.mp hu
      rfl
  · rintro p ps - - c hc -
    cases List.mem_singleton.mp hc
    rfl
  · rintro - u hu hsame
    rcases List.mem_cons.mp hu with rfl | hu
    · cases hsame
    · rcases List.mem_cons.mp hu with rfl | hu
      · cases hsame
      · cases List.mem_singleton.mp hu
        rfl
  · rintro p ps - - c hc -
    cases List.mem_singleton.mp hc
    rfl

/-- The PUBLISH is sent again before its PUBREL, and the PUBREL meets the first condition. -/
def again : List Event :=
  [.publish (door 48), .read 0, .work 0 false, .work 0 false, .retransmit 0, .read 0, .work 1 false,
    .work 1 false, .receive, .receive, .release 0, .read 0, .work 0 false, .work 0 false,
    .work 0 false]

/-- A new publish with the same id, whose PUBREL meets the condition that is left. -/
def reused : List Event :=
  [.publish (door 49), .read 0, .work 2 false, .work 2 false, .receive, .receive, .release 1,
    .read 1, .work 1 false, .work 1 false]

/-- **A PUBLISH that is sent again** leaves a condition behind, and its message is published in
place of that of the next publish with its id. -/
theorem not_exactly_once_again :
    (∃ s, Runs.run step initial again = some s ∧ ¬ExactlyOnce s) ∧
      ∃ s, Runs.run step initial (again ++ reused) = some s ∧ 1 ∈ s.released ∧ calls s 0 = 2 ∧
        calls s 1 = 0 := by
  refine ⟨?_, _, rfl, ?_, rfl, rfl⟩
  · obtain ⟨s, hrun, hpublishes, hthreads, hconds, hreleased⟩ :
        ∃ s, Runs.run step initial again = some s ∧ s.client.publishes = [door 48] ∧
          s.handler.threads = [⟨0, door 48, .ended⟩, ⟨0, door 48, .waiting 1⟩] ∧
          s.handler.packetConditions = [⟨6, 0, none, 1⟩] ∧ s.released = [0] :=
      ⟨_, rfl, rfl, rfl, rfl, rfl⟩
    refine ⟨s, hrun, fun h => h.removed 0 (fun n p hp _ _ => ?_) ⟨6, 0, none, 1⟩ ?_ rfl rfl⟩
    · have hn : n = 0 := by
        rw [hpublishes] at hp
        simpa using (List.getElem?_eq_some_iff.mp hp).1
      refine ⟨by rw [hn, hreleased]; exact List.mem_cons_self, fun t ht _ => ?_⟩
      rw [hthreads] at ht
      simp only [List.mem_cons, List.not_mem_nil, or_false] at ht
      rcases ht with rfl | rfl
      · exact id
      · rintro ⟨c, hc, -, hresult⟩
        rw [hconds, List.mem_singleton] at hc
        rw [hc] at hresult
        exact hresult rfl
    · rw [hconds]
      exact List.mem_cons_self
  · decide

end MoteBroker.Retransmission

import MoteBroker.Records

/-!
A connection and its successor: the cleanup of one connection leaves another with the same client
id alone, as long as it does not meet it in service.
-/

namespace MoteBroker.Successor

open MoteBroker.Topics MoteBroker.RecursiveDefaultDict MoteBroker.Subscriptions
open MoteBroker.Connections MoteBroker.Records

/-! ### The property -/

/-- In `Broker.clients` or replaced there, and neither disconnected nor overridden. -/
def InService (x : Connection) : Prop :=
  x.stored = true ∧ x.alive = true ∧ x.connectionOverride = false

/-- Connection `c` stands in `Broker.clients` as before, and so do its subscriptions. -/
def Unharmed (s s' : System) (c : ℕ) : Prop :=
  ∀ id, (s.conns c).id = some id →
    (s.clients.lookup id = some c → s'.clients.lookup id = some c) ∧
    ∀ F, s.owner (F, id) = some c →
      s'.owner (F, id) = some c ∧ entry s F id ≠ none ∧ entry s' F id = entry s F id

/-- What a call of `handle_disconnected` has still to take away from others: subscriptions that
it has read, or the client under the id. -/
def Threatens : Pc → Prop
  | .unsubscribing topics => topics ≠ []
  | .removing => True
  | _ => False

/-- Another connection with this id is in service. -/
def OtherInService (s : System) (c : ℕ) (id : Option Str) : Prop :=
  ∃ d, d ≠ c ∧ (s.conns d).id = id ∧ InService (s.conns d)

/-- The steps by which no cleanup meets a connection in service: a connection is put in
`Broker.clients` when no cleanup of another with its id has anything to take away, and a cleanup
reads subscriptions, or finds `connection_override` unset, when no other connection with the id is
in service; and so when a connection that is being cleaned up learns its id. -/
def Apart (s : System) : Event → Prop
  | .reader c =>
    match (s.conns c).reader with
    | .connecting => OtherInService s c (some (s.conns c).packet.clientId) →
        ∀ a pc, s.cleanups a = some ⟨c, pc⟩ → ¬Threatens pc
    | .storing => ∀ a d pc, s.cleanups a = some ⟨d, pc⟩ → d ≠ c →
        (s.conns d).id = (s.conns c).id → ¬Threatens pc
    | _ => True
  | .cleanup a =>
    match s.cleanups a with
    | some ⟨d, .reading⟩ => (s.conns d).subscriptions ≠ [] → ¬OtherInService s d (s.conns d).id
    | some ⟨d, .testing⟩ =>
      (s.conns d).connectionOverride = false → ¬OtherInService s d (s.conns d).id
    | _ => True
  | _ => True

/-! ### The invariant -/

/-- No cleanup has anything to take away from another connection in service. -/
def Safe (s : System) : Prop :=
  ∀ a d pc c, s.cleanups a = some ⟨d, pc⟩ → c ≠ d → (s.conns c).id = (s.conns d).id →
    InService (s.conns c) → ¬Threatens pc

lemma safe_initial (packet : ℕ → ConnectPacket) : Safe (initial packet) :=
  fun _ _ _ _ h => (nomatch h)

section
variable {s s' : System} {e : Event}

/-- A connection comes into service by being put in `Broker.clients`. -/
lemma inService_of_trans {c : ℕ} (ht : Trans s e s') (h : InService (s'.conns c)) :
    InService (s.conns c) ∨
      e = .reader c ∧ (s.conns c).reader = .storing ∧ (s'.conns c).id = (s.conns c).id := by
  have hchange := change_of_trans ht c
  rcases hchange.stored with heq | ⟨he, hx, -, -, hid, -⟩
  · refine .inl ⟨heq.symm.trans h.1, hchange.alive h.2.1, ?_⟩
    exact Bool.eq_false_iff.mpr fun ho => (nomatch (hchange.override ho).symm.trans h.2.2)
  · exact .inr ⟨he, hx, hid⟩

/-- Nobody learns its id, or comes into service, while a cleanup goes on. -/
lemma other_of_cleanup {a : Actor} {c d : ℕ} (ht : Trans s (.cleanup a) s') (hne : c ≠ d)
    (hid : (s'.conns c).id = (s'.conns d).id) (hserv : InService (s'.conns c)) :
    OtherInService s d (s.conns d).id := by
  have hsame : ∀ x, (s'.conns x).id = (s.conns x).id := fun x => by
    rcases (change_of_trans ht x).id with heq | ⟨he, -⟩
    · exact heq
    · cases he
  rw [hsame c, hsame d] at hid
  rcases inService_of_trans ht hserv with hold | ⟨he, -⟩
  · exact ⟨c, hne, hid, hold⟩
  · cases he

lemma Safe.step (h : Safe s) (hsound : Sound s) (hok : Apart s e) (ht : Trans s e s') :
    Safe s' := by
  intro a d pc c ha hne hid hserv
  cases cleanups_of_trans ht ha with
  | enters | unsubscribes | removes => exact fun hpc => hpc
  | reads he ha' _ =>
    subst he
    simp only [Apart, ha'] at hok
    exact fun hpc => hok hpc (other_of_cleanup ht hne hid hserv)
  | tests he ha' ho =>
    subst he
    simp only [Apart, ha'] at hok
    exact fun _ => hok ho (other_of_cleanup ht hne hid hserv)
  | stays ha' =>
    rcases inService_of_trans ht hserv with hold | ⟨rfl, hr, hidc⟩
    · -- the other connection has been in service before
      have hidc := (hsound.keeps ht ⟨rfl, hold.1⟩).1
      rcases (change_of_trans ht d).id with hidd | ⟨rfl, hr, -, hidd⟩
      · rw [hidc, hidd] at hid
        exact h a d pc c ha' hne hid hold
      · simp only [Apart, hr] at hok
        rw [hidc, hidd] at hid
        exact hok ⟨c, hne, hid, hold⟩ a pc ha'
    · -- it comes into service
      have hidd : (s'.conns d).id = (s.conns d).id := by
        rcases (change_of_trans ht d).id with heq | ⟨he, -⟩
        · exact heq
        · exact absurd (Event.reader.inj he) hne
      simp only [Apart, hr] at hok
      rw [hidc, hidd] at hid
      exact hok a d pc ha' (Ne.symm hne) hid.symm

/-! ### Unharmed -/

/-- A step that takes nothing away leaves everybody unharmed. -/
lemma unharmed_of_eq (hsound : Sound s) {c : ℕ} (hclients : s'.clients = s.clients)
    (howner : s'.owner = s.owner) (hsub : s'.subscriptions = s.subscriptions) :
    Unharmed s s' c := by
  obtain ⟨m, hm, hnone⟩ := hsound.entries
  intro id _
  refine ⟨fun hl => by rw [hclients]; exact hl, fun F hF => ?_⟩
  refine ⟨by rw [howner]; exact hF, ?_, by rw [entry, entry, hsub]⟩
  rw [entry, hm.lookup]
  intro hmF
  rw [(hnone _).mp hmF] at hF
  cases hF

lemma Safe.unsubscribe (h : Safe s) (hsound : Sound s) {a : Actor} {c d : ℕ} {topics : List Str}
    {S : Rdd CreateMessages.ClientSet} (ha : s.cleanups a = some ⟨d, .unsubscribing topics⟩)
    (hne : c ≠ d) (hserv : InService (s.conns c))
    (hS : Broker.unsubscribeTopics ((s.conns d).id.getD []) s.subscriptions topics = .ok S)
    (hclients : s'.clients = s.clients) (hsub : s'.subscriptions = S)
    (howner : s'.owner = fun k => if k.2 = (s.conns d).id.getD [] ∧ k.1 ∈ topics.map split then none
      else s.owner k) : Unharmed s s' c := by
  obtain ⟨m, hm, hnone⟩ := hsound.entries
  obtain ⟨S', hS', hr⟩ := hm.unsubscribeTopics ((s.conns d).id.getD []) topics
  rw [hS] at hS'
  cases hS'
  intro id hid
  refine ⟨fun hl => by rw [hclients]; exact hl, fun F hF => ?_⟩
  have hkeep : ¬(id = (s.conns d).id.getD [] ∧ F ∈ topics.map split) := by
    rintro ⟨heq, hFt⟩
    have htopics : topics ≠ [] := fun hnil => by rw [hnil] at hFt; cases hFt
    have hidd := hsound.getD_id (hsound.topics a d topics ha htopics)
    rw [← heq] at hidd
    exact h a d _ c ha hne (hid.trans hidd.symm) hserv htopics
  have hentry : entry s F id = m (F, id) := hm.lookup F id
  refine ⟨?_, ?_, ?_⟩
  · rw [howner]
    exact (if_neg hkeep).trans hF
  · rw [hentry]
    intro hmF
    rw [(hnone _).mp hmF] at hF
    cases hF
  · rw [hentry, entry, hsub, hr.lookup]
    exact if_neg hkeep

lemma Safe.remove (h : Safe s) {a : Actor} {c d : ℕ} (ha : s.cleanups a = some ⟨d, .removing⟩)
    (hne : c ≠ d) (hserv : InService (s.conns c)) {id : Str} (hid : (s.conns c).id = some id)
    (hl : s.clients.lookup id = some c) : (s.removeClient d).clients.lookup id = some c := by
  unfold System.removeClient
  split
  case h_1 id' hid' =>
    split_ifs
    · exact hl
    · dsimp only
      rw [lookup_erase_ite, if_neg, hl]
      rintro rfl
      exact h a d _ c ha hne (hid.trans hid'.symm) hserv trivial
  case h_2 => exact hl

lemma Safe.unharmed (h : Safe s) (hsound : Sound s) {a : Actor} {c d : ℕ} {pc : Pc}
    (ha : s.cleanups a = some ⟨d, pc⟩) (hne : c ≠ d) (hserv : InService (s.conns c))
    (ht : Trans s (.cleanup a) s') : Unharmed s s' c := by
  cases ht with
  | cleanUnsubscribe ha' hS =>
    rw [ha] at ha'
    cases ha'
    exact h.unsubscribe hsound ha hne hserv hS rfl rfl rfl
  | cleanRemove ha' =>
    rw [ha] at ha'
    cases ha'
    have hrest : Unharmed s s c := unharmed_of_eq hsound rfl rfl rfl
    rw [removeClient_eq]
    exact fun id hid => ⟨h.remove ha hne hserv hid, (hrest id hid).2⟩
  | cleanRead | cleanRaises | cleanOverridden | cleanTest | cleanPublish | moves | threadEnds =>
    exact unharmed_of_eq hsound rfl rfl rfl

end

/-- **A cleanup never harms a successor** as long as the steps keep cleanups and connections in
service apart: it leaves every other connection in service in `Broker.clients`, and what it has
registered in the tree. -/
theorem successor_unharmed {packet : ℕ → ConnectPacket} {s s' : System} {es : List Event}
    (hok : Runs.Meets step Apart (initial packet) es)
    (hrun : Runs.run step (initial packet) es = some s) {a : Actor} {c d : ℕ} {pc : Pc}
    (ha : s.cleanups a = some ⟨d, pc⟩) (hs : step s (.cleanup a) = some s') (hne : c ≠ d)
    (hserv : InService (s.conns c)) : Unharmed s s' c := by
  have hstep : ∀ t e t', Safe t ∧ Sound t → Apart t e → step t e = some t' → Safe t' ∧ Sound t' :=
    fun t e t' ht hok hs =>
      ⟨ht.1.step ht.2 hok (trans_of_step hs), ht.2.step (trans_of_step hs)⟩
  have hinv := Runs.run_invariant hstep ⟨safe_initial packet, sound_initial packet⟩ hok hrun
  exact hinv.1.unharmed hinv.2 ha hne hserv (trans_of_step hs)

/-- Every client is called `app` and announces no last will. -/
def appSystem : System := initial (appPacket none)

/-- Connection `c` subscribes to the light. -/
def subscribes (c qos : ℕ) : List Event :=
  .packet c (.subscribing [("light".toList, qos)]) :: List.replicate 3 (.thread c 0) ++ [.reader c]

/-- Connection 0 has a subscription. Its write loop fails and is cleaning up when connection 1
overrides it, which cleans up as well, comes into service and subscribes to the same topic. -/
def overriddenEvents : List Event :=
  connects 0 ++ subscribes 0 1 ++ [.writerFails 0, .writer 0] ++
    List.replicate 2 (.cleanup (.writer 0)) ++ List.replicate 6 (.reader 1) ++
    List.replicate 3 (.cleanup (.override 1)) ++ List.replicate 3 (.reader 1) ++ subscribes 1 2

def overridden : System := (Runs.run step appSystem overriddenEvents).getD appSystem

/-- The write loop's cleanup of connection 0 goes on while connection 1 is in service. -/
theorem successor_unharmed_app :
    (overridden.conns 0).connectionOverride = true ∧
      (overridden.conns 0).subscriptions = ["light".toList] ∧
      overridden.clients.lookup "app".toList = some 1 ∧
      overridden.owner (split "light".toList, "app".toList) = some 1 ∧
      ∃ s', step overridden (.cleanup (.writer 0)) = some s' ∧ Unharmed overridden s' 1 := by
  have hok : Runs.Meets step Apart appSystem overriddenEvents := by
    -- connection 0 connects, subscribes and fails
    refine .cons (fun _ _ _ h => (nomatch h)) rfl <| .cons trivial rfl <| .cons trivial rfl <|
      .cons (fun _ _ _ h => (nomatch h)) rfl <| .cons trivial rfl <| .cons trivial rfl <|
      .cons trivial rfl <| .cons trivial rfl <| .cons trivial rfl <| .cons trivial rfl <|
      .cons trivial rfl <| .cons trivial rfl <| .cons trivial rfl <|
      .cons (fun _ => ?_) rfl <| .cons trivial rfl ?_
    · rintro ⟨_ | d, hne, -, hserv⟩
      · exact hne rfl
      · exact (nomatch hserv.1)
    -- connection 1 overrides it
    refine .cons (fun _ a pc h => ?_) rfl <| .cons trivial rfl <| .cons trivial rfl <|
      .cons trivial rfl <| .cons trivial rfl <| .cons trivial rfl <|
      .cons (fun _ => ?_) rfl <| .cons trivial rfl <| .cons (fun h => (nomatch h)) rfl ?_
    · rcases a with c | (_ | c) | c | c <;> exact (nomatch h)
    · rintro ⟨_ | _ | d, hne, -, hserv⟩
      · exact hne rfl
      · exact (nomatch hserv.1)
      · exact (nomatch hserv.1)
    -- and comes into service, with the cleanup of connection 0 past what it takes away
    refine .cons (fun a d pc h _ _ => ?_) rfl <| .cons trivial rfl <| .cons trivial rfl <|
      .cons trivial rfl <| .cons trivial rfl <| .cons trivial rfl <| .cons trivial rfl <|
      .cons trivial rfl .nil
    rcases a with c | (_ | c) | c | (_ | _ | c)
    case writer.zero =>
      cases h
      exact fun hpc => hpc
    all_goals exact (nomatch h)
  have hrun : Runs.run step appSystem overriddenEvents = some overridden := rfl
  have ha : overridden.cleanups (.writer 0) = some ⟨0, .testing⟩ := rfl
  have hserv : InService (overridden.conns 1) := ⟨rfl, rfl, rfl⟩
  obtain ⟨s', hs⟩ : ∃ s', step overridden (.cleanup (.writer 0)) = some s' := ⟨_, rfl⟩
  exact ⟨rfl, rfl, rfl, rfl, s', hs, successor_unharmed hok hrun ha hs Nat.one_ne_zero hserv⟩

/-- Both loops of connection 0 fail, the second after a successor has come into service. -/
def lateEvents : List Event :=
  connects 0 ++ [.writerFails 0, .writer 0] ++ cleans (.writer 0) ++ connects 1 ++ disconnects 0 ++
    List.replicate 3 (.cleanup (.reader 0))

def succeeded : System := (Runs.run step appSystem lateEvents).getD appSystem

/-- The second cleanup of connection 0 takes its successor out of `Broker.clients`. -/
theorem late_cleanup_removes_successor :
    Runs.run step appSystem lateEvents = some succeeded ∧
      succeeded.cleanups (.reader 0) = some ⟨0, .removing⟩ ∧ InService (succeeded.conns 1) ∧
      ∃ s', step succeeded (.cleanup (.reader 0)) = some s' ∧ ¬Unharmed succeeded s' 1 := by
  refine ⟨rfl, rfl, ⟨rfl, rfl, rfl⟩, ?_⟩
  obtain ⟨s', hs⟩ : ∃ s', step succeeded (.cleanup (.reader 0)) = some s' := ⟨_, rfl⟩
  have hclients : (step succeeded (.cleanup (.reader 0))).map
      (fun s => s.clients.lookup "app".toList) = some none := rfl
  rw [hs] at hclients
  refine ⟨s', hs, fun h => ?_⟩
  have hkept := (h "app".toList rfl).1 rfl
  have hlost : s'.clients.lookup "app".toList = none := Option.some.inj hclients
  exact (nomatch hlost.symm.trans hkept)

end MoteBroker.Successor

import MoteBroker.Records

/-!
What the connections of a client id leave behind: nothing, once the last of them is over, as long
as every subscription is on record when a cleanup reads them.
-/

namespace MoteBroker.Orphans

open MoteBroker.Topics MoteBroker.Broker MoteBroker.Subscriptions MoteBroker.Connections
open MoteBroker.Records

/-! ### The property -/

def ThreadsEnded (x : Connection) : Prop := ∀ t ∈ x.threads, t = .ended

/-- The connection does not use its client id any more: its packet threads have ended, and it has
been cleaned up or has never been put in `Broker.clients`. -/
def Over (x : Connection) : Prop :=
  ThreadsEnded x ∧ (x.cleaned = true ∨ x.stored = false ∧ x.reader = .ended)

/-- When a cleanup of a connection is over, its threads have ended and no other connection uses its
client id, nothing is left under the id. -/
def NoOrphans (s : System) : Prop :=
  ∀ c id, (s.conns c).id = some id → (s.conns c).cleaned = true → ThreadsEnded (s.conns c) →
    (∀ d, d ≠ c → (s.conns d).id = some id → Over (s.conns d)) →
    s.clients.lookup id = none ∧ ∀ F, entry s F id = none

/-- The thread is about to add the topic to the subscriptions of its connection. -/
def ToAdd (x : Connection) (topic_str : Str) : Prop :=
  ∃ requests, .registered topic_str requests ∈ x.threads

/-- The steps that keep the records complete. A connection finds a previous client, and is put in
`Broker.clients`, before a cleanup of it removes its id, and none stands under the empty id when a
cleanup would remove that. A topic is registered before a cleanup of the connection has ended its
subscriptions, and if one has read them, it is among them; they are read when every topic that the
connection has registered is among them. A topic is removed from them when it is not registered
any more, or is still to be added. -/
def OnRecord (s : System) : Event → Prop
  | .reader c =>
    match (s.conns c).reader with
    | .adding => ∀ id prev, (s.conns c).id = some id → s.clients.lookup id = some prev →
        (s.conns c).popped = false
    | .storing => (s.conns c).popped = false
    | _ => True
  | .cleanup a =>
    match s.cleanups a with
    | some ⟨c, .reading⟩ => ∀ topic_str, ToAdd (s.conns c) topic_str →
        s.owner (split topic_str, (s.conns c).id.getD []) = some c →
        topic_str ∈ (s.conns c).subscriptions
    | some ⟨c, .removing⟩ => (s.conns c).id = some [] → s.clients.lookup [] = none
    | _ => True
  | .thread c k =>
    match (s.conns c).threads[k]? with
    | some (.subscribing ((topic, _) :: _)) => ∀ topic_str tree,
        requestTopic topic = .ok (topic_str, tree) → (s.conns c).purged = false ∧
          ∀ a topics, s.cleanups a = some ⟨c, .unsubscribing topics⟩ → topic_str ∈ topics
    | some (.unsubscribed topic _) =>
      s.owner (split topic, (s.conns c).id.getD []) = some c → ToAdd (s.conns c) topic
    | _ => True
  | _ => True

/-! ### Where a cleanup is -/

/-- A cleanup has left its marks. -/
structure Marked (s : System) : Prop where
  purged : ∀ a c pc, s.cleanups a = some ⟨c, pc⟩ →
    pc = .testing ∨ pc = .removing ∨ pc = .publishing → (s.conns c).purged = true
  popped : ∀ a c, s.cleanups a = some ⟨c, .publishing⟩ → (s.conns c).popped = true
  cleaned : ∀ c, (s.conns c).cleaned = true → (s.conns c).purged = true ∧
    ((s.conns c).popped = true ∨ (s.conns c).connectionOverride = true)

lemma marked_initial (packet : ℕ → ConnectPacket) : Marked (initial packet) :=
  ⟨fun _ _ _ h => (nomatch h), fun _ _ h => (nomatch h), fun _ h => (nomatch h)⟩

section
variable {s s' : System} {e : Event}

lemma Marked.step (h : Marked s) (ht : Trans s e s') : Marked s' where
  purged a c pc ha hpc := by
    have hkeep := (change_of_trans ht c).purges
    cases cleanups_of_trans ht ha with
    | stays ha' => exact hkeep (h.purged a c pc ha' hpc)
    | enters => simp at hpc
    | reads he ha hread => simp at hpc
    | unsubscribes _ hpurged => exact hpurged
    | tests _ ha' => exact hkeep (h.purged a c _ ha' (.inl rfl))
    | removes ha' => exact hkeep (h.purged a c _ ha' (.inr (.inl rfl)))
  popped a c ha := by
    cases cleanups_of_trans ht ha with
    | stays ha' => exact (change_of_trans ht c).pops (h.popped a c ha')
    | removes _ hpopped => exact hpopped
  cleaned c hcl := by
    have hchange := change_of_trans ht c
    rcases hchange.cleaned hcl with hcl | ⟨a, ⟨ha, ho⟩ | ha⟩
    · obtain ⟨hpurged, hrest⟩ := h.cleaned c hcl
      exact ⟨hchange.purges hpurged, hrest.imp hchange.pops hchange.override⟩
    · exact ⟨hchange.purges (h.purged a c _ ha (.inl rfl)), .inr (hchange.override ho)⟩
    · exact ⟨hchange.purges (h.purged a c _ ha (.inr (.inr rfl))),
        .inl (hchange.pops (h.popped a c ha))⟩

end

/-! ### The subscriptions -/

/-- The topic is in the subscriptions of the connection, or about to be. -/
def Known (x : Connection) (topic_str : Str) : Prop :=
  topic_str ∈ x.subscriptions ∨ ToAdd x topic_str

/-- What a connection has registered for the nodes is on record. -/
structure Covered (cleanups : Actor → Option Cleanup) (F : List Str) (c : ℕ) (x : Connection) :
    Prop where
  purged : x.purged = false
  known : ∃ topic_str, split topic_str = F ∧ Known x topic_str
  ending : ∀ a topics, cleanups a = some ⟨c, .unsubscribing topics⟩ → F ∈ topics.map split

def Recorded (s : System) : Prop :=
  ∀ k c, s.owner k = some c → Covered s.cleanups k.1 c (s.conns c)

/-- Nothing is taken off the record. -/
structure Keeps (x y : Connection) : Prop where
  purged : y.purged = x.purged
  known : ∀ topic_str, Known x topic_str → Known y topic_str

section
variable {x y z : Connection} {k : ℕ} {t t' : PacketThread} {topic_str : Str}

lemma Keeps.refl (x : Connection) : Keeps x x := ⟨rfl, fun _ h => h⟩

lemma Keeps.trans (h : Keeps x y) (h' : Keeps y z) : Keeps x z :=
  ⟨h'.purged.trans h.purged, fun t ht => h'.known t (h.known t ht)⟩

lemma keeps_of_eq (hpurged : y.purged = x.purged) (hsubs : y.subscriptions = x.subscriptions)
    (hthreads : y.threads = x.threads) : Keeps x y where
  purged := hpurged
  known t ht := by
    unfold Known ToAdd
    rw [hsubs, hthreads]
    exact ht

lemma toAdd_set (ht : x.threads[k]? = some t) (hne : ∀ requests, t ≠ .registered topic_str requests)
    (h : ToAdd x topic_str) : ToAdd { x with threads := x.threads.set k t' } topic_str := by
  obtain ⟨requests, hmem⟩ := h
  obtain ⟨j, hj⟩ := List.mem_iff_getElem?.mp hmem
  have hkj : k ≠ j := fun heq => by
    rw [← heq, ht] at hj
    exact hne requests (Option.some.inj hj)
  refine ⟨requests, List.mem_iff_getElem?.mpr ⟨j, ?_⟩⟩
  exact (List.getElem?_set_ne hkj).trans hj

/-- A thread that has nothing to add goes on. -/
lemma keeps_set (ht : x.threads[k]? = some t)
    (hne : ∀ topic requests, t ≠ .registered topic requests) :
    Keeps x { x with threads := x.threads.set k t' } where
  purged := rfl
  known topic h := h.imp_right (toAdd_set ht (hne topic))

lemma keeps_update {conns : ℕ → Connection} {c : ℕ} (hy : Keeps (conns c) y) (d : ℕ) :
    Keeps (conns d) (Function.update conns c y d) := by
  rw [Function.update_apply]
  split_ifs with hdc
  · exact hdc ▸ hy
  · exact .refl _

end

section
variable {s s' : System} {e : Event}

lemma Recorded.keep (h : Recorded s) (hconns : ∀ c, Keeps (s.conns c) (s'.conns c))
    (howner : ∀ k c, s'.owner k = some c → s.owner k = some c)
    (hending : ∀ a c topics, s'.cleanups a = some ⟨c, .unsubscribing topics⟩ →
      s.cleanups a = some ⟨c, .unsubscribing topics⟩) : Recorded s' := by
  intro k c hk
  obtain ⟨hpurged, ⟨topic_str, hsplit, hknown⟩, hold⟩ := h k c (howner k c hk)
  exact ⟨(hconns c).purged.trans hpurged, ⟨topic_str, hsplit, (hconns c).known _ hknown⟩,
    fun a topics ha => hold a topics (hending a c topics ha)⟩

/-- No cleanup reads. -/
lemma ending_of_trans (ht : Trans s e s')
    (hread : ∀ a c, e = .cleanup a → s.cleanups a ≠ some ⟨c, .reading⟩) {a : Actor} {c : ℕ}
    {topics : List Str} (ha : s'.cleanups a = some ⟨c, .unsubscribing topics⟩) :
    s.cleanups a = some ⟨c, .unsubscribing topics⟩ := by
  cases cleanups_of_trans ht ha with
  | stays ha' => exact ha'
  | reads he ha' => exact absurd ha' (hread a c he)

lemma keeps_modify {c : ℕ} {f : Connection → Connection} (hf : ∀ x, Keeps x (f x)) (d : ℕ) :
    Keeps (s.conns d) ((s.modify c f).conns d) :=
  keeps_update (hf _) d

lemma keeps_modify_modify {p c : ℕ} {f g : Connection → Connection} (hf : ∀ x, Keeps x (f x))
    (hg : ∀ x, Keeps x (g x)) (d : ℕ) : Keeps (s.conns d) (((s.modify p f).modify c g).conns d) :=
  (keeps_modify hf d).trans (keeps_modify hg d)

lemma keeps_enter {a : Actor} {c c' : ℕ} {f : Connection → Connection}
    (hf : ∀ x, Keeps x (f x)) (d : ℕ) :
    Keeps (s.conns d) (((s.modify c f).enter a c').conns d) := by
  unfold System.enter
  rw [setCleanup_conns]
  refine keeps_modify_modify hf (fun _ => ?_) d
  exact keeps_of_eq rfl rfl rfl

/-- A step that neither registers nor reads. -/
lemma Recorded.go (h : Recorded s) (ht : Trans s e s')
    (hconns : ∀ c, Keeps (s.conns c) (s'.conns c)) (howner : s'.owner = s.owner)
    (hread : ∀ a c, e = .cleanup a → s.cleanups a ≠ some ⟨c, .reading⟩) : Recorded s' :=
  h.keep hconns (fun _ _ hk => howner ▸ hk) fun _ _ _ => ending_of_trans ht hread

/-- A cleanup that is elsewhere does not read. -/
lemma not_reading {a : Actor} {c : ℕ} {pc : Pc} (ha : s.cleanups a = some ⟨c, pc⟩)
    (hpc : pc ≠ .reading) (b : Actor) (d : ℕ) (he : Event.cleanup a = .cleanup b) :
    s.cleanups b ≠ some ⟨d, .reading⟩ := fun hb => by
  cases he
  cases ha.symm.trans hb
  exact hpc rfl

/-- A topic is registered when it is found in what the cleanups have read. -/
lemma Recorded.register (h : Recorded s) {c k : ℕ} {t : PacketThread} {topic_str : Str}
    {requests : List (Str × ℕ)} (ht : (s.conns c).threads[k]? = some t)
    (hne : ∀ topic requests, t ≠ .registered topic requests)
    (hpurged : (s.conns c).purged = false)
    (hread : ∀ a topics, s.cleanups a = some ⟨c, .unsubscribing topics⟩ → topic_str ∈ topics)
    (hconns : s'.conns = (s.setThread c k (.registered topic_str requests)).conns)
    (hcleanups : s'.cleanups = s.cleanups)
    (howner : s'.owner =
      Function.update s.owner (split topic_str, (s.conns c).id.getD []) (some c)) :
    Recorded s' := by
  have hkeep : ∀ d, Keeps (s.conns d) (s'.conns d) := fun d => by
    rw [hconns]
    exact keeps_update (keeps_set ht hne) d
  intro k' d hk
  rw [howner, Function.update_apply] at hk
  split_ifs at hk with hk'
  · obtain rfl := Option.some.inj hk
    refine ⟨(hkeep c).purged.trans hpurged, ⟨topic_str, by rw [hk'], .inr ⟨requests, ?_⟩⟩, ?_⟩
    · rw [hconns]
      simp only [System.setThread, modify_conns, if_true]
      exact List.mem_set (List.getElem?_eq_some_iff.mp ht).1 _
    · intro a topics ha
      rw [hk']
      exact List.mem_map_of_mem (hread a topics (hcleanups ▸ ha))
  · obtain ⟨hpurged, ⟨t, hsplit, hknown⟩, hold⟩ := h k' d hk
    exact ⟨(hkeep d).purged.trans hpurged, ⟨t, hsplit, (hkeep d).known t hknown⟩,
      fun a topics ha => hold a topics (hcleanups ▸ ha)⟩

/-- A cleanup reads the subscriptions when what is registered is among them. -/
lemma Recorded.read (h : Recorded s) (hsound : Sound s) {a : Actor} {c : ℕ}
    (hread : ∀ topic_str, ToAdd (s.conns c) topic_str →
      s.owner (split topic_str, (s.conns c).id.getD []) = some c →
      topic_str ∈ (s.conns c).subscriptions)
    (hconns : ∀ d, Keeps (s.conns d) (s'.conns d)) (howner : s'.owner = s.owner)
    (hcleanups : s'.cleanups = Function.update s.cleanups a
      (some ⟨c, .unsubscribing (s.conns c).subscriptions⟩)) : Recorded s' := by
  intro k d hk
  rw [howner] at hk
  obtain ⟨hpurged, ⟨topic_str, hsplit, hknown⟩, hold⟩ := h k d hk
  refine ⟨(hconns d).purged.trans hpurged, ⟨topic_str, hsplit, (hconns d).known _ hknown⟩, ?_⟩
  intro b topics hb
  rw [hcleanups, Function.update_apply] at hb
  split_ifs at hb with hba
  · cases hb
    have hid : k.2 = (s.conns c).id.getD [] := by rw [(hsound.owner k c hk).1]; rfl
    have hmem : topic_str ∈ (s.conns c).subscriptions :=
      hknown.elim id fun ht => hread _ ht (by rw [hsplit, ← hid]; exact hk)
    exact hsplit ▸ List.mem_map_of_mem hmem
  · exact hold b topics hb

/-- A cleanup ends all that is registered for its connection. -/
lemma Recorded.purge (h : Recorded s) (hsound : Sound s) {a : Actor} {c : ℕ} {topics : List Str}
    (ha : s.cleanups a = some ⟨c, .unsubscribing topics⟩)
    (hconns : ∀ d, d ≠ c → s'.conns d = s.conns d)
    (howner : s'.owner = fun k => if k.2 = (s.conns c).id.getD [] ∧ k.1 ∈ topics.map split then none
        else s.owner k)
    (hcleanups : s'.cleanups = Function.update s.cleanups a (some ⟨c, .testing⟩)) :
    Recorded s' := by
  intro k d hk
  rw [howner] at hk
  dsimp only at hk
  split_ifs at hk with hkept
  obtain ⟨hpurged, hknown, hold⟩ := h k d hk
  have hdc : d ≠ c := by
    rintro rfl
    exact hkept ⟨by rw [(hsound.owner k d hk).1]; rfl, hold a topics ha⟩
  rw [hconns d hdc]
  refine ⟨hpurged, hknown, fun b topics hb => ?_⟩
  rw [hcleanups, Function.update_apply] at hb
  split_ifs at hb
  · cases hb
  · exact hold b topics hb

/-- A topic that is to be added is added. -/
lemma keeps_add {x : Connection} {k : ℕ} {topic_str : Str} {requests : List (Str × ℕ)}
    (ht : x.threads[k]? = some (.registered topic_str requests)) :
    Keeps x { x with
      subscriptions := x.subscriptions.insert topic_str
      threads := x.threads.set k (.subscribing requests) } where
  purged := rfl
  known topic h := by
    by_cases heq : topic = topic_str
    · exact .inl (heq ▸ List.mem_insert_self)
    · refine h.imp List.mem_insert_of_mem (toAdd_set ht fun r hr => heq ?_)
      cases hr
      rfl

/-- A topic is removed when it is not registered, or is to be added. -/
lemma Recorded.remove (h : Recorded s) (hsound : Sound s) {c k : ℕ} {topic : Str}
    {topics : List Str} (ht : (s.conns c).threads[k]? = some (.unsubscribed topic topics))
    (hgone : s.owner (split topic, (s.conns c).id.getD []) = some c → ToAdd (s.conns c) topic)
    (hconns : s'.conns = Function.update s.conns c { s.conns c with
      subscriptions := (s.conns c).subscriptions.filter (· ≠ topic)
      threads := (s.conns c).threads.set k (.unsubscribing topics) })
    (howner : s'.owner = s.owner) (hcleanups : s'.cleanups = s.cleanups) : Recorded s' := by
  intro k' d hk
  rw [howner] at hk
  obtain ⟨hpurged, ⟨t, hsplit, hknown⟩, hold⟩ := h k' d hk
  rw [hconns, hcleanups, Function.update_apply]
  split_ifs with hdc
  · subst hdc
    refine ⟨hpurged, ⟨t, hsplit, ?_⟩, hold⟩
    have hadd : ToAdd (s.conns d) t → ToAdd { s.conns d with
        threads := (s.conns d).threads.set k (.unsubscribing topics) } t :=
      toAdd_set ht fun _ hr => (nomatch hr)
    rcases hknown with hmem | hmem
    · by_cases htt : t = topic
      · have hid : k'.2 = (s.conns d).id.getD [] := by rw [(hsound.owner k' d hk).1]; rfl
        rw [htt] at hsplit hadd ⊢
        exact .inr (hadd (hgone (by rw [hsplit, ← hid]; exact hk)))
      · exact .inl (List.mem_filter.mpr ⟨hmem, by simp [htt]⟩)
    · exact .inr (hadd hmem)
  · exact ⟨hpurged, ⟨t, hsplit, hknown⟩, hold⟩

theorem Recorded.step (h : Recorded s) (hsound : Sound s) (hok : OnRecord s e)
    (ht : Trans s e s') : Recorded s' := by
  have htrans := ht
  cases ht with
  | identify | setWill | found | notFound | store =>
    exact h.go htrans (keeps_update (keeps_of_eq rfl rfl rfl)) rfl fun _ _ he => (nomatch he)
  | override | unlink =>
    refine h.go htrans (keeps_modify_modify ?_ ?_) rfl fun _ _ he => (nomatch he)
    all_goals exact fun _ => keeps_of_eq rfl rfl rfl
  | moves hy =>
    have hsame := hy.same
    exact h.keep (keeps_update (keeps_of_eq (by rw [hsame]) (by rw [hsame]) (by rw [hsame])))
      (fun _ _ hk => hk) fun _ _ _ ha => ha
  | packet =>
    refine h.go htrans (keeps_update ⟨rfl, fun t hk => hk.imp_right ?_⟩) rfl
      fun _ _ he => (nomatch he)
    exact fun ⟨requests, hmem⟩ => ⟨requests, List.mem_append_left _ hmem⟩
  | close =>
    refine h.go htrans (fun d => ?_) rfl fun _ _ he => (nomatch he)
    rw [setCleanup_conns]
    refine keeps_modify_modify ?_ ?_ d <;> exact fun _ => keeps_of_eq rfl rfl rfl
  | enterReader | enterWriter | enterStop =>
    exact h.go htrans (keeps_enter fun _ => keeps_of_eq rfl rfl rfl) rfl
      fun _ _ he => (nomatch he)
  | cleanRead ha =>
    simp only [OnRecord, ha] at hok
    exact h.read hsound hok (keeps_update (keeps_of_eq rfl rfl rfl)) rfl rfl
  | cleanUnsubscribe ha hS =>
    exact h.purge hsound ha (fun d hd => Function.update_of_ne hd ..) rfl rfl
  | cleanRaises ha | cleanTest ha _ =>
    exact h.go htrans (fun _ => .refl _) rfl (not_reading ha Pc.noConfusion)
  | cleanOverridden ha _ | cleanPublish ha =>
    exact h.go htrans (keeps_update (keeps_of_eq rfl rfl rfl)) rfl
      (not_reading ha Pc.noConfusion)
  | cleanRemove ha =>
    refine h.go htrans ?_ ?_ (not_reading ha Pc.noConfusion)
    · rw [removeClient_eq]
      exact keeps_update (keeps_of_eq rfl rfl rfl)
    · rw [removeClient_eq]
      rfl
  | threadEnds hk hfail =>
    refine h.keep (keeps_update (keeps_set hk ?_)) (fun _ _ hk => hk) fun _ _ _ ha => ha
    rintro topic requests rfl
    cases hfail
  | register hk htopic hS =>
    simp only [OnRecord, hk] at hok
    obtain ⟨hpurged, hread⟩ := hok _ _ htopic
    exact h.register hk (fun _ _ hr => (nomatch hr)) hpurged hread rfl rfl rfl
  | add hk =>
    refine h.go htrans ?_ rfl fun _ _ he => (nomatch he)
    unfold System.setThread
    rw [modify_modify]
    exact keeps_update (keeps_add hk)
  | @unsubscribe c _ topic _ _ hk hS =>
    refine h.keep (keeps_update (keeps_set hk fun _ _ hr => (nomatch hr))) (fun k d hkd => ?_)
      fun _ _ _ ha => ha
    have hkd : (if k.2 = (s.conns c).id.getD [] ∧ k.1 ∈ [topic].map split then none
      else s.owner k) = some d := hkd
    split_ifs at hkd
    exact hkd
  | remove hk =>
    simp only [OnRecord, hk] at hok
    refine h.remove hsound hk hok ?_ rfl rfl
    unfold System.setThread
    rw [modify_modify]
    rfl

end

/-! ### The clients -/

/-- What stands in `Broker.clients` has not been removed by a cleanup, and if it has been
overridden, its successor is about to take its place. -/
structure Listed (s : System) : Prop where
  popped : ∀ id c, s.clients.lookup id = some c → (s.conns c).popped = false
  replaces : ∀ c prev id, (s.conns c).reader.replaces prev → s.clients.lookup id = some prev →
    (s.conns c).popped = false
  override : ∀ id prev, s.clients.lookup id = some prev → (s.conns prev).connectionOverride = true →
    ∃ c, (s.conns c).reader.succeeds prev ∧ (s.conns c).id = some id ∧ (s.conns c).popped = false

lemma listed_initial (packet : ℕ → ConnectPacket) : Listed (initial packet) :=
  ⟨fun _ _ h => (nomatch h), fun _ _ _ h => h.elim, fun _ _ h => (nomatch h)⟩

section
variable {s s' : System} {e : Event}

/-- A cleanup that removes the client leaves nothing under its id. -/
lemma popped_of_lookup (hok : OnRecord s e) (ht : Trans s e s') {c : ℕ} {id : Str}
    (hid : (s.conns c).id = some id) (hl : s'.clients.lookup id ≠ none)
    (hc : (s.conns c).popped = false) : (s'.conns c).popped = false := by
  refine Bool.eq_false_iff.mpr fun hp => ?_
  rcases (change_of_trans ht c).popped hp with hp | ⟨a, rfl, ha, hclients⟩
  · exact (nomatch hc.symm.trans hp)
  · simp only [OnRecord, ha, hid, Option.some.injEq] at hok
    rw [hclients, System.removeClient, hid] at hl
    dsimp only at hl
    split_ifs at hl with hnil
    · exact hl (hnil ▸ hok hnil)
    · exact hl (by simp)

/-- Where the successor of an overridden connection goes next. -/
lemma succeeds_of_change {d prev : ℕ} {x y : Connection} (h : Change s s' e d x y)
    (hx : x.reader.succeeds prev) :
    y.reader.succeeds prev ∨ x.reader = .storing ∧ y.reader = .linking := by
  rcases h.reader with (heq | ⟨hno, -⟩) | hnext
  · exact .inl (heq ▸ hx)
  · exact absurd hx (hno prev)
  · cases hr : x.reader <;> cases hr' : y.reader <;> rw [hr, hr'] at hnext <;> rw [hr] at hx <;>
      first | exact hnext.elim | exact hx.elim | skip
    · exact .inl (hnext.trans hx)
    · exact .inl trivial
    · exact .inr ⟨rfl, rfl⟩

/-- A connection that has been put in `Broker.clients` stands there as before. -/
lemma lookup_of_stored (hsound : Sound s) (ht : Trans s e s') {c : ℕ} {id : Str}
    (hl : s'.clients.lookup id = some c) (hc : (s.conns c).stored = true) :
    s.clients.lookup id = some c := by
  rcases clients_of_trans ht hl with hold | ⟨-, hr, -⟩
  · exact hold
  · have hearly := (hsound.placed c).early (by rw [hr]; trivial)
    exact (nomatch hearly.symm.trans hc)

theorem Listed.step (h : Listed s) (hsound : Sound s) (hok : OnRecord s e) (ht : Trans s e s') :
    Listed s' where
  popped id c hl := by
    have hne : s'.clients.lookup id ≠ none := by rw [hl]; simp
    rcases clients_of_trans ht hl with hold | ⟨rfl, hr, hid, -⟩
    · exact popped_of_lookup hok ht (hsound.clients id c hold).1 hne (h.popped id c hold)
    · refine popped_of_lookup hok ht hid hne ?_
      simp only [OnRecord, hr] at hok
      exact hok
  replaces c prev id hr hl := by
    have hne : s'.clients.lookup id ≠ none := by rw [hl]; simp
    have hchange := change_of_trans ht c
    have hcase : (s.conns c).reader.replaces prev ∨
        (s.conns c).reader = .adding ∧ (s'.conns c).reader = .overriding prev := by
      rcases hchange.reader with hmoves | hnext
      · exact .inl (replaces_of_moves hmoves hr)
      · exact replaces_of_next hnext hr
    rcases hcase with hold | ⟨hx, hy⟩
    · obtain ⟨hid, hstored⟩ := hsound.replaces c prev hold
      have hl := lookup_of_stored hsound ht hl hstored
      rw [(hsound.clients id prev hl).1] at hid
      exact popped_of_lookup hok ht hid.symm hne (h.replaces c prev id hold hl)
    · obtain ⟨rfl, id', hid', hl'⟩ := hchange.found prev hx hy
      obtain ⟨hid, hstored⟩ := hsound.clients id' prev hl'
      have hl := lookup_of_stored hsound ht hl hstored
      obtain rfl := Option.some.inj (hid.symm.trans (hsound.clients id prev hl).1)
      refine popped_of_lookup hok ht hid' hne ?_
      simp only [OnRecord, hx] at hok
      exact hok id' prev hid' hl'
  override id prev hl ho := by
    have hne : s'.clients.lookup id ≠ none := by rw [hl]; simp
    rcases (change_of_trans ht prev).overridden ho with hflag | ⟨c, hr, hr'⟩
    · have hstored := hsound.override prev hflag
      obtain ⟨c, hsucc, hid, hpopped⟩ :=
        h.override id prev (lookup_of_stored hsound ht hl hstored) hflag
      have hchange := change_of_trans ht c
      have hid' := (hsound.placed c).id_eq hchange (by rw [hid]; simp)
      rcases succeeds_of_change hchange hsucc with hsucc' | ⟨hx, hy⟩
      · exact ⟨c, hsucc', hid'.trans hid, popped_of_lookup hok ht hid hne hpopped⟩
      · -- the successor would be the connection that it has overridden
        obtain ⟨-, id', hidc, hlc⟩ := hchange.linking hx hy
        obtain rfl := Option.some.inj (hidc.symm.trans hid)
        obtain rfl := Option.some.inj (hlc.symm.trans hl)
        have hearly := (hsound.placed c).early (by rw [hx]; trivial)
        exact (nomatch hearly.symm.trans hstored)
    · obtain ⟨hid, hstored⟩ := hsound.replaces c prev (by rw [hr]; rfl)
      have hl := lookup_of_stored hsound ht hl hstored
      rw [(hsound.clients id prev hl).1] at hid
      have hid' := (hsound.placed c).id_eq (change_of_trans ht c) (by rw [← hid]; simp)
      refine ⟨c, by rw [hr']; rfl, hid'.trans hid.symm, ?_⟩
      exact popped_of_lookup hok ht hid.symm hne (h.replaces c prev id (by rw [hr]; rfl) hl)

end

/-! ### Nothing is left -/

/-- A connection that is over has been cleaned up if it has been put in `Broker.clients`. -/
lemma Over.cleaned_of {x : Connection} (h : Over x) (hx : x.stored = true) : x.cleaned = true :=
  h.2.elim id fun hno => (nomatch hno.1.symm.trans hx)

lemma noOrphans {s : System} (hsound : Sound s) (hmarked : Marked s) (hrecorded : Recorded s)
    (hlisted : Listed s) : NoOrphans s := by
  intro c id hid hcleaned _ hothers
  have hcl : ∀ d, (s.conns d).id = some id → (s.conns d).stored = true →
      (s.conns d).cleaned = true := fun d hd hstored => by
    by_cases hdc : d = c
    · exact hdc ▸ hcleaned
    · exact (hothers d hdc hd).cleaned_of hstored
  refine ⟨?_, fun F => ?_⟩
  · refine Option.eq_none_iff_forall_ne_some.mpr fun d hd => ?_
    obtain ⟨hidd, hstored⟩ := hsound.clients id d hd
    rcases (hmarked.cleaned d (hcl d hidd hstored)).2 with hpopped | hflag
    · exact (nomatch (hlisted.popped id d hd).symm.trans hpopped)
    · -- its successor uses the id
      obtain ⟨x, hsucc, hidx, hpopped⟩ := hlisted.override id d hd hflag
      have hearly : (s.conns x).stored = false := (hsound.placed x).early <| by
        cases hr : (s.conns x).reader <;> rw [hr] at hsucc <;> trivial
      have hnot : (s.conns x).cleaned ≠ true := fun hcleaned => by
        rcases (hmarked.cleaned x hcleaned).2 with hp | hflag
        · exact (nomatch hpopped.symm.trans hp)
        · exact (nomatch hearly.symm.trans (hsound.override x hflag))
      by_cases hxc : x = c
      · exact hnot (hxc ▸ hcleaned)
      · rcases (hothers x hxc hidx).2 with hcleaned | ⟨-, hended⟩
        · exact hnot hcleaned
        · rw [hended] at hsucc
          exact hsucc.elim
  · obtain ⟨m, hm, hnone⟩ := hsound.entries
    have howner : s.owner (F, id) = none :=
      Option.eq_none_iff_forall_ne_some.mpr fun d hd => by
        obtain ⟨hidd, hstored⟩ := hsound.owner _ d hd
        have hpurged := (hmarked.cleaned d (hcl d hidd hstored)).1
        exact (nomatch (hrecorded _ d hd).purged.symm.trans hpurged)
    rw [entry, hm.lookup]
    exact (hnone _).mpr howner

/-- **No orphaned subscriptions**, as long as the steps keep the records complete: when the
connections with a client id are over, nothing is left under it. -/
theorem no_orphans {packet : ℕ → ConnectPacket} {s : System} {es : List Event}
    (hok : Runs.Meets step OnRecord (initial packet) es)
    (hrun : Runs.run step (initial packet) es = some s) : NoOrphans s := by
  have hstep : ∀ t e t', Sound t ∧ Marked t ∧ Recorded t ∧ Listed t → OnRecord t e →
      step t e = some t' → Sound t' ∧ Marked t' ∧ Recorded t' ∧ Listed t' :=
    fun t e t' ⟨hsound, hmarked, hrecorded, hlisted⟩ hok hs =>
      have ht := trans_of_step hs
      ⟨hsound.step ht, hmarked.step ht, hrecorded.step hsound hok ht, hlisted.step hsound hok ht⟩
  have hinv := Runs.run_invariant hstep ⟨sound_initial packet, marked_initial packet,
    fun _ _ h => (nomatch h), listed_initial packet⟩ hok hrun
  exact noOrphans hinv.1 hinv.2.1 hinv.2.2.1 hinv.2.2.2

/-- Threads register the light and the door, end the light again, and register the door twice more,
once before and once after the cleanup has read the subscriptions. -/
def subscribedEvents : List Event :=
  connects 0 ++
    [.packet 0 (.subscribing [("light".toList, 1), ("door".toList, 0), ("door".toList, 1)]),
      .reader 0, .packet 0 (.unsubscribing ["light".toList]), .reader 0, .thread 0 0, .thread 0 0,
      .thread 0 1, .thread 0 0, .thread 0 1, .thread 0 1, .thread 0 0,
      .packet 0 (.subscribing [("door".toList, 2)]), .thread 0 0] ++
    disconnects 0 ++ [.cleanup (.reader 0), .thread 0 2]

/-- The cleanup and the threads end. -/
def endedEvents : List Event :=
  [.cleanup (.reader 0), .thread 0 2, .thread 0 0, .cleanup (.reader 0), .cleanup (.reader 0),
    .thread 0 0, .cleanup (.reader 0), .thread 0 2]

theorem no_orphans_app :
    ∃ t s, Runs.run step (initial (appPacket none)) subscribedEvents = some t ∧
      entry t ["door".toList] "app".toList = some 2 ∧
      Runs.run step (initial (appPacket none)) (subscribedEvents ++ endedEvents) = some s ∧
      (s.conns 0).cleaned = true ∧ entry s ["door".toList] "app".toList = none ∧ NoOrphans s := by
  have hok : Runs.Meets step OnRecord (initial (appPacket none))
      (subscribedEvents ++ endedEvents) := by
    -- the light and the door, with no cleanup in sight
    refine .cons trivial rfl <| .cons trivial rfl <| .cons (fun _ _ _ h => (nomatch h)) rfl <|
      .cons (rfl : _ = false) rfl <| .cons trivial rfl <| .cons trivial rfl <|
      .cons trivial rfl <| .cons trivial rfl <| .cons trivial rfl <| .cons trivial rfl <|
      .cons (fun _ _ _ => ⟨rfl, fun _ _ h => (nomatch h)⟩) rfl <| .cons trivial rfl <|
      .cons trivial rfl <| .cons (fun _ _ _ => ⟨rfl, fun _ _ h => (nomatch h)⟩) rfl <|
      .cons (fun h => (nomatch h)) rfl <| .cons trivial rfl <| .cons trivial rfl <|
      .cons trivial rfl <| .cons (fun _ _ _ => ⟨rfl, fun _ _ h => (nomatch h)⟩) rfl <|
      .cons trivial rfl <| .cons trivial rfl <| .cons trivial rfl ?_
    -- the door is still to be added a second time when the cleanup reads it
    refine .cons ?_ rfl <| .cons ?_ rfl <| .cons trivial rfl <| .cons trivial rfl <|
      .cons trivial rfl <| .cons trivial rfl <| .cons (fun h => (nomatch h)) rfl <|
      .cons trivial rfl <| .cons trivial rfl <| .cons trivial rfl .nil
    · rintro topic_str ⟨requests, h⟩ -
      change _ ∈ [PacketThread.registered "door".toList [], .ended,
        .subscribing [("door".toList, 2)]] at h
      simp only [List.mem_cons, PacketThread.registered.injEq, List.not_mem_nil, reduceCtorEq,
        or_false] at h
      rw [h.1]
      exact List.mem_cons_self
    · rintro topic_str tree htopic
      refine ⟨rfl, fun a topics h => ?_⟩
      obtain ⟨rfl, -⟩ := Prod.mk.inj (Except.ok.inj htopic)
      rcases a with (_ | c) | c | c | c
      case reader.zero =>
        cases h
        exact List.mem_cons_self
      all_goals exact (nomatch h)
  exact ⟨_, _, rfl, rfl, rfl, rfl, rfl, no_orphans hok rfl⟩

/-- A connection that has not read its CONNECT packet has no id. -/
lemma id_of_run {packet : ℕ → ConnectPacket} {s : System} {es : List Event} {c : ℕ}
    (hes : ∀ e ∈ es, e ≠ .reader c) (hrun : Runs.run step (initial packet) es = some s) :
    (s.conns c).id = none := by
  have hstep : ∀ t e t', (t.conns c).id = none → e ≠ .reader c → step t e = some t' →
      (t'.conns c).id = none := fun t e t' hid hne hs =>
    ((change_of_trans (trans_of_step hs) c).id.resolve_right fun h => hne h.1).trans hid
  exact Runs.run_invariant hstep rfl (Runs.meets_of_forall _ fun e he _ => hes e he) hrun

/-- The cleanup runs to its end before the thread of a SUBSCRIBE packet registers its topic. -/
def lateEvents : List Event :=
  connects 0 ++ [.packet 0 (.subscribing [("light".toList, 0)])] ++ disconnects 0 ++
    cleans (.reader 0) ++ List.replicate 3 (.thread 0 0)

def late : System :=
  (Runs.run step (initial (appPacket none)) lateEvents).getD (initial (appPacket none))

/-- What the thread registers stays in the tree. -/
theorem late_thread_orphans_light :
    Runs.run step (initial (appPacket none)) lateEvents = some late ∧
      entry late ["light".toList] "app".toList = some 0 ∧ ¬NoOrphans late := by
  have hrun : Runs.run step (initial (appPacket none)) lateEvents = some late := rfl
  have hentry : entry late ["light".toList] "app".toList = some 0 := rfl
  have hthreads : (late.conns 0).threads = [.ended] := rfl
  refine ⟨hrun, hentry, fun h => ?_⟩
  have hnone := (h 0 "app".toList rfl rfl ?_ ?_).2 ["light".toList]
  · exact (nomatch hnone.symm.trans hentry)
  · intro t ht
    rw [hthreads] at ht
    exact List.mem_singleton.mp ht
  · intro d hd hid
    rw [id_of_run ?_ hrun] at hid
    · cases hid
    · simp [lateEvents, connects, disconnects, cleans, hd.symm]

end MoteBroker.Orphans

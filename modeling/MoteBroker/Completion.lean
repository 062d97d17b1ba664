import MoteBroker.Handshakes
import MoteBroker.Lib.Progress

/-!
The exchanges with a conforming client come to an end: once nobody queues or publishes any more,
only so many steps are left, and when none is left every message has arrived and every exchange is
over.
-/

namespace MoteBroker.Completion

open MoteBroker.Packets MoteBroker.Messages MoteBroker.Exchanges MoteBroker.Handshakes

/-! ### The steps of the system itself -/

/-- A step of the broker or of the client that starts no exchange. -/
def Own : Event → Prop
  | .queue _ | .publish _ => False
  | _ => True

/-- Such a step in which nothing fails. -/
def Sound : Event → Prop
  | .queue _ | .publish _ => False
  | .write fails | .work _ fails => fails = false
  | .read _ | .receive | .answer _ => True

lemma Sound.own {e : Event} (h : Sound e) : Own e := by
  cases e <;> trivial

/-- There is nothing to do: nothing is on its way or owed, no thread is at work, and unless the
write loop has ended, every message has arrived and no packet id is in use. A condition is left
only where the write of a packet has failed. -/
structure Settled (s : System) : Prop where
  toClient : s.toClient = []
  toBroker : s.toBroker = []
  owed : s.client.owed = []
  threads : ∀ t ∈ s.handler.threads, t.pc = .ended ∨ ∃ condition, t.pc = .failed condition
  writer : s.handler.writer.Over ∨
    s.handler.writer = .idle ∧ s.handler.messageQueue = [] ∧ s.client.received = s.queued ∧
      s.handler.usedIds = []
  conditions : ∀ c ∈ s.handler.packetConditions,
    (∃ cls id, s.handler.writer = .failed cls id c.condition) ∨
      ∃ t ∈ s.handler.threads, t.pc = .failed c.condition

/-! ### Who waits is answered -/

/-- Who waits has been answered, or its acknowledgement is on its way. -/
def Provoked (h : Handler) (due : List Acknowledge) : Prop :=
  ∀ w a x, h.waits w = some (a, x) → a ∈ due ∨ h.Met x

section
variable {h h' : Handler} {due due' : List Acknowledge}

/-- Nobody begins to wait. -/
lemma Provoked.keep (hp : Provoked h due)
    (hwaits : ∀ w p, h'.waits w = some p → h.waits w = some p)
    (hmet : ∀ x, h.Met x → h'.Met x) (hdue : ∀ a ∈ due, a ∈ due') : Provoked h' due' := by
  intro w a x hx
  rcases hp w a x (hwaits w _ hx) with ha | hm
  · exact .inl (hdue a ha)
  · exact .inr (hmet x hm)

/-- Who begins to wait has provoked its acknowledgement. -/
lemma Provoked.send (hp : Provoked h due) {w : Holder} {a : Acknowledge} {x : ℕ}
    (hconds : h'.packetConditions = h.packetConditions)
    (hwaits : ∀ v, h'.waits v = if v = w then some (a, x) else h.waits v)
    (hdue : ∀ b ∈ due, b ∈ due') (ha : a ∈ due') : Provoked h' due' := by
  intro v b y hv
  rw [hwaits] at hv
  split_ifs at hv
  · cases hv
    exact .inl ha
  · rcases hp v b y hv with hb | ⟨c, hc, hm⟩
    · exact .inl (hdue b hb)
    · exact .inr ⟨c, hconds ▸ hc, hm⟩

/-- Who has been answered stops waiting. -/
lemma Provoked.remove (hp : Provoked h due) (hw : Wired h) {w : Holder} {a : Acknowledge} {x : ℕ}
    (hx : h.waits w = some (a, x))
    (hconds : h'.packetConditions = h.packetConditions.filter (·.condition ≠ x))
    (hwaits : ∀ v, h'.waits v = if v = w then none else h.waits v)
    (hdue : ∀ b ∈ due, b ∈ due') : Provoked h' due' := by
  intro v b y hv
  rw [hwaits] at hv
  split_ifs at hv with hvw
  have hyx : y ≠ x := fun heq =>
    hvw (hw.distinct v w _ _ (key_of_waits hv) (key_of_waits hx) heq)
  rcases hp v b y hv with hb | hm
  · exact .inl (hdue b hb)
  · obtain ⟨c, hc, hcond, hresult⟩ := (met_remove hyx).mpr hm
    exact .inr ⟨c, by rw [hconds]; exact hc, hcond, hresult⟩

/-- An acknowledgement meets the condition of who waits for it. -/
lemma Provoked.notify (hp : Provoked h due) (ha : Answered h due) (hw : Wired h)
    (hex : Exclusive h) {a : Acknowledge} {c : PacketCondition} (hc : c ∈ h.packetConditions)
    (hmatch : c.Matches a)
    (hconds : h'.packetConditions = h.packetConditions.map fun d =>
      if d.condition = c.condition then d.meet a else d)
    (hwaits : ∀ v, h'.waits v = h.waits v)
    (hdue : ∀ b, due.count b = due'.count b + [a].count b) : Provoked h' due' := by
  have hmet : h'.Met c.condition := by
    refine ⟨c.meet a, ?_, rfl, Option.some_ne_none a⟩
    rw [hconds]
    exact List.mem_map.mpr ⟨c, hc, if_pos rfl⟩
  intro v b y hv
  rw [hwaits] at hv
  by_cases hba : b = a
  · subst hba
    obtain ⟨w, x, hx, -, hown⟩ := ha.own hw hex (a := b)
      (List.count_pos_iff.mp (by rw [hdue, List.count_singleton_self]; omega))
    obtain rfl := hex v w _ _ (key_of_waits hv) (key_of_waits hx) rfl rfl
    rw [hv] at hx
    cases hx
    exact .inr (hown c hc hmatch ▸ hmet)
  · rcases hp v b y hv with hb | ⟨d, hd, hcond, hresult⟩
    · have hpos := List.count_pos_iff.mpr hb
      rw [hdue, List.count_singleton, if_neg (by simpa using Ne.symm hba)] at hpos
      exact .inl (List.count_pos_iff.mp hpos)
    · refine .inr ⟨if d.condition = c.condition then d.meet a else d, ?_, ?_, ?_⟩
      · rw [hconds]
        exact List.mem_map_of_mem hd
      · split_ifs <;> exact hcond
      · split_ifs
        · exact Option.some_ne_none a
        · exact hresult

/-- The write loop does not wait after its step. -/
lemma waits_of_writer (hthreads : h'.threads = h.threads) (hnone : h'.waits .writer = none)
    (w : Holder) (p : Acknowledge × ℕ) (hp : h'.waits w = some p) : h.waits w = some p := by
  rw [waits_of_write hthreads] at hp
  split_ifs at hp with hw
  · exact (nomatch hnone.symm.trans hp)
  · exact hp

/-- The thread does not wait after its step. -/
lemma waits_of_goto {k : ℕ} {t : Thread} (hk : h.threads[k]? = some t) {pc : Pc}
    (hnone : Thread.waits { t with pc := pc } = none) (w : Holder) (p : Acknowledge × ℕ)
    (hp : (h.goto k t pc).waits w = some p) : h.waits w = some p := by
  rw [goto_waits hk] at hp
  split_ifs at hp with hw
  · exact (nomatch hnone.symm.trans hp)
  · exact hp

end

section
variable {s s' : System} {e : Event}

/-- What is due stays due when packets are written. -/
lemma due_append {h' : Handler} {out : List ToClient} {a : Acknowledge} (ha : a ∈ due s) :
    a ∈ due { s with handler := h', toClient := s.toClient ++ out } := by
  have hpos := List.count_pos_iff.mpr ha
  exact List.count_pos_iff.mp (by rw [count_due_append]; omega)

lemma mem_due_of_answer {h' : Handler} {p : ToClient} {a : Acknowledge} (ha : answer p = some a) :
    a ∈ due { s with handler := h', toClient := s.toClient ++ [p] } := by
  refine List.count_pos_iff.mp ?_
  rw [count_due_append, List.filterMap_cons, ha, List.filterMap_nil, List.count_singleton_self]
  omega

lemma Provoked.write (hp : Provoked s.handler (due s)) (hw : Wired s.handler) (ho : Ordered s)
    {h' : Handler} {out : List ToClient} (hs : Writes s.handler h' out) :
    Provoked h' (due { s with handler := h', toClient := s.toClient ++ out }) := by
  have hthreads := hs.threads.1
  have hwaits : s.handler.waits .writer = s.handler.writer.waits s.handler.taken := rfl
  have hdue : ∀ a ∈ due s, a ∈ due { s with handler := h', toClient := s.toClient ++ out } :=
    fun a ha => due_append ha
  cases hs with
  | stop | take | publishUnnumbered | number | fail | finish =>
    refine hp.keep (waits_of_writer hthreads ?_) (fun _ hm => hm) hdue
    first
      | rfl
      | change Writer.waits _ (if _ then _ else _) = none
        split_ifs <;> rfl
  | register | release =>
    exact hp.keep (waits_of_writer hthreads rfl) (fun _ hm => met_create.mpr hm) hdue
  | @publish m id condition hw' =>
    have hqos := ho.numbered m (by rw [hw']; rfl)
    have hanswer : answer (.publish s.handler.taken (some id) m) =
        some ⟨answerClass m, id, .outgoing s.handler.taken⟩ := by
      rcases hqos with hqos | hqos <;> simp [answer, answerClass, hqos]
    exact hp.send (w := .writer) rfl (waits_of_write hthreads) hdue (mem_due_of_answer hanswer)
  | @send m id condition hw' =>
    exact hp.send (w := .writer) (a := ⟨.publishComplete, id, .outgoing s.handler.taken⟩) rfl
      (waits_of_write hthreads) hdue (mem_due_of_answer rfl)
  | answered hw' =>
    refine hp.remove hw (w := .writer) (by rw [hwaits, hw']; rfl) rfl (fun v => ?_) hdue
    rw [waits_of_write hthreads]
    dsimp only [Handler.write]
    split_ifs <;> rfl
  | completed hw' =>
    exact hp.remove hw (w := .writer) (by rw [hwaits, hw']; rfl) rfl (waits_of_write hthreads) hdue

lemma Provoked.work (hp : Provoked s.handler (due s)) (hw : Wired s.handler) {k : ℕ} {t : Thread}
    {h' : Handler} {out : List ToClient} (hk : s.handler.threads[k]? = some t)
    (hs : Works s.handler k t h' out) :
    Provoked h' (due { s with handler := h', toClient := s.toClient ++ out }) := by
  have hwaits : s.handler.waits (.thread k) = t.waits := congrArg (·.bind Thread.waits) hk
  have hdue : ∀ a ∈ due s, a ∈ due { s with handler := h', toClient := s.toClient ++ out } :=
    fun a ha => due_append ha
  cases hs with
  | @publish fails pc hpc =>
    obtain ⟨published, pc', hpc', heq⟩ := publish_eq s.handler k t fails pc
    rw [heq] at hdue ⊢
    have hnone : Thread.waits { t with pc := pc' } = none := by
      rcases hpc with ⟨-, rfl⟩ | ⟨-, ⟨-, rfl⟩ | ⟨-, rfl⟩⟩ <;> rcases hpc' with rfl | rfl <;> rfl
    have hgoto := waits_of_goto (h := { s.handler with published := published }) hk hnone
    refine hp.keep (fun w p hv => ?_) (fun _ hm => hm) hdue
    have hv := hgoto w p hv
    cases w <;> exact hv
  | create =>
    have hnone : Thread.waits { t with pc := .receiving s.handler.conditions } = none := rfl
    have hgoto := waits_of_goto (h := s.handler.create .publishReleased t.packet.id) hk hnone
    refine hp.keep (fun w p hv => ?_) (fun _ hm => met_create.mpr hm) hdue
    have hv := hgoto w p hv
    cases w <;> exact hv
  | stop | acknowledge | fail | complete =>
    exact hp.keep (waits_of_goto hk rfl) (fun _ hm => hm) hdue
  | @receive condition hpc =>
    exact hp.send (w := .thread k) (a := ⟨.publishReleased, t.packet.id, .incoming t.exchange⟩)
      (x := condition) rfl (fun v => goto_waits hk _ v) hdue (mem_due_of_answer rfl)
  | @meet condition hpc hmet =>
    refine hp.remove hw (w := .thread k)
      (a := ⟨.publishReleased, t.packet.id, .incoming t.exchange⟩) (x := condition)
      (by rw [hwaits]; simp [Thread.waits, hpc]) rfl (fun v => ?_) hdue
    rw [goto_waits (h := s.handler.remove condition) hk]
    cases v <;> rfl

lemma Provoked.read (hp : Provoked s.handler (due s)) (h : Invariant s) {condition : ℕ}
    {p : FromClient} {ps : List FromClient} {h' : Handler} (hps : s.toBroker = p :: ps)
    (hs : Reads s.handler condition p h') :
    Provoked h' (due { s with handler := h', toBroker := ps }) := by
  have hdue : ∀ a, (due s).count a = (due { s with handler := h', toBroker := ps }).count a +
      p.acknowledgement.toList.count a := fun a => by
    simp only [due, hps, List.count_append]
    cases hpa : p.acknowledgement <;> simp [hpa, List.count_cons]
    omega
  cases hs with
  | @publish n packet =>
    refine hp.keep (fun w x hx => ?_) (fun _ hm => hm) fun a ha => ?_
    · cases w with
      | writer => exact hx
      | thread k =>
        obtain ⟨t, ht, hx⟩ := Option.bind_eq_some_iff.mp hx
        refine Option.bind_eq_some_iff.mpr ⟨t, ?_, hx⟩
        rcases List.mem_append.mp (List.mem_of_getElem? ht) with hmem | hmem
        · rcases lt_or_ge k s.handler.threads.length with hlt | hge
          · rwa [List.getElem?_append_left hlt] at ht
          · rw [List.getElem?_append_right hge] at ht
            rw [List.mem_singleton.mp (List.mem_of_getElem? ht)] at hx
            cases hx
        · rw [List.mem_singleton.mp hmem] at hx
          cases hx
    · have hpos := List.count_pos_iff.mpr ha
      rw [hdue] at hpos
      exact List.count_pos_iff.mp hpos
  | @notify a c hc hcond hmatch =>
    exact hp.notify h.answered h.wired (exclusive h.typed h.distinct) hc hmatch
      (by rw [hcond]) (fun v => by cases v <;> rfl) hdue
  | @unexpected a hnone =>
    exact hp.keep (fun w x hx => by cases w <;> exact hx) (fun _ hm => hm) fun b hb => by
      have hpos := List.count_pos_iff.mpr hb
      have hmem : a ∈ due s :=
        List.count_pos_iff.mp (by rw [hdue]; simp [FromClient.acknowledgement])
      obtain ⟨w, x, -, ⟨c, hc, hmatch⟩, -⟩ :=
        h.answered.own h.wired (exclusive h.typed h.distinct) hmem
      exact absurd hmatch (hnone c hc)

theorem Provoked.step (hp : Provoked s.handler (due s)) (h : Invariant s) (ht : Trans s e s') :
    Provoked s'.handler (due s') := by
  have hkeep : ∀ {h' : Handler} {due' : List Acknowledge},
      h'.packetConditions = s.handler.packetConditions → h'.waits = s.handler.waits →
      (∀ a, due'.count a = (due s).count a) → Provoked h' due' := fun hconds hwaits hdue =>
    hp.keep (fun w p hv => by rw [← hwaits]; exact hv)
      (fun x ⟨c, hc, hm⟩ => ⟨c, by rw [hconds]; exact hc, hm⟩)
      fun a ha => List.count_pos_iff.mp (by rw [hdue]; exact List.count_pos_iff.mpr ha)
  cases ht with
  | queue => exact hkeep rfl (funext fun w => by cases w <;> rfl) fun _ => rfl
  | write hs => exact hp.write h.wired h.ordered hs
  | read hps hs => exact hp.read h hps hs
  | work hk hs => exact hp.work h.wired hk hs
  | @receive p ps hps =>
    refine hkeep rfl rfl fun a => ?_
    simp only [due, hps, Client.receive, List.count_append]
    cases hpa : answer p <;> simp [hpa, List.count_cons]
    omega
  | @answer i a ha =>
    obtain ⟨hi, rfl⟩ := List.getElem?_eq_some_iff.mp ha
    refine hkeep rfl rfl fun b => ?_
    have hperm := (List.getElem_cons_eraseIdx_perm hi).count_eq b
    simp only [due, List.filterMap_append, List.count_append, ← hperm, List.count_cons]
    simp [FromClient.acknowledgement, List.count_singleton]
    omega
  | publish =>
    exact hkeep rfl rfl fun _ => by simp [due, FromClient.acknowledgement, List.filterMap_cons]

/-! ### What is left to do -/

/-- How many steps a thread still takes, with those of the packets that it writes. -/
def pcWork : Pc → ℕ
  | .starting => 11
  | .receiving _ => 10
  | .waiting _ => 6
  | .publishing => 5
  | .acknowledging | .completing => 4
  | .failed _ | .ended => 0

/-- The same for the write loop, until it takes another message. -/
def writerWork : Writer → ℕ
  | .numbering _ => 15
  | .registering .. => 14
  | .publishing .. => 13
  | .waiting .. => 9
  | .releasing .. => 8
  | .sending .. => 7
  | .unnumbered _ => 5
  | .completing .. => 3
  | .finishing _ => 2
  | .idle => 1
  | .failed .. | .ended => 0

def packetWork : FromClient → ℕ
  | .publish .. => 12
  | .acknowledge _ => 1

/-- A bound on the steps that are left when nobody queues or publishes any more. -/
def work (s : System) : ℕ :=
  writerWork s.handler.writer + 16 * s.handler.messageQueue.length +
    (s.handler.threads.map fun t => pcWork t.pc).sum + 3 * s.toClient.length +
    2 * s.client.owed.length + (s.toBroker.map packetWork).sum

lemma work_of_writes {h' : Handler} {out : List ToClient} (hs : Writes s.handler h' out) :
    writerWork h'.writer + 16 * h'.messageQueue.length + 3 * out.length <
      writerWork s.handler.writer + 16 * s.handler.messageQueue.length := by
  cases hs with
  | stop hw =>
    rcases hw with hw | ⟨m, hw | hw⟩ <;> rw [hw] <;> simp [Handler.write, writerWork]
  | take hw hq =>
    rw [hw, hq]
    dsimp only [List.length_cons, List.length_nil]
    split_ifs <;> simp only [writerWork] <;> omega
  | fail hw =>
    obtain ⟨m, ⟨hw, -⟩ | ⟨hw, -⟩⟩ := hw <;> rw [hw] <;> simp [Handler.writeFails, writerWork]
  | answered hw =>
    rw [hw]
    dsimp only [Handler.write, Handler.remove, List.length_nil]
    split_ifs <;> simp only [writerWork] <;> omega
  | publishUnnumbered hw | number hw | register hw | publish hw | release hw | send hw
  | completed hw | finish hw =>
    rw [hw]
    simp only [Handler.write, Handler.create, Handler.remove, writerWork, List.length_cons,
      List.length_nil]
    omega

lemma work_of_works {k : ℕ} {t : Thread} {h' : Handler} {out : List ToClient}
    (hs : Works s.handler k t h' out) :
    ∃ pc, h'.threads = s.handler.threads.set k { t with pc := pc } ∧
      pcWork pc + 3 * out.length < pcWork t.pc := by
  cases hs with
  | @publish fails pc hpc =>
    obtain ⟨published, pc', hpc', heq⟩ := publish_eq s.handler k t fails pc
    refine ⟨pc', by rw [heq]; rfl, ?_⟩
    rcases hpc with ⟨hpc, rfl⟩ | ⟨hpc, ⟨-, rfl⟩ | ⟨-, rfl⟩⟩ <;> rcases hpc' with rfl | rfl <;>
      rw [hpc] <;> simp [pcWork]
  | acknowledge hpc | complete hpc =>
    refine ⟨_, rfl, ?_⟩
    rw [hpc]
    split_ifs <;> simp [pcWork]
  | create hpc | stop hpc | fail hpc | receive hpc | meet hpc =>
    exact ⟨_, rfl, by rw [hpc]; simp [pcWork]⟩

/-- **Every step of the system itself uses up work.** -/
theorem work_lt (ht : Trans s e s') (hown : Own e) : work s' < work s := by
  cases ht with
  | queue => exact hown.elim
  | publish => exact hown.elim
  | write hs =>
    have hlt := work_of_writes hs
    simp only [work, hs.threads.1, List.length_append]
    omega
  | @read condition p ps h hps hs =>
    have hsame := hs.sameWriter
    simp only [work, hps, hsame.writer, hsame.messageQueue, List.map_cons, List.sum_cons]
    cases hs with
    | publish =>
      simp only [List.map_append, List.sum_append, List.map_cons, List.map_nil, List.sum_cons,
        List.sum_nil, packetWork, pcWork]
      omega
    | notify | unexpected =>
      simp only [packetWork]
      omega
  | @work k fails t h' out hk hs =>
    obtain ⟨pc, hthreads, hlt⟩ := work_of_works hs
    have hsame := hs.sameWriter
    have hsum : ((s.handler.threads.set k { t with pc := pc }).map fun t => pcWork t.pc).sum +
        pcWork t.pc = (s.handler.threads.map fun t => pcWork t.pc).sum + pcWork pc :=
      Runs.sum_map_set hk _ _
    simp only [work, hsame.writer, hsame.messageQueue, hthreads, List.length_append]
    omega
  | @receive p ps hps =>
    have hanswer : (answer p).toList.length ≤ 1 := by cases answer p <;> simp
    simp only [work, hps, Client.receive, List.length_append, List.length_cons]
    omega
  | @answer i a ha =>
    have hlt := (List.getElem?_eq_some_iff.mp ha).1
    have hpos : 0 < s.client.owed.length := by omega
    simp only [work, List.length_eraseIdx_of_lt hlt, List.map_append, List.sum_append]
    simp only [List.map_cons, List.map_nil, List.sum_cons, List.sum_nil, packetWork]
    omega

/-! ### Where nothing can be done -/

/-- What can be read is read. -/
lemma toBroker_of_quiet (h : Invariant s) (hquiet : Runs.Quiet step Sound s) :
    s.toBroker = [] := by
  cases hps : s.toBroker with
  | nil => rfl
  | cons p ps =>
    have hread : ∀ condition, s.handler.handlePacket condition p = none := fun condition => by
      have hnone := hquiet (.read condition) trivial
      simp only [step, hps, h.expected, Bool.false_eq_true, if_false] at hnone
      exact Option.map_eq_none_iff.mp hnone
    cases p with
    | publish => cases hread 0
    | acknowledge a =>
      have hmem : a ∈ due s := by simp [due, hps, FromClient.acknowledgement]
      obtain ⟨w, x, -, ⟨c, hc, hmatch⟩, -⟩ :=
        h.answered.own h.wired (exclusive h.typed h.distinct) hmem
      have hnone := hread c.condition
      simp only [Handler.handlePacket, Handler.packetNotify] at hnone
      rw [if_pos ⟨c, hc, hmatch⟩, if_pos ⟨c, hc, rfl, hmatch⟩] at hnone
      cases hnone

lemma waitForPacket_isSome {h : Handler} {condition : ℕ} (hmet : h.Met condition) :
    h.waitForPacket condition ≠ none := by
  have hany : ∃ c ∈ h.packetConditions, c.condition = condition ∧ c.result ≠ none := hmet
  unfold Handler.waitForPacket
  rw [if_pos hany]
  exact Option.some_ne_none _

/-- A thread that has nothing to do has ended, unless it waits for what has not come. -/
lemma pc_of_stuck {h : Handler} {k : ℕ} {t : Thread} (hstuck : h.handlePublish k t false = none)
    (hmet : ∀ condition, t.pc = .waiting condition → h.Met condition) :
    t.pc = .ended ∨ ∃ condition, t.pc = .failed condition := by
  unfold Handler.handlePublish at hstuck
  split at hstuck
  case h_1 =>
    split at hstuck
    case h_3 => split at hstuck <;> cases hstuck
    all_goals cases hstuck
  case h_4 condition hpc =>
    exact absurd (Option.map_eq_none_iff.mp hstuck) (waitForPacket_isSome (hmet _ hpc))
  case h_7 condition hpc => exact .inr ⟨condition, hpc⟩
  case h_8 hpc => exact .inl hpc
  all_goals cases hstuck

/-- The same for the write loop. -/
lemma writer_of_stuck {h : Handler} (hstuck : h.sendMessage false = none)
    (hmet : ∀ a x, h.writer.waits h.taken = some (a, x) → h.Met x) :
    h.writer.Over ∨ h.writer = .idle ∧ h.messageQueue = [] := by
  unfold Handler.sendMessage at hstuck
  split at hstuck
  case h_1 hw =>
    simp only [Bool.false_eq_true, if_false] at hstuck
    split at hstuck
    case h_1 hq => exact .inr ⟨hw, hq⟩
    case h_2 => cases hstuck
  case h_3 => split at hstuck <;> cases hstuck
  case h_6 message id condition hw =>
    have hwaits := hmet ⟨answerClass message, id, .outgoing h.taken⟩ condition (by rw [hw]; rfl)
    exact absurd (Option.map_eq_none_iff.mp hstuck) (waitForPacket_isSome hwaits)
  case h_9 message id condition hw =>
    have hwaits := hmet ⟨.publishComplete, id, .outgoing h.taken⟩ condition (by rw [hw]; rfl)
    exact absurd (Option.map_eq_none_iff.mp hstuck) (waitForPacket_isSome hwaits)
  case h_11 hw | h_12 hw => exact .inl (by rw [hw]; trivial)
  all_goals cases hstuck

/-- **Where no step can be taken, nothing is left to do.** -/
theorem settled_of_quiet (h : Invariant s) (hp : Provoked s.handler (due s))
    (hquiet : Runs.Quiet step Sound s) : Settled s := by
  have hbroker := toBroker_of_quiet h hquiet
  have hclient : s.toClient = [] := by
    cases hps : s.toClient with
    | nil => rfl
    | cons p ps =>
      have hnone := hquiet .receive trivial
      simp only [step, hps] at hnone
      cases hnone
  have howed : s.client.owed = [] := by
    cases ho : s.client.owed with
    | nil => rfl
    | cons a as =>
      have hnone := hquiet (.answer 0) trivial
      simp only [step, ho] at hnone
      cases hnone
  have hdue : due s = [] := by rw [due, hbroker, hclient, howed]; rfl
  have hmet : ∀ w a x, s.handler.waits w = some (a, x) → s.handler.Met x := fun w a x hx =>
    (hp w a x hx).resolve_left (by rw [hdue]; exact List.not_mem_nil)
  have hthreads : ∀ t ∈ s.handler.threads,
      t.pc = .ended ∨ ∃ condition, t.pc = .failed condition := by
    intro t ht
    obtain ⟨k, hk⟩ := List.mem_iff_getElem?.mp ht
    have hnone := hquiet (.work k false) rfl
    simp only [step, hk, Option.bind_some] at hnone
    refine pc_of_stuck (Option.map_eq_none_iff.mp hnone) fun condition hpc => ?_
    refine hmet (.thread k) ⟨.publishReleased, t.packet.id, .incoming t.exchange⟩ condition ?_
    refine (congrArg (·.bind Thread.waits) hk).trans ?_
    simp [Thread.waits, hpc]
  have hwriter := writer_of_stuck (Option.map_eq_none_iff.mp (hquiet (.write false) rfl))
    fun a x hx => hmet .writer a x hx
  refine ⟨hclient, hbroker, howed, hthreads, ?_, ?_⟩
  · refine hwriter.imp_right ?_
    rintro ⟨hidle, hqueue⟩
    have horder := h.ordered.order_of (by rw [hidle]; exact id)
    rw [hclient, hidle, hqueue] at horder
    refine ⟨hidle, hqueue, by simpa [Writer.unsent] using horder.symm, ?_⟩
    rw [h.ordered.used, hidle]
    rfl
  · intro c hc
    obtain ⟨w, hw⟩ := h.wired.held c hc
    cases w with
    | writer =>
      change s.handler.writer.key = _ at hw
      refine .inl ?_
      rcases hwriter with hover | ⟨hidle, -⟩
      · unfold Writer.Over at hover
        split at hover
        case h_1 cls id condition hfailed =>
          rw [hfailed] at hw
          have hcond : condition = c.condition := congrArg Key.condition (Option.some.inj hw)
          exact ⟨cls, id, hcond ▸ hfailed⟩
        case h_2 hended => rw [hended] at hw; cases hw
        case h_3 => exact hover.elim
      · rw [hidle] at hw
        cases hw
    | thread k =>
      obtain ⟨t, ht, hkey⟩ := Option.bind_eq_some_iff.mp hw
      refine .inr ⟨t, List.mem_of_getElem? ht, ?_⟩
      obtain ⟨-, -, hpc⟩ := Thread.of_key hkey
      rcases hthreads t (List.mem_of_getElem? ht) with hended | ⟨condition, hfailed⟩
      · rw [hended] at hpc
        rcases hpc with hpc | hpc | hpc <;> cases hpc
      · rw [hfailed] at hpc ⊢
        rcases hpc with hpc | hpc | hpc <;> cases hpc
        rfl

/-! ### Whole runs -/

/-- Without failures the write loop goes on: with no id in use it finds one. -/
lemma not_over_of_sendMessage {h h' : Handler} {out : List ToClient} (hw : Wired h)
    (hused : h.usedIds = h.writer.id.toList) (hs : h.sendMessage false = some (h', out)) :
    ¬h'.writer.Over := by
  have hwrites := writes_of_sendMessage hw hs
  cases hwrites with
  | stop hw' =>
    rcases hw' with hw' | ⟨m, hw' | hw'⟩
    · simp only [Handler.sendMessage, hw', Bool.false_eq_true, if_false] at hs
      split at hs
      · cases hs
      · have hidle := congrArg (fun p => p.1.writer) (Option.some.inj hs)
        dsimp only [Handler.write] at hidle
        split_ifs at hidle
    · simp only [Handler.sendMessage, hw', Bool.false_eq_true, if_false] at hs
      have hidle := congrArg (fun p => p.1.writer) (Option.some.inj hs)
      cases hidle
    · have hid : h.nextPacketId = some 0 := by
        rw [hw'] at hused
        rw [Handler.nextPacketId, hused]
        rfl
      simp only [Handler.sendMessage, hw', hid] at hs
      have hidle := congrArg (fun p => p.1.writer) (Option.some.inj hs)
      cases hidle
  | fail hw' =>
    obtain ⟨m, ⟨hw', -⟩ | ⟨hw', -⟩⟩ := hw'
    all_goals
      simp only [Handler.sendMessage, hw', Bool.false_eq_true, if_false] at hs
      have hnext := congrArg (fun p => p.1.writer) (Option.some.inj hs)
      cases hnext
  | take | answered =>
    dsimp only [Handler.write]
    split_ifs <;> exact id
  | publishUnnumbered | number | register | publish | release | send | completed | finish =>
    exact id

/-- What holds while nothing fails. -/
structure Going (queued : List OutgoingMessage) (s : System) : Prop where
  invariant : Invariant s
  provoked : Provoked s.handler (due s)
  notOver : ¬s.handler.writer.Over
  queued : s.queued = queued

lemma Going.step {queued : List OutgoingMessage} (h : Going queued s) (he : Sound e)
    (hs : step s e = some s') : Going queued s' := by
  have ht := trans_of_step h.invariant.wired hs
  refine ⟨h.invariant.step ht, h.provoked.step h.invariant ht, ?_, ?_⟩
  · cases ht with
    | @write fails h' out =>
      obtain ⟨⟨h₁, out₁⟩, hsend, heq⟩ := Option.map_eq_some_iff.mp hs
      obtain rfl : h₁ = h' := congrArg System.handler heq
      obtain rfl : fails = false := he
      exact not_over_of_sendMessage h.invariant.wired h.invariant.ordered.used hsend
    | queue | publish => exact he.elim
    | read _ hr => exact fun hover => h.notOver (hr.sameWriter.writer ▸ hover)
    | work _ hwork => exact fun hover => h.notOver (hwork.sameWriter.writer ▸ hover)
    | receive | answer => exact h.notOver
  · cases ht with
    | queue => exact he.elim
    | _ => exact h.queued

end

/-- **The exchanges come to an end.** From every reachable state, nobody queueing or publishing any
more: only so many steps can be taken; where none is left that does not fail, everything is settled;
such a state can be reached; and if no write fails, all messages have arrived in it, in their
order. -/
theorem exchanges_complete {s : System} {es : List Event}
    (hrun : Runs.run step initial es = some s) :
    (∀ fs t, (∀ e ∈ fs, Own e) → Runs.run step s fs = some t →
      fs.length ≤ work s ∧ (Runs.Quiet step Sound t → Settled t)) ∧
    (∃ fs t, (∀ e ∈ fs, Sound e) ∧ Runs.run step s fs = some t ∧ Runs.Quiet step Sound t) ∧
    (¬s.handler.writer.Over → ∀ fs t, (∀ e ∈ fs, Sound e) → Runs.run step s fs = some t →
      Runs.Quiet step Sound t → t.client.received = s.queued) := by
  have hstep : ∀ t e t', Invariant t ∧ Provoked t.handler (due t) → step t e = some t' →
      Invariant t' ∧ Provoked t'.handler (due t') := fun t e t' ⟨h, hp⟩ hs =>
    have ht := trans_of_step h.wired hs
    ⟨h.step ht, hp.step h ht⟩
  have hlt : ∀ t e t', Invariant t ∧ Provoked t.handler (due t) → Own e → step t e = some t' →
      work t' < work t := fun t e t' ⟨h, _⟩ he hs => work_lt (trans_of_step h.wired hs) he
  have hinitial : Provoked initial.handler (due initial) := fun w a x hx => by
    cases w <;> cases hx
  have hreach := Runs.run_invariant_of_step hstep ⟨invariant_initial, hinitial⟩ hrun
  refine ⟨fun fs t hfs ht => ⟨?_, fun hquiet => ?_⟩, ?_, fun hover fs t hfs ht hquiet => ?_⟩
  · have hle := Runs.length_le_of_measure hstep hlt hreach hfs ht
    omega
  · obtain ⟨h, hp⟩ := Runs.run_invariant_of_step hstep hreach ht
    exact settled_of_quiet h hp hquiet
  · exact Runs.exists_run_quiet hstep (fun t e t' h he => hlt t e t' h he.own) hreach
  · have hmeets : Runs.Meets step (fun _ e => Sound e) s fs :=
      Runs.meets_of_forall s fun e he _ => hfs e he
    have hgoing : Going s.queued t := Runs.run_invariant (fun _ _ _ h he hs => h.step he hs)
      ⟨hreach.1, hreach.2, hover, rfl⟩ hmeets ht
    have hsettled := settled_of_quiet hgoing.invariant hgoing.provoked hquiet
    obtain ⟨-, -, hreceived, -⟩ := hsettled.writer.resolve_left hgoing.notOver
    rw [hreceived, hgoing.queued]

/-- A message of QoS 2 and a publish of the client with the same packet id are still to be sent. -/
theorem exchanges_complete_crossing :
    ∃ s, Runs.run step initial (crossing.take 2) = some s ∧
      ∃ fs t, (∀ e ∈ fs, Sound e) ∧ Runs.run step s fs = some t ∧ Settled t ∧
        t.client.received = [⟨"light".toList, 2, .payload (some [49])⟩] := by
  refine ⟨_, rfl, ?_⟩
  obtain ⟨hend, ⟨fs, t, hfs, ht, hquiet⟩, hall⟩ := @exchanges_complete _ (crossing.take 2) rfl
  exact ⟨fs, t, hfs, ht, (hend fs t (fun e he => (hfs e he).own) ht).2 hquiet,
    hall id fs t hfs ht hquiet⟩

end MoteBroker.Completion

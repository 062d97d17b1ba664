import MoteBroker.Connections

/-!
The last will of a connection: it is published at most once, and not after an override, as long as
the cleanup of the connection is called once.
-/

namespace MoteBroker.LastWill

open MoteBroker.Topics MoteBroker.Messages MoteBroker.Connections

/-! ### The property -/

/-- The last will is published at most once, and not after an override. -/
def FiresOnce (log : List Mark) : Prop :=
  log.count .lastWill ≤ 1 ∧ log.Pairwise fun x y => x = .overridden → y ≠ .lastWill

/-- A call of `handle_disconnected` for the connection is under way. -/
def Pending (cleanups : Actor → Option Cleanup) (c : ℕ) (a : Actor) : Prop :=
  ∃ pc, cleanups a = some ⟨c, pc⟩

/-- It has found `connection_override` unset. -/
def Firing (cleanups : Actor → Option Cleanup) (c : ℕ) (a : Actor) : Prop :=
  cleanups a = some ⟨c, .removing⟩ ∨ cleanups a = some ⟨c, .publishing⟩

/-- If the client has announced a last will and is not overridden, neither a loop of the connection
nor the server has called `handle_disconnected` before. -/
def FirstEntry (s : System) (c : ℕ) : Prop :=
  (s.conns c).packet.lastWill = none ∨ (s.conns c).connectionOverride = true ∨
    (s.conns c).entries = 0

/-- The steps by which `handle_disconnected` is called once: a loop that finds `linked` set, and the
server, call it for the first time, and no override comes between its test of
`connection_override` and the publication. -/
def CalledOnce (s : System) : Event → Prop
  | .reader c =>
    match (s.conns c).reader with
    | .overriding prev => (s.conns prev).packet.lastWill = none ∨ ∀ a, ¬Firing s.cleanups prev a
    | .testing => (s.conns c).linked = true → FirstEntry s c
    | _ => True
  | .writer c => (s.conns c).linked = true → FirstEntry s c
  | .stop c => (s.conns c).stopper = .unlinked → FirstEntry s c
  | _ => True

/-! ### Logs -/

lemma firesOnce_of_notMem {log : List Mark} (h : .lastWill ∉ log) : FiresOnce log :=
  ⟨by rw [List.count_eq_zero_of_not_mem h]; exact Nat.zero_le 1,
    List.Pairwise.imp_of_mem (fun _ hy _ _ he => h (he ▸ hy))
      (List.pairwise_of_forall fun _ _ => trivial)⟩

lemma FiresOnce.overridden {log : List Mark} (h : FiresOnce log) :
    FiresOnce (log ++ [.overridden]) := by
  refine ⟨by simpa using h.1, List.pairwise_append.mpr ⟨h.2, List.pairwise_singleton _ _, ?_⟩⟩
  intro x _ y hy _ he
  rw [List.mem_singleton.mp hy] at he
  cases he

lemma firesOnce_lastWill {log : List Mark} (hwill : .lastWill ∉ log) (hover : .overridden ∉ log) :
    FiresOnce (log ++ [.lastWill]) := by
  refine ⟨?_, List.pairwise_append.mpr ⟨(firesOnce_of_notMem hwill).2,
    List.pairwise_singleton _ _, ?_⟩⟩
  · rw [List.count_append, List.count_eq_zero_of_not_mem hwill]
    simp
  · intro x hx y _ he
    exact absurd (he ▸ hx) hover

/-! ### The invariant -/

/-- For a connection with a last will: nothing is on its way to the publication once the connection
is overridden; until then a call of `handle_disconnected` that is under way is the only one there
has been. -/
structure Armed (cleanups : Actor → Option Cleanup) (c : ℕ) (conn : Connection) : Prop where
  once : FiresOnce conn.log
  quiet : conn.connectionOverride = true → ∀ a, ¬Firing cleanups c a
  fresh : conn.connectionOverride = false → .overridden ∉ conn.log
  pending : conn.connectionOverride = false → ∀ a, Pending cleanups c a →
    conn.entries ≠ 0 ∧ .lastWill ∉ conn.log
  unique : conn.connectionOverride = false → ∀ a b, Pending cleanups c a →
    Pending cleanups c b → a = b
  fired : conn.connectionOverride = false → .lastWill ∈ conn.log → conn.entries ≠ 0

/-- A connection without a last will. -/
structure Unarmed (conn : Connection) : Prop where
  lastWill : conn.lastWill = none
  log : .lastWill ∉ conn.log

structure Invariant (s : System) : Prop where
  armed : ∀ c, (s.conns c).packet.lastWill ≠ none → Armed s.cleanups c (s.conns c)
  unarmed : ∀ c, (s.conns c).packet.lastWill = none → Unarmed (s.conns c)

/-- The read loop has overridden `prev` and is about to end it. -/
def Ends (r : Reader) (prev : ℕ) : Prop := r = .unlinking prev ∨ r = .closing prev

/-- What a read loop is about to end is overridden. -/
def Ending (conns : ℕ → Connection) : Prop :=
  ∀ c prev, Ends (conns c).reader prev → (conns prev).connectionOverride = true

lemma invariant_initial (packet : ℕ → ConnectPacket) : Invariant (initial packet) where
  armed c _ := ⟨firesOnce_of_notMem (by simp [initial, Connection.new]), fun h => (nomatch h),
    fun _ => by simp [initial, Connection.new], fun _ a h => h.elim fun pc hpc => (nomatch hpc),
    fun _ a b h => h.elim fun pc hpc => (nomatch hpc),
    fun _ h => by simp [initial, Connection.new] at h⟩
  unarmed c _ := ⟨rfl, by simp [initial, Connection.new]⟩

lemma ending_initial (packet : ℕ → ConnectPacket) : Ending (initial packet).conns := by
  rintro c prev (h | h) <;> cases h

lemma Firing.pending {cleanups : Actor → Option Cleanup} {c : ℕ} {a : Actor}
    (h : Firing cleanups c a) : Pending cleanups c a :=
  h.elim (fun h => ⟨_, h⟩) fun h => ⟨_, h⟩

lemma FirstEntry.entries {s : System} {c : ℕ} (h : FirstEntry s c)
    (hwill : (s.conns c).packet.lastWill ≠ none)
    (ho : (s.conns c).connectionOverride = false) : (s.conns c).entries = 0 := by
  rcases h with h | h | h
  · exact absurd h hwill
  · rw [ho] at h
    cases h
  · exact h

/-! ### Steps that the last will does not depend on -/

structure Quiet (x y : Connection) : Prop where
  packet : y.packet = x.packet
  lastWill : y.lastWill = x.lastWill ∨ y.lastWill = x.packet.lastWill
  override : y.connectionOverride = x.connectionOverride
  entries : y.entries = x.entries
  log : y.log = x.log

lemma Quiet.refl (x : Connection) : Quiet x x := ⟨rfl, .inl rfl, rfl, rfl, rfl⟩

lemma quiet_of_moved {x y : Connection} (h : Moved x y) : Quiet x y := by
  rw [h.same]
  exact ⟨rfl, .inl rfl, rfl, rfl, rfl⟩

lemma Unarmed.quiet {x y : Connection} (h : Unarmed x) (hq : Quiet x y)
    (hwill : x.packet.lastWill = none) : Unarmed y where
  lastWill := hq.lastWill.elim (fun he => he.trans h.lastWill) fun he => he.trans hwill
  log := hq.log ▸ h.log

section
variable {s s' : System}

lemma Armed.keep {cleanups cleanups' : Actor → Option Cleanup} {c : ℕ} {x y : Connection}
    (h : Armed cleanups c x) (hq : Quiet x y)
    (hpending : ∀ a, Pending cleanups' c a → Pending cleanups c a)
    (hfiring : x.connectionOverride = true → ∀ a, Firing cleanups' c a → Firing cleanups c a) :
    Armed cleanups' c y := by
  refine ⟨?_, ?_, ?_, ?_, ?_, ?_⟩
  · rw [hq.log]; exact h.once
  · rw [hq.override]; exact fun ho a ha => h.quiet ho a (hfiring ho a ha)
  · rw [hq.override, hq.log]; exact h.fresh
  · rw [hq.override, hq.entries, hq.log]; exact fun ho a ha => h.pending ho a (hpending a ha)
  · rw [hq.override]
    exact fun ho a b ha hb => h.unique ho a b (hpending a ha) (hpending b hb)
  · rw [hq.override, hq.entries, hq.log]; exact h.fired

/-- One connection changes. -/
lemma Invariant.modify (h : Invariant s) {c : ℕ} {f : Connection → Connection}
    (hpacket : (f (s.conns c)).packet = (s.conns c).packet)
    (harmed : (s.conns c).packet.lastWill ≠ none → Armed s.cleanups c (f (s.conns c)))
    (hunarmed : (s.conns c).packet.lastWill = none → Unarmed (f (s.conns c))) :
    Invariant (s.modify c f) := by
  refine ⟨fun d hd => ?_, fun d hd => ?_⟩
  · rw [modify_conns] at hd ⊢
    split_ifs at hd ⊢ with hdc
    · subst hdc
      rw [hpacket] at hd
      exact harmed hd
    · exact h.armed d hd
  · rw [modify_conns] at hd ⊢
    split_ifs at hd ⊢ with hdc
    · rw [hpacket] at hd
      exact hunarmed hd
    · exact h.unarmed d hd

lemma Invariant.quiet (h : Invariant s) {c : ℕ} {f : Connection → Connection}
    (hf : Quiet (s.conns c) (f (s.conns c))) : Invariant (s.modify c f) :=
  h.modify hf.packet
    (fun hwill => (h.armed c hwill).keep hf (fun _ ha => ha) fun _ _ ha => ha)
    fun hwill => (h.unarmed c hwill).quiet hf hwill

/-- The rest of the broker changes. -/
lemma Invariant.of_eq (h : Invariant s) (hconns : s'.conns = s.conns)
    (hcleanups : s'.cleanups = s.cleanups) : Invariant s' := by
  obtain ⟨conns, clients, subscriptions, owner, cleanups⟩ := s'
  cases hconns
  cases hcleanups
  exact ⟨fun c hc => (h.armed c hc).keep (.refl _) (fun _ ha => ha) fun _ _ ha => ha, h.unarmed⟩

/-- The calls of `handle_disconnected` change, at most one. -/
lemma Invariant.setCleanup (h : Invariant s) {a : Actor} {cleanup : Option Cleanup}
    (hset : ∀ cl, cleanup = some cl → (s.conns cl.target).packet.lastWill ≠ none →
      Armed (s.setCleanup a cleanup).cleanups cl.target (s.conns cl.target)) :
    Invariant (s.setCleanup a cleanup) := by
  refine ⟨fun d hd => ?_, h.unarmed⟩
  by_cases hdc : ∃ pc, cleanup = some ⟨d, pc⟩
  · obtain ⟨pc, rfl⟩ := hdc
    exact hset _ rfl hd
  · have hne : ∀ b pc, (s.setCleanup a cleanup).cleanups b = some ⟨d, pc⟩ →
        s.cleanups b = some ⟨d, pc⟩ := fun b pc hb => by
      rw [setCleanup_cleanups] at hb
      split_ifs at hb
      · exact absurd ⟨pc, hb⟩ hdc
      · exact hb
    exact (h.armed d hd).keep (.refl _) (fun b hb => hb.imp fun pc => hne b pc)
      fun _ b hb => hb.imp (hne b _) (hne b _)

/-- A call of `handle_disconnected` goes on. -/
lemma Invariant.goOn (h : Invariant s) {a : Actor} {c : ℕ} {pc pc' : Pc}
    (ha : s.cleanups a = some ⟨c, pc⟩)
    (hfiring : (s.conns c).connectionOverride = true → pc' = .removing ∨ pc' = .publishing →
      pc = .removing ∨ pc = .publishing) :
    Invariant (s.setCleanup a (some ⟨c, pc'⟩)) := by
  refine h.setCleanup ?_
  rintro cl hcl hwill
  cases hcl
  refine (h.armed c hwill).keep (.refl _) ?_ ?_
  · rintro b ⟨pc'', hb⟩
    rw [setCleanup_cleanups] at hb
    split_ifs at hb with hba
    · exact ⟨pc, hba ▸ ha⟩
    · exact ⟨pc'', hb⟩
  · intro ho b hb
    unfold Firing at hb
    rw [setCleanup_cleanups] at hb
    split_ifs at hb with hba
    · subst hba
      rcases hfiring ho (hb.imp (by rintro ⟨⟩; rfl) (by rintro ⟨⟩; rfl)) with rfl | rfl
      · exact .inl ha
      · exact .inr ha
    · exact hb

lemma Invariant.over (h : Invariant s) (a : Actor) : Invariant (s.setCleanup a none) :=
  h.setCleanup fun _ hcl => (nomatch hcl)

/-! ### The other steps -/

lemma Invariant.overridden (h : Invariant s) {prev : ℕ}
    (hok : (s.conns prev).packet.lastWill = none ∨ ∀ a, ¬Firing s.cleanups prev a) :
    Invariant (s.modify prev fun conn =>
      { conn with connectionOverride := true, log := conn.log ++ [.overridden] }) := by
  refine h.modify rfl (fun hwill => ?_) fun hwill => ?_
  · exact ⟨(h.armed prev hwill).once.overridden, fun _ => hok.resolve_left hwill,
      fun ho => (nomatch ho), fun ho => (nomatch ho), fun ho => (nomatch ho),
      fun ho => (nomatch ho)⟩
  · obtain ⟨hlast, hlog⟩ := h.unarmed prev hwill
    exact ⟨hlast, by simpa using hlog⟩

/-- A connection that is overridden may be cleaned up on behalf of its successor. -/
lemma Invariant.cleanOverridden (h : Invariant s) (a : Actor) {prev : ℕ}
    (ho : (s.conns prev).connectionOverride = true) :
    Invariant (s.setCleanup a (some ⟨prev, .reading⟩)) := by
  refine h.setCleanup ?_
  rintro cl hcl hwill
  cases hcl
  have harmed := h.armed prev hwill
  have hfalse : ¬(s.conns prev).connectionOverride = false := by rw [ho]; simp
  refine ⟨harmed.once, fun _ b hb => ?_, fun hf => absurd hf hfalse, fun hf => absurd hf hfalse,
    fun hf => absurd hf hfalse, fun hf => absurd hf hfalse⟩
  unfold Firing at hb
  rw [setCleanup_cleanups] at hb
  split_ifs at hb
  · rcases hb with hb | hb <;> cases hb
  · exact harmed.quiet ho b hb

/-- The first call of `handle_disconnected`, or one for which there is nothing to publish. -/
lemma Invariant.enter (h : Invariant s) {c : ℕ} (a : Actor) (hfirst : FirstEntry s c) :
    Invariant (s.enter a c) := by
  have hcount : Invariant (s.modify c fun conn => { conn with entries := conn.entries + 1 }) := by
    refine h.modify rfl (fun hwill => ?_) fun hwill => ?_
    · have harmed := h.armed c hwill
      exact ⟨harmed.once, harmed.quiet, harmed.fresh,
        fun ho b hb => ⟨Nat.succ_ne_zero _, (harmed.pending ho b hb).2⟩, harmed.unique,
        fun _ _ => Nat.succ_ne_zero _⟩
    · obtain ⟨hlast, hlog⟩ := h.unarmed c hwill
      exact ⟨hlast, hlog⟩
  refine hcount.setCleanup ?_
  rintro cl hcl
  cases hcl
  dsimp only
  rw [modify_conns, if_pos rfl]
  intro hwill
  have harmed := h.armed c hwill
  have hold : ∀ b, Pending (Function.update s.cleanups a (some ⟨c, .reading⟩)) c b → b ≠ a →
      Pending s.cleanups c b := fun b ⟨pc, hb⟩ hba => by
    rw [Function.update_of_ne hba] at hb
    exact ⟨pc, hb⟩
  have hnone : (s.conns c).connectionOverride = false → ∀ b, ¬Pending s.cleanups c b :=
    fun ho b hb => (harmed.pending ho b hb).1 (hfirst.entries hwill ho)
  refine ⟨harmed.once, fun ho b hb => ?_, harmed.fresh, fun ho b hb => ?_, fun ho b b' hb hb' => ?_,
    fun _ _ => Nat.succ_ne_zero _⟩
  · unfold Firing at hb
    rw [setCleanup_cleanups] at hb
    split_ifs at hb
    · rcases hb with hb | hb <;> cases hb
    · exact harmed.quiet ho b hb
  · exact ⟨Nat.succ_ne_zero _, fun hm => harmed.fired ho hm (hfirst.entries hwill ho)⟩
  · have hself : ∀ b, Pending (Function.update s.cleanups a (some ⟨c, .reading⟩)) c b → b = a :=
      fun b hb => by_contra fun hba => hnone ho b (hold b hb hba)
    rw [hself b hb, hself b' hb']

lemma Invariant.publish (h : Invariant s) {a : Actor} {c : ℕ}
    (ha : s.cleanups a = some ⟨c, .publishing⟩) :
    Invariant ((s.modify c fun conn =>
      { conn with
        cleaned := true
        log := conn.log ++ conn.lastWill.toList.map fun _ => .lastWill }).setCleanup a none) := by
  change Invariant ((s.setCleanup a none).modify c fun conn =>
    { conn with
      cleaned := true
      log := conn.log ++ conn.lastWill.toList.map fun _ => .lastWill })
  refine (h.over a).modify rfl (fun hwill => ?_) fun hwill => ?_
  · have harmed := h.armed c hwill
    have ho : (s.conns c).connectionOverride = false :=
      Bool.eq_false_iff.mpr fun ho => harmed.quiet ho a (.inr ha)
    obtain ⟨hentries, hlog⟩ := harmed.pending ho a ⟨_, ha⟩
    have hnone : ∀ b, ¬Pending (s.setCleanup a none).cleanups c b := by
      rintro b ⟨pc, hb⟩
      rw [setCleanup_cleanups] at hb
      split_ifs at hb with hba
      exact hba (harmed.unique ho b a ⟨pc, hb⟩ ⟨_, ha⟩)
    refine ⟨?_, fun _ b hb => hnone b hb.pending, fun _ => ?_, fun _ b hb => absurd hb (hnone b),
      fun _ b b' hb => absurd hb (hnone b), fun _ _ => hentries⟩
    · cases hlast : (s.conns c).lastWill with
      | none => simpa [setCleanup_conns, hlast] using harmed.once
      | some will =>
        simpa [setCleanup_conns, hlast] using firesOnce_lastWill hlog (harmed.fresh ho)
    · simpa [setCleanup_conns] using harmed.fresh ho
  · obtain ⟨hlast, hlog⟩ := h.unarmed c hwill
    exact ⟨hlast, by simpa [setCleanup_conns, hlast] using hlog⟩

/-! ### All steps -/

lemma Ending.update {conns : ℕ → Connection} (h : Ending conns) {c : ℕ} {y : Connection}
    (hover : (conns c).connectionOverride = true → y.connectionOverride = true)
    (hends : ∀ prev, Ends y.reader prev → Ends (conns c).reader prev ∨
      (conns prev).connectionOverride = true) : Ending (Function.update conns c y) := by
  have hkeep : ∀ d, (conns d).connectionOverride = true →
      (Function.update conns c y d).connectionOverride = true := fun d hd => by
    rw [Function.update_apply]
    split_ifs with hdc
    · exact hover (hdc ▸ hd)
    · exact hd
  intro d prev hd
  rw [Function.update_apply] at hd
  split_ifs at hd with hdc
  · exact hkeep prev ((hends prev hd).elim (h c prev) fun ho => ho)
  · exact hkeep prev (h d prev hd)

/-- Neither the override nor the read loop changes. -/
lemma Ending.stay {conns : ℕ → Connection} (h : Ending conns) {c : ℕ} {y : Connection}
    (ho : y.connectionOverride = (conns c).connectionOverride)
    (hr : y.reader = (conns c).reader) : Ending (Function.update conns c y) :=
  h.update (fun ho' => ho.trans ho') fun _ hp => .inl (hr ▸ hp)

/-- The read loop goes on, outside an override. -/
lemma Ending.leave {conns : ℕ → Connection} (h : Ending conns) {c : ℕ} {y : Connection}
    (ho : y.connectionOverride = (conns c).connectionOverride)
    (hr : ∀ prev, ¬Ends y.reader prev) : Ending (Function.update conns c y) :=
  h.update (fun ho' => ho.trans ho') fun prev hp => absurd hp (hr prev)

lemma not_ends {r : Reader} (h : ∀ prev, r ≠ .unlinking prev ∧ r ≠ .closing prev) (prev : ℕ) :
    ¬Ends r prev := fun he => he.elim (h prev).1 (h prev).2

lemma Ending.moves {conns : ℕ → Connection} (h : Ending conns) {c : ℕ} {y : Connection}
    (hy : Moved (conns c) y) : Ending (Function.update conns c y) := by
  have ho : y.connectionOverride = (conns c).connectionOverride := by rw [hy.same]
  rcases hy.reader with hr | ⟨-, hlate, -⟩
  · exact h.stay ho hr
  · refine h.leave ho fun prev hp => hlate ?_
    rcases hp with hp | hp <;> rw [hp] <;> trivial

lemma Ending.step {e : Event} (h : Ending s.conns) (ht : Trans s e s') : Ending s'.conns := by
  cases ht with
  | identify hc | setWill hc | notFound hc | store hc hid | packet hc ht | found hc hid hprev =>
    exact Ending.leave h rfl (not_ends fun _ => ⟨nofun, nofun⟩)
  | enterReader hc hl =>
    refine Ending.stay ?_ rfl rfl
    exact Ending.leave h rfl (not_ends fun _ => ⟨nofun, nofun⟩)
  | @override c prev hc =>
    refine Ending.update ?_ (fun ho => ho) fun p hp => .inr ?_
    · exact Ending.update h (fun _ => rfl) fun _ hp => .inl hp
    · obtain rfl : prev = p := by rcases hp with hp | hp <;> cases hp; rfl
      simp [modify_conns]
  | @unlink c prev hc =>
    refine Ending.update ?_ (fun ho => ho) fun p hp => .inr ?_
    · exact Ending.stay h rfl rfl
    · obtain rfl : prev = p := by rcases hp with hp | hp <;> cases hp; rfl
      simpa [modify_conns] using h c prev (.inl hc)
  | close hc =>
    refine Ending.leave ?_ rfl (not_ends fun _ => ⟨nofun, nofun⟩)
    exact Ending.stay h rfl rfl
  | moves hy => exact h.moves hy
  | enterWriter hl | enterStop hc | add hk | remove hk =>
    refine Ending.stay ?_ rfl rfl
    exact Ending.stay h rfl rfl
  | cleanRaises ha | cleanTest ha ho => exact h
  | @cleanRemove a c ha =>
    rw [removeClient_eq]
    exact Ending.stay h rfl rfl
  | cleanRead ha | cleanUnsubscribe ha hS | cleanOverridden ha ho | cleanPublish ha
  | threadEnds hk ht | register hk htopic hS | unsubscribe hk hS =>
    exact Ending.stay h rfl rfl

lemma FirstEntry.modify {c : ℕ} (h : FirstEntry s c) {f : Connection → Connection}
    (hf : Quiet (s.conns c) (f (s.conns c))) : FirstEntry (s.modify c f) c := by
  unfold FirstEntry
  rw [modify_conns, if_pos rfl, hf.packet, hf.override, hf.entries]
  exact h

lemma Invariant.step {e : Event} (h : Invariant s) (hends : Ending s.conns) (hok : CalledOnce s e)
    (ht : Trans s e s') : Invariant s' := by
  cases ht with
  | identify hc | notFound hc | packet hc ht | found hc hid hprev | threadEnds hk ht =>
    exact h.quiet ⟨rfl, .inl rfl, rfl, rfl, rfl⟩
  | setWill hc => exact h.quiet ⟨rfl, .inr rfl, rfl, rfl, rfl⟩
  | @store c id hc hid =>
    have hconn : Invariant
        (s.modify c fun conn => { conn with stored := true, reader := .linking }) :=
      h.quiet ⟨rfl, .inl rfl, rfl, rfl, rfl⟩
    exact hconn.of_eq rfl rfl
  | @enterReader c hc hl =>
    have hfirst : FirstEntry s c := by
      simp only [CalledOnce, hc] at hok
      exact hok hl
    refine Invariant.enter ?_ _ ?_
    · exact h.quiet ⟨rfl, .inl rfl, rfl, rfl, rfl⟩
    · exact hfirst.modify ⟨rfl, .inl rfl, rfl, rfl, rfl⟩
  | enterWriter hl =>
    refine Invariant.enter ?_ _ ?_
    · exact h.quiet ⟨rfl, .inl rfl, rfl, rfl, rfl⟩
    · exact FirstEntry.modify (hok hl) ⟨rfl, .inl rfl, rfl, rfl, rfl⟩
  | enterStop hc =>
    refine Invariant.enter ?_ _ ?_
    · exact h.quiet ⟨rfl, .inl rfl, rfl, rfl, rfl⟩
    · exact FirstEntry.modify (hok hc) ⟨rfl, .inl rfl, rfl, rfl, rfl⟩
  | @override c prev hc =>
    simp only [CalledOnce, hc] at hok
    refine Invariant.quiet ?_ ⟨rfl, .inl rfl, rfl, rfl, rfl⟩
    exact h.overridden hok
  | unlink hc =>
    refine Invariant.quiet ?_ ⟨rfl, .inl rfl, rfl, rfl, rfl⟩
    exact h.quiet ⟨rfl, .inl rfl, rfl, rfl, rfl⟩
  | @close c prev hc =>
    refine Invariant.cleanOverridden ?_ _ ?_
    · refine Invariant.quiet ?_ ⟨rfl, .inl rfl, rfl, rfl, rfl⟩
      exact h.quiet ⟨rfl, .inl rfl, rfl, rfl, rfl⟩
    · have ho := hends c prev (.inr hc)
      simp only [goto_conns, modify_conns]
      split_ifs with hpc hcp
      · exact hcp ▸ ho
      · exact hpc ▸ ho
      · exact ho
  | moves hy => exact h.quiet (quiet_of_moved hy)
  | add hk | remove hk =>
    refine Invariant.quiet ?_ ⟨rfl, .inl rfl, rfl, rfl, rfl⟩
    exact h.quiet ⟨rfl, .inl rfl, rfl, rfl, rfl⟩
  | cleanRead ha =>
    refine Invariant.goOn ?_ ha fun _ hpc => ?_
    · exact h.quiet ⟨rfl, .inl rfl, rfl, rfl, rfl⟩
    · rcases hpc with hpc | hpc <;> cases hpc
  | cleanUnsubscribe ha hS =>
    refine Invariant.goOn ?_ ha fun _ hpc => ?_
    · refine Invariant.quiet ?_ ⟨rfl, .inl rfl, rfl, rfl, rfl⟩
      exact h.of_eq rfl rfl
    · rcases hpc with hpc | hpc <;> cases hpc
  | cleanRaises ha => exact h.over _
  | cleanOverridden ha ho =>
    refine Invariant.over ?_ _
    exact h.quiet ⟨rfl, .inl rfl, rfl, rfl, rfl⟩
  | cleanTest ha ho =>
    refine h.goOn ha fun ho' => ?_
    rw [ho] at ho'
    cases ho'
  | cleanRemove ha =>
    rw [removeClient_eq]
    refine Invariant.goOn ?_ ha fun _ _ => .inl rfl
    refine Invariant.quiet ?_ ⟨rfl, .inl rfl, rfl, rfl, rfl⟩
    exact h.of_eq rfl rfl
  | cleanPublish ha => exact h.publish ha
  | register hk htopic hS | unsubscribe hk hS =>
    refine Invariant.quiet ?_ ⟨rfl, .inl rfl, rfl, rfl, rfl⟩
    exact h.of_eq rfl rfl

end

/-! ### At most once -/

lemma Invariant.firesOnce {s : System} (h : Invariant s) (c : ℕ) : FiresOnce (s.conns c).log := by
  by_cases hwill : (s.conns c).packet.lastWill = none
  · exact firesOnce_of_notMem (h.unarmed c hwill).log
  · exact (h.armed c hwill).once

/-- **The last will fires at most once**, and not after an override, as long as
`handle_disconnected` is called once. -/
theorem last_will_fires_once {packet : ℕ → ConnectPacket} {s : System} {es : List Event}
    (hok : Runs.Meets step CalledOnce (initial packet) es)
    (hrun : Runs.run step (initial packet) es = some s) (c : ℕ) :
    FiresOnce (s.conns c).log := by
  have hstep : ∀ t e t', Invariant t ∧ Ending t.conns → CalledOnce t e → step t e = some t' →
      Invariant t' ∧ Ending t'.conns := fun t e t' ht hok hs =>
    ⟨ht.1.step ht.2 hok (trans_of_step hs), ht.2.step (trans_of_step hs)⟩
  have hinv := Runs.run_invariant hstep ⟨invariant_initial packet, ending_initial packet⟩ hok hrun
  exact hinv.1.firesOnce c

/-- Every client is called `app` and announces that it has gone. -/
def appSystem : System :=
  initial <| appPacket <| some ⟨Topic.fromStr "gone".toList, 0, false, false, some [49]⟩

theorem last_will_fires_once_app :
    ∃ s, Runs.run step appSystem (connects 0 ++ disconnects 0 ++ cleans (.reader 0)) = some s ∧
      (s.conns 0).log = [.lastWill] ∧ FiresOnce (s.conns 0).log := by
  have hok : Runs.Meets step CalledOnce appSystem
      (connects 0 ++ disconnects 0 ++ cleans (.reader 0)) :=
    .cons trivial rfl <| .cons trivial rfl <| .cons trivial rfl <| .cons trivial rfl <|
    .cons trivial rfl <| .cons trivial rfl <| .cons trivial rfl <| .cons trivial rfl <|
    .cons (fun _ => .inr (.inr rfl)) rfl <| .cons trivial rfl <| .cons trivial rfl <|
    .cons trivial rfl <| .cons trivial rfl <| .cons trivial rfl .nil
  exact ⟨_, rfl, rfl, last_will_fires_once hok rfl 0⟩

/-- A write fails, and then a read: both loops find `linked` set, and the will is published
twice. -/
theorem both_loops_fire :
    ∃ s, Runs.run step appSystem (connects 0 ++ [.writerFails 0, .writer 0] ++
        cleans (.writer 0) ++ disconnects 0 ++ cleans (.reader 0)) = some s ∧
      (s.conns 0).log = [.lastWill, .lastWill] ∧ ¬FiresOnce (s.conns 0).log := by
  refine ⟨_, rfl, rfl, fun h => ?_⟩
  exact absurd h.1 (by decide)

end MoteBroker.LastWill

import MoteBroker.Connections

/-!
What the records of the connections say in every state: where a read loop is tells whether its
connection has been put in `Broker.clients`, and what stands under a client id in `Broker.clients`,
in the subscriptions or in the hands of a successor is a connection with that id.
-/

namespace MoteBroker.Records

open MoteBroker.Topics MoteBroker.Subscriptions MoteBroker.Connections

/-! ### How a connection changes -/

/-- How a read loop goes on. -/
def Next : Reader → Reader → Prop
  | .connecting, .identified | .identified, .adding => True
  | .adding, .overriding _ | .adding, .storing => True
  | .overriding p, .unlinking q | .unlinking p, .closing q => q = p
  | .closing _, .storing | .storing, .linking | .reading, .looping => True
  | _, _ => False

/-- What a step does to connection `d`. -/
structure Change (s s' : System) (e : Event) (d : ℕ) (x y : Connection) : Prop where
  packet : y.packet = x.packet
  id : y.id = x.id ∨ e = .reader d ∧
    x.reader = .connecting ∧ y.reader = .identified ∧ y.id = some x.packet.clientId
  override : x.connectionOverride = true → y.connectionOverride = true
  overridden : y.connectionOverride = true →
    x.connectionOverride = true ∨
      ∃ c, (s.conns c).reader = .overriding d ∧ (s'.conns c).reader = .unlinking d
  alive : y.alive = true → x.alive = true
  reader : x.reader.Moves y.reader ∨ Next x.reader y.reader
  found : ∀ prev, x.reader = .adding → y.reader = .overriding prev →
    e = .reader d ∧ ∃ id, x.id = some id ∧ s.clients.lookup id = some prev
  stored : y.stored = x.stored ∨ e = .reader d ∧
    x.reader = .storing ∧ y.reader = .linking ∧ x.id ≠ none ∧ y.id = x.id ∧ y.stored = true
  linking : x.reader = .storing → y.reader = .linking →
    y.stored = true ∧ ∃ id, x.id = some id ∧ s'.clients.lookup id = some d
  threads : y.threads ≠ [] → x.threads ≠ [] ∨ x.reader = .reading
  subscriptions : y.subscriptions ≠ [] → x.subscriptions ≠ [] ∨ x.threads ≠ []
  hasRead : x.hasRead = true → y.hasRead = true
  purges : x.purged = true → y.purged = true
  pops : x.popped = true → y.popped = true
  purged : y.purged = true →
    x.purged = true ∨ ∃ a topics, s.cleanups a = some ⟨d, .unsubscribing topics⟩
  popped : y.popped = true → x.popped = true ∨ ∃ a,
    e = .cleanup a ∧ s.cleanups a = some ⟨d, .removing⟩ ∧ s'.clients = (s.removeClient d).clients
  cleaned : y.cleaned = true → x.cleaned = true ∨ ∃ a,
    s.cleanups a = some ⟨d, .testing⟩ ∧ x.connectionOverride = true ∨
      s.cleanups a = some ⟨d, .publishing⟩

lemma Change.refl (s s' : System) (e : Event) (d : ℕ) (x : Connection) : Change s s' e d x x :=
  ⟨rfl, .inl rfl, fun h => h, .inl, fun h => h, .inl (.inl rfl),
    fun _ h h' => (nomatch h.symm.trans h'), .inl rfl, fun h h' => (nomatch h.symm.trans h'), .inl,
    .inl, fun h => h, fun h => h, fun h => h, .inl, .inl, .inl⟩

lemma Change.update {s s' : System} {e : Event} {c : ℕ} {y : Connection}
    (hy : Change s s' e c (s.conns c) y) (d : ℕ) :
    Change s s' e d (s.conns d) (Function.update s.conns c y d) := by
  rw [Function.update_apply]
  split_ifs with hdc
  · exact hdc ▸ hy
  · exact .refl ..

/-- Two changes, perhaps of one connection. -/
lemma Change.modify_modify {s s' : System} {e : Event} {f g : Connection → Connection} {p c : ℕ}
    (hf : Change s s' e p (s.conns p) (f (s.conns p)))
    (hg : Change s s' e c (s.conns c) (g (s.conns c)))
    (hfg : c = p → Change s s' e p (s.conns p) (g (f (s.conns p)))) (d : ℕ) :
    Change s s' e d (s.conns d) (((s.modify p f).modify c g).conns d) := by
  rw [modify_conns]
  split_ifs with hdc
  · subst hdc
    rw [modify_conns]
    split_ifs with hdp
    · subst hdp
      exact hfg rfl
    · exact hg
  · exact Change.update hf d

/-- What no record is about changes, and where the loops are. -/
lemma change_of_reader {s s' : System} {e : Event} {d : ℕ} {x y : Connection}
    (hsame : y = { x with lastWill := y.lastWill, alive := y.alive, linked := y.linked,
                          reader := y.reader, writer := y.writer, stopper := y.stopper,
                          entries := y.entries, log := y.log })
    (halive : y.alive = true → x.alive = true)
    (hreader : x.reader.Moves y.reader ∨ Next x.reader y.reader)
    (hfound : ∀ prev, x.reader = .adding → y.reader = .overriding prev →
      e = .reader d ∧ ∃ id, x.id = some id ∧ s.clients.lookup id = some prev)
    (hlinking : x.reader = .storing → y.reader ≠ .linking) : Change s s' e d x y where
  packet := by rw [hsame]
  id := .inl (by rw [hsame])
  override := fun ho => by rw [hsame]; exact ho
  overridden := fun ho => .inl (by rw [hsame] at ho; exact ho)
  alive := halive
  reader := hreader
  found := hfound
  stored := .inl (by rw [hsame])
  linking := fun hx hy => absurd hy (hlinking hx)
  threads := fun ht => .inl (by rw [hsame] at ht; exact ht)
  subscriptions := fun ht => .inl (by rw [hsame] at ht; exact ht)
  hasRead := fun hm => by rw [hsame]; exact hm
  purges := fun hm => by rw [hsame]; exact hm
  pops := fun hm => by rw [hsame]; exact hm
  purged := fun hm => .inl (by rw [hsame] at hm; exact hm)
  popped := fun hm => .inl (by rw [hsame] at hm; exact hm)
  cleaned := fun hm => .inl (by rw [hsame] at hm; exact hm)

/-- The read loop stays where it is. -/
lemma change_of_still {s s' : System} {e : Event} {d : ℕ} {x y : Connection}
    (hsame : y = { x with lastWill := y.lastWill, alive := y.alive, linked := y.linked,
                          writer := y.writer, stopper := y.stopper, entries := y.entries,
                          log := y.log })
    (halive : y.alive = true → x.alive = true) : Change s s' e d x y := by
  have hreader : y.reader = x.reader := by rw [hsame]
  refine change_of_reader ?_ halive (.inl (.inl hreader)) (fun prev hx hy => ?_) fun hx hy => ?_
  · rw [hreader]
    exact hsame
  · exact (nomatch hx.symm.trans (hreader.symm.trans hy))
  · exact (nomatch hx.symm.trans (hreader.symm.trans hy))

/-- The read loop goes on, but not from where it looks for a previous client or is stored. -/
lemma change_of_next {s s' : System} {e : Event} {d : ℕ} {x y : Connection} {r : Reader}
    (hsame : y = { x with lastWill := y.lastWill, alive := y.alive, linked := y.linked,
                          reader := y.reader, writer := y.writer, stopper := y.stopper,
                          entries := y.entries, log := y.log })
    (halive : y.alive = true → x.alive = true) (hx : x.reader = r)
    (hreader : r.Moves y.reader ∨ Next r y.reader) (hadding : r ≠ .adding)
    (hstoring : r ≠ .storing) : Change s s' e d x y :=
  change_of_reader hsame halive (hx ▸ hreader) (fun _ ha => absurd (hx.symm.trans ha) hadding)
    fun hs => absurd (hx.symm.trans hs) hstoring

lemma change_of_moved {s s' : System} {e : Event} {d : ℕ} {x y : Connection} (h : Moved x y) :
    Change s s' e d x y := by
  have hsame := h.same
  refine change_of_reader ?_ h.alive (.inl h.reader) (fun prev hx hy => ?_) fun hx hy => ?_
  · rw [hsame]
  · rcases h.reader with hs | ⟨-, hs, -⟩
    · exact (nomatch hy.symm.trans (hs.trans hx))
    · exact absurd (by rw [hy]; trivial) hs
  · rcases h.reader with hs | ⟨hs, -, -⟩
    · exact (nomatch hy.symm.trans (hs.trans hx))
    · exact absurd (by rw [hx]; trivial) (hs 0)

/-- One of its threads works. -/
lemma change_of_thread {s s' : System} {e : Event} {d : ℕ} {x y : Connection}
    (hsame : y = { x with threads := y.threads, subscriptions := y.subscriptions })
    (hx : x.threads ≠ []) : Change s s' e d x y := by
  rw [hsame]
  exact { Change.refl s s' e d x with
    threads := fun _ => .inl hx
    subscriptions := fun _ => .inr hx }

/-- The read loop leaves its `while`. -/
lemma moves_ended {r : Reader} (h : r = .testing) : r.Moves .ended := by
  rw [h]
  exact .inr ⟨fun _ hs => hs.elim, fun he => he.elim, fun hs => hs.elim⟩

lemma ne_nil_of_getElem? {α : Type} {l : List α} {k : ℕ} {a : α} (h : l[k]? = some a) : l ≠ [] :=
  List.ne_nil_of_mem (List.mem_of_getElem? h)

lemma change_of_trans {s s' : System} {e : Event} (ht : Trans s e s') (d : ℕ) :
    Change s s' e d (s.conns d) (s'.conns d) := by
  cases ht with
  | @identify c h =>
    refine Change.update ?_ d
    exact { Change.refl s _ _ c (s.conns c) with
      id := .inr ⟨rfl, h, rfl, rfl⟩
      reader := .inr (by rw [h]; trivial)
      found := fun prev hx => (nomatch h.symm.trans hx)
      stored := .inl rfl
      linking := fun hx => (nomatch h.symm.trans hx) }
  | @packet c t h ht =>
    refine Change.update ?_ d
    exact { Change.refl s _ _ c (s.conns c) with
      id := .inl rfl
      reader := .inr (by rw [h]; trivial)
      found := fun prev hx => (nomatch h.symm.trans hx)
      stored := .inl rfl
      linking := fun hx => (nomatch h.symm.trans hx)
      threads := fun _ => .inr h }
  | setWill h =>
    refine Change.update ?_ d
    exact change_of_next rfl id h (.inr trivial) Reader.noConfusion Reader.noConfusion
  | @found c prev id h hid hprev =>
    refine Change.update ?_ d
    refine change_of_reader rfl (fun ha => ha) (.inr ?_) (fun p _ hy => ?_) fun hs =>
      (nomatch h.symm.trans hs)
    · rw [h]
      trivial
    · cases hy
      exact ⟨rfl, id, hid, hprev⟩
  | notFound h =>
    refine Change.update ?_ d
    refine change_of_reader rfl (fun ha => ha) (.inr ?_) (fun p _ hy => (nomatch hy)) fun hs =>
      (nomatch h.symm.trans hs)
    rw [h]
    trivial
  | @store c id h hid =>
    refine Change.update ?_ d
    exact { Change.refl s _ _ c (s.conns c) with
      id := .inl rfl
      reader := .inr (by rw [h]; trivial)
      found := fun prev hx => (nomatch h.symm.trans hx)
      stored := .inr ⟨rfl, h, rfl, hid ▸ Option.some_ne_none id, rfl, rfl⟩
      linking := fun _ _ => ⟨rfl, id, hid, AList.lookup_insert _⟩ }
  | moves hy => exact Change.update (change_of_moved hy) d
  | @cleanRead a c ha =>
    refine Change.update ?_ d
    exact { Change.refl s _ _ c (s.conns c) with hasRead := fun _ => rfl }
  | @cleanUnsubscribe a c topics S ha =>
    refine Change.update ?_ d
    exact { Change.refl s _ _ c (s.conns c) with
      purges := fun _ => rfl
      purged := fun _ => .inr ⟨a, topics, ha⟩ }
  | @cleanOverridden a c ha ho =>
    refine Change.update ?_ d
    exact { Change.refl s _ _ c (s.conns c) with
      cleaned := fun _ => .inr ⟨a, .inl ⟨ha, ho⟩⟩ }
  | @cleanPublish a c ha =>
    refine Change.update ?_ d
    exact { Change.refl s _ _ c (s.conns c) with
      cleaned := fun _ => .inr ⟨a, .inr ha⟩ }
  | @cleanRemove a c ha =>
    have hconns : (((s.removeClient c).modify c fun conn => { conn with popped := true }).setCleanup
        a (some ⟨c, .publishing⟩)).conns =
        Function.update s.conns c { s.conns c with popped := true } := by
      rw [removeClient_eq]
      rfl
    rw [hconns]
    refine Change.update ?_ d
    exact { Change.refl s _ _ c (s.conns c) with
      pops := fun _ => rfl
      popped := fun _ => .inr ⟨a, rfl, ha, rfl⟩ }
  | cleanRaises | cleanTest => exact .refl ..
  | @override c prev h =>
    have hreader : ∀ t : System, ((t.goto c (.unlinking prev)).conns c).reader = .unlinking prev :=
      fun t => by rw [goto_conns, if_pos rfl]
    refine Change.modify_modify ?_ ?_ ?_ d
    · exact { Change.refl s _ _ prev (s.conns prev) with
        override := fun _ => rfl
        overridden := fun _ => .inr ⟨c, h, hreader _⟩ }
    · exact change_of_next rfl id h (.inr rfl) Reader.noConfusion Reader.noConfusion
    · rintro rfl
      exact { Change.refl s _ _ c (s.conns c) with
        id := .inl rfl
        override := fun _ => rfl
        overridden := fun _ => .inr ⟨c, h, hreader _⟩
        reader := .inr (by rw [h]; rfl)
        found := fun prev hx => (nomatch h.symm.trans hx)
        stored := .inl rfl
        linking := fun hx => (nomatch h.symm.trans hx) }
  | unlink h =>
    refine Change.modify_modify (change_of_still rfl id) ?_ ?_ d
    · exact change_of_next rfl id h (.inr rfl) Reader.noConfusion Reader.noConfusion
    · rintro rfl
      exact change_of_next rfl id h (.inr rfl) Reader.noConfusion Reader.noConfusion
  | close h =>
    rw [setCleanup_conns]
    refine Change.modify_modify ?_ ?_ ?_ d
    · exact change_of_still rfl fun ha => (nomatch ha)
    · exact change_of_next rfl id h (.inr trivial) Reader.noConfusion Reader.noConfusion
    · rintro rfl
      exact change_of_next rfl (fun ha => (nomatch ha)) h (.inr trivial) Reader.noConfusion
        Reader.noConfusion
  | enterReader h hl =>
    unfold System.enter
    rw [setCleanup_conns]
    refine Change.modify_modify ?_ (change_of_still rfl id) ?_ d
    · exact change_of_next rfl id h (.inl (moves_ended rfl)) Reader.noConfusion
        Reader.noConfusion
    · rintro -
      exact change_of_next rfl id h (.inl (moves_ended rfl)) Reader.noConfusion
        Reader.noConfusion
  | enterWriter =>
    unfold System.enter
    rw [setCleanup_conns]
    exact Change.modify_modify (change_of_still rfl id) (change_of_still rfl id)
      (fun _ => change_of_still rfl id) d
  | enterStop =>
    unfold System.enter
    rw [setCleanup_conns]
    refine Change.modify_modify ?_ (change_of_still rfl id) (fun _ => ?_) d
    · exact change_of_still rfl fun ha => (nomatch ha)
    · exact change_of_still rfl fun ha => (nomatch ha)
  | threadEnds hk _ => exact Change.update (change_of_thread rfl (ne_nil_of_getElem? hk)) d
  | register hk _ _ => exact Change.update (change_of_thread rfl (ne_nil_of_getElem? hk)) d
  | unsubscribe hk _ => exact Change.update (change_of_thread rfl (ne_nil_of_getElem? hk)) d
  | add hk =>
    have hne := ne_nil_of_getElem? hk
    exact Change.modify_modify (change_of_thread rfl hne) (change_of_thread rfl hne)
      (fun _ => change_of_thread rfl hne) d
  | remove hk =>
    have hne := ne_nil_of_getElem? hk
    exact Change.modify_modify (change_of_thread rfl hne) (change_of_thread rfl hne)
      (fun _ => change_of_thread rfl hne) d

/-! ### How the rest changes -/

section
variable {s s' : System} {e : Event}

lemma clients_of_trans (ht : Trans s e s') {id : Str} {c : ℕ}
    (h : s'.clients.lookup id = some c) :
    s.clients.lookup id = some c ∨
      e = .reader c ∧ (s.conns c).reader = .storing ∧ (s.conns c).id = some id ∧
        (s'.conns c).reader = .linking := by
  cases ht with
  | @store c' id' hc hid =>
    have h : (s.clients.insert id' c').lookup id = some c := h
    rw [lookup_insert_ite] at h
    split_ifs at h with hii
    · obtain rfl := Option.some.inj h
      exact .inr ⟨rfl, hc, hii ▸ hid, by simp [modify_conns]⟩
    · exact .inl h
  | @cleanRemove a d ha =>
    have h : (s.removeClient d).clients.lookup id = some c := h
    unfold System.removeClient at h
    split at h
    · split_ifs at h
      · exact .inl h
      · dsimp only at h
        rw [lookup_erase_ite] at h
        split_ifs at h
        exact .inl h
    · exact .inl h
  | _ => exact .inl h

lemma owner_of_trans (ht : Trans s e s') {k : List Str × Str} {c : ℕ} (h : s'.owner k = some c) :
    s.owner k = some c ∨ k.2 = (s.conns c).id.getD [] ∧ (s.conns c).threads ≠ [] := by
  cases ht with
  | @register c' _ _ _ topic_str _ _ S hk htopic hS =>
    have h : Function.update s.owner (split topic_str, (s.conns c').id.getD []) (some c') k =
      some c := h
    rw [Function.update_apply] at h
    split_ifs at h with hk'
    · obtain rfl := Option.some.inj h
      exact .inr ⟨by rw [hk'], ne_nil_of_getElem? hk⟩
    · exact .inl h
  | @cleanUnsubscribe a d topics S ha hS =>
    have h : (if k.2 = (s.conns d).id.getD [] ∧ k.1 ∈ topics.map split then none
      else s.owner k) = some c := h
    split_ifs at h
    exact .inl h
  | @unsubscribe d _ topic _ S hk hS =>
    have h : (if k.2 = (s.conns d).id.getD [] ∧ k.1 ∈ [topic].map split then none
      else s.owner k) = some c := h
    split_ifs at h
    exact .inl h
  | cleanRemove ha =>
    rw [removeClient_eq] at h
    exact .inl h
  | _ => exact .inl h

/-- How a call of `handle_disconnected` has come to where it is. -/
inductive Came (s s' : System) (e : Event) (a : Actor) (d : ℕ) : Pc → Prop
  | stays {pc : Pc} (h : s.cleanups a = some ⟨d, pc⟩) : Came s s' e a d pc
  | enters : Came s s' e a d .reading
  | reads (he : e = .cleanup a) (h : s.cleanups a = some ⟨d, .reading⟩)
    (hread : (s'.conns d).hasRead = true) :
    Came s s' e a d (.unsubscribing (s.conns d).subscriptions)
  | unsubscribes {topics : List Str} (h : s.cleanups a = some ⟨d, .unsubscribing topics⟩)
    (hpurged : (s'.conns d).purged = true) : Came s s' e a d .testing
  | tests (he : e = .cleanup a) (h : s.cleanups a = some ⟨d, .testing⟩)
    (ho : (s.conns d).connectionOverride = false) : Came s s' e a d .removing
  | removes (h : s.cleanups a = some ⟨d, .removing⟩) (hpopped : (s'.conns d).popped = true) :
    Came s s' e a d .publishing

lemma came_of_update {a b : Actor} {d : ℕ} {pc : Pc} {cleanup : Option Cleanup}
    (h : Function.update s.cleanups b cleanup a = some ⟨d, pc⟩)
    (hb : a = b → cleanup = some ⟨d, pc⟩ → Came s s' e a d pc) : Came s s' e a d pc := by
  rw [Function.update_apply] at h
  split_ifs at h with hab
  · exact hb hab h
  · exact .stays h

lemma cleanups_of_trans (ht : Trans s e s') {a : Actor} {d : ℕ} {pc : Pc}
    (h : s'.cleanups a = some ⟨d, pc⟩) : Came s s' e a d pc := by
  cases ht with
  | close | enterReader | enterWriter | enterStop =>
    refine came_of_update h ?_
    rintro rfl heq
    cases heq
    exact .enters
  | cleanRead ha =>
    refine came_of_update h ?_
    rintro rfl heq
    cases heq
    exact .reads rfl ha (by simp [setCleanup_conns, modify_conns])
  | cleanUnsubscribe ha hS =>
    refine came_of_update h ?_
    rintro rfl heq
    cases heq
    exact .unsubscribes ha (by simp [setCleanup_conns, modify_conns])
  | cleanTest ha ho =>
    refine came_of_update h ?_
    rintro rfl heq
    cases heq
    exact .tests rfl ha ho
  | cleanRemove ha =>
    rw [removeClient_eq] at h
    refine came_of_update h ?_
    rintro rfl heq
    cases heq
    exact .removes ha (by simp [setCleanup_conns, modify_conns])
  | cleanRaises | cleanOverridden | cleanPublish =>
    exact came_of_update h fun _ heq => (nomatch heq)
  | _ => exact .stays h

end

/-! ### What the records say -/

/-- What a connection's own record says. -/
structure Placed (x : Connection) : Prop where
  connecting : x.reader = .connecting → x.id = none
  early : x.reader.early → x.stored = false
  serving : x.reader.serving → x.stored = true
  identified : x.stored = true → x.id ≠ none
  threads : x.threads ≠ [] → x.stored = true
  subscriptions : x.subscriptions ≠ [] → x.stored = true

section
variable {s s' : System} {e : Event} {d : ℕ} {x y : Connection}

lemma Placed.id_eq (h : Placed x) (hc : Change s s' e d x y) (hid : x.id ≠ none) : y.id = x.id := by
  rcases hc.id with heq | ⟨-, hr, -, -⟩
  · exact heq
  · exact absurd (h.connecting hr) hid

lemma Change.stored_of (hc : Change s s' e d x y) (hx : x.stored = true) : y.stored = true := by
  rcases hc.stored with heq | ⟨-, -, -, -, -, hy⟩
  · exact heq.trans hx
  · exact hy

lemma early_of_next {r r' : Reader} (h : Next r r') (he : r'.early) : r.early := by
  cases r <;> cases r' <;> trivial

lemma serving_of_next {r r' : Reader} (h : Next r r') (hs : r'.serving) :
    r = .storing ∧ r' = .linking ∨ r.serving := by
  cases r <;> cases r' <;>
    first | exact h.elim | exact hs.elim | exact .inl ⟨rfl, rfl⟩ | exact .inr trivial

lemma Placed.change (h : Placed x) (hc : Change s s' e d x y) : Placed y where
  connecting hy := by
    have hx : x.reader = .connecting := by
      rcases hc.reader with (hr | ⟨-, hr, -⟩) | hr
      · exact hr.symm.trans hy
      · exact absurd (by rw [hy]; trivial) hr
      · rw [hy] at hr
        cases hreader : x.reader <;> rw [hreader] at hr <;> cases hr
    rcases hc.id with heq | ⟨-, -, hr, -⟩
    · exact heq.trans (h.connecting hx)
    · exact (nomatch hy.symm.trans hr)
  early hy := by
    have hx : x.reader.early := by
      rcases hc.reader with (hr | ⟨-, hr, -⟩) | hr
      · exact hr ▸ hy
      · exact absurd hy hr
      · exact early_of_next hr hy
    rcases hc.stored with heq | ⟨-, -, hr, -⟩
    · exact heq.trans (h.early hx)
    · rw [hr] at hy
      exact hy.elim
  serving hy := by
    rcases hc.reader with (hr | ⟨-, -, hr⟩) | hr
    · exact hc.stored_of (h.serving (hr ▸ hy))
    · exact hc.stored_of (h.serving (hr hy))
    · rcases serving_of_next hr hy with ⟨hx, hy⟩ | hx
      · exact (hc.linking hx hy).1
      · exact hc.stored_of (h.serving hx)
  identified hy := by
    rcases hc.stored with heq | ⟨-, -, -, hid, heq, -⟩
    · have hid := h.identified (heq.symm.trans hy)
      rw [h.id_eq hc hid]
      exact hid
    · rw [heq]
      exact hid
  threads hy := by
    rcases hc.threads hy with hx | hr
    · exact hc.stored_of (h.threads hx)
    · exact hc.stored_of (h.serving (by rw [hr]; trivial))
  subscriptions hy := by
    rcases hc.subscriptions hy with hx | hx
    · exact hc.stored_of (h.subscriptions hx)
    · exact hc.stored_of (h.threads hx)

end

structure Sound (s : System) : Prop where
  placed : ∀ c, Placed (s.conns c)
  clients : ∀ id c, s.clients.lookup id = some c →
    (s.conns c).id = some id ∧ (s.conns c).stored = true
  replaces : ∀ c prev, (s.conns c).reader.replaces prev →
    (s.conns prev).id = (s.conns c).id ∧ (s.conns prev).stored = true
  override : ∀ c, (s.conns c).connectionOverride = true → (s.conns c).stored = true
  topics : ∀ a c topics, s.cleanups a = some ⟨c, .unsubscribing topics⟩ → topics ≠ [] →
    (s.conns c).stored = true
  owner : ∀ k c, s.owner k = some c → (s.conns c).id = some k.2 ∧ (s.conns c).stored = true
  entries : ∃ m, Represents s.subscriptions m ∧ ∀ k, m k = none ↔ s.owner k = none

lemma sound_initial (packet : ℕ → ConnectPacket) : Sound (initial packet) where
  placed c := ⟨fun _ => rfl, fun _ => rfl, fun h => h.elim, fun h => (nomatch h),
    fun h => absurd rfl h, fun h => absurd rfl h⟩
  clients id c h := by simp [initial] at h
  replaces c prev h := h.elim
  override c h := (nomatch h)
  topics a c topics h := (nomatch h)
  owner k c h := (nomatch h)
  entries := ⟨fun _ => none, represents_nil, fun _ => Iff.rfl⟩

section
variable {s s' : System} {e : Event}

/-- A connection that has been put in `Broker.clients` keeps its id. -/
lemma Sound.keeps (h : Sound s) (ht : Trans s e s') {c : ℕ} {id : Option Str}
    (hc : (s.conns c).id = id ∧ (s.conns c).stored = true) :
    (s'.conns c).id = id ∧ (s'.conns c).stored = true := by
  have hchange := change_of_trans ht c
  have hid := (h.placed c).id_eq hchange ((h.placed c).identified hc.2)
  exact ⟨hid.trans hc.1, hchange.stored_of hc.2⟩

lemma Sound.getD_id (h : Sound s) {c : ℕ} (hc : (s.conns c).stored = true) :
    (s.conns c).id = some ((s.conns c).id.getD []) := by
  obtain ⟨id, hid⟩ := Option.ne_none_iff_exists'.mp ((h.placed c).identified hc)
  rw [hid]
  rfl

lemma replaces_of_moves {r r' : Reader} (h : r.Moves r') {prev : ℕ} (hr : r'.replaces prev) :
    r.replaces prev := by
  rcases h with heq | ⟨-, hlate, -⟩
  · exact heq ▸ hr
  · exact absurd (by cases r' <;> trivial) hlate

lemma replaces_of_next {r r' : Reader} (h : Next r r') {prev : ℕ} (hr : r'.replaces prev) :
    r.replaces prev ∨ r = .adding ∧ r' = .overriding prev := by
  cases r <;> cases r' <;> first
    | exact h.elim
    | exact hr.elim
    | exact .inl (h.symm.trans hr)
    | exact .inr ⟨rfl, congrArg _ hr⟩

lemma end_topics {S S' : RecursiveDefaultDict.Rdd CreateMessages.ClientSet} {m : Registry}
    {owner : List Str × Str → Option ℕ} {id : Str} {topics : List Str} (hm : Represents S m)
    (howner : ∀ k, m k = none ↔ owner k = none)
    (hS : Broker.unsubscribeTopics id S topics = .ok S') :
    ∃ m', Represents S' m' ∧ ∀ k, m' k = none ↔
      (if k.2 = id ∧ k.1 ∈ topics.map split then none else owner k) = none := by
  obtain ⟨S'', hS'', hr⟩ := hm.unsubscribeTopics id topics
  rw [hS] at hS''
  cases hS''
  refine ⟨_, hr, fun k => ?_⟩
  split_ifs
  · exact Iff.rfl
  · exact howner k

lemma Sound.entries_step (h : Sound s) (ht : Trans s e s') :
    ∃ m, Represents s'.subscriptions m ∧ ∀ k, m k = none ↔ s'.owner k = none := by
  obtain ⟨m, hm, howner⟩ := h.entries
  cases ht with
  | @register c _ qos _ topic_str _ _ S hk htopic hS =>
    obtain ⟨S', hS', hr⟩ := hm.register ((s.conns c).id.getD []) topic_str qos
    rw [hS] at hS'
    cases hS'
    refine ⟨_, hr, fun k => ?_⟩
    change Function.update m _ _ k = none ↔ Function.update s.owner _ _ k = none
    rw [Function.update_apply, Function.update_apply]
    split_ifs
    · simp
    · exact howner k
  | @cleanUnsubscribe a c topics S ha hS => exact end_topics hm howner hS
  | @unsubscribe c _ topic _ S hk hS => exact end_topics hm howner hS
  | cleanRemove ha =>
    rw [removeClient_eq]
    exact ⟨m, hm, howner⟩
  | _ => exact ⟨m, hm, howner⟩

theorem Sound.step (h : Sound s) (ht : Trans s e s') : Sound s' where
  placed c := (h.placed c).change (change_of_trans ht c)
  clients id c hl := by
    rcases clients_of_trans ht hl with hl | ⟨-, hr, hid, hr'⟩
    · exact h.keeps ht (h.clients id c hl)
    · have hchange := change_of_trans ht c
      refine ⟨?_, (hchange.linking hr hr').1⟩
      rw [(h.placed c).id_eq hchange (by rw [hid]; simp), hid]
  replaces c prev hr := by
    have hchange := change_of_trans ht c
    have hmatch : (s.conns prev).id = (s.conns c).id ∧ (s.conns prev).stored = true := by
      rcases hchange.reader with hmoves | hnext
      · exact h.replaces c prev (replaces_of_moves hmoves hr)
      · rcases replaces_of_next hnext hr with hold | ⟨hx, hy⟩
        · exact h.replaces c prev hold
        · obtain ⟨-, id, hid, hl⟩ := hchange.found prev hx hy
          rw [hid]
          exact h.clients id prev hl
    have hid : (s.conns c).id ≠ none := by
      rw [← hmatch.1]
      exact (h.placed prev).identified hmatch.2
    rw [(h.placed c).id_eq hchange hid]
    exact h.keeps ht hmatch
  override c ho := by
    rcases (change_of_trans ht c).overridden ho with ho | ⟨d, hd, -⟩
    · exact (change_of_trans ht c).stored_of (h.override c ho)
    · exact (change_of_trans ht c).stored_of (h.replaces d c (by rw [hd]; rfl)).2
  topics a c topics ha hne := by
    refine (change_of_trans ht c).stored_of ?_
    cases cleanups_of_trans ht ha with
    | stays ha => exact h.topics a c topics ha hne
    | reads he ha => exact (h.placed c).subscriptions hne
  owner k c hk := by
    rcases owner_of_trans ht hk with hk | ⟨hid, hthreads⟩
    · exact h.keeps ht (h.owner k c hk)
    · have hstored := (h.placed c).threads hthreads
      exact h.keeps ht ⟨by rw [hid]; exact h.getD_id hstored, hstored⟩
  entries := h.entries_step ht

end

/-- What is registered for a topic and a client id. -/
def entry (s : System) (F : List Str) (id : Str) : Option ℕ :=
  (RecursiveDefaultDict.valueAt s.subscriptions F).bind fun cs => cs.lookup id

end MoteBroker.Records

import MoteBroker.Lib.LastWrite
import MoteBroker.Lib.Runs

/-!
A publish/subscribe service in the abstract: what is registered and retained, which batches of
news are on their way, and what every connection has been told about every filter.
-/

namespace PubSub

variable {Filter Topic Id Conn Qos Value : Type*}

/-- Topics with their values. -/
abbrev Batch (Topic Value : Type*) := List (Topic × Value)

/-- What a connection is told about a filter: the entries of a batch that match it, or what is
retained. -/
inductive Told (Topic Qos Value : Type*)
  | news (qos : Qos) (entries : Batch Topic Value)
  | snapshot (qos : Qos) (retained : Topic → Option Value)

structure State (Filter Topic Id Conn Qos Value : Type*) where
  connected : Id → Option Conn
  registered : Filter → Id → Option Qos
  retained : Topic → Option Value
  /-- The batches that their publishers have not put yet. -/
  accepted : List (Batch Topic Value)
  waiting : List (Batch Topic Value)
  dispatched : List (Batch Topic Value)
  told : Id × Conn → Filter → List (Told Topic Qos Value)

def initial : State Filter Topic Id Conn Qos Value :=
  ⟨fun _ => none, fun _ _ => none, fun _ => none, [], [], [], fun _ _ => []⟩

inductive Event (Filter Topic Id Conn Qos Value : Type*)
  | connect (id : Id) (conn : Conn)
  | disconnect (id : Id)
  | register (F : Filter) (id : Id) (qos : Qos)
  | unregister (Fs : List Filter) (id : Id)
  | snapshot (c : Id × Conn) (F : Filter) (qos : Qos)
  | accept (batch : Batch Topic Value) (retain : Bool)
  | put (k : ℕ)
  | dispatch

/-- A connection is told something about a filter. -/
def State.tell [DecidableEq Id] [DecidableEq Conn] [DecidableEq Filter]
    (s : State Filter Topic Id Conn Qos Value) (c : Id × Conn) (F : Filter)
    (t : Told Topic Qos Value) : State Filter Topic Id Conn Qos Value :=
  { s with
    told := Function.update s.told c (Function.update (s.told c) F (s.told c F ++ [t])) }

/-! ### Batches and filters -/

section
variable (Matches : Filter → Topic → Prop) (Legible : Filter → Batch Topic Value → Prop)

open Classical in
/-- The entries of a batch that match a filter. -/
noncomputable def about (F : Filter) (batch : Batch Topic Value) : Batch Topic Value :=
  batch.filter fun entry => Matches F entry.1

/-- A batch can be dispatched when it is legible to everybody that it has news for. -/
def Deliverable (s : State Filter Topic Id Conn Qos Value) (batch : Batch Topic Value) : Prop :=
  ∀ F id, s.registered F id ≠ none → about Matches F batch ≠ [] → Legible F (about Matches F batch)

open Classical in
/-- What a batch has to tell a connection about a filter. -/
noncomputable def State.news (s : State Filter Topic Id Conn Qos Value)
    (batch : Batch Topic Value) (c : Id × Conn) (F : Filter) : List (Told Topic Qos Value) :=
  if s.connected c.1 = some c.2 ∧ about Matches F batch ≠ [] then
    (s.registered F c.1).toList.map fun qos => .news qos (about Matches F batch)
  else []

open Classical in
/-- The batches that have news about the filter. -/
noncomputable def newsworthy (F : Filter) (batches : List (Batch Topic Value)) :
    List (Batch Topic Value) :=
  batches.filter fun batch => about Matches F batch ≠ []

end

/-! ### Steps -/

section
variable (Matches : Filter → Topic → Prop) (Legible : Filter → Batch Topic Value → Prop)
variable [DecidableEq Filter] [DecidableEq Topic] [DecidableEq Id] [DecidableEq Conn]

open Classical in
noncomputable def step (s : State Filter Topic Id Conn Qos Value) :
    Event Filter Topic Id Conn Qos Value → Option (State Filter Topic Id Conn Qos Value)
  | .connect id conn => some { s with connected := Function.update s.connected id (some conn) }
  | .disconnect id => some { s with connected := Function.update s.connected id none }
  | .register F id qos => some { s with
      registered := fun G x => if G = F ∧ x = id then some qos else s.registered G x }
  | .unregister Fs id => some { s with
      registered := fun G x => if x = id ∧ G ∈ Fs then none else s.registered G x }
  | .snapshot c F qos => some (s.tell c F (.snapshot qos s.retained))
  | .accept batch retain => some { s with
      accepted := s.accepted ++ [batch]
      retained := if retain then fun topic => (LastWrite.last batch topic).or (s.retained topic)
        else s.retained }
  | .put k =>
    match s.accepted[k]? with
    | none => none
    | some batch => some { s with
        accepted := s.accepted.eraseIdx k, waiting := s.waiting ++ [batch] }
  | .dispatch =>
    match s.waiting with
    | [] => none
    | batch :: waiting =>
      some { s with
        waiting := waiting
        dispatched := s.dispatched ++ [batch]
        told := if Deliverable Matches Legible s batch then
            fun c F => s.told c F ++ s.news Matches batch c F else s.told }

variable {Matches Legible} {s s' : State Filter Topic Id Conn Qos Value}
  {e : Event Filter Topic Id Conn Qos Value} {es : List (Event Filter Topic Id Conn Qos Value)}

/-! ### What registered connections are told -/

/-- The event is about the connection and the filter. -/
def Touches (c : Id × Conn) (F : Filter) : Event Filter Topic Id Conn Qos Value → Prop
  | .connect id _ => id = c.1
  | .disconnect id => id = c.1
  | .register G id _ => G = F ∧ id = c.1
  | .unregister Gs id => id = c.1 ∧ F ∈ Gs
  | .snapshot d G _ => d = c ∧ G = F
  | _ => False

variable (Matches Legible) in
/-- What becomes in a run of the batches that are dispatched: some of them, all if they are legible
to everybody, are served, and every connection that stays registered for a filter is told about
those of them that have news for it, in their order. -/
structure Serves (es : List (Event Filter Topic Id Conn Qos Value))
    (s s' : State Filter Topic Id Conn Qos Value) (batches served : List (Batch Topic Value)) :
    Prop where
  dispatched : s'.dispatched = s.dispatched ++ batches
  sublist : served.Sublist batches
  all : (∀ batch ∈ batches, ∀ G, Legible G (about Matches G batch)) → served = batches
  stays : ∀ c F qos, (∀ e ∈ es, ¬Touches c F e) → s.connected c.1 = some c.2 →
    s.registered F c.1 = some qos →
      s'.connected c.1 = some c.2 ∧ s'.registered F c.1 = some qos ∧
      s'.told c F = s.told c F ++
        (newsworthy Matches F served).map fun batch => .news qos (about Matches F batch)

omit [DecidableEq Filter] [DecidableEq Topic] [DecidableEq Id] [DecidableEq Conn] in
/-- A step that dispatches nothing. -/
lemma serves_nothing (hd : s'.dispatched = s.dispatched)
    (hkeep : ∀ c F, ¬Touches c F e → s'.connected c.1 = s.connected c.1 ∧
      s'.registered F c.1 = s.registered F c.1 ∧ s'.told c F = s.told c F) :
    Serves Matches Legible [e] s s' [] [] where
  dispatched := by rw [hd, List.append_nil]
  sublist := .slnil
  all _ := rfl
  stays c F qos hfree hc hr := by
    obtain ⟨hconnected, hregistered, htold⟩ := hkeep c F (hfree e List.mem_cons_self)
    exact ⟨hconnected.trans hc, hregistered.trans hr, by simp [htold, newsworthy]⟩

omit [DecidableEq Topic] in
lemma tell_told_of_ne {c d : Id × Conn} {F G : Filter} (h : ¬(d = c ∧ G = F))
    (t : Told Topic Qos Value) : (s.tell d G t).told c F = s.told c F := by
  simp only [State.tell, Function.update_apply]
  by_cases hc : c = d
  · subst hc
    have hF : F ≠ G := fun hF => h ⟨rfl, hF.symm⟩
    simp [hF]
  · simp [hc]

/-- The batch at the head of those that wait is served, if it is deliverable. -/
lemma serves_dispatch (hs : step Matches Legible s .dispatch = some s') :
    ∃ batches served, Serves Matches Legible [.dispatch] s s' batches served := by
  simp only [step] at hs
  split at hs
  case h_1 => cases hs
  case h_2 batch waiting hwaiting =>
    cases hs
    by_cases hd : Deliverable Matches Legible s batch
    · refine ⟨[batch], [batch], rfl, .refl _, fun _ => rfl, fun c F qos _ hc hr => ⟨hc, hr, ?_⟩⟩
      have hnews : s.news Matches batch c F =
          (newsworthy Matches F [batch]).map fun batch => .news qos (about Matches F batch) := by
        unfold State.news newsworthy
        by_cases hm : about Matches F batch = [] <;> simp [hm, hc, hr]
      simp only [if_pos hd, hnews]
    · refine ⟨[batch], [], rfl, List.nil_sublist _, fun hlegible => ?_,
        fun c F qos _ hc hr => ⟨hc, hr, ?_⟩⟩
      · exact absurd (fun G id _ _ => hlegible batch List.mem_cons_self G) hd
      · simp [if_neg hd, newsworthy]

lemma serves_step (hs : step Matches Legible s e = some s') :
    ∃ batches served, Serves Matches Legible [e] s s' batches served := by
  cases e with
  | dispatch => exact serves_dispatch hs
  | connect id conn | disconnect id =>
    cases hs
    exact ⟨[], [], serves_nothing rfl fun c F h =>
      ⟨Function.update_of_ne (Ne.symm h) _ _, rfl, rfl⟩⟩
  | register G id q =>
    cases hs
    exact ⟨[], [], serves_nothing rfl fun c F h =>
      ⟨rfl, if_neg fun hG => h ⟨hG.1.symm, hG.2.symm⟩, rfl⟩⟩
  | unregister Gs id =>
    cases hs
    exact ⟨[], [], serves_nothing rfl fun c F h =>
      ⟨rfl, if_neg fun hG => h ⟨hG.1.symm, hG.2⟩, rfl⟩⟩
  | snapshot d G q =>
    cases hs
    exact ⟨[], [], serves_nothing rfl fun c F h => ⟨rfl, rfl, tell_told_of_ne h _⟩⟩
  | accept batch retain =>
    cases hs
    exact ⟨[], [], serves_nothing rfl fun c F _ => ⟨rfl, rfl, rfl⟩⟩
  | put k =>
    simp only [step] at hs
    split at hs <;> cases hs
    exact ⟨[], [], serves_nothing rfl fun c F _ => ⟨rfl, rfl, rfl⟩⟩

omit [DecidableEq Filter] [DecidableEq Topic] [DecidableEq Id] [DecidableEq Conn] in
lemma Serves.trans {t : State Filter Topic Id Conn Qos Value}
    {batches served batches' served' : List (Batch Topic Value)}
    (h : Serves Matches Legible [e] s t batches served)
    (h' : Serves Matches Legible es t s' batches' served') :
    Serves Matches Legible (e :: es) s s' (batches ++ batches') (served ++ served') where
  dispatched := by rw [h'.dispatched, h.dispatched, List.append_assoc]
  sublist := h.sublist.append h'.sublist
  all hlegible := by
    rw [h.all fun batch hb => hlegible batch (List.mem_append_left _ hb),
      h'.all fun batch hb => hlegible batch (List.mem_append_right _ hb)]
  stays c F qos hfree hc hr := by
    obtain ⟨hct, hrt, htold⟩ := h.stays c F qos
      (fun f hf => hfree f (by rw [List.mem_singleton.mp hf]; exact List.mem_cons_self)) hc hr
    obtain ⟨hc', hr', htold'⟩ :=
      h'.stays c F qos (fun f hf => hfree f (List.mem_cons_of_mem _ hf)) hct hrt
    refine ⟨hc', hr', ?_⟩
    rw [htold', htold, List.append_assoc, ← List.map_append]
    unfold newsworthy
    rw [List.filter_append]

/-- **A batch is served to all or to none**: in every run there are batches, all that are dispatched
if everybody can read them, about which every connection that stays registered is told. -/
theorem serves_of_run (hrun : Runs.run (step Matches Legible) s es = some s') :
    ∃ batches served, Serves Matches Legible es s s' batches served := by
  induction es generalizing s with
  | nil =>
    cases hrun
    exact ⟨[], [], by simp, .slnil, fun _ => rfl, fun c F qos _ hc hr =>
      ⟨hc, hr, by simp [newsworthy]⟩⟩
  | cons e es ih =>
    obtain ⟨t, ht, hrun⟩ := Option.bind_eq_some_iff.mp hrun
    obtain ⟨batches, served, h⟩ := serves_step ht
    obtain ⟨batches', served', h'⟩ := ih hrun
    exact ⟨_, _, h.trans h'⟩

end

end PubSub

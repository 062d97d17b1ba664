import MoteBroker.Subscriptions

/-!
Dispatch is exact: what `process_outgoing_rows` queues for every client, in terms of what is
registered and of the rows that match.
-/

namespace MoteBroker.Dispatch

open NestedDict Wildcard MoteBroker.Topics MoteBroker.RecursiveDefaultDict
open MoteBroker.TreeItems MoteBroker.Messages MoteBroker.CreateMessages MoteBroker.Broker
open MoteBroker.Subscriptions

/-- The rows of a batch that match a filter. -/
def matchingRows (F : List Str) (rows : List Row) : List Row :=
  rows.filter fun row => Matches manyCard F row.topic

/-- What a message for the filter says: the payload of the last matching row, or the object
that maps the nodes captured by the wildcards, one level for each, to the last payload. -/
inductive Says (F : List Str) (rows : List Row) (data : Payload) : Prop where
  | payload (static : manyCard ∉ F)
    (last : (matchingRows F rows).getLast?.map Row.data = some data)
  | object (wildcard : manyCard ∈ F) (b : Bytes) (j : Dict Str JsonText.Scalar)
    (bytes : data = some b) (json : readJson b = some (.node j))
    (uniform : (Item.node j).Uniform (F.count manyCard)) (pruned : j.Pruned)
    (leaves : ∀ c, j.leafAt c =
      (LastWrite.last ((matchingRows F rows).map fun row =>
        (captures manyCard F row.topic, row.data)) c).map payloadScalar)

lemma says_of_reply {F : List Str} {rows : List Row} {data : Payload} (hE : everythingCard ∉ F)
    (h : Reply F (matching rows 0 F) data) : Says F rows data := by
  have hw : writes F (matching rows 0 F) =
      (matchingRows F rows).map fun row => (captures manyCard F row.topic, row.data) := by
    rw [writes, matching_zero]
    exact List.map_congr_left fun row _ => by rw [captured_eq hE]
  cases h with
  | payload static last => exact .payload static (by rwa [matching_zero] at last)
  | object wildcard b j bytes json uniform pruned leaves =>
    exact .object wildcard b j bytes json (cards_eq hE ▸ uniform) pruned (hw ▸ leaves)

/-! ### What is registered, and the tree -/

lemma returned_subset (s : State) (cs : List Call) : returned s cs ⊆ cs := by
  induction cs generalizing s with
  | nil => exact List.Subset.refl _
  | cons c cs ih =>
    intro d hd
    rcases List.mem_append.mp hd with h | h
    · obtain ⟨-, -, rfl⟩ := List.mem_map.mp h
      exact List.mem_cons_self
    · exact List.mem_cons_of_mem _ (ih _ h)

/-- The strings of the filters that a client is subscribed to and that rows match, with the
client's qos. -/
def due (rows : List Row) (S : Rdd ClientSet) (id : Str) : List (Str × ℕ) :=
  ((subscribers S).filter fun x => matching rows 0 x.1 ≠ []).filterMap fun x =>
    (x.2.lookup id).map fun q => (join x.1, q)

/-- A message is about a filter: its topic is the string of the filter, its qos the client's,
and it says what the matching rows say. -/
structure About (rows : List Row) (e : Str × ℕ) (m : OutgoingMessage) : Prop where
  topic : m.topic = e.1
  qos : m.qos = e.2
  data : ∃ data, m.data = .payload data ∧ Says (split e.1) rows data

variable {rows : List Row} {S : Rdd ClientSet} {m : Registry}

/-- Every filter in a tree is the split of a string that was subscribed, none with `#`. -/
def Spelled (S : Rdd ClientSet) : Prop :=
  ∀ F cs, valueAt S F = some cs → ∃ t, F = split t ∧ everythingCard ∉ split t

lemma spelled_of_calls {cs : List Call} (hr : Represents S (registered cs))
    (hE : ∀ client t q tree, Call.subscribe client t q tree ∈ cs → everythingCard ∉ split t) :
    Spelled S := by
  intro F c hc
  obtain ⟨id, q, hq⟩ := exists_lookup (hr.nonempty F c hc)
  have hreg := hr.lookup F id
  rw [hc, Option.bind_some, hq] at hreg
  obtain ⟨client, t, tree, hm, rfl⟩ := subscribed_of_registered hreg.symm
  exact ⟨t, rfl, hE client t q tree hm⟩

lemma due_nodup (hr : Represents S m) (hsp : Spelled S) (id : Str) :
    ((due rows S id).map Prod.fst).Nodup := by
  have hsub : List.Sublist ((due rows S id).map Prod.fst)
      ((subscribers S).map fun x => join x.1) := by
    have hfilter : ∀ l : List (List Str × ClientSet), List.Sublist
        ((l.filterMap fun x => (x.2.lookup id).map fun q => (join x.1, q)).map Prod.fst)
        (l.map fun x => join x.1) := by
      intro l
      induction l with
      | nil => exact .slnil
      | cons x l ih =>
        rw [List.filterMap_cons]
        cases x.2.lookup id with
        | none => exact ih.cons _
        | some q => exact ih.cons_cons _
    exact (hfilter _).trans (List.filter_sublist.map _)
  refine hsub.nodup ?_
  have hmap : (subscribers S).map (fun x => join x.1) =
      ((subscribers S).map Prod.fst).map join := by simp
  rw [hmap]
  refine List.Nodup.map_on (fun F hF G hG h => ?_) (subscribers_nodup hr.shape hr.distinct)
  have hspell : ∀ F ∈ (subscribers S).map Prod.fst, ∃ t, F = split t := fun F hF => by
    obtain ⟨⟨F, c⟩, hm, rfl⟩ := List.mem_map.mp hF
    obtain ⟨t, ht, -⟩ := hsp F c ((mem_subscribers hr.shape hr.distinct F c).mp hm)
    exact ⟨t, ht⟩
  obtain ⟨t, rfl⟩ := hspell F hF
  obtain ⟨u, rfl⟩ := hspell G hG
  rw [join_split, join_split] at h
  rw [h]

lemma mem_due (hr : Represents S m) (hsp : Spelled S) (id t : Str) (q : ℕ) :
    (t, q) ∈ due rows S id ↔
      m (split t, id) = some q ∧ ∃ row ∈ rows, Matches manyCard (split t) row.topic := by
  have hmatch : ∀ F, matching rows 0 F ≠ [] ↔ ∃ row ∈ rows, Matches manyCard F row.topic := by
    intro F
    rw [matching_zero, Ne, List.filter_eq_nil_iff]
    simp
  rw [due, List.mem_filterMap]
  refine ⟨?_, ?_⟩
  · rintro ⟨⟨F, c⟩, hx, he⟩
    obtain ⟨hsub, hne⟩ := List.mem_filter.mp hx
    have hval := (mem_subscribers hr.shape hr.distinct F c).mp hsub
    obtain ⟨q', hq, he⟩ := Option.map_eq_some_iff.mp he
    obtain ⟨u, rfl, -⟩ := hsp F c hval
    rw [join_split] at he
    cases he
    have := hr.lookup (split t) id
    rw [hval, Option.bind_some, hq] at this
    exact ⟨this.symm, (hmatch _).mp (by simpa using hne)⟩
  · rintro ⟨hm, hrow⟩
    rw [← hr.lookup] at hm
    obtain ⟨c, hc, hq⟩ := Option.bind_eq_some_iff.mp hm
    refine ⟨(split t, c), List.mem_filter.mpr
      ⟨(mem_subscribers hr.shape hr.distinct _ c).mpr hc, ?_⟩, by simp [hq]⟩
    simpa using (hmatch _).mpr hrow

/-- The messages for a client are about the filters that are due, one about each. -/
lemma mail_about (hr : Represents S m) (hsp : Spelled S) {ms : List Message}
    (h : List.Forall₂ (Answers rows)
      ((subscribers S).filter fun x => matching rows 0 x.1 ≠ []) ms) (id : Str) :
    List.Forall₂ (About rows) (due rows S id) (ms.filterMap (mailOf id)) := by
  have hmem : ∀ x ∈ (subscribers S).filter (fun x => matching rows 0 x.1 ≠ []),
      ∃ t, x.1 = split t ∧ everythingCard ∉ split t := fun x hx =>
    hsp x.1 x.2 ((mem_subscribers hr.shape hr.distinct x.1 x.2).mp (List.mem_of_mem_filter hx))
  refine List.rel_filterMap (fun x msg hx => ?_) ((List.forall₂_and_left _ _).mpr ⟨hmem, h⟩)
  obtain ⟨⟨t, ht, hE⟩, hans⟩ := hx
  simp only [mailOf, hans.branch]
  cases x.2.lookup id with
  | none => exact .none
  | some q =>
    refine .some ⟨?_, rfl, msg.data, rfl, ?_⟩
    · rw [hans.base, ht, topicStr_split, join_split]
    · have := hans.data
      rw [ht] at this ⊢
      rw [join_split]
      exact says_of_reply hE this

/-- **Dispatch is exact.** After any calls without `#`, for any clients that are connected and
any batch of rows of single-level nodes with text as payloads, each connected client is queued
exactly one message for each of its filters that a row matches, under the string that it
subscribed and with its qos, saying what the matching rows say; and nothing else changes. -/
theorem dispatch_exact {s₀ s : State} (h0 : s₀.subscriptions = .nil) (cs : List Call)
    (hE : ∀ client t q tree, Call.subscribe client t q tree ∈ cs → everythingCard ∉ split t)
    (hs : s.subscriptions = (performAll s₀ cs).subscriptions) {rows : List Row}
    (hrows : ∀ row ∈ rows, row.topic ≠ [] ∧ (∀ n ∈ row.topic, SingleLevel n) ∧
      Decodes row.data) :
    ∃ queues, s.processOutgoingRows rows = ({ s with queues := queues }, none) ∧
      ∀ client : Client, ∃ (filters : List (Str × ℕ)) (mail : List OutgoingMessage),
        queues client = s.queues client ++ mail ∧ List.Forall₂ (About rows) filters mail ∧
        (filters.map Prod.fst).Nodup ∧
        ∀ t q, (t, q) ∈ filters ↔ s.clients.lookup client.id = some client.conn ∧
          registered (returned s₀ cs) (split t, client.id) = some q ∧
          ∃ row ∈ rows, Matches manyCard (split t) row.topic := by
  have hnil : Represents s₀.subscriptions fun _ => none := h0 ▸ represents_nil
  have hr : Represents s.subscriptions (registered (returned s₀ cs)) :=
    hs ▸ (hnil.performAll cs).1
  have hsp : Spelled s.subscriptions := spelled_of_calls hr fun client t q tree hm =>
    hE client t q tree (returned_subset s₀ cs hm)
  obtain ⟨ms, hms, hall⟩ := createMessages_exact hr.shape
    (fun row hrow hk => ((hrows row hrow).2.1 _ hk).ne_leafKey rfl)
    (fun row hrow => (hrows row hrow).2.2)
  obtain ⟨queues, hq, hmail⟩ := sendAll_spec s fun msg hm => branch_of_mem hall hm
  refine ⟨queues, by rw [State.processOutgoingRows, hms]; exact hq, fun client => ?_⟩
  by_cases hc : s.clients.lookup client.id = some client.conn
  · refine ⟨due rows s.subscriptions client.id, ms.filterMap (mailOf client.id), ?_,
      mail_about hr hsp hall client.id, due_nodup hr hsp client.id, fun t q => ?_⟩
    · rw [hmail, mailFor_eq, if_pos hc]
    · rw [mem_due hr hsp]
      simp [hc]
  · exact ⟨[], [], by rw [hmail, mailFor_eq, if_neg hc], .nil, List.nodup_nil, by simp [hc]⟩

/-- A client that watches every light, and a batch about one. -/
def lightCalls : List Call := [.subscribe ⟨"app".toList, 1⟩ "light/+".toList 1 false]

def lightState : State :=
  { performAll initial lightCalls with clients := (∅ : AList _).insert "app".toList 1 }

def lightRows : List Row := [⟨["light".toList, "bedroom".toList], some [49], 0⟩]

theorem dispatch_exact_light :
    ∃ queues, lightState.processOutgoingRows lightRows =
        ({ lightState with queues := queues }, none) ∧
      queues ⟨"app".toList, 1⟩ ≠ [] := by
  have hcalls : ∀ client t q tree, Call.subscribe client t q tree ∈ lightCalls →
      everythingCard ∉ split t := by
    intro client t q tree hm
    cases List.mem_singleton.mp hm
    decide
  obtain ⟨queues, hq, h⟩ := @dispatch_exact initial lightState rfl lightCalls hcalls rfl lightRows
    (by
      intro row hr
      cases List.mem_singleton.mp hr
      refine ⟨by decide, by decide, fun b hb => ?_⟩
      cases hb; decide)
  refine ⟨queues, hq, fun hnil => ?_⟩
  obtain ⟨filters, mail, hmail, hall, -, hmem⟩ := h ⟨"app".toList, 1⟩
  have hnone : mail = [] := (List.append_eq_nil_iff.mp (hmail.symm.trans hnil)).2
  rw [hnone, List.forall₂_nil_right_iff] at hall
  have hin := (hmem "light/+".toList 1).mpr ⟨rfl, rfl, _, List.mem_cons_self, by decide⟩
  rw [hall] at hin
  cases hin

end MoteBroker.Dispatch

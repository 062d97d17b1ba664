import MoteBroker.Broker

/-!
Which filters the walk of a batch answers: one filter alone, and all that may be subscribed to.
-/

namespace MoteBroker.Walk

open NestedDict Wildcard MoteBroker.Topics MoteBroker.RecursiveDefaultDict
open MoteBroker.TreeItems MoteBroker.Messages MoteBroker.CreateMessages MoteBroker.Broker

/-! ### Subscription trees and batches -/

/-- A subscription tree: it has the shape of one, and its filters are those of strings. -/
structure Valid (S : Rdd ClientSet) : Prop where
  shape : Shape S
  distinct : S.Distinct
  spelled : ∀ F cs, valueAt S F = some cs → ∃ t, F = split t

/-- The last payload in the batch for a topic. -/
def lastPayload (rows : List Row) (topic : List Str) : Option Payload :=
  LastWrite.last (rows.map fun row => (row.topic, row.data)) topic

/-- The last payload for each topic is text. -/
def Legible (rows : List Row) : Prop :=
  ∀ topic data, topic ≠ [] → lastPayload rows topic = some data → Decodes data

/-- The batch has a message for the filter: there are rows that match it, and if it has a wildcard,
no node `/` but a last one stands at its wildcards, and the last payload for each topic that matches
it is text. -/
structure Answered (rows : List Row) (F : List Str) : Prop where
  matching : ∃ row ∈ rows, Matches manyCard F row.topic
  nodes : manyCard ∈ F → ∀ row ∈ rows, Matches manyCard F row.topic →
    leafKey ∉ (captured F row.topic).dropLast
  text : manyCard ∈ F → ∀ topic data, Matches manyCard F topic →
    lastPayload rows topic = some data → Decodes data

/-- The most specific filter that the nodes match. -/
def spell (nodes : List Str) : List Str := nodes.map fun n => if SingleLevel n then n else manyCard

/-- A node `/` is at the end of a row's topic, and comes with a row for the nodes before it. -/
def Closed (rows : List Row) (topic : List Str) : Prop :=
  leafKey ∉ topic.dropLast ∧
    (topic.dropLast = [] ∨ ∃ row ∈ rows, Matches manyCard (spell topic.dropLast) row.topic)

/-- A tree with one more filter. -/
lemma exists_tree {S : Rdd ClientSet} (hS : Valid S) (topic_str : Str) (cs : ClientSet) :
    ∃ S', Valid S' ∧ ∀ F, valueAt S' F = if F = split topic_str then some cs else valueAt S F := by
  obtain ⟨S', -, hshape, -, hdistinct, -, hvalue⟩ :=
    lshift_spec ∅ (fun _ => cs) hS.shape (path_split topic_str)
  refine ⟨S', ⟨hshape, hdistinct hS.distinct, fun F cs' hF => ?_⟩, hvalue⟩
  rw [hvalue] at hF
  split_ifs at hF with h
  · exact ⟨topic_str, h⟩
  · exact hS.spelled F cs' hF

lemma valid_nil : Valid (.nil : Rdd ClientSet) :=
  ⟨shape_nil, trivial, fun F cs h => by rw [valueAt_nil] at h; cases h⟩

/-! ### What a filter captures -/

lemma captured_injective {F t u : List Str} (ht : Matches manyCard F t) (hu : Matches manyCard F u)
    (h : captured F t = captured F u) : t = u := by
  induction F generalizing t u with
  | nil => cases t <;> cases u <;> first | rfl | exact ht.elim | exact hu.elim
  | cons f F ih =>
    cases t with
    | nil => exact ht.elim
    | cons n t => cases u with
      | nil => exact hu.elim
      | cons m u =>
        unfold captured at h
        by_cases hf : isNodeStatic f = true
        · rw [if_pos hf, if_pos hf] at h
          have hcard : f ≠ manyCard := by
            rintro rfl
            exact absurd hf (by decide)
          rw [← ht.1.resolve_left hcard, ← hu.1.resolve_left hcard, ih ht.2 hu.2 h]
        · rw [if_neg hf, if_neg hf] at h
          obtain ⟨hhead, htail⟩ := List.cons.inj h
          rw [hhead, ih ht.2 hu.2 htail]

/-- What a filter's object holds at the nodes captured from a topic. -/
lemma last_writes_captured {rows : List Row} {F topic : List Str}
    (h : Matches manyCard F topic) :
    LastWrite.last (writes F (matching rows 0 F)) (captured F topic) = lastPayload rows topic := by
  rw [writes, matching_zero]
  refine (LastWrite.last_map_filter rows fun row _ => ⟨?_, ?_⟩).symm
  · rintro rfl
    exact ⟨h, rfl⟩
  · rintro ⟨hrow, hcaptured⟩
    exact captured_injective hrow h hcaptured

/-! ### When the object of a filter is built -/

/-- Under the leaf key there is a leaf. -/
def SlashLeaf (k : Str) (v : Item Str Payload) : Prop := k = leafKey → ∃ a, v = .leaf a

lemma getItem_slashLeaf {t t' : Rdd Payload} (ht : t.All SlashLeaf) {k : Str}
    {v : Item Str Payload} (h : getItem none t k = (v, t')) :
    t'.All SlashLeaf ∧ ∀ b, v = .node b → b.All SlashLeaf ∧ k ≠ leafKey := by
  unfold getItem at h
  cases hk : t.get k with
  | some w =>
    rw [hk] at h
    cases h
    refine ⟨ht, ?_⟩
    rintro b rfl
    have hw := Dict.All.get ht hk
    refine ⟨hw.2, fun he => ?_⟩
    obtain ⟨a, ha⟩ := hw.1 he
    cases ha
  | none =>
    rw [hk] at h
    cases h
    by_cases hleaf : k = leafKey
    · rw [missing, if_pos hleaf]
      refine ⟨Dict.All.set ht (fun _ => ⟨none, rfl⟩) trivial, fun b hb => ?_⟩
      cases hb
    · rw [missing, if_neg hleaf]
      refine ⟨Dict.All.set ht (fun he => absurd he hleaf) trivial, ?_⟩
      rintro b hb
      cases hb
      exact ⟨trivial, hleaf⟩

/-- The walk of `ref` does not come through the leaf key. -/
lemma assignPath_ok {data : Payload} {t t' : Rdd Payload} {p : List Str} (ht : t.All SlashLeaf)
    (h : assignPath data t p = .ok t') : t'.All SlashLeaf ∧ leafKey ∉ p.dropLast := by
  induction p generalizing t t' with
  | nil =>
    cases h
    exact ⟨ht, List.not_mem_nil⟩
  | cons k p ih =>
    cases p with
    | nil =>
      cases h
      exact ⟨Dict.All.set ht (fun _ => ⟨data, rfl⟩) trivial, List.not_mem_nil⟩
    | cons x p =>
      unfold assignPath at h
      cases hget : getItem none t k with
      | mk v t₁ =>
        obtain ⟨ht₁, hnode⟩ := getItem_slashLeaf ht hget
        rw [hget] at h
        cases v with
        | leaf a => cases h
        | node b =>
          obtain ⟨hb, hk⟩ := hnode b rfl
          obtain ⟨ref, href, h⟩ := ok_of_bind h
          cases h
          obtain ⟨hall, hdrop⟩ := ih hb href
          refine ⟨Dict.All.set ht₁ (fun he => absurd he hk) hall, ?_⟩
          rw [List.dropLast_cons_cons, List.mem_cons, not_or]
          exact ⟨Ne.symm hk, hdrop⟩

lemma buildTree_ok {base : List Str} {t t' : Rdd Payload} {rows : List Row}
    (ht : t.All SlashLeaf) (h : buildTree base t rows = .ok t') :
    ∀ row ∈ rows, leafKey ∉ (captured base row.topic).dropLast := by
  induction rows generalizing t with
  | nil => exact fun row hrow => (nomatch hrow)
  | cons row rows ih =>
    obtain ⟨t₁, hassign, h⟩ := ok_of_bind h
    obtain ⟨ht₁, hdrop⟩ := assignPath_ok ht hassign
    intro r hr
    rcases List.mem_cons.mp hr with rfl | hr
    · exact hdrop
    · exact ih ht₁ h r hr

lemma mem_matching {rows : List Row} {F : List Str} {row : Row} :
    row ∈ matching rows 0 F ↔ row ∈ rows ∧ Matches manyCard F row.topic := by
  rw [matching_zero, List.mem_filter, decide_eq_true_iff]

lemma matching_ne_nil {rows : List Row} {F : List Str} :
    matching rows 0 F ≠ [] ↔ ∃ row ∈ rows, Matches manyCard F row.topic := by
  rw [matching_zero]
  simp

/-- Whether the message for a filter can be built depends on its own rows alone. -/
lemma buildMessageData_ok_iff {rows : List Row} {F : List Str} (hne : matching rows 0 F ≠ []) :
    (∃ data, buildMessageData (matching rows 0 F) F (decide (manyCard ∈ F)) = .ok data) ↔
      Answered rows F := by
  by_cases hcard : manyCard ∈ F
  · have hu : (Item.node (.nil : Rdd Payload)).Uniform (cards F) := by
      obtain ⟨n, hn⟩ := Nat.exists_eq_succ_of_ne_zero (Nat.pos_iff_ne_zero.mp (cards_pos hcard))
      rw [hn]
      exact Item.uniform_nil n
    have hlen : ∀ row ∈ matching rows 0 F, row.topic.length = F.length := fun row hr =>
      length_of_mem_matching hr
    have hbuild : (∃ data, buildMessageData (matching rows 0 F) F (decide (manyCard ∈ F)) =
        .ok data) ↔ ∃ t b, buildTree F .nil (matching rows 0 F) = .ok t ∧ stringify t = .ok b := by
      simp only [buildMessageData, hcard, decide_true, if_true]
      cases buildTree F .nil (matching rows 0 F) with
      | error e => simp
      | ok t =>
        rw [ok_bind]
        cases hs : stringify t <;> simp [hs]
    rw [hbuild]
    refine ⟨?_, fun h => ?_⟩
    · rintro ⟨t, b, ht, hb⟩
      have hnil : (.nil : Rdd Payload).All SlashLeaf := trivial
      have hnodes := buildTree_ok hnil ht
      obtain ⟨t', ht', -, hd, -, hl⟩ := buildTree_spec (cards_pos hcard) hlen hnodes hu trivial
        trivial
      obtain rfl := Except.ok.inj (ht.symm.trans ht')
      refine ⟨matching_ne_nil.mp hne, fun _ row hr hm => hnodes row (mem_matching.mpr ⟨hr, hm⟩),
        fun _ topic data hmatch hlast => ?_⟩
      refine (stringify_ok_iff hd).mp ⟨b, hb⟩ (captured F topic) data ?_
      rw [hl, last_writes_captured hmatch, hlast]
      rfl
    · obtain ⟨t, ht, -, hd, -, hl⟩ := buildTree_spec (cards_pos hcard) hlen
        (fun row hr => h.nodes hcard row (mem_matching.mp hr).1 (mem_matching.mp hr).2) hu trivial
        trivial
      have hleaf : ∀ p, t.leafAt p = LastWrite.last (writes F (matching rows 0 F)) p := fun p => by
        rw [hl]
        simp
      obtain ⟨b, hb⟩ := (stringify_ok_iff hd).mpr fun p a hp => by
        rw [hleaf] at hp
        obtain ⟨row, hrow, hw⟩ := List.mem_map.mp (LastWrite.mem_of_last hp)
        obtain ⟨rfl, -⟩ := Prod.mk.inj hw
        have hmatch := (mem_matching.mp hrow).2
        exact h.text hcard row.topic a hmatch (by rw [← last_writes_captured hmatch, hp])
      exact ⟨t, b, ht, hb⟩
  · refine ⟨fun _ => ⟨matching_ne_nil.mp hne, fun hc => absurd hc hcard, fun hc => absurd hc hcard⟩,
      fun _ => ?_⟩
    obtain ⟨row, hrow⟩ : ∃ row, (matching rows 0 F).getLast? = some row :=
      Option.isSome_iff_exists.mp (by simpa using hne)
    exact ⟨row.data, by simp [buildMessageData, hcard, hrow]⟩

/-! ### One filter -/

section
variable {rows : List Row}

/-- A filter is answered alone: no message, one message, or none because it cannot be built. -/
lemma answer_cases (rows : List Row) (F : List Str) (cs : ClientSet) :
    (matching rows 0 F = [] ∧ answer rows [] 0 false F cs = .ok []) ∨
      (Answered rows F ∧ ∃ data, answer rows [] 0 false F cs = .ok [⟨.clients cs, F, data⟩]) ∨
      (matching rows 0 F ≠ [] ∧ ¬Answered rows F ∧
        ∃ e, answer rows [] 0 false F cs = .error e) := by
  by_cases hm : matching rows 0 F = []
  · exact .inl ⟨hm, by rw [answer, if_pos hm]⟩
  · have hbuild := buildMessageData_ok_iff hm
    simp only [answer, if_neg hm, List.nil_append, Bool.false_or]
    right
    cases hb : buildMessageData (matching rows 0 F) F (decide (manyCard ∈ F)) with
    | ok data => exact .inl ⟨hbuild.mp ⟨data, hb⟩, data, rfl⟩
    | error e =>
      refine .inr ⟨hm, fun ha => ?_, e, rfl⟩
      obtain ⟨data, hok⟩ := hbuild.mpr ha
      rw [hb] at hok
      cases hok

/-- The messages of the batch for one filter, if they can be built. -/
def messagesFor (rows : List Row) (x : List Str × ClientSet) : List Message :=
  match answer rows [] 0 false x.1 x.2 with
  | .ok ms => ms
  | .error _ => []

lemma messagesFor_base {x : List Str × ClientSet} {m : Message} (hm : m ∈ messagesFor rows x) :
    m.branch = .clients x.2 ∧ m.base = x.1 := by
  unfold messagesFor at hm
  rcases answer_cases rows x.1 x.2 with ⟨-, h⟩ | ⟨-, data, h⟩ | ⟨-, -, e, h⟩ <;> rw [h] at hm
  · cases hm
  · cases List.mem_singleton.mp hm
    exact ⟨rfl, rfl⟩
  · cases hm

/-- The walk ends with the messages of all filters, or with none of them. -/
lemma answers_eq (l : List (List Str × ClientSet)) :
    ((∀ x ∈ l, ∃ ms, answer rows [] 0 false x.1 x.2 = .ok ms) ∧
        answers rows [] 0 false l = .ok (l.flatMap (messagesFor rows))) ∨
      ((∃ x ∈ l, ∃ e, answer rows [] 0 false x.1 x.2 = .error e) ∧
        ∃ e, answers rows [] 0 false l = .error e) := by
  have hmessages : messagesFor rows =
      fun x => (answer rows [] 0 false x.1 x.2).toOption.getD [] := funext fun x => by
    unfold messagesFor
    cases answer rows [] 0 false x.1 x.2 <;> rfl
  rw [answers_eq_concatAll, hmessages]
  exact concatAll_cases l

/-- A client's messages under the string of one filter are those of that filter. -/
lemma mail_flatMap (rows : List Row) {l : List (List Str × ClientSet)}
    (hnd : (l.map Prod.fst).Nodup) (hspelled : ∀ x ∈ l, ∃ t, x.1 = split t) {topic_str : Str}
    {cs : ClientSet} (hmem : (split topic_str, cs) ∈ l) (id : Str) :
    ((l.flatMap (messagesFor rows)).filterMap (mailOf id)).filter (fun m => m.topic = topic_str) =
      (messagesFor rows (split topic_str, cs)).filterMap (mailOf id) := by
  -- the topic of a filter's mail is the string of the filter
  have htopic : ∀ x ∈ l, ∀ m ∈ (messagesFor rows x).filterMap (mailOf id), split m.topic = x.1 := by
    intro x hx m hm
    obtain ⟨msg, hmsg, hmail⟩ := List.mem_filterMap.mp hm
    obtain ⟨hbranch, hbase⟩ := messagesFor_base hmsg
    obtain ⟨t, ht⟩ := hspelled x hx
    simp only [mailOf, hbranch, hbase, ht, topicStr_split] at hmail
    obtain ⟨q, -, rfl⟩ := Option.map_eq_some_iff.mp hmail
    exact ht.symm
  have hother : ∀ l' ⊆ l, split topic_str ∉ l'.map Prod.fst →
      ((l'.flatMap (messagesFor rows)).filterMap (mailOf id)).filter
        (fun m => m.topic = topic_str) = [] := by
    intro l' hsub hno
    refine List.filter_eq_nil_iff.mpr fun m hm heq => ?_
    obtain ⟨msg, hmsg, hmail⟩ := List.mem_filterMap.mp hm
    obtain ⟨x, hx, hmsg⟩ := List.mem_flatMap.mp hmsg
    have := htopic x (hsub hx) m (List.mem_filterMap.mpr ⟨msg, hmsg, hmail⟩)
    rw [of_decide_eq_true heq] at this
    exact hno (List.mem_map.mpr ⟨x, hx, this.symm⟩)
  obtain ⟨l₁, l₂, rfl⟩ := List.append_of_mem hmem
  rw [List.map_append, List.map_cons, List.nodup_append] at hnd
  have h₁ : split topic_str ∉ l₁.map Prod.fst := fun h =>
    hnd.2.2 _ h _ List.mem_cons_self rfl
  have h₂ : split topic_str ∉ l₂.map Prod.fst := (List.nodup_cons.mp hnd.2.1).1
  rw [List.flatMap_append, List.flatMap_cons, List.filterMap_append, List.filterMap_append,
    List.filter_append, List.filter_append, hother l₁ (by simp) h₁,
    hother l₂ (fun x hx => by simp [hx]) h₂, List.nil_append, List.append_nil]
  refine List.filter_eq_self.mpr fun m hm => decide_eq_true ?_
  exact split_injective (htopic _ (by simp) m hm)

end

/-! ### The walk towards one filter -/

/-- At a filter that no row matches, the walk has nothing for clients. -/
lemma walkAt_unmatched {F : List Str} {cs : ClientSet} {rows : List Row} {base : List Str}
    {depth : ℕ} {wildcards : Bool} {ms : List Message} (hm : matching rows depth F = [])
    (h : walkAt cs F rows base depth wildcards = .ok ms) : ∀ m ∈ ms, ∃ n, m.branch = .qos n := by
  induction F generalizing rows base depth wildcards ms with
  | nil =>
    rw [matching_nil] at hm
    rw [walkAt, if_neg (not_not.mpr hm)] at h
    split_ifs at h
    · cases h
      exact fun m hin => absurd hin List.not_mem_nil
    · exact descendClients_qos h
  | cons f F ih =>
    rw [walkAt] at h
    rw [matching_cons] at hm
    split_ifs at h
    · cases h
      exact fun m hin => absurd hin List.not_mem_nil
    · exact ih hm h

/-- At a filter that rows match, the walk answers the filter. -/
lemma walkAt_matched {F : List Str} {rows : List Row} (cs : ClientSet)
    (hm : matching rows 0 F ≠ []) :
    walkAt cs F rows [] 0 false = answer rows [] 0 false F cs :=
  walkAt_eq cs fun hnil => absurd hnil hm

/-- The walk has one message for the clients of a filter that is answered, and none for those of
another. -/
lemma walkAt_cases (rows : List Row) (F : List Str) (cs : ClientSet) :
    (Answered rows F ∧ ∃ data, walkAt cs F rows [] 0 false = .ok [⟨.clients cs, F, data⟩]) ∨
      (¬Answered rows F ∧ ∀ ms, walkAt cs F rows [] 0 false = .ok ms →
        ∀ m ∈ ms, ∃ n, m.branch = .qos n) := by
  by_cases hm : matching rows 0 F = []
  · refine .inr ⟨fun ha => matching_ne_nil.mpr ha.matching hm, fun ms h => walkAt_unmatched hm h⟩
  · rw [walkAt_matched cs hm]
    rcases answer_cases rows F cs with ⟨hnil, -⟩ | ⟨ha, hdata⟩ | ⟨-, hno, e, herr⟩
    · exact absurd hnil hm
    · exact .inl ⟨ha, hdata⟩
    · refine .inr ⟨hno, fun ms h => ?_⟩
      rw [herr] at h
      cases h

/-! ### The nodes of a topic as a filter -/

lemma matches_spell (nodes : List Str) : Matches manyCard (spell nodes) nodes := by
  induction nodes with
  | nil => trivial
  | cons n nodes ih =>
    refine ⟨?_, ih⟩
    by_cases hn : SingleLevel n
    · exact .inr (if_pos hn)
    · exact .inl (if_neg hn)

/-- A filter of single-level nodes that matches the nodes matches whatever their own filter
matches. -/
lemma matches_of_spell {G p t : List Str} (hG : ∀ g ∈ G, SingleLevel g)
    (hp : Matches manyCard G p) (ht : Matches manyCard (spell p) t) : Matches manyCard G t := by
  induction G generalizing p t with
  | nil =>
    cases p with
    | nil => exact ht
    | cons n p => exact hp.elim
  | cons g G ih =>
    cases p with
    | nil => exact hp.elim
    | cons n p => cases t with
      | nil => exact ht.elim
      | cons m t =>
        refine ⟨?_, ih (fun x hx => hG x (List.mem_cons_of_mem _ hx)) hp.2 ht.2⟩
        rcases hp.1 with hcard | rfl
        · exact .inl hcard
        · have hg : (if SingleLevel g then g else manyCard) = g := if_pos (hG g List.mem_cons_self)
          have hhead : (if SingleLevel g then g else manyCard) = manyCard ∨
            (if SingleLevel g then g else manyCard) = m := ht.1
          rwa [hg] at hhead

lemma exists_split_spell {nodes : List Str} (h : nodes ≠ []) : ∃ t, spell nodes = split t := by
  refine ⟨join (spell nodes), (split_join (fun n hn => ?_) (by simpa [spell] using h)).symm⟩
  obtain ⟨m, -, rfl⟩ := List.mem_map.mp hn
  split_ifs with hm
  · exact hm
  · decide

/-- The filter with as many wildcards as the topic has nodes. -/
def everyTopic (topic : List Str) : List Str := List.replicate topic.length manyCard

lemma matches_everyTopic (topic : List Str) : Matches manyCard (everyTopic topic) topic := by
  induction topic with
  | nil => trivial
  | cons n topic ih => exact ⟨.inl rfl, ih⟩

lemma manyCard_mem_everyTopic {topic : List Str} (h : topic ≠ []) :
    manyCard ∈ everyTopic topic := by
  cases topic with
  | nil => exact absurd rfl h
  | cons n topic => exact List.mem_cons_self

lemma split_join_everyTopic {topic : List Str} (h : topic ≠ []) :
    split (join (everyTopic topic)) = everyTopic topic := by
  refine split_join (fun n hn => ?_) ?_
  · rw [List.eq_of_mem_replicate hn]
    decide
  · exact List.ne_nil_of_mem (manyCard_mem_everyTopic h)

lemma captured_everyTopic (topic : List Str) : captured (everyTopic topic) topic = topic := by
  induction topic with
  | nil => rfl
  | cons n topic ih =>
    have hcons : captured (everyTopic (n :: topic)) (n :: topic) =
        n :: captured (everyTopic topic) topic := rfl
    rw [hcons, ih]

/-! ### Batches that can be answered -/

/-- The walk can answer every filter. -/
def Answerable (rows : List Row) : Prop :=
  ∀ topic_str cs, ∃ ms, walkAt cs (split topic_str) rows [] 0 false = .ok ms

/-- One client, with the id `+`. -/
def clash : ClientSet := (∅ : ClientSet).insert manyCard 0

/-- Where a row goes on with the leaf key beyond a filter that no row matches, the walk goes astray
into the filter's clients. -/
lemma walkAt_clash {F : List Str} {rows : List Row} {base : List Str} {depth : ℕ} {wildcards : Bool}
    (hm : matching rows depth F = []) {row : Row} (hrow : row ∈ rows) (h : Beyond depth F row) :
    walkAt clash F rows base depth wildcards = .error .attributeError := by
  induction F generalizing rows base depth wildcards with
  | nil =>
    obtain ⟨p, q, hdrop, hmatch⟩ := h
    cases p with
    | cons n p => exact hmatch.elim
    | nil =>
      rw [matching_nil] at hm
      have hnew : newRows rows depth leafKey ≠ [] := by
        have hcard : leafKey ≠ manyCard := by decide
        have hget : row.topic[depth]? = some leafKey := by
          rw [← List.head?_drop, hdrop]
          rfl
        rw [newRows, if_neg hcard]
        exact List.ne_nil_of_mem (List.mem_filter.mpr ⟨hrow, decide_eq_true hget⟩)
      have hentries : clash.entries.map (fun e => (e.1, e.2)) = [(manyCard, 0)] := rfl
      have hcard : manyCard ≠ leafKey := by decide
      rw [walkAt, if_neg (not_not.mpr hm), if_neg hnew, hentries, descendClients]
      have hmany : ∀ rows depth, newRows rows depth manyCard = rows := fun _ _ => if_pos rfl
      simp only [hcard, and_false, if_false, hmany, if_neg hnew]
      rfl
  | cons f F ih =>
    obtain ⟨p, q, hdrop, hmatch⟩ := h
    cases p with
    | nil => exact hmatch.elim
    | cons n p =>
      have hlt : depth < row.topic.length := by
        by_contra hle
        rw [List.drop_eq_nil_of_le (by omega)] at hdrop
        cases hdrop
      rw [List.drop_eq_getElem_cons hlt, List.cons_append] at hdrop
      obtain ⟨hhead, htail⟩ := List.cons.inj hdrop
      have hnew : row ∈ newRows rows depth f := by
        unfold newRows rowsAt
        split_ifs with hf
        · exact hrow
        · refine List.mem_filter.mpr ⟨hrow, decide_eq_true ?_⟩
          rw [List.getElem?_eq_getElem hlt, hhead, hmatch.1.resolve_left hf]
      rw [walkAt, if_neg (List.ne_nil_of_mem hnew)]
      exact ih (by rwa [← matching_cons]) hnew ⟨p, q, htail, hmatch.2⟩

lemma createMessages_ok {S : Rdd ClientSet} (hS : Valid S) {rows : List Row} {ms : List Message}
    (h : createMessagesForSubscriptions S rows = .ok ms) :
    (∀ F cs, valueAt S F = some cs → ∃ ms, walkAt cs F rows [] 0 false = .ok ms) ∧
      ∀ m ∈ ms, ∃ F cs ms', valueAt S F = some cs ∧ walkAt cs F rows [] 0 false = .ok ms' ∧
        m ∈ ms' := by
  rw [createMessagesForSubscriptions, createMessages_walk hS.shape] at h
  rcases concatAll_cases (f := fun x => walkAt x.2 x.1 rows [] 0 false) (subscribers S) with
    ⟨hall, hok⟩ | ⟨-, e, herr⟩
  · have hmem := fun F cs => mem_subscribers hS.shape hS.distinct F cs
    refine ⟨fun F cs hF => hall _ ((hmem F cs).mpr hF), fun m hm => ?_⟩
    obtain rfl := Except.ok.inj (hok.symm.trans h)
    obtain ⟨x, hx, hm⟩ := List.mem_flatMap.mp hm
    obtain ⟨ms', hms'⟩ := hall x hx
    rw [hms'] at hm
    exact ⟨x.1, x.2, ms', (hmem x.1 x.2).mp hx, hms', hm⟩
  · rw [herr] at h
    cases h

section
variable {rows : List Row} {row : Row}

/-- In a batch that can be answered, the filter with a wildcard for every node of a row's topic
is. -/
lemma Answerable.answered (h : Answerable rows) (hrow : row ∈ rows) (hne : row.topic ≠ []) :
    Answered rows (everyTopic row.topic) := by
  have hm : matching rows 0 (everyTopic row.topic) ≠ [] :=
    matching_ne_nil.mpr ⟨row, hrow, matches_everyTopic row.topic⟩
  obtain ⟨ms, hms⟩ := h (join (everyTopic row.topic)) clash
  rw [split_join_everyTopic hne, walkAt_matched clash hm] at hms
  rcases answer_cases rows (everyTopic row.topic) clash with ⟨hnil, -⟩ | ⟨ha, -⟩ | ⟨-, -, e, herr⟩
  · exact absurd hnil hm
  · exact ha
  · rw [herr] at hms
    cases hms

lemma Answerable.dropLast (h : Answerable rows) (hrow : row ∈ rows) :
    leafKey ∉ row.topic.dropLast := by
  intro hin
  have hne : row.topic ≠ [] := List.ne_nil_of_mem (List.dropLast_subset _ hin)
  have hnodes := (h.answered hrow hne).nodes (manyCard_mem_everyTopic hne) row hrow
    (matches_everyTopic row.topic)
  rw [captured_everyTopic] at hnodes
  exact hnodes hin

lemma Answerable.closed (h : Answerable rows) (hrow : row ∈ rows)
    (hin : leafKey ∈ row.topic) : Closed rows row.topic := by
  refine ⟨h.dropLast hrow, ?_⟩
  by_contra hno
  simp only [not_or, not_exists, not_and] at hno
  obtain ⟨hne, hno⟩ := hno
  have htopic : row.topic = row.topic.dropLast ++ [leafKey] := by
    have hnil : row.topic ≠ [] := List.ne_nil_of_mem hin
    have hsplit := List.dropLast_concat_getLast hnil
    have hlast : leafKey = row.topic.getLast hnil := by
      rw [← hsplit] at hin
      rcases List.mem_append.mp hin with hin | hin
      · exact absurd hin (h.dropLast hrow)
      · exact List.mem_singleton.mp hin
    rw [← hlast] at hsplit
    exact hsplit.symm
  obtain ⟨t, ht⟩ := exists_split_spell hne
  obtain ⟨ms, hms⟩ := h t clash
  have hm : matching rows 0 (split t) = [] := by
    rw [matching_zero, List.filter_eq_nil_iff, ← ht]
    exact fun r hr hmatch => hno r hr (of_decide_eq_true hmatch)
  have hbeyond : Beyond 0 (split t) row :=
    ⟨row.topic.dropLast, [], htopic, by rw [← ht]; exact matches_spell _⟩
  rw [walkAt_clash hm hrow hbeyond] at hms
  cases hms

lemma Answerable.legible (h : Answerable rows) : Legible rows := by
  intro topic data hne hlast
  obtain ⟨row, hrow, hw⟩ := List.mem_map.mp (LastWrite.mem_of_last hlast)
  obtain ⟨rfl, -⟩ := Prod.mk.inj hw
  exact (h.answered hrow hne).text (manyCard_mem_everyTopic hne) row.topic data
    (matches_everyTopic row.topic) hlast

end

/-- Where every node `/` is closed, no row goes on with one beyond a filter that none matches. -/
lemma walkAt_closed {rows : List Row}
    (hclosed : ∀ row ∈ rows, leafKey ∈ row.topic → Closed rows row.topic) (topic_str : Str)
    (cs : ClientSet) :
    walkAt cs (split topic_str) rows [] 0 false =
      answer rows [] 0 false (split topic_str) cs := by
  refine walkAt_eq cs ?_
  rintro hm row hrow ⟨p, q, htopic, hmatch⟩
  rw [List.drop_zero] at htopic
  obtain ⟨hdrop, hprefix⟩ := hclosed row hrow (by simp [htopic])
  have hq : q = [] := by
    by_contra hq
    rw [htopic, List.dropLast_append_of_ne_nil (List.cons_ne_nil _ _)] at hdrop
    obtain ⟨x, q, rfl⟩ := List.exists_cons_of_ne_nil hq
    simp at hdrop
  have hp : row.topic.dropLast = p := by rw [htopic, hq, List.dropLast_concat]
  rw [hp] at hprefix
  rcases hprefix with rfl | ⟨r, hr, hr'⟩
  · exact split_ne_nil topic_str (List.eq_nil_of_length_eq_zero hmatch.length_eq.symm)
  · refine matching_ne_nil.mpr ⟨r, hr, ?_⟩ hm
    exact matches_of_spell (fun g hg => singleLevel_of_mem_split hg) hmatch hr'

/-- **A batch can be answered** whatever is subscribed exactly if the last payload of each topic is
text, and every node `/` is closed. -/
theorem answerable_iff {rows : List Row} :
    Answerable rows ↔
      Legible rows ∧ ∀ row ∈ rows, leafKey ∈ row.topic → Closed rows row.topic := by
  refine ⟨fun h => ⟨h.legible, fun row hr => h.closed hr⟩, ?_⟩
  rintro ⟨hl, hclosed⟩ topic_str cs
  rw [walkAt_closed hclosed]
  rcases answer_cases rows (split topic_str) cs with ⟨-, h⟩ | ⟨-, data, h⟩ | ⟨hm, hno, -⟩
  · exact ⟨_, h⟩
  · exact ⟨_, h⟩
  · refine absurd ⟨matching_ne_nil.mp hm, fun _ row hrow _ hin => ?_,
      fun _ topic data hmatch => hl topic data ?_⟩ hno
    · have hdrop := captured_dropLast_subset hin
      exact (hclosed row hrow (List.dropLast_subset _ hdrop)).1 hdrop
    · rintro rfl
      exact split_ne_nil topic_str (List.eq_nil_of_length_eq_zero hmatch.length_eq.symm)

end MoteBroker.Walk

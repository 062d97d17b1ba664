import MoteBroker.Broker

/-!
The subscription store refines a map from topics and clients to qos, in every state that calls
of `subscribe` and `unsubscribe` reach.
-/

namespace MoteBroker.Subscriptions

open NestedDict MoteBroker.Topics MoteBroker.RecursiveDefaultDict MoteBroker.Broker
open MoteBroker.CreateMessages

/-! ### The abstract store -/

/-- The qos that is registered for a topic's nodes and a client id. -/
abbrev Registry := List Str × Str → Option ℕ

inductive Call
  | subscribe (client : Client) (topic_str : Str) (qos : ℕ) (tree : Bool)
  | unsubscribe (client : Client) (topics : List Str)

/-- A registry after a call that has returned. -/
def Registry.after (m : Registry) : Call → Registry
  | .subscribe client topic_str qos _ => Function.update m (split topic_str, client.id) (some qos)
  | .unsubscribe client topics => fun k =>
    if k.2 = client.id ∧ k.1 ∈ topics.map split then none else m k

/-- What is registered after calls, from nothing. -/
def registered (cs : List Call) : Registry := cs.foldl Registry.after fun _ => none

/-! ### The calls of the broker -/

def call (s : State) : Call → Except Exc State
  | .subscribe client topic_str qos tree => s.subscribe client topic_str qos tree
  | .unsubscribe client topics => s.unsubscribe client topics

/-- The state after a call, and whether it has returned. A call that raises leaves the store as
it was. -/
def perform (s : State) (c : Call) : State := (call s c).toOption.getD s

def performAll (s : State) (cs : List Call) : State := cs.foldl perform s

/-- The calls among `cs` that return. -/
def returned : State → List Call → List Call
  | _, [] => []
  | s, c :: cs => (call s c).toOption.toList.map (fun _ => c) ++ returned (perform s c) cs

/-! ### The representation -/

/-- The nested tree represents the map: it has the right shape and distinct keys, no branch and
no client map in it is empty, and it holds for each topic and client what the map holds. -/
structure Represents (S : Rdd ClientSet) (m : Registry) : Prop where
  shape : Shape S
  distinct : S.Distinct
  pruned : S.Pruned
  nonempty : ∀ F cs, valueAt S F = some cs → cs ≠ ∅
  lookup : ∀ F id, (valueAt S F).bind (fun cs => cs.lookup id) = m (F, id)

lemma represents_nil : Represents .nil fun _ => none :=
  ⟨trivial, trivial, trivial, fun F cs h => by simp at h, fun F id => by simp⟩

lemma exists_lookup {cs : ClientSet} (h : cs ≠ ∅) : ∃ id q, cs.lookup id = some q := by
  by_contra hno
  push Not at hno
  refine h (AList.ext (List.eq_nil_iff_forall_not_mem.mpr fun e he => ?_))
  exact hno e.1 e.2 (AList.mem_lookup_iff.mpr he)

/-- **The tree is empty exactly when nobody is subscribed.** -/
theorem Represents.eq_nil_iff {S : Rdd ClientSet} {m : Registry} (h : Represents S m) :
    S = .nil ↔ ∀ k, m k = none := by
  refine ⟨?_, ?_⟩
  · rintro rfl ⟨F, id⟩
    rw [← h.lookup]; simp
  · intro hm
    by_contra hne
    obtain ⟨p, cs, hp⟩ := Dict.exists_leaf h.pruned hne
    obtain ⟨F, rfl, -⟩ := h.shape.path_of_leafAt hp
    have hcs : valueAt S F = some cs := hp
    obtain ⟨id, q, hq⟩ := exists_lookup (h.nonempty F cs hcs)
    have := h.lookup F id
    rw [hcs, Option.bind_some, hq, hm] at this
    cases this

/-! ### One call -/

lemma lookup_getD (o : Option ClientSet) (id : Str) :
    (o.getD ∅).lookup id = o.bind fun cs => cs.lookup id := by
  cases o with
  | none => exact AList.lookup_empty id
  | some cs => rfl

lemma lookup_insert_ite (cs : ClientSet) (id x : Str) (q : ℕ) :
    (cs.insert id q).lookup x = if x = id then some q else cs.lookup x := by
  by_cases h : x = id
  · subst h; simp
  · rw [AList.lookup_insert_ne h, if_neg h]

lemma lookup_erase_ite (cs : ClientSet) (id x : Str) :
    (cs.erase id).lookup x = if x = id then none else cs.lookup x := by
  by_cases h : x = id
  · subst h; simp
  · rw [AList.lookup_erase_ne h, if_neg h]

/-- A registration is one update of the map. -/
lemma Represents.register {S : Rdd ClientSet} {m : Registry} (h : Represents S m) (id s : Str)
    (q : ℕ) :
    ∃ S', registerTopic S id s q = .ok S' ∧
      Represents S' (Function.update m (split s, id) (some q)) := by
  obtain ⟨S', hS', hshape, -, hdist, hprune, hval⟩ :=
    lshift_spec ∅ (AList.insert id q) h.shape (path_split s)
  refine ⟨S', by simp [registerTopic, Topic.fromStr, hS', Except.map], hshape, hdist h.distinct,
    hprune h.pruned, fun F cs hcs => ?_, fun F x => ?_⟩
  · rw [hval] at hcs
    split_ifs at hcs
    · obtain rfl := Option.some.inj hcs
      intro he
      have := lookup_insert_ite ((valueAt S (split s)).getD ∅) id id q
      rw [he] at this
      simp at this
    · exact h.nonempty F cs hcs
  · rw [hval, Function.update_apply]
    by_cases hF : F = split s
    · subst hF
      rw [if_pos rfl, Option.bind_some, lookup_insert_ite, lookup_getD, h.lookup]
      by_cases hx : x = id <;> simp [hx]
    · simp [hF, h.lookup]

/-- The end of a subscription is one deletion from the map, and never fails. -/
lemma Represents.unsubscribeTopic {S : Rdd ClientSet} {m : Registry} (h : Represents S m)
    (id s : Str) :
    ∃ S', unsubscribeTopic S id s = .ok S' ∧
      Represents S' (Function.update m (split s, id) none) := by
  obtain ⟨S₁, h₁, hshape, -, hdist, hprune, hval⟩ :=
    lshift_spec ∅ (AList.erase id) h.shape (path_split s)
  have hold : ∀ x, (((valueAt S (split s)).getD ∅).erase id).lookup x =
      if x = id then none else m (split s, x) := fun x => by
    rw [lookup_erase_ite, lookup_getD, h.lookup]
  by_cases he : ((valueAt S (split s)).getD ∅).erase id = ∅
  · -- the client map is empty, so the walk back removes it and what it leaves empty
    obtain ⟨S₂, h₂, hshape₂, hdist₂, hprune₂, hval₂⟩ :=
      cascadeDelete_spec ∅ hshape (path_split s) (by rw [hval, if_pos rfl]; simp)
    have hv : ∀ F, valueAt S₂ F = if F = split s then none else valueAt S F := fun F => by
      rw [hval₂, hval]; split_ifs <;> rfl
    refine ⟨S₂, by simp [Broker.unsubscribeTopic, Topic.fromStr, h₁, he, h₂], hshape₂,
      hdist₂ (hdist h.distinct), hprune₂ (hprune h.pruned), fun F cs hcs => ?_, fun F x => ?_⟩
    · rw [hv] at hcs
      split_ifs at hcs
      exact h.nonempty F cs hcs
    · rw [hv, Function.update_apply]
      by_cases hF : F = split s
      · subst hF
        have := hold x
        rw [he, AList.lookup_empty] at this
        by_cases hx : x = id
        · simp [hx]
        · simpa [hx] using this
      · simp [hF, h.lookup]
  · refine ⟨S₁, by simp [Broker.unsubscribeTopic, Topic.fromStr, h₁, he], hshape,
      hdist h.distinct, hprune h.pruned, fun F cs hcs => ?_, fun F x => ?_⟩
    · rw [hval] at hcs
      split_ifs at hcs
      · exact Option.some.inj hcs ▸ he
      · exact h.nonempty F cs hcs
    · rw [hval, Function.update_apply]
      by_cases hF : F = split s
      · subst hF
        rw [if_pos rfl, Option.bind_some, hold]
        by_cases hx : x = id <;> simp [hx]
      · simp [hF, h.lookup]

lemma Represents.unsubscribeTopics {S : Rdd ClientSet} {m : Registry} (h : Represents S m)
    (id : Str) (topics : List Str) :
    ∃ S', unsubscribeTopics id S topics = .ok S' ∧
      Represents S' fun k => if k.2 = id ∧ k.1 ∈ topics.map split then none else m k := by
  induction topics generalizing S m with
  | nil => exact ⟨S, rfl, by simpa using h⟩
  | cons t topics ih =>
    obtain ⟨S₁, h₁, hr₁⟩ := h.unsubscribeTopic id t
    obtain ⟨S', h', hr'⟩ := ih hr₁
    refine ⟨S', by simp [Broker.unsubscribeTopics, h₁, h'], ?_⟩
    convert hr' using 1
    funext ⟨F, x⟩
    rw [Function.update_apply]
    by_cases hx : x = id
    · by_cases hF : F = split t <;> simp [hx, hF]
    · simp [hx]

/-- A call that raises nothing whatever the retained tree: a subscription without the tree flag
to a topic whose first node is not empty, or the end of subscriptions. -/
def Call.Plain : Call → Prop
  | .subscribe _ topic_str _ tree => tree = false ∧ (split topic_str).head? ≠ some []
  | .unsubscribe _ _ => True

instance : DecidablePred Call.Plain
  | .subscribe _ topic_str _ tree =>
    inferInstanceAs (Decidable (tree = false ∧ (split topic_str).head? ≠ some []))
  | .unsubscribe _ _ => .isTrue trivial

/-- A call that asks the table manager. -/
def Call.Queries : Call → Prop
  | .subscribe _ topic_str _ tree => tree = false ∧ ForTable (split topic_str)
  | .unsubscribe _ _ => False

instance : DecidablePred Call.Queries
  | .subscribe _ topic_str _ tree =>
    inferInstanceAs (Decidable (tree = false ∧ ForTable (split topic_str)))
  | .unsubscribe _ _ => .isFalse id

lemma getMessage_ne_keyError (s : State) (t : Topic) (q : ℕ) :
    s.treeManager.getMessage t q ≠ .error .keyError := by
  intro h
  unfold Retain.TreeManager.getMessage at h
  cases hx : s.treeManager.filter t with
  | error e =>
    rw [hx] at h; cases h
    exact FilterTree.filterTreeWithTopic_ne_keyError _ _ hx
  | ok x =>
    rw [hx, ok_bind] at h
    unfold Messages.OutgoingMessage.fromTreeItem TreeItems.stringify at h
    split at h
    · cases h
    · cases h
    · split at h <;> cases h

/-- Without the tree flag the first half of a subscription does nothing, if it returns. -/
lemma sendRetained_false (s : State) (client : Client) (t : Str) (q : ℕ) :
    s.sendRetained client t q false =
      if (split t).head? = some [] then .error .indexError
      else if ForTable (split t) then .error .noReturn else .ok s := by
  unfold State.sendRetained
  rcases hs : split t with _ | ⟨_ | ⟨c, n⟩, ns⟩
  · exact absurd hs (split_ne_nil t)
  · simp [Topic.forTable, Topic.fromStr, hs]
  · by_cases hc : c = tableFlag <;> simp [Topic.forTable, Topic.fromStr, hs, hc, ForTable]

/-- What the first half of a subscription does: at most it queues a message; it raises, never
`KeyError`, only for a tree or for a topic whose first node is empty, and does not return for the
topic of a table. -/
lemma sendRetained_spec (s : State) (client : Client) (t : Str) (q : ℕ) (tree : Bool) :
    (∃ s', s.sendRetained client t q tree = .ok s' ∧ s'.subscriptions = s.subscriptions ∧
        (tree = true ∨ ¬ForTable (split t))) ∨
      ∃ e, s.sendRetained client t q tree = .error e ∧ e ≠ .keyError ∧
        (tree = true ∨ (split t).head? = some [] ∨ ForTable (split t)) := by
  cases tree with
  | true =>
    unfold State.sendRetained
    rw [if_pos rfl]
    cases hm : s.treeManager.getMessage (Topic.fromStr t) q with
    | ok m => exact .inl ⟨_, rfl, rfl, .inl rfl⟩
    | error e => exact .inr ⟨e, rfl, fun he => getMessage_ne_keyError s _ q (he ▸ hm), .inl rfl⟩
  | false =>
    rw [sendRetained_false]
    split_ifs with hhead htable
    · exact .inr ⟨_, rfl, by simp, .inr (.inl hhead)⟩
    · exact .inr ⟨_, rfl, by simp, .inr (.inr htable)⟩
    · exact .inl ⟨s, rfl, rfl, .inr htable⟩

/-- **One call refines one update**: it returns and the map is updated, or it does not, nothing is
registered and `KeyError` is not raised; a plain call returns unless it asks the table manager. -/
theorem call_spec {s : State} {m : Registry} (h : Represents s.subscriptions m) (c : Call) :
    (¬c.Queries ∧ ∃ s', call s c = .ok s' ∧ Represents s'.subscriptions (m.after c)) ∨
      (¬c.Plain ∨ c.Queries) ∧ ∃ e, call s c = .error e ∧ e ≠ .keyError := by
  cases c with
  | subscribe client t q tree =>
    rcases sendRetained_spec s client t q tree with ⟨s₁, hs, hsub, hwhy⟩ | ⟨e, hs, he, hwhy⟩
    · rw [← hsub] at h
      obtain ⟨S', hS', hr⟩ := h.register client.id t q
      refine .inl ⟨fun hq => ?_, { s₁ with subscriptions := S' },
        by simp [call, State.subscribe, State.register, hs, hS', Except.map], hr⟩
      rcases hwhy with h | h
      · rw [hq.1] at h; cases h
      · exact h hq.2
    · refine .inr ⟨?_, e, by simp [call, State.subscribe, hs], he⟩
      by_cases ht : tree = true
      · exact .inl fun hp => by rw [hp.1] at ht; cases ht
      · rcases hwhy.resolve_left ht with h | h
        · exact .inl fun hp => hp.2 h
        · exact .inr ⟨by simpa using ht, h⟩
  | unsubscribe client topics =>
    obtain ⟨S', hS', hr⟩ := h.unsubscribeTopics client.id topics
    exact .inl ⟨id, { s with subscriptions := S' },
      by simp [call, State.unsubscribe, hS', Except.map], hr⟩

/-! ### All calls -/

/-- What represents a registry represents, after calls, the registry after those of them that
have returned. -/
lemma Represents.performAll {s : State} {m : Registry} (h : Represents s.subscriptions m)
    (cs : List Call) :
    Represents (performAll s cs).subscriptions ((returned s cs).foldl Registry.after m) ∧
      ((∀ c ∈ cs, c.Plain) → returned s cs = cs.filter fun c => ¬c.Queries) := by
  induction cs generalizing s m with
  | nil => exact ⟨h, fun _ => rfl⟩
  | cons c cs ih =>
    rw [Subscriptions.performAll, List.foldl_cons]
    rcases call_spec h c with ⟨hq, s', hc, hr⟩ | ⟨hwhy, e, hc, -⟩
    · have hs : perform s c = s' := by simp [perform, hc, Except.toOption]
      rw [returned, hs, hc, List.filter_cons_of_pos (by simpa using hq)]
      exact ⟨(ih hr).1, fun hall => congrArg (c :: ·)
        ((ih hr).2 fun d hd => hall d (List.mem_cons_of_mem _ hd))⟩
    · have hs : perform s c = s := by simp [perform, hc, Except.toOption]
      rw [returned, hs, hc]
      refine ⟨(ih h).1, fun hall => ?_⟩
      have hq := hwhy.resolve_left (not_not.mpr (hall c List.mem_cons_self))
      rw [List.filter_cons_of_neg (by simpa using hq)]
      exact (ih h).2 fun d hd => hall d (List.mem_cons_of_mem _ hd)

/-- Without the calls that ask the table manager, nobody is registered for a table's topic, and
for any other topic it makes no difference. -/
lemma foldl_after_filter {cs : List Call} (hplain : ∀ c ∈ cs, c.Plain) {m m' : Registry}
    (hm : ∀ F id, m' (F, id) = if ForTable F then none else m (F, id)) (F : List Str) (id : Str) :
    (cs.filter fun c => ¬c.Queries).foldl Registry.after m' (F, id) =
      if ForTable F then none else cs.foldl Registry.after m (F, id) := by
  induction cs generalizing m m' with
  | nil => exact hm F id
  | cons c cs ih =>
    have ih := @ih fun d hd => hplain d (List.mem_cons_of_mem _ hd)
    rw [List.foldl_cons]
    by_cases hq : c.Queries
    · rw [List.filter_cons_of_neg (by simpa using hq)]
      refine ih fun G x => ?_
      cases c with
      | unsubscribe client topics => exact hq.elim
      | subscribe client t q tree =>
        rw [hm, Registry.after, Function.update_apply]
        by_cases hG : G = split t
        · rw [if_pos (hG ▸ hq.2), if_pos (hG ▸ hq.2)]
        · rw [if_neg fun h => hG (congrArg Prod.fst h)]
    · rw [List.filter_cons_of_pos (by simpa using hq), List.foldl_cons]
      refine ih fun G x => ?_
      cases c with
      | unsubscribe client topics =>
        simp only [Registry.after, hm]
        split_ifs <;> rfl
      | subscribe client t q tree =>
        have ht : ¬ForTable (split t) := fun h =>
          hq ⟨(hplain _ List.mem_cons_self).1, h⟩
        simp only [Registry.after, Function.update_apply, hm]
        by_cases hG : (G, x) = (split t, client.id)
        · rw [if_pos hG, if_pos hG, if_neg ((Prod.mk.inj hG).1 ▸ ht)]
        · rw [if_neg hG, if_neg hG]

/-- What is registered was subscribed. -/
lemma subscribed_of_registered {cs : List Call} {F : List Str} {id : Str} {q : ℕ}
    (h : registered cs (F, id) = some q) :
    ∃ client t tree, Call.subscribe client t q tree ∈ cs ∧ F = split t := by
  suffices hgen : ∀ m : Registry, cs.foldl Registry.after m (F, id) = some q →
      m (F, id) = some q ∨ ∃ client t tree, Call.subscribe client t q tree ∈ cs ∧ F = split t by
    exact (hgen _ h).resolve_left (by simp)
  clear h
  intro m hm
  induction cs generalizing m with
  | nil => exact .inl hm
  | cons c cs ih =>
    rcases ih _ hm with hm | ⟨client, t, tree, hc, hF⟩
    · cases c with
      | subscribe client t q' tree =>
        rw [Registry.after, Function.update_apply] at hm
        split_ifs at hm with hk
        · cases hm
          exact .inr ⟨client, t, tree, List.mem_cons_self, congrArg Prod.fst hk⟩
        · exact .inl hm
      | unsubscribe client topics =>
        simp only [Registry.after] at hm
        split_ifs at hm
        exact .inl hm
    · exact .inr ⟨client, t, tree, List.mem_cons_of_mem _ hc, hF⟩

lemma Represents.unique {S : Rdd ClientSet} {m m' : Registry} (h : Represents S m)
    (h' : Represents S m') : m = m' := by
  funext k
  obtain ⟨F, id⟩ := k
  rw [← h.lookup, h'.lookup]

/-- **When the subscription store refines a map.** From the empty store, after any calls, the tree
represents what is registered by the calls that have returned; it is empty exactly when nobody is
subscribed, and no call raises `KeyError`. After plain calls it represents what they register
exactly when they leave nobody registered for the topic of a table. -/
theorem store_refines_iff {s : State} (h0 : s.subscriptions = .nil) (cs : List Call) :
    Represents (performAll s cs).subscriptions (registered (returned s cs)) ∧
      ((performAll s cs).subscriptions = .nil ↔ ∀ k, registered (returned s cs) k = none) ∧
      (∀ c, call (performAll s cs) c ≠ .error .keyError) ∧
      ((∀ c ∈ cs, c.Plain) →
        (Represents (performAll s cs).subscriptions (registered cs) ↔
          ∀ F id, registered cs (F, id) ≠ none → ¬ForTable F)) := by
  have h : Represents s.subscriptions fun _ => none := h0 ▸ represents_nil
  obtain ⟨hr, hreturned⟩ := h.performAll cs
  refine ⟨hr, hr.eq_nil_iff, fun c => ?_, fun hplain => ?_⟩
  · rcases call_spec hr c with ⟨-, s', hc, -⟩ | ⟨-, e, hc, he⟩
    · simp [hc]
    · simpa [hc] using he
  · have hmap : ∀ F id, registered (returned s cs) (F, id) =
        if ForTable F then none else registered cs (F, id) := by
      rw [hreturned hplain]
      exact foldl_after_filter hplain fun F id => by simp
    refine ⟨fun hr' F id hreg hF => hreg ?_, fun hno => ?_⟩
    · have heq := congrFun (hr.unique hr') (F, id)
      exact heq.symm.trans ((hmap F id).trans (if_pos hF))
    · have heq : registered (returned s cs) = registered cs := by
        funext k
        obtain ⟨F, id⟩ := k
        rw [hmap]
        split_ifs with hF
        · by_contra hreg
          exact hno F id (Ne.symm hreg) hF
        · rfl
      exact heq ▸ hr

/-- Two clients, one topic a prefix of the other; one of them leaves, twice. -/
def sharedCalls : List Call :=
  [.subscribe ⟨"app".toList, 1⟩ "light/on".toList 1 false,
    .subscribe ⟨"tv".toList, 2⟩ "light".toList 2 false,
    .unsubscribe ⟨"app".toList, 1⟩ ["light/on".toList, "light/on".toList]]

theorem store_refines_iff_shared :
    Represents (performAll initial sharedCalls).subscriptions (registered sharedCalls) ∧
      registered sharedCalls (split "light".toList, "tv".toList) = some 2 ∧
      registered sharedCalls (split "light/on".toList, "app".toList) = none := by
  obtain ⟨-, -, -, hiff⟩ := @store_refines_iff initial rfl sharedCalls
  refine ⟨(hiff (List.forall_iff_forall_mem.mp ⟨by decide, by decide, trivial⟩)).mpr ?_,
    by decide, by decide⟩
  intro F id hreg
  obtain ⟨q, hq⟩ := Option.ne_none_iff_exists'.mp hreg
  obtain ⟨client, t, tree, hcall, rfl⟩ := subscribed_of_registered hq
  simp only [sharedCalls, List.mem_cons, List.not_mem_nil, or_false, reduceCtorEq,
    Call.subscribe.injEq] at hcall
  rcases hcall with ⟨-, rfl, -⟩ | ⟨-, rfl, -⟩
  · decide
  · decide

/-- A subscription to the topic of a table waits for the table manager, and is not registered. -/
theorem table_not_registered :
    ¬Represents (performAll initial [.subscribe ⟨"app".toList, 1⟩ "@lights".toList 1 false]
        ).subscriptions (registered [.subscribe ⟨"app".toList, 1⟩ "@lights".toList 1 false]) := by
  intro h
  have hlookup := h.lookup (split "@lights".toList) "app".toList
  revert hlookup
  decide

end MoteBroker.Subscriptions

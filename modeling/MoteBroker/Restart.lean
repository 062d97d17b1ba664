import MoteBroker.Broker
import MoteBroker.Lib.Runs

/-!
A restart: retained publishes are handled one after the other from an empty store, the worker
applies their tasks in order, and the tree is read back from the database.
-/

namespace MoteBroker.Restart

open NestedDict MoteBroker.Topics MoteBroker.RecursiveDefaultDict MoteBroker.TreeItems
open MoteBroker.Rows MoteBroker.Messages MoteBroker.Retain MoteBroker.Broker

/-- A plain retained publish that the broker accepts: no graft, not for a table, nothing
raised. -/
def publishRetained (s : State) (p : Publish) : Option State :=
  match IncomingMessage.fromRawData p.raw_topic p.data p.qos true with
  | .error _ => none
  | .ok message =>
    if message.graft = false ∧ message.table = .ok false then
      match s.publish message with
      | (s, none) => some s
      | (_, some _) => none
    else none

/-- The database lists each of its rows once, in some order. -/
structure Lists (db : Database) (l : List (Str × Bytes)) : Prop where
  nodup : (l.map Prod.fst).Nodup
  mem : ∀ topic data, (topic, data) ∈ l ↔ ∃ qos, db topic = some (data, qos)

/-! ### The tree in memory -/

/-- What publishes keep: the tree holds what the tasks say, every node of which is single-level. -/
structure Retained (tm : TreeManager) : Prop where
  shape : Shape tm.tree
  distinct : tm.tree.Distinct
  keys : KeysOf SingleLevel tm.tree
  tasks : ∀ row ∈ tm.tasks, row.topic ≠ [] ∧ ∀ n ∈ row.topic, SingleLevel n
  values : ∀ F, valueAt tm.tree F = LastWrite.overwrite (fun _ => none) (leafWrites tm.tasks) F

lemma Retained.retainRows {tm : TreeManager} (h : Retained tm) {rows : List Row}
    (hrows : ∀ row ∈ rows, row.topic ≠ [] ∧ ∀ n ∈ row.topic, SingleLevel n) :
    ∃ tm', tm.retainRows rows = (tm', none) ∧ Retained tm' := by
  obtain ⟨t', ht', hs', hd', hk', hv'⟩ := setLeaves_spec h.shape fun row hr =>
    path_of_singleLevel (hrows row hr).1 (hrows row hr).2
  refine ⟨⟨t', tm.tasks ++ rows⟩, by simp [TreeManager.retainRows, TreeManager.addTasks, ht'],
    hs', hd' h.distinct, hk' _ h.keys fun row hr => (hrows row hr).2, fun row hr => ?_,
    fun F => ?_⟩
  · exact (List.mem_append.mp hr).elim (h.tasks row) (hrows row)
  · have hsplit : leafWrites (tm.tasks ++ rows) = leafWrites tm.tasks ++ leafWrites rows :=
      List.map_append
    rw [hv', hsplit, LastWrite.overwrite_append]
    exact congrFun (congrArg (fun v => LastWrite.overwrite v (leafWrites rows))
      (funext h.values)) F

/-- A plain message has the retain flag, and the nodes of its raw topic. -/
lemma fromRawData_plain {p : Publish} {m : IncomingMessage}
    (h : IncomingMessage.fromRawData p.raw_topic p.data p.qos true = .ok m)
    (hg : m.graft = false) : m.retain = true ∧ m.topic.nodeList = split p.raw_topic := by
  unfold IncomingMessage.fromRawData at h
  rw [if_pos rfl] at h
  split at h
  · cases h
  · split_ifs at h <;> cases h
    · cases hg
    · exact ⟨rfl, rfl⟩

lemma Retained.publish {s s' : State} {p : Publish} (h : Retained s.treeManager)
    (hp : publishRetained s p = some s') : Retained s'.treeManager := by
  unfold publishRetained at hp
  cases hm : IncomingMessage.fromRawData p.raw_topic p.data p.qos true with
  | error e => rw [hm] at hp; cases hp
  | ok m =>
    rw [hm] at hp
    simp only at hp
    split_ifs at hp with hplain
    obtain ⟨hretain, hnodes⟩ := fromRawData_plain hm hplain.1
    have hrows : (∃ rows, messageRows m s.treeManager.tree = .ok rows ∧
        RowsOf SingleLevel m.data rows) ∨
        messageRows m s.treeManager.tree = .error .invalidEverythingCard := by
      rw [messageRows, hplain.1, IncomingMessage.getApplicableRows, hnodes]
      exact getApplicableRows_spec (split_ne_nil _) (fun n hn _ => singleLevel_of_mem_split hn)
        (by simp) (path_split _).2 h.shape h.distinct h.keys
    rcases hrows with ⟨rows, hok, hrows⟩ | herr
    · obtain ⟨tm', htm, hr⟩ := h.retainRows fun row hr => ⟨(hrows row hr).1, (hrows row hr).2.1⟩
      simp only [State.publish, hplain.2, State.publishRows, hretain, TreeManager.processMessage,
        hok, htm] at hp
      cases hp
      exact hr
    · simp only [State.publish, hplain.2, State.publishRows, hretain, TreeManager.processMessage,
        herr] at hp
      cases hp

lemma retained_initial : Retained initial.treeManager :=
  ⟨shape_nil, trivial, trivial, fun _ h => (nomatch h), fun F => valueAt_nil F⟩

/-! ### The database -/

/-- **Memory and database agree** on every topic of single-level nodes. -/
theorem Retained.database_eq {tm : TreeManager} (h : Retained tm) {F : List Str} (h0 : F ≠ [])
    (hF : ∀ n ∈ F, SingleLevel n) :
    dbPayload (applyTasks (fun _ => none) tm.tasks) (join F) = payloadAt tm.tree F := by
  have hkeys : ∀ row ∈ tm.tasks, join row.topic = join F ↔ row.topic = F := fun row hr =>
    ⟨fun he => join_injective (h.tasks row hr).2 (h.tasks row hr).1 hF h0 he, congrArg join⟩
  rw [dbPayload_applyTasks, payloadAt, h.values, LastWrite.overwrite, LastWrite.overwrite,
    last_leafWrites, LastWrite.last_map_congr tm.tasks hkeys]
  cases LastWrite.last (tm.tasks.map fun row => (row.topic, row.data)) F <;> rfl

/-- What the tree holds, a task has written. -/
lemma Retained.task_of_payload {tm : TreeManager} (h : Retained tm) {F : List Str}
    (hF : payloadAt tm.tree F ≠ none) : ∃ row ∈ tm.tasks, row.topic = F := by
  rw [payloadAt, h.values, LastWrite.overwrite, last_leafWrites] at hF
  cases hl : LastWrite.last (tm.tasks.map fun row => (row.topic, row.data)) F with
  | none => rw [hl] at hF; exact absurd rfl hF
  | some d =>
    obtain ⟨row, hr, he⟩ := List.mem_map.mp (LastWrite.mem_of_last hl)
    exact ⟨row, hr, congrArg Prod.fst he⟩

lemma retained_run {ps : List Publish} {s : State}
    (hrun : Runs.run publishRetained initial ps = some s) : Retained s.treeManager :=
  @Runs.run_invariant_of_step _ _ publishRetained (fun s => Retained s.treeManager)
    (fun _ _ _ h hp => h.publish hp) _ _ _ retained_initial hrun

/-! ### Reading it back -/

/-- The nodes under which `preload` puts a row. -/
def preloadNodes (topic : Str) : List Str := (split topic).filter (· ≠ [])

lemma preloadRow_spec {t : Rdd Payload} (hs : Shape t) (topic : Str) (data : Bytes) :
    ∃ t', preloadRow t topic data = .ok t' ∧ Shape t' ∧
      valueAt t' = Function.update (valueAt t) (preloadNodes topic) (some (some data)) := by
  have hpath : leafKey ∉ preloadNodes topic := fun hm =>
    (path_split topic).2 (List.mem_of_mem_filter hm)
  unfold preloadRow
  rw [← preloadNodes]
  cases hn : preloadNodes topic with
  | nil =>
    exact ⟨_, rfl, hs.set_leaf _,
      funext fun F => by rw [valueAt_set_leaf hs, Function.update_apply]⟩
  | cons n ns =>
    obtain ⟨t', h', hs', -, -, -, hv'⟩ :=
      lshift_spec none (fun _ => some data) hs ⟨List.cons_ne_nil n ns, hn ▸ hpath⟩
    exact ⟨t', by simp only [h']; rfl, hs', funext fun F => by rw [hv', Function.update_apply]⟩

/-- The tree read back holds each row under the nodes of its topic that are not empty, the last
one listed winning. -/
lemma preload_spec {t : Rdd Payload} (hs : Shape t) (l : List (Str × Bytes)) :
    ∃ t', preload t l = .ok t' ∧ Shape t' ∧
      ∀ F, valueAt t' F = LastWrite.overwrite (valueAt t)
        (l.map fun e => (preloadNodes e.1, some (some e.2))) F := by
  induction l generalizing t with
  | nil => exact ⟨t, rfl, hs, fun F => rfl⟩
  | cons e l ih =>
    obtain ⟨t₁, h₁, hs₁, hv₁⟩ := preloadRow_spec hs e.1 e.2
    obtain ⟨t', h', hs', hv'⟩ := ih hs₁
    refine ⟨t', by rw [preload, h₁]; exact h', hs', fun F => ?_⟩
    rw [hv', hv₁, List.map_cons, LastWrite.overwrite_cons]

lemma preloadNodes_eq {topic : Str} (h : [] ∉ split topic) : preloadNodes topic = split topic :=
  List.filter_eq_self.mpr fun _ hn => decide_eq_true fun e => h (e ▸ hn)

/-- The payload that the tree read back holds for some nodes. -/
lemma payloadAt_preload {l : List (Str × Bytes)} {t' : Rdd Payload}
    (hv : ∀ F, valueAt t' F = LastWrite.overwrite (valueAt (.nil : Rdd Payload))
      (l.map fun e => (preloadNodes e.1, some (some e.2))) F) (F : List Str) :
    payloadAt t' F = LastWrite.last (l.map fun e => (preloadNodes e.1, e.2)) F := by
  have hmap : (l.map fun e => (preloadNodes e.1, some (some e.2))) =
      (l.map fun e => (preloadNodes e.1, e.2)).map fun w => (w.1, some (some w.2)) := by simp
  rw [payloadAt, hv, LastWrite.overwrite, hmap,
    LastWrite.last_map_snd fun b : Bytes => some (some b)]
  cases LastWrite.last (l.map fun e => (preloadNodes e.1, e.2)) F <;> simp

/-- **A restart preserves the retained messages exactly when no topic that holds a payload has
an empty node**, whatever order the database lists its rows in. -/
theorem restart_iff {ps : List Publish} {s : State}
    (hrun : Runs.run publishRetained initial ps = some s) {l : List (Str × Bytes)}
    (hl : Lists (applyTasks (fun _ => none) s.treeManager.tasks) l) :
    ∃ t', preload .nil l = .ok t' ∧
      ((∀ F, payloadAt t' F = payloadAt s.treeManager.tree F) ↔
        ∀ F, payloadAt s.treeManager.tree F ≠ none → [] ∉ F) := by
  have hr := retained_run hrun
  obtain ⟨t', ht', hs', hv'⟩ := preload_spec shape_nil l
  have hload := payloadAt_preload hv'
  -- the rows listed are the payloads in memory
  have hlist : ∀ topic data, (topic, data) ∈ l ↔
      payloadAt s.treeManager.tree (split topic) = some data := fun topic data => by
    rw [hl.mem, ← hr.database_eq (split_ne_nil topic) fun n hn => singleLevel_of_mem_split hn,
      join_split, dbPayload, Option.map_eq_some_iff]
    simp
  refine ⟨t', ht', fun heq F hF hempty => ?_, fun hne F => ?_⟩
  · rw [← heq, hload] at hF
    obtain ⟨data, hd⟩ := Option.ne_none_iff_exists'.mp hF
    obtain ⟨e, -, he⟩ := List.mem_map.mp (LastWrite.mem_of_last hd)
    have hnodes : preloadNodes e.1 = F := congrArg Prod.fst he
    have hmem : [] ∈ preloadNodes e.1 := hnodes ▸ hempty
    simpa using (List.mem_filter.mp hmem).2
  · have hnodes : ∀ e ∈ l, preloadNodes e.1 = split e.1 := fun e he =>
      preloadNodes_eq (hne _ (by rw [(hlist e.1 e.2).mp he]; simp))
    have hmap : (l.map fun e => (preloadNodes e.1, e.2)) = l.map fun e => (split e.1, e.2) :=
      List.map_congr_left fun e he => by rw [hnodes e he]
    have hnd : ((l.map fun e => (split e.1, e.2)).map Prod.fst).Nodup := by
      have : (l.map fun e => (split e.1, e.2)).map Prod.fst = (l.map Prod.fst).map split := by simp
      rw [this]
      exact hl.nodup.map fun _ _ => split_injective
    refine Option.ext fun data => ?_
    rw [hload, hmap, LastWrite.last_eq_some_of_nodup hnd, List.mem_map]
    refine ⟨?_, ?_⟩
    · rintro ⟨e, he, heq⟩
      cases heq
      exact (hlist e.1 e.2).mp he
    · intro h
      obtain ⟨row, hrow, rfl⟩ := hr.task_of_payload (F := F) (by rw [h]; simp)
      obtain ⟨h0, hF⟩ := hr.tasks row hrow
      refine ⟨(join row.topic, data), (hlist _ _).mpr ?_, ?_⟩ <;> simp only [split_join hF h0]
      exact h

/-- One retained publish, and the rows that the database lists after it. -/
def published (topic : String) : List Publish := [⟨topic.toList, some [49], 0⟩]

def listed (topic : String) : List (Str × Bytes) := [(topic.toList, [49])]

lemma lists_single (row : Row) {data : Bytes} (h : row.data = some data) :
    Lists (applyTasks (fun _ => none) [row]) [(join row.topic, data)] := by
  refine ⟨by simp, fun topic d => ?_⟩
  have hdb : applyTasks (fun _ => none) [row] topic =
      if join row.topic = topic then some (data, row.qos) else none := by
    simp [applyTasks, runTasks, h, LastWrite.last_cons]
  rw [hdb]
  by_cases ht : join row.topic = topic
  · simp [ht, eq_comm]
  · simp [ht, Ne.symm ht]

theorem restart_iff_light :
    ∃ s t', Runs.run publishRetained initial (published "light/on") = some s ∧
      preload .nil (listed "light/on") = .ok t' ∧
      payloadAt t' ["light".toList, "on".toList] =
        payloadAt s.treeManager.tree ["light".toList, "on".toList] := by
  obtain ⟨s, hs, htasks⟩ : ∃ s, Runs.run publishRetained initial (published "light/on") = some s ∧
      s.treeManager.tasks = [⟨["light".toList, "on".toList], some [49], 0⟩] := ⟨_, rfl, rfl⟩
  have hl : Lists (applyTasks (fun _ => none) s.treeManager.tasks) (listed "light/on") := by
    rw [htasks]; exact lists_single _ rfl
  obtain ⟨t', ht', hiff⟩ := restart_iff hs hl
  refine ⟨s, t', hs, ht', hiff.mpr (fun F hF => ?_) _⟩
  obtain ⟨row, hrow, rfl⟩ := (retained_run hs).task_of_payload hF
  rw [htasks] at hrow
  cases List.mem_singleton.mp hrow
  decide

/-- A topic with an empty node is not the topic that is read back. -/
theorem restart_loses_empty_node :
    ∃ s t', Runs.run publishRetained initial (published "a//b") = some s ∧
      Lists (applyTasks (fun _ => none) s.treeManager.tasks) (listed "a//b") ∧
      preload .nil (listed "a//b") = .ok t' ∧
      payloadAt s.treeManager.tree ["a".toList, [], "b".toList] = some [49] ∧
      payloadAt t' ["a".toList, [], "b".toList] = none := by
  refine ⟨_, _, rfl, ?_, rfl, rfl, rfl⟩
  exact lists_single ⟨["a".toList, [], "b".toList], some [49], 0⟩ rfl

end MoteBroker.Restart

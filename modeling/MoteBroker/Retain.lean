import MoteBroker.Lib.LastWrite
import MoteBroker.Messages

/-!
`TreeManager` and `TreeWorker`: the retained tree, the tasks given to the worker, the
database the worker writes and the tree that is read back from it.
-/

namespace MoteBroker.Retain

open NestedDict MoteBroker.Topics MoteBroker.RecursiveDefaultDict MoteBroker.TreeItems
open MoteBroker.Rows MoteBroker.Messages

/-- The retained tree, and the tasks that wait for the worker. -/
structure TreeManager where
  tree : Rdd Payload
  tasks : List Row

/-- `branch = self.tree / topic_nodes` and then `branch.leaf = data`, if there is a branch: the
tree afterwards, with the nodes that the walk has created, and the exception. -/
def setLeaf (data : Payload) : Rdd Payload → List Str → Rdd Payload × Option Exc
  | tree, [] => (tree, some .indexError)
  | tree, [node] =>
    match getItem none tree node with
    | (.node branch, tree) => (tree.set node (.node (branch.set leafKey (.leaf data))), none)
    | (.leaf none, tree) => (tree, none)
    | (.leaf (some _), tree) => (tree, some .attributeError)
  | tree, node :: x :: next =>
    match getItem none tree node with
    | (.node branch, tree) =>
      let (branch, e) := setLeaf data branch (x :: next)
      (tree.set node (.node branch), e)
    | (.leaf none, tree) => (tree, none)
    | (.leaf (some _), tree) => (tree, some .typeError)

/-- The loop of `retain_rows`. -/
def setLeaves : Rdd Payload → List Row → Rdd Payload × Option Exc
  | tree, [] => (tree, none)
  | tree, row :: rows =>
    match setLeaf row.data tree row.topic with
    | (tree, none) => setLeaves tree rows
    | (tree, some e) => (tree, some e)

def TreeManager.addTasks (tm : TreeManager) (rows : List Row) : TreeManager :=
  { tm with tasks := tm.tasks ++ rows }

def TreeManager.retainRows (tm : TreeManager) (rows : List Row) : TreeManager × Option Exc :=
  let (tree, e) := setLeaves tm.tree rows
  ({ tm.addTasks rows with tree := tree }, e)

/-- The rows of a message that is to be retained. -/
def messageRows (message : IncomingMessage) (tree : Rdd Payload) : Except Exc (List Row) :=
  if message.graft then message.flattenIntoRows tree else message.getApplicableRows tree

def TreeManager.processMessage (tm : TreeManager) (message : IncomingMessage) :
    TreeManager × Except Exc (List Row) :=
  match messageRows message tm.tree with
  | .error e => (tm, .error e)
  | .ok rows =>
    match tm.retainRows rows with
    | (tm, none) => (tm, .ok rows)
    | (tm, some e) => (tm, .error e)

/-- `filter`. -/
def TreeManager.filter (tm : TreeManager) (topic : Topic) : Except Exc TreeItem :=
  FilterTree.filterTreeWithTopic topic.nodeList (.node tm.tree)

def TreeManager.getMessage (tm : TreeManager) (topic : Topic) (qos : ℕ) :
    Except Exc OutgoingMessage := do
  OutgoingMessage.fromTreeItem topic.fullStr qos (← tm.filter topic)

/-! ### The database -/

/-- The table of messages, a map from the text of a topic to data and qos. -/
abbrev Database := Str → Option (Bytes × ℕ)

/-- `run_tasks`: the deletions of the batch first, then its upserts. -/
def runTasks (db : Database) (messages : List Row) : Database := fun topic =>
  (LastWrite.last (messages.filterMap fun row =>
      row.data.map fun data => (join row.topic, (data, row.qos))) topic).or
    (if ∃ row ∈ messages, row.data = none ∧ join row.topic = topic then none else db topic)

/-- The worker applies every task in order. -/
def applyTasks (db : Database) (tasks : List Row) : Database :=
  tasks.foldl (fun db task => runTasks db [task]) db

/-- One turn of the loop of `preload`: the nodes of the topic are followed, empty ones left
out, and the data is put at their end. -/
def preloadRow (results : Rdd Payload) (topic : Str) (data : Bytes) : Except Exc (Rdd Payload) :=
  match (split topic).filter (· ≠ []) with
  | [] => .ok (results.set leafKey (.leaf (some data)))
  | nodes => (lshift none (fun _ => some data) results nodes).map Prod.snd

/-- `preload`, for the rows of the database in the order in which it lists them. -/
def preload : Rdd Payload → List (Str × Bytes) → Except Exc (Rdd Payload)
  | results, [] => .ok results
  | results, (topic, data) :: messages => do preload (← preloadRow results topic data) messages

/-! ### Tasks overwrite the database -/

/-- The payload of a topic in the database. -/
def dbPayload (db : Database) (topic : Str) : Payload := (db topic).map Prod.fst

lemma dbPayload_runTasks (db : Database) (task : Row) :
    dbPayload (runTasks db [task]) =
      Function.update (dbPayload db) (join task.topic) task.data := by
  funext topic
  rw [Function.update_apply]
  by_cases ht : topic = join task.topic
  · subst ht
    cases hd : task.data <;> simp [dbPayload, runTasks, hd, LastWrite.last_cons]
  · cases hd : task.data <;> simp [dbPayload, runTasks, hd, LastWrite.last_cons, Ne.symm ht, ht]

/-- Applying tasks in order overwrites the database. -/
lemma dbPayload_applyTasks (db : Database) (tasks : List Row) :
    dbPayload (applyTasks db tasks) =
      LastWrite.overwrite (dbPayload db) (tasks.map fun row => (join row.topic, row.data)) := by
  induction tasks generalizing db with
  | nil => rfl
  | cons task tasks ih =>
    rw [List.map_cons, LastWrite.overwrite_cons, ← dbPayload_runTasks]
    exact ih _

/-! ### Retaining rows -/

/-- The payload kept for a list of nodes, if any. -/
def payloadAt (t : Rdd Payload) (nodes : List Str) : Option Bytes := (valueAt t nodes).join

lemma path_of_singleLevel {nodes : List Str} (h0 : nodes ≠ []) (h : ∀ n ∈ nodes, SingleLevel n) :
    Path nodes := ⟨h0, fun hm => (h _ hm).ne_leafKey rfl⟩

/-- What rows write into the tree. -/
def leafWrites (rows : List Row) : List (List Str × Option Payload) :=
  rows.map fun row => (row.topic, some row.data)

lemma leafWrites_ne {rows : List Row} {topic : List Str} (hno : ∀ row ∈ rows, row.topic ≠ topic) :
    ∀ w ∈ leafWrites rows, w.1 ≠ topic := by
  intro w hw
  obtain ⟨row, hrow, rfl⟩ := List.mem_map.mp hw
  exact hno row hrow

lemma last_leafWrites (rows : List Row) (p : List Str) :
    LastWrite.last (leafWrites rows) p =
      (LastWrite.last (rows.map fun row => (row.topic, row.data)) p).map some := by
  rw [← LastWrite.last_map_snd, List.map_map]
  rfl

lemma setLeaf_of_lshift {data a : Payload} {t t' : Rdd Payload} {path : List Str}
    (h : lshift none (fun _ => data) t path = .ok (a, t')) : setLeaf data t path = (t', none) := by
  induction path generalizing t t' with
  | nil => cases h
  | cons node next ih =>
    cases next with
    | nil =>
      unfold lshift at h
      unfold setLeaf
      split at h
      case h_1 b d hget =>
        rw [hget]
        split at h
        case h_1 a b' hleaf =>
          cases h
          have hb : b'.set leafKey (.leaf data) = b.set leafKey (.leaf data) := by
            unfold getItem at hleaf
            split at hleaf <;> cases hleaf
            · rfl
            · exact Dict.set_set _ _ _ _
          rw [hb]
        case h_2 => cases h
      case h_2 => cases h
    | cons x next =>
      unfold lshift at h
      unfold setLeaf
      split at h
      case h_1 b d hget =>
        rw [hget]
        split at h
        case h_1 a b' hrec => cases h; simp [ih hrec]
        case h_2 => cases h
      case h_2 => cases h

/-- Putting data at a path of a tree of the right shape does not fail, and changes what the tree
holds there. -/
lemma setLeaf_spec (data : Payload) {t : Rdd Payload} (hs : Shape t) {path : List Str}
    (hp : Path path) :
    ∃ t', setLeaf data t path = (t', none) ∧ Shape t' ∧ (t.Distinct → t'.Distinct) ∧
      (∀ P : Str → Prop, KeysOf P t → (∀ n ∈ path, P n) → KeysOf P t') ∧
      valueAt t' = Function.update (valueAt t) path (some data) := by
  obtain ⟨t', h', hs', -, hd', -, hv'⟩ := lshift_spec none (fun _ => data) hs hp
  refine ⟨t', setLeaf_of_lshift h', hs', hd', fun P hk hP => ?_, funext fun q => ?_⟩
  · exact lshift_keys (Q := fun k => k ≠ leafKey → P k) (fun h => absurd rfl h) h' hk
      fun n hn _ => hP n hn
  · rw [hv', Function.update_apply]

/-- **Retaining rows overwrites the tree**: on a tree of the right shape, rows whose topics
are paths are all retained, and the tree holds afterwards what the last of them says. -/
theorem setLeaves_spec {t : Rdd Payload} (hs : Shape t) {rows : List Row}
    (hp : ∀ row ∈ rows, Path row.topic) :
    ∃ t', setLeaves t rows = (t', none) ∧ Shape t' ∧ (t.Distinct → t'.Distinct) ∧
      (∀ P : Str → Prop, KeysOf P t → (∀ row ∈ rows, ∀ n ∈ row.topic, P n) → KeysOf P t') ∧
      ∀ p, valueAt t' p = LastWrite.overwrite (valueAt t) (leafWrites rows) p := by
  induction rows generalizing t with
  | nil => exact ⟨t, rfl, hs, id, fun P h _ => h, fun p => rfl⟩
  | cons row rows ih =>
    simp only [List.mem_cons, forall_eq_or_imp] at hp
    obtain ⟨t₁, h₁, hs₁, hd₁, hk₁, hv₁⟩ := setLeaf_spec row.data hs hp.1
    obtain ⟨t', h', hs', hd', hk', hv'⟩ := ih hs₁ hp.2
    refine ⟨t', by simp [setLeaves, h₁, h'], hs', fun hd => hd' (hd₁ hd),
      fun P hk hP => ?_, fun p => ?_⟩
    · simp only [List.mem_cons, forall_eq_or_imp] at hP
      exact hk' P (hk₁ P hk hP.1) hP.2
    have hw : leafWrites (row :: rows) = (row.topic, some row.data) :: leafWrites rows := rfl
    rw [hv', hv₁, hw, LastWrite.overwrite_cons]

/-- **The last row wins**: on a tree of the right shape, rows whose topics are paths are retained
without an exception, the tree keeps its shape, and it is updated by one row after the other and
by nothing else. -/
theorem retainRows_last_wins {tm : TreeManager} (hs : Shape tm.tree) {rows : List Row}
    (hp : ∀ row ∈ rows, Path row.topic) :
    ∃ tree, tm.retainRows rows = (⟨tree, tm.tasks ++ rows⟩, none) ∧ Shape tree ∧
      (tm.tree.Distinct → tree.Distinct) ∧
      valueAt tree =
        rows.foldl (fun (m : List Str → Option Payload) row =>
          Function.update m row.topic (some row.data)) (valueAt tm.tree) ∧
      ∀ topic, (∀ row ∈ rows, row.topic ≠ topic) → valueAt tree topic = valueAt tm.tree topic := by
  obtain ⟨tree, heq, hs', hd', -, hvalue⟩ := setLeaves_spec hs hp
  refine ⟨tree, ?_, hs', hd', ?_, fun topic hno => ?_⟩
  · rw [TreeManager.retainRows, heq]
    rfl
  · calc valueAt tree = LastWrite.overwrite (valueAt tm.tree) (leafWrites rows) := funext hvalue
      _ = _ := by rw [LastWrite.overwrite_eq_foldl, leafWrites, List.foldl_map]
  · rw [hvalue, LastWrite.overwrite_of_notMem (leafWrites_ne hno)]

theorem retainRows_last_wins_below :
    let rows : List Row :=
      [⟨[['a'], ['b']], some [1], 0⟩, ⟨[['a']], none, 0⟩, ⟨[['a']], some [2], 0⟩]
    let retained : Rdd Payload := .node ['a'] (.leaf leafKey (some [0]) .nil) .nil
    ∃ tree, (⟨retained, []⟩ : TreeManager).retainRows rows = (⟨tree, rows⟩, none) ∧ Shape tree ∧
      (retained.Distinct → tree.Distinct) ∧
      valueAt tree =
        rows.foldl (fun (m : List Str → Option Payload) row =>
          Function.update m row.topic (some row.data)) (valueAt retained) ∧
      ∀ topic, (∀ row ∈ rows, row.topic ≠ topic) → valueAt tree topic = valueAt retained topic :=
  @retainRows_last_wins ⟨.node ['a'] (.leaf leafKey (some [0]) .nil) .nil, []⟩ (by decide)
    [⟨[['a'], ['b']], some [1], 0⟩, ⟨[['a']], none, 0⟩, ⟨[['a']], some [2], 0⟩] (by decide)

/-- Retaining rows that agree on a topic. -/
lemma valueAt_setLeaves {t : Rdd Payload} (hs : Shape t) {rows : List Row}
    (hp : ∀ row ∈ rows, Path row.topic) {topic : List Str} {data : Payload}
    (h : ∀ row ∈ rows, row.topic = topic → row.data = data) :
    valueAt (setLeaves t rows).1 topic =
      if ∃ row ∈ rows, row.topic = topic then some data else valueAt t topic := by
  obtain ⟨t', heq, -, -, -, hvalue⟩ := setLeaves_spec hs hp
  rw [heq, hvalue, LastWrite.overwrite]
  split_ifs with hrow
  · obtain ⟨row, hrow, rfl⟩ := hrow
    have hlast : LastWrite.last (leafWrites rows) row.topic = some (some data) := by
      refine LastWrite.last_eq_some_of_unique
        (List.mem_map.mpr ⟨row, hrow, by rw [h row hrow rfl]⟩) ?_
      intro w hw htopic
      obtain ⟨row', hrow', rfl⟩ := List.mem_map.mp hw
      rw [h row' hrow' htopic]
    rw [hlast, Option.getD_some]
  · have hno : ∀ row ∈ rows, row.topic ≠ topic := fun row hmem htopic => hrow ⟨row, hmem, htopic⟩
    rw [LastWrite.last_eq_none.mpr (leafWrites_ne hno), Option.getD_none]

/-- A topic that no row names keeps what it has. -/
lemma valueAt_setLeaves_of_ne {t : Rdd Payload} (hs : Shape t) {rows : List Row}
    (hp : ∀ row ∈ rows, Path row.topic) {topic : List Str}
    (hno : ∀ row ∈ rows, row.topic ≠ topic) :
    valueAt (setLeaves t rows).1 topic = valueAt t topic := by
  obtain ⟨t', heq, -, -, -, hvalue⟩ := setLeaves_spec hs hp
  rw [heq, hvalue, LastWrite.overwrite_of_notMem (leafWrites_ne hno)]

/-- A message whose rows are paths is retained. -/
lemma processMessage_ok {tm : TreeManager} (hs : Shape tm.tree) {message : IncomingMessage}
    {rows : List Row} (h : messageRows message tm.tree = .ok rows)
    (hp : ∀ row ∈ rows, Path row.topic) : tm.processMessage message =
      (⟨(setLeaves tm.tree rows).1, tm.tasks ++ rows⟩, .ok rows) := by
  obtain ⟨t', heq, -⟩ := setLeaves_spec hs hp
  simp only [TreeManager.processMessage, h, TreeManager.retainRows, TreeManager.addTasks, heq]

/-! ### The rows of a message -/

/-- The data of a message can be kept: it satisfies `D`, or is a payload tree whose keys satisfy
`P`. -/
def Fit (P : Str → Prop) (D : Payload → Prop) (message : IncomingMessage) : Prop :=
  if message.graft then
    ∀ b text json, message.data = some b → Utf8.decode b = some text →
      JsonText.loads text = some json → DataKeys P (popFlags json).2
  else D message.data

/-- **The rows of a message can be kept**, over a tree whose keys satisfy `P`. -/
theorem messageRows_ok {P : Str → Prop} {D : Payload → Prop} (hP : ∀ n, SingleLevel n → P n)
    (hD : OfText D)
    {message : IncomingMessage} {tree : Rdd Payload} {rows : List Row} {s : Str}
    (hnodes : message.topic.nodeList = split s) (hs : Shape tree) (hd : tree.Distinct)
    (hk : KeysOf P tree) (hf : Fit P D message) (h : messageRows message tree = .ok rows) :
    ∀ row ∈ rows, Keeps P D row := by
  have hsplit : ∀ n ∈ split s, P n := fun n hn => hP n (singleLevel_of_mem_split hn)
  unfold messageRows at h
  unfold Fit at hf
  by_cases hg : message.graft
  · rw [if_pos hg] at h hf
    unfold IncomingMessage.flattenIntoRows at h
    rw [hnodes] at h
    cases hdata : message.data with
    | none => rw [hdata] at h; cases h
    | some b =>
      simp only [hdata] at h
      cases htext : Utf8.decode b with
      | none => rw [htext] at h; cases h
      | some text =>
        simp only [htext] at h
        cases hjson : JsonText.loads text with
        | none => rw [hjson] at h; cases h
        | some json =>
          simp only [hjson] at h
          exact flattenMessageIntoRows_ok hD h hsplit (by simp)
            (hf b text json hdata htext hjson) hk
  · rw [if_neg hg] at h hf
    unfold IncomingMessage.getApplicableRows at h
    rw [hnodes] at h
    rcases @getApplicableRows_spec P message.data message.qos (split s) [] false (split_ne_nil s)
      (fun n hn _ => hsplit n hn) (by simp) (path_split s).2 tree hs hd hk
      with ⟨rows', hok, hrows⟩ | herr
    · rw [hok] at h
      cases h
      intro row hr
      obtain ⟨h0, hn, hdata⟩ := hrows row hr
      exact ⟨h0, hn, hdata ▸ hf⟩
    · rw [herr] at h; cases h

end MoteBroker.Retain

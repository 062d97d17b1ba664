import MoteBroker.Retain

/-!
All or nothing: what `process_message` leaves behind when it returns and when it raises, and for
which messages it either retains every row or changes nothing.
-/

namespace MoteBroker.AllOrNothing

open NestedDict MoteBroker.Topics MoteBroker.RecursiveDefaultDict MoteBroker.TreeItems
open MoteBroker.Rows MoteBroker.Messages MoteBroker.Retain

/-! ### The property -/

/-- A message that a client has published with the retain flag. -/
def Published (message : IncomingMessage) : Prop :=
  ∃ p : Publish, IncomingMessage.fromRawData p.raw_topic p.data p.qos true = .ok message

/-- The tree managers that publishes lead to, whatever the worker does with the tasks. -/
inductive Reachable : TreeManager → Prop
  | empty (tasks : List Row) : Reachable ⟨.nil, tasks⟩
  | publish {tm : TreeManager} {message : IncomingMessage} (h : Reachable tm)
    (hm : Published message) : Reachable (tm.processMessage message).1
  | tasks {tm : TreeManager} (h : Reachable tm) (tasks : List Row) :
    Reachable { tm with tasks := tasks }

/-- The tree holds for each of the rows' topics what the last row for it says. -/
def Stored (rows : List Row) (tree : Rdd Payload) : Prop :=
  ∀ row ∈ rows, valueAt tree row.topic =
    LastWrite.last (rows.map fun row => (row.topic, row.data)) row.topic

/-- The message's rows are all added to the tasks and stored, or it is refused and neither the
tasks nor the payload of any topic has changed. -/
def RetainsAllOrNothing (tm : TreeManager) (message : IncomingMessage) : Prop :=
  match tm.processMessage message with
  | (tm', .ok rows) => tm'.tasks = tm.tasks ++ rows ∧ Stored rows tm'.tree
  | (tm', .error _) => tm'.tasks = tm.tasks ∧ payloadAt tm'.tree = payloadAt tm.tree

/-- No value of a payload tree lies below the key `/`. -/
def ClearData (data : JsonText.Value) : Prop := ∀ leaf ∈ data.leaves, leafKey ∉ leaf.1

/-- The payload tree of a graft, without its flags, is clear of the key `/`. -/
def Clear (message : IncomingMessage) : Prop :=
  message.graft → ∀ b text json, message.data = some b → Utf8.decode b = some text →
    JsonText.loads text = some json → ClearData (popFlags json).2

/-! ### The tree keeps its shape -/

structure WellFormed (t : Rdd Payload) : Prop where
  shape : Shape t
  distinct : t.Distinct

lemma getItem_wellFormed {t t' : Rdd Payload} (h : WellFormed t) {k : Str}
    {v : Item Str Payload} (hget : getItem none t k = (v, t')) :
    WellFormed t' ∧ (∀ b, v = .node b → WellFormed b ∧ k ≠ leafKey) := by
  unfold getItem at hget
  cases hk : t.get k with
  | some w =>
    rw [hk] at hget
    cases hget
    refine ⟨h, ?_⟩
    rintro b rfl
    have hb := Dict.All.get h.shape hk
    exact ⟨⟨hb.2, h.distinct.get hk⟩, hb.1⟩
  | none =>
    rw [hk] at hget
    cases hget
    by_cases hleaf : k = leafKey
    · rw [missing, if_pos hleaf]
      refine ⟨⟨Dict.All.set h.shape hleaf trivial, h.distinct.set k trivial⟩, fun b hb => ?_⟩
      cases hb
    · rw [missing, if_neg hleaf]
      refine ⟨⟨h.shape.set_node hleaf shape_nil, h.distinct.set k trivial⟩, ?_⟩
      rintro b hb
      cases hb
      exact ⟨⟨shape_nil, trivial⟩, hleaf⟩

/-- Whether or not the walk fails, it leaves a tree. -/
lemma setLeaf_wellFormed (data : Payload) {t : Rdd Payload} (h : WellFormed t)
    (path : List Str) : WellFormed (setLeaf data t path).1 := by
  induction path generalizing t with
  | nil => exact h
  | cons node next ih =>
    cases hget : getItem none t node with
    | mk v t' =>
      obtain ⟨ht', hnode⟩ := getItem_wellFormed h hget
      cases next with
      | nil =>
        unfold setLeaf
        rw [hget]
        cases v with
        | node b =>
          obtain ⟨hb, hne⟩ := hnode b rfl
          exact ⟨ht'.shape.set_node hne (hb.shape.set_leaf data),
            ht'.distinct.set node (hb.distinct.set leafKey trivial)⟩
        | leaf a => cases a <;> exact ht'
      | cons x next =>
        unfold setLeaf
        rw [hget]
        cases v with
        | node b =>
          obtain ⟨hb, hne⟩ := hnode b rfl
          have hrec := ih hb
          exact ⟨ht'.shape.set_node hne hrec.shape, ht'.distinct.set node hrec.distinct⟩
        | leaf a => cases a <;> exact ht'

lemma setLeaves_wellFormed {t : Rdd Payload} (h : WellFormed t) (rows : List Row) :
    WellFormed (setLeaves t rows).1 := by
  induction rows generalizing t with
  | nil => exact h
  | cons row rows ih =>
    have hrow := setLeaf_wellFormed row.data h row.topic
    unfold setLeaves
    split
    case h_1 t' heq => rw [heq] at hrow; exact ih hrow
    case h_2 t' e heq => rw [heq] at hrow; exact hrow

/-- What `process_message` does, by the rows of the message. -/
lemma processMessage_cases (tm : TreeManager) (message : IncomingMessage) :
    (∃ e, messageRows message tm.tree = .error e ∧
        tm.processMessage message = (tm, .error e)) ∨
      ∃ rows, messageRows message tm.tree = .ok rows ∧
        ((tm.processMessage message).1 = ⟨(setLeaves tm.tree rows).1, tm.tasks ++ rows⟩) ∧
        ((setLeaves tm.tree rows).2 = none ∧ (tm.processMessage message).2 = .ok rows ∨
          ∃ e, (setLeaves tm.tree rows).2 = some e ∧
            (tm.processMessage message).2 = .error e) := by
  unfold TreeManager.processMessage TreeManager.retainRows TreeManager.addTasks
  cases hrows : messageRows message tm.tree with
  | error e => exact .inl ⟨e, rfl, rfl⟩
  | ok rows =>
    dsimp only
    cases hset : setLeaves tm.tree rows with
    | mk t e => cases e with
      | none => exact .inr ⟨rows, rfl, by rw [hset], .inl ⟨by rw [hset], rfl⟩⟩
      | some e => exact .inr ⟨rows, rfl, by rw [hset], .inr ⟨e, by rw [hset], rfl⟩⟩

lemma processMessage_wellFormed {tm : TreeManager} (h : WellFormed tm.tree)
    (message : IncomingMessage) : WellFormed (tm.processMessage message).1.tree := by
  rcases processMessage_cases tm message with ⟨e, -, heq⟩ | ⟨rows, -, heq, -⟩
  · rw [heq]
    exact h
  · rw [heq]
    exact setLeaves_wellFormed h rows

lemma Reachable.wellFormed {tm : TreeManager} (h : Reachable tm) : WellFormed tm.tree := by
  induction h with
  | empty tasks => exact ⟨shape_nil, trivial⟩
  | @publish tm message h hm ih => exact processMessage_wellFormed ih message
  | tasks h tasks ih => exact ih

/-! ### By the rows -/

/-- A row whose topic has the leaf key in it is not stored. -/
lemma valueAt_of_leafKey {t : Rdd Payload} (hs : Shape t) {nodes : List Str}
    (h : leafKey ∈ nodes) : valueAt t nodes = none := by
  cases hv : valueAt t nodes with
  | none => rfl
  | some a =>
    obtain ⟨ns, heq, hns⟩ := hs.path_of_leafAt hv
    rw [List.append_cancel_right heq] at h
    exact absurd h hns

lemma stored_of_overwrite {t t' : Rdd Payload} {rows : List Row}
    (h : ∀ p, valueAt t' p = LastWrite.overwrite (valueAt t) (leafWrites rows) p) :
    Stored rows t' := by
  intro row hrow
  rw [h, LastWrite.overwrite, last_leafWrites]
  cases hlast : LastWrite.last (rows.map fun row => (row.topic, row.data)) row.topic with
  | some a => rfl
  | none =>
    exact absurd rfl (LastWrite.last_eq_none.mp hlast (row.topic, row.data)
      (List.mem_map_of_mem hrow))

/-- All or nothing is retained exactly where no row has the leaf key in its topic. -/
lemma retainsAllOrNothing_iff {tm : TreeManager} (hw : WellFormed tm.tree)
    {message : IncomingMessage} (hne : ∀ rows, messageRows message tm.tree = .ok rows →
      ∀ row ∈ rows, row.topic ≠ []) :
    RetainsAllOrNothing tm message ↔ ∀ rows, messageRows message tm.tree = .ok rows →
      ∀ row ∈ rows, leafKey ∉ row.topic := by
  rcases processMessage_cases tm message with ⟨e, herr, heq⟩ | ⟨rows, hrows, hfst, hsnd⟩
  · unfold RetainsAllOrNothing
    rw [heq]
    refine ⟨fun _ rows hrows => ?_, fun _ => ⟨rfl, rfl⟩⟩
    rw [herr] at hrows
    cases hrows
  · have hpair : tm.processMessage message =
        (⟨(setLeaves tm.tree rows).1, tm.tasks ++ rows⟩, (tm.processMessage message).2) :=
      Prod.ext hfst rfl
    have hshape := (setLeaves_wellFormed hw rows).shape
    refine ⟨?_, ?_⟩
    · intro h rows' hrows' row hrow hleaf
      rw [hrows] at hrows'
      cases hrows'
      unfold RetainsAllOrNothing at h
      rw [hpair] at h
      rcases hsnd with ⟨-, hok⟩ | ⟨e, -, herr⟩
      · rw [hok] at h
        have hstored := h.2 row hrow
        rw [valueAt_of_leafKey hshape hleaf] at hstored
        exact LastWrite.last_eq_none.mp hstored.symm (row.topic, row.data)
          (List.mem_map_of_mem hrow) rfl
      · rw [herr] at h
        have hnil : rows = [] := List.append_right_eq_self.mp h.1
        rw [hnil] at hrow
        cases hrow
    · intro h
      obtain ⟨t', hset, -, -, -, hvalue⟩ := setLeaves_spec hw.shape fun row hrow =>
        ⟨hne rows hrows row hrow, h rows hrows row hrow⟩
      unfold RetainsAllOrNothing
      rw [hpair]
      rcases hsnd with ⟨-, hok⟩ | ⟨e, hsome, -⟩
      · rw [hok]
        refine ⟨rfl, ?_⟩
        rw [hset]
        exact stored_of_overwrite hvalue
      · rw [hset] at hsome
        cases hsome

/-! ### By the keys of the payload tree -/

section
variable {qos : ℕ} {flags : Option JsonText.Value}

/-- Every value of the payload tree is in a row below its keys. -/
lemma row_of_leaf {topic base : List Str} {val : JsonText.Value} {tree : Item Str Payload}
    {rows : List Row} (h : flattenMessageIntoRows qos flags topic val base tree = .ok rows)
    {keys : List Str} {a : JsonText.Scalar} (hleaf : (keys, a) ∈ val.leaves) :
    ∃ row ∈ rows, base ⊆ row.topic ∧ keys ⊆ row.topic := by
  replace h := flattens_of_ok h
  induction h generalizing keys with
  | last =>
    obtain ⟨rfl, -⟩ := Prod.mk.inj (List.mem_singleton.mp hleaf)
    exact ⟨_, List.mem_cons_self, List.subset_append_left _ _, by simp⟩
  | static _ _ _ _ _ ih =>
    obtain ⟨row, hrow, hbase, hkeys⟩ := ih hleaf
    exact ⟨row, hrow, fun n hn => hbase (List.mem_append_left _ hn), hkeys⟩
  | lastMany htext _ _ =>
    obtain ⟨k, v, q, hm, hq, rfl⟩ := Dict.mem_leaves_iff_items.mp hleaf
    have hv : v = .leaf (.str _) := htext _ hm
    rw [hv] at hq
    obtain ⟨rfl, -⟩ := Prod.mk.inj (List.mem_singleton.mp hq)
    exact ⟨_, List.mem_append_left _ (List.mem_map_of_mem hm), List.subset_append_left _ _,
      List.subset_append_right _ _⟩
  | many _ _ _ ih =>
    obtain ⟨k, v, q, hm, hq, rfl⟩ := Dict.mem_leaves_iff_items.mp hleaf
    obtain ⟨row, hrow, hbase, hkeys⟩ := ih _ hm hq
    refine ⟨row, List.mem_flatMap.mpr ⟨_, hm, hrow⟩,
      fun n hn => hbase (List.mem_append_left _ hn), fun n hn => ?_⟩
    rcases List.mem_cons.mp hn with rfl | hn
    · exact hbase (by simp)
    · exact hkeys hn

/-- There is nothing below the item in the tree. -/
def Barren (tree : Item Str Payload) : Prop := tree = .node .nil ∨ ∃ a, tree = .leaf a

lemma Barren.treeGet {tree branch : Item Str Payload} {key : Str} (h : Barren tree)
    (hget : treeGet tree key = .ok branch) : Barren branch := by
  rcases h with rfl | ⟨a, rfl⟩
  · cases hget
    exact .inl rfl
  · cases hget

/-- A payload tree without values has no rows where the tree has nothing either. -/
lemma flatten_no_leaves {topic base : List Str} {val : JsonText.Value} {tree : Item Str Payload}
    {rows : List Row} (h : flattenMessageIntoRows qos flags topic val base tree = .ok rows)
    (hval : val.leaves = []) (htree : Barren tree) : rows = [] := by
  replace h := flattens_of_ok h
  have hbelow : ∀ {d : Dict Str JsonText.Scalar}, d.leaves = [] → ∀ e ∈ d.items,
      e.2.leaves = [] := by
    intro d hd e he
    refine List.eq_nil_iff_forall_not_mem.mpr fun leaf hleaf => ?_
    have hmem := Dict.mem_leaves_iff_items.mpr ⟨e.1, e.2, leaf.1, he, hleaf, rfl⟩
    rw [hd] at hmem
    cases hmem
  induction h with
  | last => cases hval
  | static _ _ _ hbranch _ ih => exact ih hval (htree.treeGet hbranch)
  | @lastMany d base tree gone text htext hgone hnone =>
    have hitems : d.items = [] := List.eq_nil_iff_forall_not_mem.mpr fun e he => by
      have hleaves := hbelow hval e he
      rw [htext e he] at hleaves
      cases hleaves
    rw [hitems, List.map_nil, List.nil_append]
    by_cases hflag : flags = some (.leaf (.str manyCard))
    · have hgone := hgone hflag
      rcases htree with rfl | ⟨a, rfl⟩
      · cases hgone
        rfl
      · cases hgone
    · exact hnone hflag
  | many _ hbranch _ ih =>
    exact List.flatMap_eq_nil_iff.mpr fun e he =>
      ih e he (hbelow hval e he) (htree.treeGet (hbranch e he))

/-- An item of a tree of the right shape whose keys satisfy `P`. -/
structure ItemOf (P : Str → Prop) (v : Item Str Payload) : Prop where
  shape : ∀ d, v = .node d → Shape d
  keys : v.All fun k _ => k ≠ leafKey → P k

variable {P : Str → Prop}

lemma ItemOf.treeGet {tree branch : Item Str Payload} {key : Str} (h : ItemOf P tree)
    (hget : treeGet tree key = .ok branch) :
    ItemOf P branch ∧ (¬P key → Barren branch) := by
  cases tree with
  | leaf a => cases hget
  | node d =>
    cases hget
    have hd := h.shape d rfl
    cases hv : d.get key with
    | none => exact ⟨⟨fun e he => by cases he; exact shape_nil, trivial⟩, fun _ => .inl rfl⟩
    | some v =>
      have hkey := Dict.All.get h.keys hv
      refine ⟨⟨?_, hkey.2⟩, fun hno => ?_⟩
      · rintro e rfl
        exact (Dict.All.get hd hv).2
      · -- only the leaf key is in the tree without satisfying `P`
        obtain rfl : key = leafKey := by_contra fun hk => hno (hkey.1 hk)
        obtain ⟨a, rfl⟩ := hd.get_leaf hv
        exact .inr ⟨a, rfl⟩

/-- The topics of the rows are made of the keys above the values of the payload tree, of the
topic's static nodes and of the tree's keys. -/
lemma rows_keys {topic base : List Str} {val : JsonText.Value} {tree : Item Str Payload}
    {rows : List Row} (h : flattenMessageIntoRows qos flags topic val base tree = .ok rows)
    (htopic : ∀ n ∈ topic, isNodeStatic n → P n) (hbase : ∀ n ∈ base, P n)
    (hval : ∀ leaf ∈ val.leaves, ∀ k ∈ leaf.1, P k) (htree : ItemOf P tree) :
    ∀ row ∈ rows, ∀ n ∈ row.topic, P n := by
  replace h := flattens_of_ok h
  have hbelow : ∀ {d : Dict Str JsonText.Scalar}, (∀ leaf ∈ d.leaves, ∀ k ∈ leaf.1, P k) →
      ∀ e ∈ d.items, ∀ leaf ∈ e.2.leaves, P e.1 ∧ ∀ x ∈ leaf.1, P x := by
    intro d hd e he leaf hleaf
    exact List.forall_mem_cons.mp
      (hd _ (Dict.mem_leaves_iff_items.mpr ⟨_, _, _, he, hleaf, rfl⟩))
  induction h with
  | last hE hM =>
    intro row hr
    cases List.mem_singleton.mp hr
    exact mem_concat hbase (htopic _ List.mem_cons_self (isNodeStatic_of_ne hE hM))
  | static hE hM _ hbranch _ ih =>
    obtain ⟨hnode, hnext⟩ := List.forall_mem_cons.mp htopic
    exact ih hnext (mem_concat hbase (hnode (isNodeStatic_of_ne hE hM))) hval
      (htree.treeGet hbranch).1
  | @lastMany d base tree gone text htext hgone hnone =>
    intro row hr
    rcases List.mem_append.mp hr with hr | hr
    · obtain ⟨e, he, rfl⟩ := List.mem_map.mp hr
      have hleaf : ([], .str (text e)) ∈ e.2.leaves := by
        rw [htext e he]
        exact List.mem_cons_self
      exact mem_concat hbase (hbelow hval e he _ hleaf).1
    · by_cases hflag : flags = some (.leaf (.str manyCard))
      · exact (missingKeys_ok (P := P) (D := fun _ => True) ⟨trivial, fun _ => trivial⟩
          (hgone hflag) hbase htree.keys row hr).nodes
      · rw [hnone hflag] at hr
        cases hr
  | many _ hbranch hrows ih =>
    intro row hr
    obtain ⟨e, he, hr⟩ := List.mem_flatMap.mp hr
    obtain ⟨hitem, hbarren⟩ := htree.treeGet (hbranch e he)
    by_cases hkey : P e.1
    · exact ih e he (List.forall_mem_cons.mp htopic).2 (mem_concat hbase hkey)
        (fun leaf hleaf => (hbelow hval e he leaf hleaf).2) hitem row hr
    · -- below such a key there are no values, and the tree has nothing
      have hnone : e.2.leaves = [] := List.eq_nil_iff_forall_not_mem.mpr fun leaf hleaf =>
        hkey (hbelow hval e he leaf hleaf).1
      rw [flatten_no_leaves (hrows e he).ok hnone (hbarren hkey)] at hr
      cases hr

end

/-! ### All or nothing -/

lemma published_nodes {message : IncomingMessage} (h : Published message) :
    ∃ s, message.topic.nodeList = split s := by
  obtain ⟨p, hp⟩ := h
  exact (fromRawData_nodes hp).2

lemma rows_nonempty {message : IncomingMessage} (hm : Published message) {tree : Rdd Payload}
    (hw : WellFormed tree) {rows : List Row} (h : messageRows message tree = .ok rows) :
    ∀ row ∈ rows, row.topic ≠ [] := by
  obtain ⟨s, hnodes⟩ := published_nodes hm
  have hfit : Fit (fun _ => True) (fun _ => True) message := by
    unfold Fit
    split_ifs
    · intro b text json _ _ _
      cases (popFlags json).2 with
      | leaf a => trivial
      | node d => exact Dict.all_of_forall (fun _ _ => trivial) d
    · trivial
  have hkeep := messageRows_ok (P := fun _ => True) (D := fun _ => True) (fun _ _ => trivial)
    ⟨trivial, fun _ => trivial⟩ hnodes hw.shape hw.distinct
    (Dict.all_of_forall (fun _ _ _ => trivial) tree) hfit h
  exact fun row hrow => (hkeep row hrow).nonempty

/-- The keys above the values of the payload tree of a graft satisfy `P`. -/
def GraftKeys (P : Str → Prop) (message : IncomingMessage) : Prop :=
  message.graft → ∀ b text json, message.data = some b → Utf8.decode b = some text →
    JsonText.loads text = some json → ∀ leaf ∈ (popFlags json).2.leaves, ∀ k ∈ leaf.1, P k

/-- The topics of a message's rows are made of nodes that satisfy `P` exactly if the keys of its
payload tree do, over a tree whose keys do. -/
lemma rows_keys_iff {P : Str → Prop} (hP : ∀ n, SingleLevel n → isNodeStatic n → P n)
    {message : IncomingMessage} (hm : Published message) {tree : Rdd Payload}
    (hw : WellFormed tree) (hk : KeysOf P tree) {rows : List Row}
    (h : messageRows message tree = .ok rows) :
    (∀ row ∈ rows, ∀ n ∈ row.topic, P n) ↔ GraftKeys P message := by
  obtain ⟨s, hnodes⟩ := published_nodes hm
  have hsplit : ∀ n ∈ split s, isNodeStatic n → P n := fun n hn =>
    hP n (singleLevel_of_mem_split hn)
  unfold messageRows at h
  unfold GraftKeys
  by_cases hg : message.graft
  · rw [if_pos hg] at h
    unfold IncomingMessage.flattenIntoRows at h
    rw [hnodes] at h
    cases hdata : message.data with
    | none => rw [hdata] at h; cases h
    | some b =>
      simp only [hdata] at h
      cases htext : Utf8.decode b with
      | none => rw [htext] at h; cases h
      | some text =>
        simp only [htext] at h
        cases hjson : JsonText.loads text with
        | none => rw [hjson] at h; cases h
        | some json =>
          simp only [hjson] at h
          refine ⟨?_, ?_⟩
          · intro hrows _ b' text' json' hb' htext' hjson' leaf hleaf k hin
            cases hb'
            rw [htext] at htext'
            cases htext'
            rw [hjson] at hjson'
            cases hjson'
            obtain ⟨row, hrow, -, hkeys⟩ := row_of_leaf h hleaf
            exact hrows row hrow k (hkeys hin)
          · intro hkeys
            refine rows_keys h hsplit (by simp) (hkeys hg b text json rfl htext hjson)
              ⟨fun d hd => ?_, hk⟩
            cases hd
            exact hw.shape
  · refine ⟨fun _ hg' => absurd hg' hg, fun _ row hr => ?_⟩
    rw [if_neg hg] at h
    unfold IncomingMessage.getApplicableRows at h
    rw [hnodes] at h
    rcases @getApplicableRows_spec P message.data message.qos (split s) [] false (split_ne_nil s)
      hsplit (by simp) (path_split s).2 tree hw.shape hw.distinct hk with ⟨rows', hok, hrows⟩ | herr
    · rw [hok] at h
      cases h
      exact (hrows row hr).2.1
    · rw [herr] at h
      cases h

/-- The rows of a message have the leaf key in a topic exactly if its payload tree has a value
below it. -/
lemma rows_clear_iff {message : IncomingMessage} (hm : Published message) {tree : Rdd Payload}
    (hw : WellFormed tree) {rows : List Row} (h : messageRows message tree = .ok rows) :
    (∀ row ∈ rows, leafKey ∉ row.topic) ↔ Clear message := by
  have hmem : ∀ nodes : List Str, leafKey ∉ nodes ↔ ∀ n ∈ nodes, n ≠ leafKey := fun nodes =>
    ⟨fun hno n hn he => hno (he ▸ hn), fun hne hin => hne _ hin rfl⟩
  simp only [Clear, ClearData, hmem]
  exact rows_keys_iff (fun n hn _ => hn.ne_leafKey) hm hw
    (Dict.all_of_forall (fun _ _ hk => hk) tree) h

/-- **A retained publish is all or nothing** exactly when it is refused while its rows are made,
or none of the values of its payload tree lies below the key `/`. -/
theorem retainsAllOrNothing_iff_clear {tm : TreeManager} (h : Reachable tm)
    {message : IncomingMessage} (hm : Published message) :
    RetainsAllOrNothing tm message ↔
      (∃ e, messageRows message tm.tree = .error e) ∨ Clear message := by
  have hw := h.wellFormed
  rw [retainsAllOrNothing_iff hw fun rows hrows => rows_nonempty hm hw hrows]
  cases hrows : messageRows message tm.tree with
  | error e => exact ⟨fun _ => .inl ⟨e, rfl⟩, fun _ rows hr => nomatch hr⟩
  | ok rows =>
    have hclear := rows_clear_iff hm hw hrows
    refine ⟨?_, ?_⟩
    · exact fun hall => .inr (hclear.mp (hall rows rfl))
    · rintro (⟨e, he⟩ | hc) rows' hrows'
      · cases he
      · cases hrows'
        exact hclear.mpr hc

def doorMessage : IncomingMessage :=
  ⟨Topic.fromStr "hall/door".toList, 0, true, false, some [49]⟩

/-- The door in the hall has been retained. -/
def hall : TreeManager := ((⟨.nil, []⟩ : TreeManager).processMessage doorMessage).1

/-- `{"light": "1"}`, to be grafted at `hall/+`. -/
def lightObject : Dict Str (Option Str) := .leaf "light".toList (some ['1']) .nil

@[irreducible] def lightData : Payload := some (Utf8.encode (JsonText.dumps lightObject))

def lightGraft : IncomingMessage :=
  ⟨Topic.fromStr "hall/+".toList, 0, true, true, lightData⟩

theorem retainsAllOrNothing_door :
    valueAt hall.tree ["hall".toList, "door".toList] = some (some [49]) ∧
      (∃ rows, messageRows lightGraft hall.tree = .ok rows ∧
        ⟨["hall".toList, "light".toList], some [49], 0⟩ ∈ rows) ∧
      RetainsAllOrNothing hall lightGraft := by
  have hjson : JsonText.loads (JsonText.dumps lightObject) = _ :=
    JsonText.loads_dumps (by decide)
  have hdoor : Published doorMessage := ⟨⟨"hall/door".toList, some [49], 0⟩, rfl⟩
  have hlight : Published lightGraft := by
    have hraw : ∀ data, IncomingMessage.fromRawData "hall/+/".toList data 0 true =
        .ok ⟨Topic.fromStr "hall/+".toList, 0, true, true, data⟩ := fun _ => rfl
    exact ⟨⟨"hall/+/".toList, lightData, 0⟩, hraw lightData⟩
  refine ⟨rfl, ?_, (retainsAllOrNothing_iff_clear ((Reachable.empty []).publish hdoor)
    hlight).mpr (.inr ?_)⟩
  · have hgraft : lightGraft.graft = true := rfl
    rw [messageRows, if_pos hgraft, IncomingMessage.flattenIntoRows]
    simp only [lightGraft, lightData, Utf8.decode_encode, hjson]
    exact ⟨_, rfl, by decide⟩
  · intro _ b text json hb htext hloads
    simp only [lightGraft, lightData, Option.some.injEq] at hb
    obtain rfl := hb
    rw [Utf8.decode_encode] at htext
    cases htext
    rw [hjson] at hloads
    cases hloads
    intro leaf hleaf
    cases List.mem_singleton.mp hleaf
    decide

/-! ### A value below the key `/` -/

/-- `{"a": {"/": "1"}}`, to be grafted at `+/+`. -/
def slashObject : Dict Str (Option Str) := .node ['a'] (.leaf ['/'] (some ['1']) .nil) .nil

@[irreducible] def slashData : Payload := some (Utf8.encode (JsonText.dumps slashObject))

def slashGraft : IncomingMessage :=
  ⟨Topic.fromStr "+/+".toList, 0, true, true, slashData⟩

lemma slashGraft_rows :
    messageRows slashGraft .nil = .ok [⟨[['a'], ['/']], some [49], 0⟩] := by
  have hjson : JsonText.loads (JsonText.dumps slashObject) = _ :=
    JsonText.loads_dumps (by decide)
  have hgraft : slashGraft.graft = true := rfl
  rw [messageRows, if_pos hgraft, IncomingMessage.flattenIntoRows]
  simp only [slashGraft, slashData, Utf8.decode_encode, hjson]
  rfl

/-- Such a graft is published with a separator after its topic. -/
lemma slashGraft_published : Published slashGraft := by
  have hraw : ∀ data, IncomingMessage.fromRawData "+/+/".toList data 0 true =
      .ok ⟨Topic.fromStr "+/+".toList, 0, true, true, data⟩ := fun _ => rfl
  exact ⟨⟨"+/+/".toList, slashData, 0⟩, hraw slashData⟩

/-- The row of a value below the key `/` is given to the worker and not stored. -/
theorem slashGraft_half_retained :
    Reachable ⟨.nil, []⟩ ∧ Published slashGraft ∧ ¬RetainsAllOrNothing ⟨.nil, []⟩ slashGraft := by
  refine ⟨.empty [], slashGraft_published, fun h => ?_⟩
  have hne : ∀ rows, messageRows slashGraft .nil = .ok rows → ∀ row ∈ rows, row.topic ≠ [] := by
    intro rows hrows row hr
    obtain rfl := Except.ok.inj (slashGraft_rows.symm.trans hrows)
    obtain rfl := List.mem_singleton.mp hr
    exact List.cons_ne_nil _ _
  have hw : WellFormed (⟨.nil, []⟩ : TreeManager).tree := ⟨shape_nil, trivial⟩
  have hclear := (retainsAllOrNothing_iff hw hne).mp h _ slashGraft_rows
  exact hclear _ List.mem_cons_self (by decide)

end MoteBroker.AllOrNothing

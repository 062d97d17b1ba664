import MoteBroker.AllOrNothing
import MoteBroker.Broker
import MoteBroker.Lib.Runs

/-!
Concrete topics: which retained publishes leave the tree, the worker's tasks and the broadcast
rows with topics that have neither wildcards nor separators in their nodes.
-/

namespace MoteBroker.Concrete

open NestedDict MoteBroker.Topics MoteBroker.RecursiveDefaultDict MoteBroker.TreeItems
open MoteBroker.Rows MoteBroker.Messages MoteBroker.Retain MoteBroker.Broker
open MoteBroker.AllOrNothing

/-! ### The property -/

/-- Neither a wildcard nor more than one level. -/
def ConcreteNode (node : Str) : Prop := isNodeStatic node = true ∧ SingleLevel node

/-- A topic of concrete nodes, which its text gives back. -/
def ConcreteRow (row : Row) : Prop :=
  (∀ n ∈ row.topic, ConcreteNode n) ∧ split (join row.topic) = row.topic

/-- The keys of the tree are concrete, and so are the rows that have been given to the worker or
broadcast. -/
structure RetainedConcrete (s : State) : Prop where
  keys : KeysOf ConcreteNode s.treeManager.tree
  tasks : ∀ row ∈ s.treeManager.tasks, ConcreteRow row
  broadcast : ∀ rows ∈ s.broadcastQueue, ∀ row ∈ rows, ConcreteRow row

/-- A client's retained publish; one that raises leaves what it has done. -/
def publishRetained (s : State) (p : Publish) : State :=
  match IncomingMessage.fromRawData p.raw_topic p.data p.qos true with
  | .error _ => s
  | .ok message => (s.publish message).1

/-- The publish is refused before it has rows, or the keys above the values of its payload tree
are concrete. -/
def Admissible (s : State) (p : Publish) : Prop :=
  ∀ message, IncomingMessage.fromRawData p.raw_topic p.data p.qos true = .ok message →
    message.table = .ok false →
      (∃ e, messageRows message s.treeManager.tree = .error e) ∨ GraftKeys ConcreteNode message

/-! ### One publish -/

/-- What a retained publish does: nothing that concerns the tree, or it has rows, which go to the
worker, and are broadcast unless they cannot be stored. -/
lemma publishRetained_cases (s : State) (p : Publish) :
    (Admissible s p ∧ (publishRetained s p).treeManager = s.treeManager ∧
        (publishRetained s p).broadcastQueue = s.broadcastQueue) ∨
      ∃ message rows, Published message ∧
        (Admissible s p ↔ GraftKeys ConcreteNode message) ∧
        messageRows message s.treeManager.tree = .ok rows ∧
        (publishRetained s p).treeManager =
          ⟨(setLeaves s.treeManager.tree rows).1, s.treeManager.tasks ++ rows⟩ ∧
        ((publishRetained s p).broadcastQueue = s.broadcastQueue ∨
          (publishRetained s p).broadcastQueue = s.broadcastQueue ++ [rows]) := by
  unfold publishRetained Admissible
  cases hraw : IncomingMessage.fromRawData p.raw_topic p.data p.qos true with
  | error e => exact .inl ⟨fun m hm => (nomatch hm), rfl, rfl⟩
  | ok message =>
    simp only [Except.ok.injEq, forall_eq']
    unfold State.publish
    cases htable : message.table with
    | error e => exact .inl ⟨fun h => (nomatch h), rfl, rfl⟩
    | ok table =>
      cases table with
      | true => exact .inl ⟨fun h => (nomatch h), rfl, rfl⟩
      | false =>
        have hretain := (fromRawData_nodes hraw).1
        simp only [State.publishRows, hretain, if_true]
        rcases processMessage_cases s.treeManager message with
          ⟨e, herr, heq⟩ | ⟨rows, hrows, hfst, hsnd⟩
        · rw [heq]
          exact .inl ⟨fun _ => .inl ⟨e, herr⟩, rfl, rfl⟩
        · refine .inr ⟨message, rows, ⟨p, hraw⟩, ?_, hrows, ?_⟩
          · simp [hrows]
          · rcases hsnd with ⟨-, hok⟩ | ⟨e, -, herr⟩
            · rw [hok]
              exact ⟨hfst, .inr rfl⟩
            · rw [herr]
              exact ⟨hfst, .inl rfl⟩

lemma publishRetained_wellFormed {s : State} (h : WellFormed s.treeManager.tree) (p : Publish) :
    WellFormed (publishRetained s p).treeManager.tree := by
  rcases publishRetained_cases s p with ⟨-, htm, -⟩ | ⟨message, rows, -, -, -, htm, -⟩
  · rw [htm]
    exact h
  · rw [htm]
    exact setLeaves_wellFormed h rows

/-- What the worker has been given stays given. -/
lemma publishRetained_tasks (s : State) (p : Publish) :
    s.treeManager.tasks ⊆ (publishRetained s p).treeManager.tasks := by
  rcases publishRetained_cases s p with ⟨-, htm, -⟩ | ⟨message, rows, -, -, -, htm, -⟩
  · rw [htm]
    exact List.Subset.refl _
  · rw [htm]
    exact List.subset_append_left _ _

/-- An admissible publish keeps everything concrete. -/
lemma RetainedConcrete.publish {s : State} (h : RetainedConcrete s)
    (hw : WellFormed s.treeManager.tree) {p : Publish} (hp : Admissible s p) :
    RetainedConcrete (publishRetained s p) := by
  rcases publishRetained_cases s p with
    ⟨-, htm, hqueue⟩ | ⟨message, rows, hm, hiff, hrows, htm, hqueue⟩
  · exact ⟨by rw [htm]; exact h.keys, by rw [htm]; exact h.tasks, by rw [hqueue]; exact h.broadcast⟩
  · have hnodes : ∀ row ∈ rows, ∀ n ∈ row.topic, ConcreteNode n :=
      (rows_keys_iff (fun n hn hstatic => ⟨hstatic, hn⟩) hm hw h.keys hrows).mpr (hiff.mp hp)
    have hne := rows_nonempty hm hw hrows
    have hrow : ∀ row ∈ rows, ConcreteRow row := fun row hr =>
      ⟨hnodes row hr, split_join (fun n hn => (hnodes row hr n hn).2) (hne row hr)⟩
    obtain ⟨t', hset, -, -, hkeys, -⟩ := setLeaves_spec hw.shape fun row hr =>
      path_of_singleLevel (hne row hr) fun n hn => (hnodes row hr n hn).2
    refine ⟨?_, ?_, ?_⟩
    · rw [htm, hset]
      exact hkeys _ h.keys hnodes
    · rw [htm]
      intro row hr
      exact (List.mem_append.mp hr).elim (h.tasks row) (hrow row)
    · rcases hqueue with hqueue | hqueue <;> rw [hqueue]
      · exact h.broadcast
      · intro rs hrs
        rcases List.mem_append.mp hrs with hrs | hrs
        · exact h.broadcast rs hrs
        · rw [List.mem_singleton.mp hrs]
          exact hrow

/-- And any other gives the worker a row that is not concrete. -/
lemma admissible_of_tasks {s : State} (h : RetainedConcrete s) (hw : WellFormed s.treeManager.tree)
    {p : Publish} (hp : ∀ row ∈ (publishRetained s p).treeManager.tasks, ConcreteRow row) :
    Admissible s p := by
  rcases publishRetained_cases s p with ⟨hok, -, -⟩ | ⟨message, rows, hm, hiff, hrows, htm, -⟩
  · exact hok
  · refine hiff.mpr <|
      (rows_keys_iff (fun n hn hstatic => ⟨hstatic, hn⟩) hm hw h.keys hrows).mp fun row hr => ?_
    rw [htm] at hp
    exact (hp row (List.mem_append_right _ hr)).1

/-! ### Every run -/

lemma run_tasks {s s' : State} {ps : List Publish}
    (hrun : Runs.run (fun s p => some (publishRetained s p)) s ps = some s') :
    s.treeManager.tasks ⊆ s'.treeManager.tasks := by
  have hstep : ∀ t p t', s.treeManager.tasks ⊆ t.treeManager.tasks →
      some (publishRetained t p) = some t' → s.treeManager.tasks ⊆ t'.treeManager.tasks :=
    fun t p t' ht hs => by
      cases hs
      exact List.Subset.trans ht (publishRetained_tasks t p)
  exact Runs.run_invariant_of_step hstep (List.Subset.refl _) hrun

lemma retainedConcrete_iff {s s' : State} {ps : List Publish}
    (hrun : Runs.run (fun s p => some (publishRetained s p)) s ps = some s')
    (h : RetainedConcrete s) (hw : WellFormed s.treeManager.tree) :
    RetainedConcrete s' ↔
      Runs.Meets (fun s p => some (publishRetained s p)) Admissible s ps := by
  induction ps generalizing s with
  | nil =>
    cases hrun
    exact ⟨fun _ => trivial, fun _ => h⟩
  | cons p ps ih =>
    rw [Runs.run_cons, Option.bind_some] at hrun
    have hw' := publishRetained_wellFormed hw p
    refine ⟨?_, ?_⟩
    · intro h'
      have hp := admissible_of_tasks h hw fun row hr => h'.tasks row (run_tasks hrun hr)
      exact .cons hp rfl ((ih hrun (h.publish hw hp) hw').mp h')
    · intro hmeets
      exact (ih hrun (h.publish hw hmeets.1) hw').mpr (hmeets.2 _ rfl)

lemma retainedConcrete_initial : RetainedConcrete initial :=
  ⟨trivial, fun _ h => (nomatch h), fun _ h => (nomatch h)⟩

/-- **Retained topics are concrete** after a run of retained publishes exactly if each of them is
refused, or has no value below a wildcard or a separator in the keys of its payload tree. -/
theorem retained_concrete_iff {ps : List Publish} {s : State}
    (hrun : Runs.run (fun s p => some (publishRetained s p)) initial ps = some s) :
    RetainedConcrete s ↔
      Runs.Meets (fun s p => some (publishRetained s p)) Admissible initial ps :=
  retainedConcrete_iff hrun retainedConcrete_initial ⟨shape_nil, trivial⟩

/-! ### A graft under any key -/

/-- An object with one value. -/
def roomObject (key : Str) : Dict Str (Option Str) := .leaf key (some ['1']) .nil

@[irreducible] def roomData (key : Str) : Payload :=
  some (Utf8.encode (JsonText.dumps (roomObject key)))

def roomGraft (key : Str) : Publish := ⟨"room/+/".toList, roomData key, 0⟩

lemma roomGraft_message (key : Str) :
    IncomingMessage.fromRawData (roomGraft key).raw_topic (roomGraft key).data 0 true =
      .ok ⟨Topic.fromStr "room/+".toList, 0, true, true, roomData key⟩ := rfl

lemma roomGraft_rows {key : Str} (hkey : key ≠ leafKey) :
    messageRows ⟨Topic.fromStr "room/+".toList, 0, true, true, roomData key⟩ .nil =
      .ok [⟨["room".toList, key], some [49], 0⟩] := by
  have hjson : JsonText.loads (JsonText.dumps (roomObject key)) =
      some (.node (.leaf key (.str ['1']) .nil)) :=
    JsonText.loads_dumps ⟨List.not_mem_nil, trivial⟩
  have hpop : popFlags (.node (.leaf key (.str ['1']) .nil)) =
      (none, .node (.leaf key (.str ['1']) .nil)) := by
    simp [popFlags, Dict.get, Dict.pop, hkey]
  rw [messageRows, if_pos rfl, IncomingMessage.flattenIntoRows]
  simp only [roomData, Utf8.decode_encode, hjson, hpop]
  rfl

/-- A light is grafted, and deleted through a wildcard. -/
theorem retained_concrete_room :
    ∃ s, Runs.run (fun s p => some (publishRetained s p)) initial
        [roomGraft "light".toList, ⟨"room/+".toList, none, 1⟩] = some s ∧ RetainedConcrete s := by
  refine ⟨_, rfl, (retained_concrete_iff rfl).mpr (.cons ?_ rfl (.cons ?_ rfl .nil))⟩
  · intro message hm _
    obtain rfl := Except.ok.inj ((roomGraft_message _).symm.trans hm)
    have hrows := roomGraft_rows (show "light".toList ≠ leafKey by decide)
    refine .inr ((rows_keys_iff (fun n hn hstatic => ⟨hstatic, hn⟩) ⟨_, hm⟩ ⟨shape_nil, trivial⟩
      trivial hrows).mp fun row hr n hn => ?_)
    obtain rfl := List.mem_singleton.mp hr
    obtain rfl | rfl : n = "room".toList ∨ n = "light".toList := by simpa using hn
    · exact ⟨by decide, by decide⟩
    · exact ⟨by decide, by decide⟩
  · intro message hm _
    obtain rfl := Except.ok.inj (hm.symm.trans rfl)
    exact .inr fun hg => (nomatch hg)

/-- A graft with the key `+` retains a topic with a wildcard. -/
theorem roomGraft_not_concrete :
    ∃ s, Runs.run (fun s p => some (publishRetained s p)) initial [roomGraft manyCard] = some s ∧
      ¬RetainedConcrete s := by
  refine ⟨_, rfl, fun h => ?_⟩
  have hok := admissible_of_tasks retainedConcrete_initial ⟨shape_nil, trivial⟩ h.tasks
  rcases hok _ (roomGraft_message manyCard) rfl with ⟨e, he⟩ | hkeys
  · cases he.symm.trans (@roomGraft_rows manyCard (by decide))
  · have hrows := (rows_keys_iff (fun n hn hstatic => ⟨hstatic, hn⟩)
      ⟨roomGraft manyCard, roomGraft_message manyCard⟩ ⟨shape_nil, trivial⟩ trivial
      (roomGraft_rows (by decide))).mpr hkeys
    exact absurd (hrows _ List.mem_cons_self manyCard (by decide)).1 (by decide)

end MoteBroker.Concrete

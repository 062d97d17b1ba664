import MoteBroker.FilterTree
import MoteBroker.Rows

/-!
Incoming and outgoing messages: how raw data becomes a message, a message becomes rows, and a
filter's result becomes a message.
-/

namespace MoteBroker.Messages

open NestedDict MoteBroker.Topics MoteBroker.RecursiveDefaultDict MoteBroker.TreeItems
open MoteBroker.Rows

structure IncomingMessage where
  topic : Topic
  qos : ℕ
  retain : Bool
  graft : Bool
  data : Payload
  deriving DecidableEq, Repr

/-- `table`. -/
def IncomingMessage.table (m : IncomingMessage) : Except Exc Bool := m.topic.forTable

/-- A trailing separator on the topic of a retained message is the graft flag. -/
def IncomingMessage.fromRawData (raw_topic : Str) (data : Payload) (qos : ℕ) (retain : Bool) :
    Except Exc IncomingMessage :=
  if retain then
    match raw_topic.getLast? with
    | none => .error .indexError
    | some last =>
      if last = topicSep then .ok ⟨Topic.fromStr raw_topic.dropLast, qos, true, true, data⟩
      else .ok ⟨Topic.fromStr raw_topic, qos, true, false, data⟩
  else .ok ⟨Topic.fromStr raw_topic, qos, false, false, data⟩

structure PublishPacket where
  topic : Str
  data : Payload
  qos : ℕ
  retain : Bool
  id : ℕ
  deriving DecidableEq

/-- `IncomingMessage.from_packet`. -/
def fromPacket (packet : PublishPacket) : Except Exc IncomingMessage :=
  IncomingMessage.fromRawData packet.topic packet.data packet.qos packet.retain

/-- What a client sends to have it retained. -/
structure Publish where
  raw_topic : Str
  data : Payload
  qos : ℕ

/-- Whatever the raw topic, the nodes of the message are those of a string. -/
lemma fromRawData_nodes {raw_topic : Str} {data : Payload} {qos : ℕ} {retain : Bool}
    {m : IncomingMessage} (h : IncomingMessage.fromRawData raw_topic data qos retain = .ok m) :
    m.retain = retain ∧ ∃ s, m.topic.nodeList = split s := by
  unfold IncomingMessage.fromRawData at h
  cases retain with
  | false => cases h; exact ⟨rfl, _, rfl⟩
  | true =>
    rw [if_pos rfl] at h
    cases hl : raw_topic.getLast? with
    | none => rw [hl] at h; cases h
    | some last =>
      simp only [hl] at h
      split_ifs at h <;> cases h <;> exact ⟨rfl, _, rfl⟩

/-- `data.pop(LEAF_KEY, None)`: the flags, and the data without them. -/
def popFlags (data : JsonText.Value) : Option JsonText.Value × JsonText.Value :=
  match data with
  | .node d => (d.get leafKey, .node (d.pop leafKey))
  | .leaf _ => (none, data)

def IncomingMessage.flattenIntoRows (m : IncomingMessage) (tree : Rdd Payload) :
    Except Exc (List Row) :=
  match m.data with
  | none => .error .attributeError
  | some bytes =>
    match Utf8.decode bytes with
    | none => .error .unicodeDecodeError
    | some text =>
      match JsonText.loads text with
      | none => .error .jsonDecodeError
      | some json =>
        flattenMessageIntoRows m.qos (popFlags json).1 m.topic.nodeList (popFlags json).2 []
          (.node tree)

lemma flattenIntoRows_of_json {m : IncomingMessage} {b : Bytes} {json : JsonText.Value}
    (hb : m.data = some b) (hjson : readJson b = some json) (tree : Rdd Payload) :
    m.flattenIntoRows tree = flattenMessageIntoRows m.qos (popFlags json).1 m.topic.nodeList
      (popFlags json).2 [] (.node tree) := by
  obtain ⟨text, htext, hloads⟩ := Option.bind_eq_some_iff.mp hjson
  simp only [IncomingMessage.flattenIntoRows, hb, htext, hloads]

def IncomingMessage.getApplicableRows (m : IncomingMessage) (tree : Rdd Payload) :
    Except Exc (List Row) :=
  Rows.getApplicableRows m.data m.qos m.topic.nodeList [] (.node tree) false

def IncomingMessage.asSingleRow (m : IncomingMessage) : Except Exc Row :=
  if m.topic.nodeList.all isNodeStatic then .ok ⟨m.topic.nodeList, m.data, m.qos⟩
  else .error .dynamicMessageError

/-- The data of an outgoing message: a payload, or the empty string of a filter. -/
inductive OutData
  | emptyStr
  | payload (p : Payload)
  deriving DecidableEq, Repr

structure OutgoingMessage where
  topic : Str
  qos : ℕ
  data : OutData
  deriving DecidableEq, Repr

def OutgoingMessage.fromTreeItem (topic : Str) (qos : ℕ) (tree_item : TreeItem) :
    Except Exc OutgoingMessage :=
  match tree_item with
  | .emptyStr => .ok ⟨topic, qos, .emptyStr⟩
  | .item (.leaf a) => .ok ⟨topic, qos, .payload a⟩
  | .item (.node d) => (stringify d).map fun b => ⟨topic, qos, .payload (some b)⟩

/-! ### What a snapshot says -/

/-- What a message for the filter says about the captured nodes. -/
def OutData.named (F : List Str) (data : OutData) (c : List Str) : Option Payload :=
  match data with
  | .emptyStr => none
  | .payload p => TreeItems.named F p c

/-- The view overridden by a message. -/
def OutData.override (F : List Str) (data : OutData) (v : View) : View := fun c =>
  match data.named F c with
  | some p => present p
  | none => v c

lemma override_payload (F : List Str) (p : Payload) (v : View) :
    (OutData.payload p).override F v = TreeItems.override F p v := rfl

/-- **A snapshot says what the filter found**: the message made of a filter's result stands
for the view of that result. -/
theorem fromTreeItem_spec {F : List Str} {t : Rdd Payload} {x : TreeItem}
    (h : FilterTree.Answer F t x) (hdec : ∀ p a, valueAt t p = some a → Decodes a) (topic : Str)
    (qos : ℕ) :
    ∃ m, OutgoingMessage.fromTreeItem topic qos x = .ok m ∧ m.topic = topic ∧
      m.data.override F (fun _ => none) = x.view := by
  match x, h with
  | .emptyStr, _ => exact ⟨_, rfl, rfl, rfl⟩
  | .item (.leaf a), h =>
    have hF : manyCard ∉ F := fun hm => by simpa [hm] using h.shape
    refine ⟨_, rfl, rfl, funext fun c => ?_⟩
    rcases c with _ | ⟨k, c⟩
    · simp [OutData.override, OutData.named, TreeItems.named, hF, TreeItem.view]
    · simp [OutData.override, OutData.named, TreeItems.named, hF, TreeItem.view]
  | .item (.node d), h =>
    have hF : manyCard ∈ F := by
      by_contra hm
      simpa [hm] using h.shape
    have hleaf : ∀ p a, d.leafAt p = some a → Decodes a := fun p a ha => by
      rcases h.source _ rfl p a ha with rfl | ⟨q, hq⟩
      · exact decodes_none
      · exact hdec q a hq
    obtain ⟨b, hb, hread⟩ := readJson_stringify (h.distinct _ rfl) hleaf
    refine ⟨⟨topic, qos, .payload (some b)⟩,
      by simp [OutgoingMessage.fromTreeItem, hb, Except.map], rfl, funext fun c => ?_⟩
    rw [override_payload, TreeItems.override, TreeItems.named, if_pos hF, Option.bind_some, hread]
    simp only [Dict.leafAt_map, TreeItem.view, Item.leafAt_node]
    cases hc : d.leafAt c with
    | none => rfl
    | some a => simp [scalarPayload_payloadScalar (hleaf c a hc)]

end MoteBroker.Messages

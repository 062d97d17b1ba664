import MoteBroker.Lib.JsonText
import MoteBroker.RecursiveDefaultDict

/-!
Payloads, rows and tree items, the JSON text that `stringify` makes of a tree, and what a
client reads in it.
-/

namespace MoteBroker.TreeItems

open NestedDict MoteBroker.Topics MoteBroker.RecursiveDefaultDict

/-- The data of a message: bytes or `None`. -/
abbrev Payload := Option Bytes

/-- `(topic_nodes, data, qos)`. -/
structure Row where
  topic : List Str
  data : Payload
  qos : ℕ
  deriving DecidableEq, Repr

/-- What a filter returns: the empty string, a leaf or a dictionary. -/
inductive TreeItem
  | emptyStr
  | item (v : Item Str Payload)
  deriving DecidableEq, Repr

/-! ### Stringify -/

/-- The encoder's view of a tree: `None` is null, bytes are decoded. -/
def decodeLeaves : Rdd Payload → Option (Dict Str (Option Str))
  | .nil => some .nil
  | .leaf k none r => (decodeLeaves r).map (.leaf k none)
  | .leaf k (some b) r => do
    let s ← Utf8.decode b
    let r ← decodeLeaves r
    return .leaf k (some s) r
  | .node k s r => do
    let s ← decodeLeaves s
    let r ← decodeLeaves r
    return .node k s r

def stringify (tree_item : Rdd Payload) : Except Exc Bytes :=
  match decodeLeaves tree_item with
  | some j => .ok (Utf8.encode (JsonText.dumps j))
  | none => .error .unicodeDecodeError

/-- What a client reads in the bytes of a message: a JSON value. -/
def readJson (b : Bytes) : Option JsonText.Value := (Utf8.decode b).bind JsonText.loads

lemma distinct_of_readJson {b : Bytes} {json : JsonText.Value} (h : readJson b = some json) :
    json.Distinct := by
  obtain ⟨text, -, hloads⟩ := Option.bind_eq_some_iff.mp h
  exact JsonText.loads_distinct hloads

/-- The payload can be written as a JSON string or null. -/
def Decodes (p : Payload) : Prop := ∀ b, p = some b → (Utf8.decode b).isSome

def payloadScalar : Payload → JsonText.Scalar
  | none => .null
  | some b => .str ((Utf8.decode b).getD [])

def scalarPayload : JsonText.Scalar → Payload
  | .str s => some (Utf8.encode s)
  | _ => none

lemma decodes_none : Decodes none := fun _ h => by cases h

lemma scalarPayload_payloadScalar {p : Payload} (h : Decodes p) :
    scalarPayload (payloadScalar p) = p := by
  cases p with
  | none => rfl
  | some b =>
    obtain ⟨s, hs⟩ := Option.isSome_iff_exists.mp (h b rfl)
    simp [payloadScalar, scalarPayload, hs, Utf8.encode_of_decode hs]

lemma decodeLeaves_some {d : Rdd Payload}
    (h : d.All fun _ v => ∀ a, v = .leaf a → Decodes a) :
    ∃ j, decodeLeaves d = some j ∧ j.map JsonText.toScalar = d.map payloadScalar := by
  induction d with
  | nil => exact ⟨.nil, rfl, rfl⟩
  | leaf k a r ih =>
    obtain ⟨j, hj, he⟩ := ih h.2
    cases a with
    | none =>
      exact ⟨.leaf k none j, by simp [decodeLeaves, hj],
        by simp [Dict.map, he, JsonText.toScalar, payloadScalar]⟩
    | some b =>
      obtain ⟨s, hs⟩ := Option.isSome_iff_exists.mp (h.1 (some b) rfl b rfl)
      exact ⟨.leaf k (some s) j, by simp [decodeLeaves, hs, hj],
        by simp [Dict.map, he, JsonText.toScalar, payloadScalar, hs]⟩
  | node k s r ihs ih =>
    obtain ⟨i, hi, he⟩ := ihs h.2.1
    obtain ⟨j, hj, he'⟩ := ih h.2.2
    exact ⟨.node k i j, by simp [decodeLeaves, hi, hj], by simp [Dict.map, he, he']⟩

/-- **What is read is what was written**: a tree of decodable leaves is stringified, and the
text is read back as the tree with its payloads as strings. -/
theorem readJson_stringify {d : Rdd Payload} (hd : d.Distinct)
    (h : ∀ p a, d.leafAt p = some a → Decodes a) :
    ∃ b, stringify d = .ok b ∧ readJson b = some (.node (d.map payloadScalar)) := by
  obtain ⟨j, hj, he⟩ := decodeLeaves_some (Dict.all_of_leafAt hd h)
  refine ⟨_, by rw [stringify, hj], ?_⟩
  have hjd : j.Distinct := by
    rw [← Dict.distinct_map JsonText.toScalar, he, Dict.distinct_map]; exact hd
  rw [readJson, Utf8.decode_encode, Option.bind_some, JsonText.loads_dumps hjd, he]

lemma decodes_of_decodeLeaves {d : Rdd Payload} {j : Dict Str (Option Str)}
    (h : decodeLeaves d = some j) : d.All fun _ v => ∀ a, v = .leaf a → Decodes a := by
  induction d generalizing j with
  | nil => trivial
  | leaf k a r ih =>
    cases a with
    | none =>
      obtain ⟨i, hi, -⟩ := Option.map_eq_some_iff.mp h
      refine ⟨fun a ha => ?_, ih hi⟩
      cases ha
      exact decodes_none
    | some b =>
      obtain ⟨s, hs, h⟩ := Option.bind_eq_some_iff.mp h
      obtain ⟨i, hi, -⟩ := Option.bind_eq_some_iff.mp h
      refine ⟨fun a ha b' hb => ?_, ih hi⟩
      cases ha
      cases hb
      rw [hs]
      rfl
  | node k s r ihs ih =>
    obtain ⟨i, hi, h⟩ := Option.bind_eq_some_iff.mp h
    obtain ⟨l, hl, -⟩ := Option.bind_eq_some_iff.mp h
    exact ⟨fun a ha => (nomatch ha), ihs hi, ih hl⟩

lemma decodes_leafAt {d : Rdd Payload} (h : d.All fun _ v => ∀ a, v = .leaf a → Decodes a)
    {p : List Str} {a : Payload} (hp : d.leafAt p = some a) : Decodes a := by
  induction p generalizing d with
  | nil => cases hp
  | cons k p ih =>
    obtain ⟨v, hv, hva⟩ := Option.bind_eq_some_iff.mp hp
    have hall := Dict.All.get h hv
    cases v with
    | leaf b =>
      cases p with
      | nil => cases hva; exact hall.1 _ rfl
      | cons x p => cases hva
    | node b => exact ih hall.2 hva

/-- A tree is stringified when its payloads are text. -/
lemma stringify_ok_iff {d : Rdd Payload} (hd : d.Distinct) :
    (∃ b, stringify d = .ok b) ↔ ∀ p a, d.leafAt p = some a → Decodes a := by
  refine ⟨?_, ?_⟩
  · rintro ⟨b, hb⟩ p a hp
    unfold stringify at hb
    split at hb
    case h_1 j hj => exact decodes_leafAt (decodes_of_decodeLeaves hj) hp
    case h_2 => cases hb
  · intro h
    obtain ⟨b, hb, -⟩ := readJson_stringify hd h
    exact ⟨b, hb⟩

/-! ### Views

A view is the finite map from captured nodes to payloads that an answer stands for; `None`,
empty strings and empty objects stand for nothing. -/

abbrev View := List Str → Option Bytes

def present (p : Payload) : Option Bytes := p.filter (· ≠ [])

@[simp] lemma present_none : present none = none := rfl

def TreeItem.view : TreeItem → View
  | .emptyStr, _ => none
  | .item v, c => (v.leafAt c).bind present

/-- What a message for the filter says about the captured nodes `c`, if anything: the JSON
object holds the payloads of the nodes it names, and without a wildcard the data is the
payload itself. -/
def named (F : List Str) (data : Payload) (c : List Str) : Option Payload :=
  if manyCard ∈ F then
    match data.bind readJson with
    | some (.node j) => (j.leafAt c).map scalarPayload
    | _ => none
  else if c = [] then some data else none

/-- The view overridden by a message. -/
def override (F : List Str) (data : Payload) (v : View) : View := fun c =>
  match named F data c with
  | some p => present p
  | none => v c

end MoteBroker.TreeItems

import MoteBroker.Spread

/-!
Grafts with the flag `+`: the keys of the retained tree match those of the payload tree afterwards,
and nothing else has changed.
-/

namespace MoteBroker.Grafts

open NestedDict Wildcard JsonText MoteBroker.Topics MoteBroker.RecursiveDefaultDict
open MoteBroker.TreeItems MoteBroker.Rows MoteBroker.Messages MoteBroker.Retain
open MoteBroker.AllOrNothing MoteBroker.Spread

/-! ### The property -/

/-- A graft of the payload under a pattern that ends in `+`: a tree of texts at the depth of the
pattern, with the flag `+` under the leaf key, which is no other key. -/
structure KeysGraft (message : IncomingMessage) (payload : Dict Str Scalar) : Prop where
  graft : message.graft = true
  path : Path message.topic.nodeList
  noEverything : everythingCard ∉ message.topic.nodeList
  last : message.topic.nodeList.getLast? = some manyCard
  data : ∃ b, message.data = some b ∧ readJson b = some (.node payload)
  flag : payload.get leafKey = some (.leaf (.str manyCard))
  keys : DataKeys (· ≠ leafKey) (.node (payload.pop leafKey))
  uniform : (Item.node (payload.pop leafKey)).Uniform (message.topic.nodeList.count manyCard)
  strings : Strings (.node (payload.pop leafKey))

/-- A topic at the place of a leaf in the payload tree: `T[c]/key`, for a dictionary at `c`. -/
def Under (T : List Str) (data : Value) (topic : List Str) : Prop :=
  ∃ c d key, c.length + 1 = T.count manyCard ∧ data.dictAt c = some d ∧
    topic = fill manyCard T (c ++ [key])

/-- Under the dictionaries of the payload tree its keys and values are retained and no others, and
everywhere else what was. -/
structure KeysMatch (T : List Str) (data : Value) (tree tree' : Rdd Payload) : Prop where
  level : ∀ c d, c.length + 1 = T.count manyCard → data.dictAt c = some d → ∀ key b,
    payloadAt tree' (fill manyCard T (c ++ [key])) = some b ↔
      ∃ s, d.get key = some (.leaf (.str s)) ∧ b = Utf8.encode s
  frame : ∀ topic, ¬Under T data topic → valueAt tree' topic = valueAt tree topic

/-! ### What is retained -/

section
variable {T : List Str} {data : Value} {qos : ℕ} {flags : Option Value} {tree : Item Str Payload}
  {rows : List Row}

/-- Every row has a topic at the place of a leaf. -/
lemma under_of_mem (hdata : data.Uniform (T.count manyCard)) (hd : data.Distinct)
    (hlast : T.getLast? = some manyCard) (h : Spreads qos flags T data [] tree rows) {row : Row}
    (hrow : row ∈ rows) : Under T data row.topic := by
  rcases (mem_spread_iff h row).mp hrow with ⟨⟨q, a⟩, hq, rfl⟩ | ⟨-, p, hgone, rfl⟩
  · have hlength := length_of_mem_leaves hdata hd hq
    have hcount : 0 < T.count manyCard := List.count_pos_iff.mpr (List.mem_of_getLast? hlast)
    rcases List.eq_nil_or_concat q with rfl | ⟨c, key, rfl⟩
    · simp only [List.length_nil] at hlength
      omega
    · have hleaf := (Item.mem_leaves_iff hd _ a).mp hq
      rw [List.concat_eq_append] at hleaf hlength
      rw [Item.leafAt_concat] at hleaf
      obtain ⟨d, hdict, -⟩ := Option.bind_eq_some_iff.mp hleaf
      exact ⟨c, d, key, by simpa using hlength, hdict, by rw [leafRow]; simp⟩
  · obtain ⟨-, -, c, d, key, hlength, rfl, hdict, -⟩ := hgone
    exact ⟨c, d, key, hlength, hdict, rfl⟩

/-- What a topic at the place of a leaf has after the rows are retained: the leaf's text, and
nothing if there is no leaf. -/
lemma payloadAt_of_spread {t : Rdd Payload} (ht : Shape t)
    (hdata : data.Uniform (T.count manyCard)) (hd : data.Distinct) (hstr : Strings data)
    (hlast : T.getLast? = some manyCard) (hflag : KeysFlag flags)
    (h : Spreads qos flags T data [] (.node t) rows) (hp : ∀ row ∈ rows, Path row.topic)
    {c : List Str} {d : Dict Str Scalar} {key : Str} (hlength : c.length + 1 = T.count manyCard)
    (hdict : data.dictAt c = some d) (b : Bytes) :
    payloadAt (setLeaves t rows).1 (fill manyCard T (c ++ [key])) = some b ↔
      ∃ s, d.get key = some (.leaf (.str s)) ∧ b = Utf8.encode s := by
  have hconcat : (c ++ [key]).length = T.count manyCard := by simpa using hlength
  have hleafAt := data.leafAt_concat c key
  rw [hdict, Option.bind_some] at hleafAt
  cases hkey : d.get key with
  | none =>
    rw [hkey] at hleafAt
    rw [payloadAt, valueAt_setLeaves ht hp fun row hrow htopic =>
      data_of_gone hdata hd h hconcat hleafAt hrow htopic]
    refine iff_of_false ?_ (by simp)
    split_ifs with hrow
    · exact fun hnone => by cases hnone
    · -- what the tree had there would have been deleted
      have hnone : valueAt t (fill manyCard T (c ++ [key])) = none := by
        by_contra hvalue
        exact hrow ⟨_, (mem_spread_iff h _).mpr (.inr ⟨hflag, _,
          ⟨hlast, hvalue, c, d, key, hlength, rfl, hdict, hkey⟩, rfl⟩), rfl⟩
      rw [hnone]
      exact fun hsome => by cases hsome
  | some v =>
    have hval : v.Uniform 0 := hdata.dictAt hdict hlength key v hkey
    cases v with
    | node e => exact hval.elim
    | leaf a =>
      rw [hkey, Option.bind_some, Item.leafAt_leaf_nil] at hleafAt
      have hmem := (Item.mem_leaves_iff hd _ a).mpr hleafAt
      obtain ⟨s, rfl⟩ := hstr _ hmem
      have hrow : ∃ row ∈ rows, row.topic = fill manyCard T (c ++ [key]) :=
        ⟨_, (mem_spread_iff h _).mpr (.inl ⟨_, hmem, rfl⟩), rfl⟩
      rw [payloadAt, valueAt_setLeaves ht hp fun row hrow htopic =>
        data_of_leaf hdata hd h hleafAt hrow htopic, if_pos hrow]
      simp [scalarPayload, eq_comm]

end

/-- **A graft with the flag `+` makes the keys match.** -/
theorem graft_keysMatch {tm : TreeManager} (htree : WellFormed tm.tree)
    {message : IncomingMessage} {payload : Dict Str Scalar} (h : KeysGraft message payload) :
    ∃ tm' rows, tm.processMessage message = (tm', .ok rows) ∧
      KeysMatch message.topic.nodeList (.node (payload.pop leafKey)) tm.tree tm'.tree := by
  obtain ⟨b, hb, hjson⟩ := h.data
  have hd : (Item.node (payload.pop leafKey)).Distinct :=
    Dict.Distinct.pop (distinct_of_readJson hjson) leafKey
  obtain ⟨rows, hrows, hspread⟩ := @flattenMessageIntoRows_spreads message.qos
    (payload.get leafKey) message.topic.nodeList h.path.1 h.noEverything _ h.uniform hd h.strings
    (.node tm.tree) (wellFormedItem_node htree) (follows_of_keys h.path.2 h.keys htree.shape) []
  have hmessage : messageRows message tm.tree = .ok rows := by
    rw [messageRows, if_pos h.graft, flattenIntoRows_of_json hb hjson]
    exact hrows
  have hpaths := paths_of_flatten h.path h.keys hrows
  refine ⟨_, rows, processMessage_ok htree.shape hmessage hpaths, ?_, ?_⟩
  · intro c d hlength hdict key bytes
    exact payloadAt_of_spread htree.shape h.uniform hd h.strings h.last h.flag hspread hpaths
      hlength hdict bytes
  · intro topic hunder
    refine valueAt_setLeaves_of_ne htree.shape hpaths ?_
    rintro row hrow rfl
    exact hunder (under_of_mem h.uniform hd h.last hspread hrow)

/-- `{"/": "+", "hall": "1"}`. -/
def hallObject : Dict Str (Option Str) :=
  .leaf leafKey (some manyCard) (.leaf "hall".toList (some "1".toList) .nil)

@[irreducible] def hallData : Payload := some (Utf8.encode (dumps hallObject))

def hallGraft : IncomingMessage := ⟨.fromStr "light/+".toList, 0, true, true, hallData⟩

lemma hallGraft_keysGraft : KeysGraft hallGraft (hallObject.map toScalar) where
  graft := rfl
  path := path_split _
  noEverything := by decide
  last := by decide
  data := by
    refine ⟨Utf8.encode (dumps hallObject), by rw [hallGraft, hallData], ?_⟩
    rw [readJson, Utf8.decode_encode, Option.bind_some, loads_dumps (by decide)]
  flag := rfl
  keys := by
    refine ⟨?_, trivial⟩
    decide
  uniform := (Item.uniform_nil 0).cons_leaf _ _
  strings := by
    intro leaf hleaf
    cases List.mem_singleton.mp hleaf
    exact ⟨_, rfl⟩

/-- Lights in the hall and in the attic. -/
def lights : Rdd Payload :=
  .node "light".toList (.node "hall".toList (.leaf leafKey (some [48]) .nil) <|
    .node "attic".toList (.leaf leafKey (some [49]) .nil) .nil) .nil

theorem graft_keysMatch_hall :
    ∃ tm' rows, (⟨lights, []⟩ : TreeManager).processMessage hallGraft = (tm', .ok rows) ∧
      KeysMatch hallGraft.topic.nodeList (.node ((hallObject.map toScalar).pop leafKey)) lights
        tm'.tree :=
  graft_keysMatch ⟨by decide, by decide⟩ hallGraft_keysGraft

end MoteBroker.Grafts

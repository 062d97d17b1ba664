import MoteBroker.Spread

/-!
Grafts of a well-shaped payload tree: which of them are made into one row for each leaf, with the
leaf's text as data.
-/

namespace MoteBroker.WellShaped

open NestedDict Wildcard JsonText MoteBroker.Topics MoteBroker.RecursiveDefaultDict
open MoteBroker.TreeItems MoteBroker.Rows MoteBroker.Messages MoteBroker.AllOrNothing
open MoteBroker.Spread

/-! ### The property -/

/-- A scalar as it is spelt, if bytes can stand for it. -/
def scalarText : Scalar → Option Str
  | .null => some "null".toList
  | .bool b => some (if b then "true".toList else "false".toList)
  | .num text => some text
  | .str s => some s
  | .codes _ | .arr => none

/-- The row is for the leaf, which can be recovered from its data. -/
structure RowFor (T : List Str) (leaf : List Str × Scalar) (row : Row) : Prop where
  topic : row.topic = fill manyCard T leaf.1
  data : ∃ b s, row.data = some b ∧ Utf8.decode b = some s ∧ scalarText leaf.2 = some s

/-- The message is made into one row for each leaf of its payload tree. -/
def RowPerLeaf (message : IncomingMessage) (json : Value) (tree : Rdd Payload) : Prop :=
  ∃ rows rows', message.flattenIntoRows tree = .ok rows ∧ rows'.Perm rows ∧
    List.Forall₂ (RowFor message.topic.nodeList) json.leaves rows'

/-- A key `/` of the payload tree stands for a `+` of the pattern where the retained tree has a
payload, and the walk goes on to look for something below it. -/
def Clash (T : List Str) (data : Value) (t : Rdd Payload) : Prop :=
  ∃ T₁ T₂ c d v, T = T₁ ++ manyCard :: T₂ ∧ c.length = T₁.count manyCard ∧
    data.dictAt c = some d ∧ d.get leafKey = some v ∧ valueAt t (fill manyCard T₁ c) ≠ none ∧
    2 ≤ T₂.length ∧ (T₂.head? = some manyCard → v ≠ .node .nil)

/-! ### A clash, node by node -/

section
variable {node : Str} {next : List Str} {t : Rdd Payload}

lemma exists_branch_of_valueAt {n : Str} {ns : List Str} (h : valueAt t (n :: ns) ≠ none) :
    ∃ b, t.get n = some (.node b) ∧ valueAt b ns ≠ none := by
  rw [valueAt_cons] at h
  cases hv : t.get n with
  | none =>
    rw [hv] at h
    exact absurd rfl h
  | some v =>
    cases v with
    | node b =>
      rw [← valueAt_cons, valueAt_of_get hv] at h
      exact ⟨b, rfl, h⟩
    | leaf a =>
      rw [hv] at h
      refine absurd ?_ h
      cases ns <;> rfl

lemma clash_many {d : Dict Str Scalar} :
    Clash (manyCard :: next) (.node d) t ↔
      (∃ v, d.get leafKey = some v ∧ valueAt t [] ≠ none ∧ 2 ≤ next.length ∧
        (next.head? = some manyCard → v ≠ .node .nil)) ∨
      ∃ key val b, d.get key = some val ∧ t.get key = some (.node b) ∧ Clash next val b := by
  refine ⟨?_, ?_⟩
  · rintro ⟨T₁, T₂, c, e, v, hT, hlength, hdict, hleaf, hvalue, hlong, hhead⟩
    cases T₁ with
    | nil =>
      obtain rfl : c = [] := List.length_eq_zero_iff.mp hlength
      cases hT
      cases hdict
      exact .inl ⟨v, hleaf, hvalue, hlong, hhead⟩
    | cons x T₁ =>
      obtain ⟨rfl, rfl⟩ := List.cons.inj hT
      obtain ⟨key, c, rfl⟩ : ∃ key c', c = key :: c' := List.exists_cons_of_length_pos (by
        rw [hlength, List.count_cons_self]
        exact Nat.succ_pos _)
      obtain ⟨val, hval, hdict⟩ := Option.bind_eq_some_iff.mp hdict
      rw [fill_cons_self] at hvalue
      obtain ⟨b, hb, hvalue⟩ := exists_branch_of_valueAt hvalue
      exact .inr ⟨key, val, b, hval, hb, T₁, T₂, c, e, v, rfl, by simpa using hlength, hdict,
        hleaf, hvalue, hlong, hhead⟩
  · rintro (⟨v, hleaf, hvalue, hlong, hhead⟩ | ⟨key, val, b, hval, hb, hclash⟩)
    · exact ⟨[], next, [], d, v, rfl, rfl, rfl, hleaf, hvalue, hlong, hhead⟩
    · obtain ⟨T₁, T₂, c, e, v, rfl, hlength, hdict, hleaf, hvalue, hlong, hhead⟩ := hclash
      refine ⟨manyCard :: T₁, T₂, key :: c, e, v, rfl, by simpa using hlength, ?_, hleaf, ?_,
        hlong, hhead⟩
      · rw [Item.dictAt_node_cons, hval, Option.bind_some, hdict]
      · rwa [fill_cons_self, valueAt_of_get hb]

lemma clash_static (hM : node ≠ manyCard) {data : Value} :
    Clash (node :: next) data t ↔ ∃ b, t.get node = some (.node b) ∧ Clash next data b := by
  refine ⟨?_, ?_⟩
  · rintro ⟨T₁, T₂, c, e, v, hT, hlength, hdict, hleaf, hvalue, hlong, hhead⟩
    cases T₁ with
    | nil => exact absurd (List.cons.inj hT).1 hM
    | cons x T₁ =>
      obtain ⟨rfl, rfl⟩ := List.cons.inj hT
      rw [fill_cons_ne hM] at hvalue
      obtain ⟨b, hb, hvalue⟩ := exists_branch_of_valueAt hvalue
      exact ⟨b, hb, T₁, T₂, c, e, v, rfl, by rwa [List.count_cons_of_ne hM] at hlength, hdict,
        hleaf, hvalue, hlong, hhead⟩
  · rintro ⟨b, hb, T₁, T₂, c, e, v, rfl, hlength, hdict, hleaf, hvalue, hlong, hhead⟩
    refine ⟨node :: T₁, T₂, c, e, v, rfl, by rwa [List.count_cons_of_ne hM], hdict, hleaf, ?_,
      hlong, hhead⟩
    rwa [fill_cons_ne hM, valueAt_of_get hb]

lemma not_clash_nil (T : List Str) (data : Value) : ¬Clash T data .nil := by
  rintro ⟨T₁, T₂, c, d, v, -, -, -, -, hvalue, -⟩
  exact hvalue (valueAt_nil _)

end

/-! ### When the retained tree can be followed -/

section
variable {flags : Option Value} {T : List Str} {data : Value} {t : Rdd Payload}

lemma exists_get_of_ne_nil {d : Dict Str Scalar} (h : d ≠ .nil) :
    ∃ key val, d.get key = some val := by
  cases d with
  | nil => exact absurd rfl h
  | leaf key a rest => exact ⟨key, .leaf a, by simp [Dict.get]⟩
  | node key sub rest => exact ⟨key, .node sub, by simp [Dict.get]⟩

/-- A payload in the place of a dictionary is looked into, unless the rest of the pattern is short
or has nothing to look for. -/
lemma follows_leaf (hflag : ¬KeysFlag flags) (hT : T ≠ [])
    (hdata : data.Uniform (T.count manyCard)) (a : Payload) :
    Follows flags T data (.leaf a) ↔
      ¬(2 ≤ T.length ∧ (T.head? = some manyCard → data ≠ .node .nil)) := by
  obtain ⟨node, next, rfl⟩ := List.exists_cons_of_ne_nil hT
  by_cases hnil : next = []
  · subst hnil
    exact iff_of_true (fun _ h => absurd h hflag) (by simp)
  obtain ⟨x, xs, rfl⟩ := List.exists_cons_of_ne_nil hnil
  rw [Follows]
  by_cases hM : node = manyCard
  · subst hM
    rw [if_pos rfl]
    rw [List.count_cons_self] at hdata
    cases data with
    | leaf a => exact hdata.elim
    | node d =>
      refine ⟨?_, ?_⟩
      · rintro h ⟨-, hne⟩
        have hd : d ≠ .nil := fun he => hne rfl (by rw [he])
        obtain ⟨key, val, hget⟩ := exists_get_of_ne_nil hd
        obtain ⟨branch, hbranch, -⟩ := h d rfl key val hget
        cases hbranch
      · intro h e he key val hget
        cases he
        refine absurd ⟨by simp, fun _ he => ?_⟩ h
        cases he
        cases hget
  · rw [if_neg hM]
    refine iff_of_false ?_ (by simp [hM])
    rintro ⟨branch, hbranch, -⟩
    cases hbranch

lemma follows_many (hnext : T ≠ []) {d : Dict Str Scalar} :
    Follows flags (manyCard :: T) (.node d) (.node t) ↔
      ∀ key val, d.get key = some val →
        Follows flags T val ((t.get key).getD (.node .nil)) := by
  obtain ⟨x, xs, rfl⟩ := List.exists_cons_of_ne_nil hnext
  rw [Follows, if_pos rfl]
  simp [treeGet]

lemma follows_static (hnext : T ≠ []) {node : Str} (hM : node ≠ manyCard) :
    Follows flags (node :: T) data (.node t) ↔
      Follows flags T data ((t.get node).getD (.node .nil)) := by
  obtain ⟨x, xs, rfl⟩ := List.exists_cons_of_ne_nil hnext
  rw [Follows, if_neg hM]
  simp [treeGet]

/-- Without the flag, the retained tree can be followed unless there is a clash. -/
lemma follows_iff (hflag : ¬KeysFlag flags) (hT : Path T)
    (hdata : data.Uniform (T.count manyCard)) (ht : Shape t) :
    Follows flags T data (.node t) ↔ ¬Clash T data t := by
  induction T generalizing data t with
  | nil => exact absurd rfl hT.1
  | cons node next ih =>
    by_cases hnil : next = []
    · subst hnil
      refine iff_of_true (fun _ _ => ⟨t, rfl⟩) ?_
      rintro ⟨T₁, T₂, c, d, v, hsplit, -, -, -, -, hlong, -⟩
      have hlength := congrArg List.length hsplit
      simp only [List.length_append, List.length_cons, List.length_nil] at hlength
      omega
    have hbelow : ∀ {val : Value} {b : Rdd Payload}, val.Uniform (next.count manyCard) →
        Shape b → (Follows flags next val (.node b) ↔ ¬Clash next val b) :=
      fun hval hb => ih (hT.tail_of_ne hnil) hval hb
    by_cases hM : node = manyCard
    · subst hM
      rw [List.count_cons_self] at hdata
      cases data with
      | leaf a => exact hdata.elim
      | node d =>
        rw [follows_many hnil, clash_many, not_or]
        refine ⟨fun h => ⟨?_, ?_⟩, ?_⟩
        · rintro ⟨v, hleaf, hvalue, hlong, hhead⟩
          cases hget : t.get leafKey with
          | none => exact hvalue (by simp [valueAt, hget])
          | some w =>
            obtain ⟨a, rfl⟩ := ht.get_leaf hget
            have hfollows := h leafKey v hleaf
            rw [hget, Option.getD_some,
              follows_leaf hflag hnil (hdata leafKey v hleaf)] at hfollows
            exact hfollows ⟨hlong, hhead⟩
        · rintro ⟨key, val, b, hval, hb, hclash⟩
          have hfollows := h key val hval
          rw [hb, Option.getD_some,
            hbelow (hdata key val hval) (Dict.All.get ht hb).2] at hfollows
          exact hfollows hclash
        · rintro ⟨hleaf, hnode⟩ key val hval
          cases hget : t.get key with
          | none => exact (hbelow (hdata key val hval) shape_nil).mpr (not_clash_nil next val)
          | some w =>
            by_cases hkey : key = leafKey
            · subst hkey
              obtain ⟨a, rfl⟩ := ht.get_leaf hget
              refine (follows_leaf hflag hnil (hdata leafKey val hval) a).mpr ?_
              rintro ⟨hlong, hhead⟩
              exact hleaf ⟨val, hval, by simp [valueAt, hget], hlong, hhead⟩
            · obtain ⟨b, rfl, hb⟩ := ht.get_node hkey hget
              refine (hbelow (hdata key val hval) hb).mpr fun hclash => ?_
              exact hnode ⟨key, val, b, hval, hget, hclash⟩
    · rw [List.count_cons_of_ne hM] at hdata
      rw [follows_static hnil hM, clash_static hM]
      cases hget : t.get node with
      | none =>
        refine iff_of_true ((hbelow hdata shape_nil).mpr (not_clash_nil next data)) ?_
        rintro ⟨b, hb, -⟩
        cases hb
      | some w =>
        obtain ⟨b, rfl, hb⟩ := ht.get_node hT.head_ne hget
        rw [Option.getD_some, hbelow hdata hb]
        simp

end

/-! ### The flags -/

section
variable {json : Value}

lemma uniform_popFlags {n : ℕ} (h : json.Uniform n) : (popFlags json).2.Uniform n := by
  cases json with
  | leaf a => exact h
  | node d =>
    cases n with
    | zero => exact h.elim
    | succ n =>
      intro key val hval
      rw [Dict.get_pop] at hval
      split_ifs at hval
      exact h key val hval

lemma distinct_popFlags (h : json.Distinct) : (popFlags json).2.Distinct := by
  cases json with
  | leaf a => exact h
  | node d => exact Dict.Distinct.pop h leafKey

lemma leaves_popFlags : (popFlags json).2.leaves =
    json.leaves.filter fun leaf => leaf.1.head? ≠ some leafKey := by
  cases json with
  | leaf a => rfl
  | node d => exact d.leaves_pop leafKey

/-- Without a leaf below the key `/` there are no flags. -/
lemma not_keysFlag (hd : json.Distinct)
    (hclear : ∀ leaf ∈ json.leaves, leaf.1.head? ≠ some leafKey) : ¬KeysFlag (popFlags json).1 := by
  intro h
  cases json with
  | leaf a => cases h
  | node d =>
    have hget : d.get leafKey = some (.leaf (.str manyCard)) := h
    refine hclear ([leafKey], .str manyCard) ?_ rfl
    exact (Dict.mem_leaves_iff hd _ _).mpr (by simp [hget])

/-- And no leaf is taken away with them. -/
lemma leaves_popFlags_eq (hclear : ∀ leaf ∈ json.leaves, leaf.1.head? ≠ some leafKey) :
    (popFlags json).2.leaves = json.leaves := by
  rw [leaves_popFlags]
  exact List.filter_eq_self.mpr fun leaf hleaf => by simpa using hclear leaf hleaf

/-! ### One row for each leaf -/

lemma rowFor_leafRow (qos : ℕ) (T : List Str) (keys : List Str) (s : Str) :
    RowFor T (keys, .str s) (leafRow qos T [] (keys, .str s)) :=
  ⟨rfl, Utf8.encode s, s, rfl, Utf8.decode_encode s, rfl⟩

lemma isSome_of_rowFor {T : List Str} {leaves : List (List Str × Scalar)} {rows : List Row}
    (h : List.Forall₂ (RowFor T) leaves rows) : ∀ row ∈ rows, row.data.isSome := by
  induction h with
  | nil => exact fun row hrow => absurd hrow List.not_mem_nil
  | cons hrow _ ih =>
    obtain ⟨b, s, hb, -⟩ := hrow.data
    exact List.forall_mem_cons.mpr ⟨by rw [hb]; rfl, ih⟩

/-- **Which well-shaped payload trees are spread into one row for each leaf**: those whose leaves
are all strings without lone surrogates, none of them below the key `/`, and which do not clash with
the retained tree. -/
theorem rowPerLeaf_iff {message : IncomingMessage} (hT : Path message.topic.nodeList)
    (hE : everythingCard ∉ message.topic.nodeList) {b : Bytes} (hdata : message.data = some b)
    (hjson : readJson b = some json)
    (huniform : json.Uniform (message.topic.nodeList.count manyCard))
    {tree : Rdd Payload} (htree : WellFormed tree) :
    RowPerLeaf message json tree ↔
      Strings json ∧ (∀ leaf ∈ json.leaves, leaf.1.head? ≠ some leafKey) ∧
        ¬Clash message.topic.nodeList (popFlags json).2 tree := by
  have hd := distinct_of_readJson hjson
  have hfollows := fun hflag => @follows_iff (popFlags json).1 message.topic.nodeList
    (popFlags json).2 tree hflag hT (uniform_popFlags huniform) htree.shape
  unfold RowPerLeaf
  rw [flattenIntoRows_of_json hdata hjson]
  refine ⟨?_, ?_⟩
  · rintro ⟨rows, rows', hrows, hperm, hall⟩
    obtain ⟨htexts, hwalk⟩ := follows_of_ok (distinct_popFlags hd) hrows
    have hspread := spreads_of_ok hrows (uniform_popFlags huniform) (distinct_popFlags hd)
      (wellFormedItem_node htree)
    -- every row has data, so that the rows are those of the leaves without the flags
    have hkept : rows = (popFlags json).2.leaves.map
        (leafRow message.qos message.topic.nodeList []) := by
      rw [← hspread.kept]
      refine (List.filter_eq_self.mpr fun row hrow => ?_).symm
      exact isSome_of_rowFor hall row (hperm.mem_iff.mpr hrow)
    have hlength : (popFlags json).2.leaves.length = json.leaves.length := by
      rw [hall.length_eq, hperm.length_eq, hkept, List.length_map]
    rw [leaves_popFlags, List.length_filter_eq_length_iff] at hlength
    have hclear : ∀ leaf ∈ json.leaves, leaf.1.head? ≠ some leafKey := by simpa using hlength
    rw [Strings, leaves_popFlags_eq hclear] at htexts
    exact ⟨htexts, hclear, (hfollows (not_keysFlag hd hclear)).mp hwalk⟩
  · rintro ⟨htexts, hclear, hclash⟩
    have hflag := not_keysFlag hd hclear
    have htexts' : Strings (popFlags json).2 := by
      rwa [Strings, leaves_popFlags_eq hclear]
    obtain ⟨rows, hrows, hspread⟩ := flattenMessageIntoRows_spreads hT.1 hE
      (uniform_popFlags huniform) (distinct_popFlags hd) htexts' (wellFormedItem_node htree)
      ((hfollows hflag).mpr hclash) []
    refine ⟨rows, rows, hrows, List.Perm.refl rows, ?_⟩
    rw [hspread.eq_leafRows hflag, leaves_popFlags_eq hclear, List.forall₂_map_right_iff,
      List.forall₂_same]
    rintro ⟨keys, a⟩ hleaf
    obtain ⟨s, rfl⟩ := htexts _ hleaf
    exact rowFor_leafRow _ _ keys s

end

/-- A graft of the text at `topic`. -/
def graftOf (topic : String) (text : Str) : IncomingMessage :=
  ⟨.fromStr topic.toList, 0, true, true, some (Utf8.encode text)⟩

def lightJson : Str := "\x7b\"is_on\": \"1\"\x7d".toList

theorem rowPerLeaf_light :
    RowPerLeaf (graftOf "light/bedroom/+" lightJson)
      (.node (.leaf "is_on".toList (.str "1".toList) .nil)) .nil := by
  have hjson : readJson (Utf8.encode lightJson) =
      some (.node (.leaf "is_on".toList (.str "1".toList) .nil)) := by
    rw [readJson, Utf8.decode_encode, Option.bind_some]
    decide +kernel
  refine (rowPerLeaf_iff (path_split _) (by decide) rfl hjson ?_ ⟨shape_nil, trivial⟩).mpr
    ⟨?_, by decide, not_clash_nil _ _⟩
  · exact (Item.uniform_nil 0).cons_leaf _ _
  · intro leaf hleaf
    cases List.mem_singleton.mp hleaf
    exact ⟨_, rfl⟩

/-- A light's properties, two of them numbers. -/
def propertiesJson : Str :=
  "\x7b\"is_on\": 1, \"brightness\": 55, \"color\": \"#FFFFFF\"\x7d".toList

def properties : Dict Str Scalar :=
  .leaf "is_on".toList (.num "1".toList) <| .leaf "brightness".toList (.num "55".toList) <|
    .leaf "color".toList (.str "#FFFFFF".toList) .nil

lemma properties_uniform : (Item.node properties).Uniform 1 :=
  (((Item.uniform_nil 0).cons_leaf _ _).cons_leaf _ _).cons_leaf _ _

/-- A number has no `encode`. -/
theorem properties_not_rowPerLeaf :
    readJson (Utf8.encode propertiesJson) = some (.node properties) ∧
      (Item.node properties).Uniform ((split "light/bedroom/+".toList).count manyCard) ∧
      ¬RowPerLeaf (graftOf "light/bedroom/+" propertiesJson) (.node properties) .nil := by
  have hjson : readJson (Utf8.encode propertiesJson) = some (.node properties) := by
    rw [readJson, Utf8.decode_encode, Option.bind_some]
    decide +kernel
  have hcount : (split "light/bedroom/+".toList).count manyCard = 1 := by decide
  refine ⟨hjson, hcount ▸ properties_uniform, ?_⟩
  rintro ⟨rows, -, hrows, -⟩
  rw [flattenIntoRows_of_json rfl hjson] at hrows
  cases hrows

end MoteBroker.WellShaped

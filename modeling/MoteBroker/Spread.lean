import MoteBroker.AllOrNothing

/-!
A payload tree spread over the topics of a pattern: what `flatten_message_into_rows` makes of each
of its leaves, what it deletes next to them, and when it refuses the tree.
-/

namespace MoteBroker.Spread

open NestedDict Wildcard JsonText MoteBroker.Topics MoteBroker.RecursiveDefaultDict
open MoteBroker.TreeItems MoteBroker.Rows MoteBroker.AllOrNothing

/-! ### The rows -/

/-- The row of a leaf. -/
def leafRow (qos : ℕ) (T base : List Str) (leaf : List Str × Scalar) : Row :=
  ⟨base ++ fill manyCard T leaf.1, scalarPayload leaf.2, qos⟩

/-- Every leaf is a text. -/
def Strings (data : Value) : Prop := ∀ leaf ∈ data.leaves, ∃ s, leaf.2 = .str s

/-- The keys of the retained tree are to match those of the payload tree. -/
abbrev KeysFlag (flags : Option Value) : Prop := flags = some (.leaf (.str manyCard))

/-- Wherever the retained tree is looked into on the way down, it has no payload in the place of a
dictionary. -/
def Follows (flags : Option Value) : List Str → Value → Item Str Payload → Prop
  | [], _, _ => True
  | [node], _, tree => node = manyCard → KeysFlag flags → ∃ t, tree = .node t
  | node :: x :: next, data, tree =>
    if node = manyCard then
      ∀ d, data = .node d → ∀ key val, d.get key = some val →
        ∃ branch, treeGet tree key = .ok branch ∧ Follows flags (x :: next) val branch
    else ∃ branch, treeGet tree node = .ok branch ∧ Follows flags (x :: next) data branch

/-- A retained topic next to the leaves of the payload tree that is not among them. -/
def Gone (T : List Str) (data : Value) (tree : Item Str Payload) (p : List Str) : Prop :=
  T.getLast? = some manyCard ∧ tree.leafAt (p ++ [leafKey]) ≠ none ∧
    ∃ c d key, c.length + 1 = T.count manyCard ∧ p = fill manyCard T (c ++ [key]) ∧
      data.dictAt c = some d ∧ d.get key = none

/-- The rows that are kept are those of the leaves, in their order; those that delete are there if
the flag asks for them. -/
structure Spreads (qos : ℕ) (flags : Option Value) (T : List Str) (data : Value) (base : List Str)
    (tree : Item Str Payload) (rows : List Row) : Prop where
  kept : rows.filter (·.data.isSome) = data.leaves.map (leafRow qos T base)
  gone : ∀ row, (row ∈ rows ∧ row.data = none) ↔
    KeysFlag flags ∧ ∃ p, Gone T data tree p ∧ row = ⟨base ++ p, none, qos⟩

section
variable {T next base : List Str} {node : Str} {t : Rdd Payload} {p : List Str}

lemma leafAt_getD (t : Rdd Payload) (key : Str) (q : List Str) :
    ((t.get key).getD (.node .nil)).leafAt (q ++ [leafKey]) =
      (Item.node t).leafAt (key :: q ++ [leafKey]) := by
  cases hv : t.get key <;> simp [hv]

/-! ### What is gone, node by node -/

lemma Gone.tree_eq {data : Value} {tree : Item Str Payload} (h : Gone T data tree p) :
    ∃ t, tree = .node t := by
  cases tree with
  | node t => exact ⟨t, rfl⟩
  | leaf a =>
    refine absurd ?_ h.2.1
    cases p <;> rfl

lemma gone_many {d : Dict Str Scalar} :
    Gone [manyCard] (.node d) (.node t) p ↔
      ∃ key, p = [key] ∧ d.get key = none ∧ valueAt t [key] ≠ none := by
  refine ⟨?_, ?_⟩
  · rintro ⟨-, hleaf, c, e, key, hlength, rfl, hdict, hkey⟩
    obtain rfl : c = [] := List.length_eq_zero_iff.mp (by simpa using hlength)
    cases hdict
    exact ⟨key, by simp, hkey, by simpa [valueAt] using hleaf⟩
  · rintro ⟨key, rfl, hkey, hleaf⟩
    exact ⟨rfl, by simpa [valueAt] using hleaf, [], d, key, by simp, by simp, rfl, hkey⟩

lemma gone_many_cons (hnil : next ≠ []) {d : Dict Str Scalar} :
    Gone (manyCard :: next) (.node d) (.node t) p ↔
      ∃ key val q, p = key :: q ∧ d.get key = some val ∧
        Gone next val ((t.get key).getD (.node .nil)) q := by
  have hlast := List.getLast?_cons_of_ne_nil (x := manyCard) hnil
  refine ⟨?_, ?_⟩
  · rintro ⟨hT, hleaf, c, e, key, hlength, rfl, hdict, hkey⟩
    rw [hlast] at hT
    have hcount : 0 < next.count manyCard := List.count_pos_iff.mpr (List.mem_of_getLast? hT)
    obtain ⟨k, c, rfl⟩ : ∃ k c', c = k :: c' := List.exists_cons_of_length_pos (by
      simp only [List.count_cons_self] at hlength
      omega)
    simp only [List.cons_append, fill_cons_self] at hleaf ⊢
    obtain ⟨val, hval, hdict⟩ := Option.bind_eq_some_iff.mp hdict
    refine ⟨k, val, _, rfl, hval, hT, ?_, c, e, key, by simpa using hlength, rfl, hdict, hkey⟩
    rwa [leafAt_getD]
  · rintro ⟨k, val, q, rfl, hval, hT, hleaf, c, e, key, hlength, rfl, hdict, hkey⟩
    refine ⟨hlast.trans hT, ?_, k :: c, e, key, by simpa using hlength, by simp, ?_, hkey⟩
    · rwa [← leafAt_getD]
    · rw [Item.dictAt_node_cons, hval, Option.bind_some, hdict]

lemma gone_static_cons (hM : node ≠ manyCard) (hnil : next ≠ []) {data : Value} :
    Gone (node :: next) data (.node t) p ↔
      ∃ q, p = node :: q ∧ Gone next data ((t.get node).getD (.node .nil)) q := by
  have hlast := List.getLast?_cons_of_ne_nil (x := node) hnil
  have hcount : (node :: next).count manyCard = next.count manyCard :=
    List.count_cons_of_ne hM
  refine ⟨?_, ?_⟩
  · rintro ⟨hT, hleaf, c, e, key, hlength, rfl, hdict, hkey⟩
    rw [fill_cons_ne hM] at hleaf ⊢
    refine ⟨_, rfl, hlast.symm.trans hT, ?_, c, e, key, hcount ▸ hlength, rfl, hdict, hkey⟩
    rwa [leafAt_getD]
  · rintro ⟨q, rfl, hT, hleaf, c, e, key, hlength, rfl, hdict, hkey⟩
    refine ⟨hlast.trans hT, ?_, c, e, key, hcount ▸ hlength, (fill_cons_ne hM _ _).symm, hdict,
      hkey⟩
    rwa [← leafAt_getD]

lemma not_gone_static (hM : node ≠ manyCard) {data : Value} {tree : Item Str Payload} :
    ¬Gone [node] data tree p := by
  rintro ⟨hT, -⟩
  exact hM (by simpa using hT)

end

/-! ### The keys that the data does not have -/

/-- The rows that delete the keys of the tree which are not among the data's. -/
lemma missingKeys_spec {t : Rdd Payload} (ht : WellFormed t) (items : List (Str × Value))
    (qos : ℕ) (base : List Str) :
    ∃ rows, missingKeys items qos base (.node t) = .ok rows ∧
      ∀ row, row ∈ rows ↔ ∃ key, row = ⟨base ++ [key], none, qos⟩ ∧
        key ∉ items.map Prod.fst ∧ valueAt t [key] ≠ none := by
  have hvalue : ∀ key b, t.get key = some (.node b) → Shape b →
      (b.get leafKey = none ↔ valueAt t [key] = none) := by
    intro key b hget hb
    rw [valueAt_of_get hget, valueAt]
    cases hleaf : b.get leafKey with
    | none => simp [hleaf]
    | some v =>
      obtain ⟨a, rfl⟩ := hb.get_leaf hleaf
      simp [hleaf]
  obtain ⟨rows, hrows⟩ : ∃ rows, missingKeys items qos base (.node t) = .ok rows := by
    refine exists_forBranches fun key v hm hkey => ?_
    obtain ⟨b, rfl, -⟩ := ht.shape.get_node hkey
      ((Dict.mem_items_iff ht.distinct.keys_nodup key v).mp hm)
    dsimp only
    split_ifs
    · exact ⟨_, rfl⟩
    · exact ⟨_, rfl⟩
  refine ⟨rows, hrows, fun row => ?_⟩
  rw [mem_forBranches hrows]
  simp only [Dict.mem_items_iff ht.distinct.keys_nodup]
  refine ⟨?_, ?_⟩
  · rintro ⟨key, v, rs, hget, hkey, hrs, hrow⟩
    obtain ⟨b, rfl, hb⟩ := ht.shape.get_node hkey hget
    dsimp only at hrs
    split_ifs at hrs with hno
    · cases hrs
      cases hrow
    · cases hrs
      obtain ⟨hleaf, hdata⟩ := not_or.mp hno
      exact ⟨key, List.mem_singleton.mp hrow, hdata, mt (hvalue key b hget hb).mpr hleaf⟩
  · rintro ⟨key, rfl, hdata, hleaf⟩
    have hkey : key ≠ leafKey := by
      rintro rfl
      exact hleaf (ht.shape.valueAt_leafKey [])
    obtain ⟨v, hget⟩ : ∃ v, t.get key = some v := by
      refine Option.ne_none_iff_exists'.mp fun hnone => hleaf ?_
      rw [valueAt_cons, hnone]
      rfl
    obtain ⟨b, rfl, hb⟩ := ht.shape.get_node hkey hget
    refine ⟨key, .node b, _, hget, hkey, ?_, List.mem_singleton_self _⟩
    dsimp only
    rw [if_neg (not_or.mpr ⟨mt (hvalue key b hget hb).mp hleaf, hdata⟩)]

def WellFormedItem (tree : Item Str Payload) : Prop := ∀ t, tree = .node t → WellFormed t

lemma wellFormedItem_node {t : Rdd Payload} (h : WellFormed t) : WellFormedItem (.node t) := by
  rintro _ ⟨⟩
  exact h

/-- They are the topics that are gone. -/
lemma mem_missingKeys {d : Dict Str Scalar} {tree : Item Str Payload} (htree : WellFormedItem tree)
    {qos : ℕ} {base : List Str} {gone : List Row}
    (h : missingKeys d.items qos base tree = .ok gone) (row : Row) :
    row ∈ gone ↔ ∃ p, Gone [manyCard] (.node d) tree p ∧ row = ⟨base ++ p, none, qos⟩ := by
  cases tree with
  | leaf a => cases h
  | node t =>
    obtain ⟨rows, hrows, hmem⟩ := missingKeys_spec (htree t rfl) d.items qos base
    rw [h] at hrows
    cases hrows
    have hkeys : ∀ key, key ∉ d.items.map Prod.fst ↔ d.get key = none := fun key => by
      rw [← Dict.keys_eq_items, Dict.get_eq_none]
    simp only [hmem, gone_many, hkeys]
    refine ⟨?_, ?_⟩
    · rintro ⟨key, rfl, hkey, hleaf⟩
      exact ⟨[key], ⟨key, rfl, hkey, hleaf⟩, rfl⟩
    · rintro ⟨_, ⟨key, rfl, hkey, hleaf⟩, rfl⟩
      exact ⟨key, rfl, hkey, hleaf⟩

/-! ### The whole walk -/

lemma WellFormedItem.treeGet {tree branch : Item Str Payload} {key : Str}
    (h : WellFormedItem tree) (hget : treeGet tree key = .ok branch) :
    ∃ t, tree = .node t ∧ branch = (t.get key).getD (.node .nil) ∧ WellFormedItem branch := by
  cases tree with
  | leaf a => cases hget
  | node t =>
    cases hget
    refine ⟨t, rfl, rfl, fun b hb => ?_⟩
    cases hv : t.get key with
    | none =>
      rw [hv] at hb
      cases hb
      exact ⟨shape_nil, trivial⟩
    | some v =>
      rw [hv] at hb
      cases hb
      exact ⟨(Dict.All.get (h t rfl).shape hv).2, (h t rfl).distinct.get hv⟩

lemma leafRows_many (qos : ℕ) (next base : List Str) (d : Dict Str Scalar) :
    d.leaves.map (leafRow qos (manyCard :: next) base) =
      d.items.flatMap fun e => e.2.leaves.map (leafRow qos next (base ++ [e.1])) := by
  rw [Dict.leaves_eq_flatMap, List.map_flatMap]
  refine congrArg (List.flatMap · d.items) (funext fun e => ?_)
  simp [leafRow]

lemma leafRows_static {node : Str} (hM : node ≠ manyCard) (qos : ℕ) (next base : List Str)
    (data : Value) :
    data.leaves.map (leafRow qos (node :: next) base) =
      data.leaves.map (leafRow qos next (base ++ [node])) := by
  simp [leafRow, fill_cons_ne hM]

variable {qos : ℕ} {flags : Option Value}

lemma not_mem_text {topic : List Str} {b : Bytes} {row : Row} :
    ¬(row ∈ [⟨topic, some b, qos⟩] ∧ row.data = none) := by
  rintro ⟨hrow, hdata⟩
  cases List.mem_singleton.mp hrow
  cases hdata

/-- The last node is a `+`: a row for each text, and the keys that are deleted. -/
lemma spreads_lastMany {d : Dict Str Scalar} {base : List Str} {tree : Item Str Payload}
    (htree : WellFormedItem tree) {gone : List Row} {text : Str × Value → Str}
    (htext : ∀ e ∈ d.items, e.2 = .leaf (.str (text e)))
    (hgone : KeysFlag flags → missingKeys d.items qos base tree = .ok gone)
    (hnone : ¬KeysFlag flags → gone = []) :
    Spreads qos flags [manyCard] (.node d) base tree
      (d.items.map (fun e => ⟨base ++ [e.1], some (Utf8.encode (text e)), qos⟩) ++ gone) := by
  have hdeletes : ∀ row, row ∈ gone ↔ KeysFlag flags ∧
      ∃ p, Gone [manyCard] (.node d) tree p ∧ row = ⟨base ++ p, none, qos⟩ := by
    intro row
    by_cases hflag : KeysFlag flags
    · rw [mem_missingKeys htree (hgone hflag), and_iff_right hflag]
    · rw [hnone hflag]
      exact iff_of_false List.not_mem_nil fun h => hflag h.1
  refine ⟨?_, fun row => ?_⟩
  · have hno : gone.filter (·.data.isSome) = [] := by
      refine List.filter_eq_nil_iff.mpr fun row hrow => ?_
      obtain ⟨-, p, -, rfl⟩ := (hdeletes row).mp hrow
      simp
    have hall : ∀ row ∈ d.items.map (fun e =>
        (⟨base ++ [e.1], some (Utf8.encode (text e)), qos⟩ : Row)), row.data.isSome = true := by
      intro row hrow
      obtain ⟨e, -, rfl⟩ := List.mem_map.mp hrow
      rfl
    rw [List.filter_append, hno, List.append_nil, List.filter_eq_self.mpr hall]
    refine Eq.trans ?_ (leafRows_many qos [] base d).symm
    rw [List.map_eq_flatMap]
    refine List.flatMap_congr fun e he => ?_
    rw [htext e he]
    simp [leafRow, scalarPayload, Item.leaves]
  · rw [← hdeletes, List.mem_append]
    refine ⟨?_, fun hrow => ⟨.inr hrow, ?_⟩⟩
    · rintro ⟨hrow | hrow, hdata⟩
      · obtain ⟨e, -, rfl⟩ := List.mem_map.mp hrow
        cases hdata
      · exact hrow
    · obtain ⟨-, p, -, rfl⟩ := (hdeletes row).mp hrow
      rfl

/-- A `+` before others: the rows of the items below. -/
lemma spreads_many {next : List Str} (hnil : next ≠ []) {d : Dict Str Scalar} (hd : d.Distinct)
    (hdata : (Item.node d).Uniform (next.count manyCard + 1)) {base : List Str}
    {tree : Item Str Payload} (htree : WellFormedItem tree)
    {branch : Str × Value → Item Str Payload} {rows : Str × Value → List Row}
    (hbranch : ∀ e ∈ d.items, treeGet tree e.1 = .ok (branch e))
    (hrows : ∀ e ∈ d.items, e.2.Uniform (next.count manyCard) → e.2.Distinct →
      WellFormedItem (branch e) → Spreads qos flags next e.2 (base ++ [e.1]) (branch e) (rows e)) :
    Spreads qos flags (manyCard :: next) (.node d) base tree (d.items.flatMap rows) := by
  have hget : ∀ e, e ∈ d.items ↔ d.get e.1 = some e.2 := fun e =>
    Dict.mem_items_iff (Dict.Distinct.keys_nodup hd) e.1 e.2
  have hbelow : ∀ e ∈ d.items, ∃ t, tree = .node t ∧
      branch e = (t.get e.1).getD (.node .nil) ∧
      Spreads qos flags next e.2 (base ++ [e.1]) (branch e) (rows e) := by
    intro e he
    obtain ⟨t, htree, hbranch, hwell⟩ := htree.treeGet (hbranch e he)
    exact ⟨t, htree, hbranch, hrows e he (hdata e.1 e.2 ((hget e).mp he))
      (Dict.Distinct.get hd ((hget e).mp he)) hwell⟩
  refine ⟨?_, fun row => ?_⟩
  · rw [List.filter_flatMap]
    refine Eq.trans (List.flatMap_congr fun e he => ?_) (leafRows_many qos next base d).symm
    obtain ⟨t, -, -, hspreads⟩ := hbelow e he
    exact hspreads.kept
  · rw [List.mem_flatMap]
    refine ⟨?_, ?_⟩
    · rintro ⟨⟨e, he, hrow⟩, hnone⟩
      obtain ⟨t, rfl, hbranch, hspreads⟩ := hbelow e he
      obtain ⟨hflag, p, hp, rfl⟩ := (hspreads.gone row).mp ⟨hrow, hnone⟩
      rw [hbranch] at hp
      exact ⟨hflag, e.1 :: p, (gone_many_cons hnil).mpr ⟨e.1, e.2, p, rfl, (hget e).mp he, hp⟩,
        by simp⟩
    · rintro ⟨hflag, p, hp, rfl⟩
      obtain ⟨t, rfl⟩ := hp.tree_eq
      obtain ⟨key, val, q, rfl, hkey, hq⟩ := (gone_many_cons hnil).mp hp
      have he : (key, val) ∈ d.items := (hget (key, val)).mpr hkey
      obtain ⟨_, ⟨⟩, hbranch, hspreads⟩ := hbelow (key, val) he
      rw [← hbranch] at hq
      obtain ⟨hrow, hnone⟩ := (hspreads.gone _).mpr ⟨hflag, q, hq, rfl⟩
      rw [List.append_assoc] at hrow
      exact ⟨⟨(key, val), he, hrow⟩, rfl⟩

/-- The rows of a call that returns are those of the leaves and those that delete. -/
lemma spreads_of_ok {T : List Str} {data : Value} {base : List Str} {tree : Item Str Payload}
    {rows : List Row} (h : flattenMessageIntoRows qos flags T data base tree = .ok rows)
    (hdata : data.Uniform (T.count manyCard)) (hd : data.Distinct) (htree : WellFormedItem tree) :
    Spreads qos flags T data base tree rows := by
  replace h := flattens_of_ok h
  induction h with
  | last hE hM =>
    refine ⟨by simp [leafRow, scalarPayload, Item.leaves, fill_cons_ne hM], fun row => ?_⟩
    refine iff_of_false not_mem_text ?_
    rintro ⟨-, p, hp, -⟩
    exact not_gone_static hM hp
  | @static node next data base tree branch rows hE hM hnil hbranch hrows ih =>
    rw [List.count_cons_of_ne hM] at hdata
    obtain ⟨t, rfl, rfl, hbelow⟩ := htree.treeGet hbranch
    obtain ⟨hkept, hgone⟩ := ih hdata hd hbelow
    refine ⟨hkept.trans (leafRows_static hM qos next base data).symm, fun row => ?_⟩
    rw [hgone]
    simp only [gone_static_cons hM hnil]
    refine and_congr_right fun _ => ⟨?_, ?_⟩
    · rintro ⟨q, hq, rfl⟩
      exact ⟨node :: q, ⟨q, rfl, hq⟩, by simp⟩
    · rintro ⟨_, ⟨q, rfl, hq⟩, rfl⟩
      exact ⟨q, hq, by simp⟩
  | lastMany htext hgone hnone => exact spreads_lastMany htree htext hgone hnone
  | many hnil hbranch _ ih =>
    rw [List.count_cons_self] at hdata
    exact spreads_many hnil hd hdata htree hbranch ih

/-- The items of a payload tree of depth `n + 1`. -/
lemma exists_items {n : ℕ} {data : Value} (h : data.Uniform (n + 1)) (hd : data.Distinct)
    (hstr : Strings data) :
    ∃ d, data = .node d ∧ ∀ key val, (key, val) ∈ d.items →
      d.get key = some val ∧ val.Uniform n ∧ val.Distinct ∧ Strings val := by
  cases data with
  | leaf a => exact h.elim
  | node d =>
    refine ⟨d, rfl, fun key val hm => ?_⟩
    have hget := (Dict.mem_items_iff (Dict.Distinct.keys_nodup hd) key val).mp hm
    refine ⟨hget, h key val hget, Dict.Distinct.get hd hget, fun leaf hleaf => ?_⟩
    exact hstr (key :: leaf.1, leaf.2) (Dict.mem_leaves_iff_items.mpr ⟨key, val, _, hm, hleaf, rfl⟩)

lemma exists_text {val : Value} (h : val.Uniform 0) (hstr : Strings val) :
    ∃ s, val = .leaf (.str s) := by
  cases val with
  | node d => exact h.elim
  | leaf a =>
    obtain ⟨s, hs⟩ := hstr ([], a) (List.mem_singleton_self _)
    exact ⟨s, congrArg Item.leaf hs⟩

/-- A payload tree whose leaves are texts at the depth of the pattern is spread where the retained
tree can be followed. -/
lemma exists_flattens {T : List Str} (hT : T ≠ []) (hE : everythingCard ∉ T) {data : Value}
    (hdata : data.Uniform (T.count manyCard)) (hd : data.Distinct) (hstr : Strings data)
    {tree : Item Str Payload} (htree : WellFormedItem tree) (hf : Follows flags T data tree)
    (base : List Str) : ∃ rows, Flattens qos flags T data base tree rows := by
  induction T generalizing data tree base with
  | nil => exact absurd rfl hT
  | cons node next ih =>
    obtain ⟨hnE, hnextE⟩ : everythingCard ≠ node ∧ everythingCard ∉ next := by simpa using hE
    by_cases hM : node = manyCard
    · subst hM
      rw [List.count_cons_self] at hdata
      obtain ⟨d, rfl, hitems⟩ := exists_items hdata hd hstr
      by_cases hnil : next = []
      · subst hnil
        have htext : ∀ e ∈ d.items, ∃ s, e.2 = .leaf (.str s) := fun e he =>
          exists_text (hitems e.1 e.2 he).2.1 (hitems e.1 e.2 he).2.2.2
        choose! text htext using htext
        by_cases hflag : KeysFlag flags
        · obtain ⟨t, rfl⟩ := hf rfl hflag
          obtain ⟨gone, hgone, -⟩ := missingKeys_spec (htree t rfl) d.items qos base
          exact ⟨_, .lastMany htext (fun _ => hgone) (absurd hflag)⟩
        · exact ⟨_, .lastMany htext (fun h => absurd h hflag) fun _ => rfl⟩
      · obtain ⟨x, xs, hnext⟩ := List.exists_cons_of_ne_nil hnil
        rw [hnext, Follows, ← hnext, if_pos rfl] at hf
        have hbelow : ∀ e ∈ d.items, ∃ branch rows, treeGet tree e.1 = .ok branch ∧
            Flattens qos flags next e.2 (base ++ [e.1]) branch rows := by
          intro e he
          obtain ⟨hget, huniform, hdistinct, htexts⟩ := hitems e.1 e.2 he
          obtain ⟨branch, hbranch, hf⟩ := hf d rfl e.1 e.2 hget
          obtain ⟨-, -, -, hwell⟩ := htree.treeGet hbranch
          obtain ⟨rows, hrows⟩ := ih hnil hnextE huniform hdistinct htexts hwell hf (base ++ [e.1])
          exact ⟨branch, rows, hbranch, hrows⟩
        have : Nonempty (Item Str Payload) := ⟨tree⟩
        choose! branch rows hbranch hrows using hbelow
        exact ⟨_, .many hnil hbranch hrows⟩
    rw [List.count_cons_of_ne hM] at hdata
    by_cases hnil : next = []
    · subst hnil
      obtain ⟨s, rfl⟩ := exists_text hdata hstr
      exact ⟨_, .last hnE.symm hM⟩
    · obtain ⟨x, xs, hnext⟩ := List.exists_cons_of_ne_nil hnil
      rw [hnext, Follows, ← hnext, if_neg hM] at hf
      obtain ⟨branch, hbranch, hf⟩ := hf
      obtain ⟨-, -, -, hwell⟩ := htree.treeGet hbranch
      obtain ⟨rows, hrows⟩ := ih hnil hnextE hdata hd hstr hwell hf (base ++ [node])
      exact ⟨_, .static hnE.symm hM hnil hbranch hrows⟩

/-- **What a payload tree is spread into**: if its leaves are texts at the depth of the pattern,
and the retained tree can be followed. -/
theorem flattenMessageIntoRows_spreads {T : List Str} (hT : T ≠ []) (hE : everythingCard ∉ T)
    {data : Value} (hdata : data.Uniform (T.count manyCard)) (hd : data.Distinct)
    (hstr : Strings data) {tree : Item Str Payload} (htree : WellFormedItem tree)
    (hf : Follows flags T data tree) (base : List Str) :
    ∃ rows, flattenMessageIntoRows qos flags T data base tree = .ok rows ∧
      Spreads qos flags T data base tree rows := by
  obtain ⟨rows, hrows⟩ := exists_flattens hT hE hdata hd hstr htree hf base
  exact ⟨rows, hrows.ok, spreads_of_ok hrows.ok hdata hd htree⟩

lemma strings_text (s : Str) : Strings (.leaf (.str s)) := by
  intro leaf hleaf
  cases List.mem_singleton.mp hleaf
  exact ⟨s, rfl⟩

lemma strings_of_items {d : Dict Str Scalar}
    (h : ∀ key val, (key, val) ∈ d.items → Strings val) : Strings (.node d) := by
  intro leaf hleaf
  obtain ⟨key, val, q, hm, hq, -⟩ := Dict.mem_leaves_iff_items.mp hleaf
  exact h key val hm (q, leaf.2) hq

/-- A payload tree that is spread has texts for leaves, and the retained tree could be followed. -/
lemma follows_of_ok {T : List Str} {data : Value} (hd : data.Distinct) {tree : Item Str Payload}
    {base : List Str} {rows : List Row}
    (h : flattenMessageIntoRows qos flags T data base tree = .ok rows) :
    Strings data ∧ Follows flags T data tree := by
  replace h := flattens_of_ok h
  induction h with
  | last _ hM => exact ⟨strings_text _, fun hnode => absurd hnode hM⟩
  | static _ hM hnil hbranch _ ih =>
    obtain ⟨htexts, hfollows⟩ := ih hd
    obtain ⟨x, xs, rfl⟩ := List.exists_cons_of_ne_nil hnil
    refine ⟨htexts, ?_⟩
    rw [Follows, if_neg hM]
    exact ⟨_, hbranch, hfollows⟩
  | @lastMany d base tree gone text htext hgone _ =>
    refine ⟨strings_of_items fun key val hm => ?_, fun _ hflag => ?_⟩
    · have hval : val = .leaf (.str _) := htext _ hm
      rw [hval]
      exact strings_text _
    · have hgone := hgone hflag
      cases tree with
      | leaf a => cases hgone
      | node t => exact ⟨t, rfl⟩
  | @many next d base tree branch rows hnil hbranch _ ih =>
    have hget : ∀ key val, (key, val) ∈ d.items ↔ d.get key = some val :=
      Dict.mem_items_iff (Dict.Distinct.keys_nodup hd)
    refine ⟨strings_of_items fun key val hm => ?_, ?_⟩
    · exact (ih _ hm (Dict.Distinct.get hd ((hget key val).mp hm))).1
    · obtain ⟨x, xs, rfl⟩ := List.exists_cons_of_ne_nil hnil
      rw [Follows, if_pos rfl]
      rintro _ ⟨⟩ key val hkey
      have hm := (hget key val).mpr hkey
      exact ⟨_, hbranch _ hm, (ih _ hm (Dict.Distinct.get hd hkey)).2⟩

/-- Over a payload tree without the key `/`, and a pattern without it, the retained tree can be
followed. -/
lemma follows_of_keys {T : List Str} (hT : leafKey ∉ T) {data : Value}
    (hkeys : DataKeys (· ≠ leafKey) data) {t : Rdd Payload} (ht : Shape t) :
    Follows flags T data (.node t) := by
  have hbelow : ∀ {key : Str}, key ≠ leafKey → ∀ {t : Rdd Payload}, Shape t →
      ∃ b, treeGet (.node t) key = .ok (.node b) ∧ Shape b := by
    intro key hkey t ht
    cases hv : t.get key with
    | none => exact ⟨.nil, by simp [treeGet, hv], shape_nil⟩
    | some v =>
      obtain ⟨b, rfl, hb⟩ := ht.get_node hkey hv
      exact ⟨b, by simp [treeGet, hv], hb⟩
  induction T generalizing data t with
  | nil => trivial
  | cons node next ih =>
    obtain ⟨hnode, hnext⟩ := not_or.mp (mt List.mem_cons.mpr hT)
    by_cases hnil : next = []
    · subst hnil
      exact fun _ _ => ⟨t, rfl⟩
    obtain ⟨x, xs, rfl⟩ := List.exists_cons_of_ne_nil hnil
    rw [Follows]
    by_cases hM : node = manyCard
    · rw [if_pos hM]
      rintro d rfl key val hget
      obtain ⟨hkey, hval⟩ := Dict.All.get hkeys hget
      obtain ⟨b, hb, hshape⟩ := hbelow hkey ht
      exact ⟨_, hb, ih hnext hval hshape⟩
    · rw [if_neg hM]
      obtain ⟨b, hb, hshape⟩ := hbelow (Ne.symm hnode) ht
      exact ⟨_, hb, ih hnext hkeys hshape⟩

/-! ### The rows of a topic -/

section
variable {T : List Str} {data : Value} {tree : Item Str Payload} {rows : List Row}

/-- A leaf and the topic of its row determine each other. -/
lemma fill_injective {c c' : List Str} (hc : c.length = T.count manyCard)
    (hc' : c'.length = T.count manyCard) (h : fill manyCard T c = fill manyCard T c') : c = c' := by
  rw [← captures_fill hc, h, captures_fill hc']

lemma length_of_mem_leaves {n : ℕ} (h : data.Uniform n) (hd : data.Distinct)
    {leaf : List Str × Scalar} (hleaf : leaf ∈ data.leaves) : leaf.1.length = n := by
  by_contra hne
  have hnone := h.leafAt_eq_none hne
  rw [(Item.mem_leaves_iff hd leaf.1 leaf.2).mp hleaf] at hnone
  cases hnone

lemma mem_spread_iff (h : Spreads qos flags T data [] tree rows) (row : Row) :
    row ∈ rows ↔ (∃ leaf ∈ data.leaves, row = leafRow qos T [] leaf) ∨
      KeysFlag flags ∧ ∃ p, Gone T data tree p ∧ row = ⟨p, none, qos⟩ := by
  have hkept : row ∈ rows.filter (·.data.isSome) ↔
      ∃ leaf ∈ data.leaves, row = leafRow qos T [] leaf := by
    rw [h.kept, List.mem_map]
    simp only [eq_comm]
  have hgone := h.gone row
  simp only [List.nil_append] at hgone
  rw [← hkept, ← hgone, List.mem_filter, ← and_or_left]
  cases row.data <;> simp

/-- The rows for the topic of a leaf hold its text. -/
lemma data_of_leaf (hdata : data.Uniform (T.count manyCard)) (hd : data.Distinct)
    (h : Spreads qos flags T data [] tree rows) {c : List Str} {a : Scalar}
    (hleaf : data.leafAt c = some a) {row : Row} (hrow : row ∈ rows)
    (htopic : row.topic = fill manyCard T c) : row.data = scalarPayload a := by
  have hlength : c.length = T.count manyCard :=
    length_of_mem_leaves hdata hd ((Item.mem_leaves_iff hd c a).mpr hleaf)
  rcases (mem_spread_iff h row).mp hrow with ⟨⟨q, b⟩, hq, rfl⟩ | ⟨-, p, hgone, rfl⟩
  · have hqlength := length_of_mem_leaves hdata hd hq
    obtain rfl := fill_injective hqlength hlength htopic
    rw [(Item.mem_leaves_iff hd q b).mp hq] at hleaf
    cases hleaf
    rfl
  · obtain ⟨-, -, q, d, key, hqlength, rfl, hdict, hkey⟩ := hgone
    obtain rfl := fill_injective (by simpa using hqlength) hlength htopic
    rw [Item.leafAt_concat, hdict, Option.bind_some, hkey] at hleaf
    cases hleaf

/-- The rows for another topic delete it. -/
lemma data_of_gone (hdata : data.Uniform (T.count manyCard)) (hd : data.Distinct)
    (h : Spreads qos flags T data [] tree rows) {c : List Str}
    (hlength : c.length = T.count manyCard) (hleaf : data.leafAt c = none) {row : Row}
    (hrow : row ∈ rows) (htopic : row.topic = fill manyCard T c) : row.data = none := by
  rcases (mem_spread_iff h row).mp hrow with ⟨⟨q, b⟩, hq, rfl⟩ | ⟨-, p, -, rfl⟩
  · obtain rfl := fill_injective (length_of_mem_leaves hdata hd hq) hlength htopic
    rw [(Item.mem_leaves_iff hd q b).mp hq] at hleaf
    cases hleaf
  · rfl

/-- Without the flag the rows are those of the leaves. -/
lemma Spreads.eq_leafRows (h : Spreads qos flags T data [] tree rows) (hflag : ¬KeysFlag flags) :
    rows = data.leaves.map (leafRow qos T []) := by
  rw [← h.kept]
  refine (List.filter_eq_self.mpr fun row hrow => ?_).symm
  refine Option.isSome_iff_ne_none.mpr fun hnone => hflag ?_
  exact ((h.gone row).mp ⟨hrow, hnone⟩).1

/-- Without the leaf key in the pattern and in the data, the rows' topics are paths. -/
lemma paths_of_flatten (hT : Path T) (hkeys : DataKeys (· ≠ leafKey) data) {t : Rdd Payload}
    (hrows : flattenMessageIntoRows qos flags T data [] (.node t) = .ok rows) :
    ∀ row ∈ rows, Path row.topic := by
  intro row hrow
  have hkeep := @flattenMessageIntoRows_ok (· ≠ leafKey) _ (fun _ => True)
    ⟨trivial, fun _ => trivial⟩ _ _ _ _ _ _ hrows (fun n hn he => hT.2 (he ▸ hn)) (by simp)
    hkeys (Dict.all_of_forall (fun _ _ => id) t) row hrow
  exact ⟨hkeep.nonempty, fun hmem => hkeep.nodes _ hmem rfl⟩

end

end MoteBroker.Spread

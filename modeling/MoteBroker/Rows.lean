import MoteBroker.TreeItems

/-!
From a message to rows: `get_everything_as_rows`, `get_applicable_rows` and
`flatten_message_into_rows`, and what the rows' topics are made of.
-/

namespace MoteBroker.Rows

open NestedDict MoteBroker.Topics MoteBroker.RecursiveDefaultDict MoteBroker.TreeItems

/-! ### Rows of a retained tree -/

def getEverythingAsRows (data : Payload) (qos : ℕ) (topic : List Str) (start : Bool) :
    Rdd Payload → Except Exc (List Row)
  | .nil => .ok []
  | .leaf key val rest => do
    let rows ←
      if key = leafKey then pure (if start then [] else [⟨topic, data, qos⟩])
      -- a null branch is logged and skipped
      else if val = none then pure []
      else .error .attributeError
    return rows ++ (← getEverythingAsRows data qos topic start rest)
  | .node key val rest => do
    let rows ←
      if key = leafKey then pure (if start then [] else [⟨topic, data, qos⟩])
      else getEverythingAsRows data qos (topic ++ [key]) false val
    return rows ++ (← getEverythingAsRows data qos topic start rest)

/-- The loops over `tree.items()` that pass over the leaf key. -/
def forBranches (f : Str → Item Str Payload → Except Exc (List Row)) :
    List (Str × Item Str Payload) → Except Exc (List Row)
  | [] => .ok []
  | (key, branch) :: rest =>
    if key = leafKey then forBranches f rest
    else do
      let rows ← f key branch
      return rows ++ (← forBranches f rest)

def getApplicableRows (data : Payload) (qos : ℕ) :
    List Str → List Str → Item Str Payload → Bool → Except Exc (List Row)
  | [], _, _, _ => .error .indexError
  | node :: next_topic, base, tree, found_wildcard =>
    if node = everythingCard then
      if next_topic ≠ [] then .error .invalidEverythingCard
      else match tree with
        | .leaf _ => .error .attributeError
        | .node d => getEverythingAsRows data qos base true d
    else if node = manyCard then
      match tree with
      | .leaf _ => .error .attributeError
      | .node d =>
        if next_topic = [] then forBranches (fun key _ => .ok [⟨base ++ [key], data, qos⟩]) d.items
        else
          forBranches (fun key branch =>
            getApplicableRows data qos next_topic (base ++ [key]) branch true) d.items
    else if next_topic = [] then .ok [⟨base ++ [node], data, qos⟩]
    else
      match tree with
      | .leaf _ => .error .attributeError
      | .node d =>
        match d.get node with
        | none | some (.leaf none) =>
          .ok (if found_wildcard ∨ ¬next_topic.all isNodeStatic then []
            else [⟨base ++ node :: next_topic, data, qos⟩])
        | some branch =>
          getApplicableRows data qos next_topic (base ++ [node]) branch found_wildcard

/-! ### Rows of a payload tree -/

/-- `val.encode()`. -/
def encodeVal (val : JsonText.Value) : Except Exc Bytes :=
  match val with
  | .leaf (.str s) => .ok (Utf8.encode s)
  -- `UnicodeEncodeError`
  | .leaf (.codes _) => .error .valueError
  | _ => .error .attributeError

/-- `data.items()`. -/
def jsonItems (data : JsonText.Value) : Except Exc (List (Str × JsonText.Value)) :=
  match data with
  | .node d => .ok d.items
  | .leaf _ => .error .attributeError

/-- `tree.get(key, {})`. -/
def treeGet (tree : Item Str Payload) (key : Str) : Except Exc (Item Str Payload) :=
  match tree with
  | .node d => .ok ((d.get key).getD (.node .nil))
  | .leaf _ => .error .attributeError

/-- The rows that empty the keys of the tree which the data does not have. -/
def missingKeys (data : List (Str × JsonText.Value)) (qos : ℕ) (base : List Str)
    (tree : Item Str Payload) : Except Exc (List Row) :=
  match tree with
  | .leaf _ => .error .attributeError
  | .node d =>
    forBranches (fun key val =>
      match val with
      | .leaf _ => .error .attributeError
      | .node b =>
        if b.get leafKey = none ∨ key ∈ data.map Prod.fst then .ok []
        else .ok [⟨base ++ [key], none, qos⟩]) d.items

/-- The rows of the items, one after the other. -/
def extendRows (f : Str → JsonText.Value → Except Exc (List Row)) :
    List (Str × JsonText.Value) → Except Exc (List Row)
  | [] => .ok []
  | (key, val) :: rest => do
    let rows ← f key val
    return rows ++ (← extendRows f rest)

def flattenMessageIntoRows (qos : ℕ) (flags : Option JsonText.Value) :
    List Str → JsonText.Value → List Str → Item Str Payload → Except Exc (List Row)
  | [], _, _, _ => .error .indexError
  | node :: next_topic, data, base, tree =>
    if node = everythingCard then .error .invalidEverythingCard
    else if node = manyCard then do
      let items ← jsonItems data
      if next_topic = [] then do
        let results ← extendRows (fun key val => do
          return [⟨base ++ [key], some (← encodeVal val), qos⟩]) items
        if flags = some (.leaf (.str manyCard)) then
          return results ++ (← missingKeys items qos base tree)
        else return results
      else
        extendRows (fun key val => do
          flattenMessageIntoRows qos flags next_topic val (base ++ [key])
            (← treeGet tree key)) items
    else if next_topic = [] then do
      return [⟨base ++ [node], some (← encodeVal data), qos⟩]
    else do
      flattenMessageIntoRows qos flags next_topic data (base ++ [node]) (← treeGet tree node)

/-! ### What the rows are made of -/

/-- Every node of the rows' topics satisfies `P`, topics are nonempty and the data is the
message's. -/
def RowsOf (P : Str → Prop) (data : Payload) (rows : List Row) : Prop :=
  ∀ row ∈ rows, row.topic ≠ [] ∧ (∀ n ∈ row.topic, P n) ∧ row.data = data

/-- Every key but the leaf key satisfies `P`. -/
def KeysOf (P : Str → Prop) (t : Rdd Payload) : Prop := t.All fun k _ => k ≠ leafKey → P k

variable {P : Str → Prop} {data : Payload} {qos : ℕ}

lemma RowsOf.nil : RowsOf P data [] := fun _ h => nomatch h

lemma RowsOf.singleton {topic : List Str} (h0 : topic ≠ []) (h : ∀ n ∈ topic, P n) :
    RowsOf P data [⟨topic, data, qos⟩] := by
  intro row hr
  obtain rfl := List.mem_singleton.mp hr
  exact ⟨h0, h, rfl⟩

lemma RowsOf.append {xs ys : List Row} (hx : RowsOf P data xs) (hy : RowsOf P data ys) :
    RowsOf P data (xs ++ ys) := fun row hr =>
  (List.mem_append.mp hr).elim (hx row) (hy row)

lemma mem_concat {base : List Str} {n : Str} (hb : ∀ m ∈ base, P m) (hn : P n) :
    ∀ m ∈ base ++ [n], P m := by
  intro m hm
  rcases List.mem_append.mp hm with h | h
  · exact hb m h
  · rwa [List.mem_singleton.mp h]

lemma getEverythingAsRows_spec {t : Rdd Payload} (hs : Shape t) (hk : KeysOf P t)
    {topic : List Str} (hp : ∀ n ∈ topic, P n) {start : Bool} (h0 : start = false → topic ≠ []) :
    ∃ rows, getEverythingAsRows data qos topic start t = .ok rows ∧ RowsOf P data rows := by
  induction t generalizing topic start with
  | nil => exact ⟨[], rfl, .nil⟩
  | leaf key val rest ih =>
    obtain rfl : key = leafKey := hs.1
    obtain ⟨rows, hr, hrows⟩ := ih hs.2 hk.2 hp h0
    cases start with
    | true => exact ⟨rows, by simp [getEverythingAsRows, hr], hrows⟩
    | false =>
      exact ⟨⟨topic, data, qos⟩ :: rows, by simp [getEverythingAsRows, hr],
        (RowsOf.singleton (h0 rfl) hp).append hrows⟩
  | node key val rest ihs ih =>
    have hkey : key ≠ leafKey := hs.1
    obtain ⟨below, hb, hbelow⟩ := @ihs hs.2.1 hk.2.1 (topic ++ [key])
      (mem_concat hp (hk.1 hkey)) false fun _ => by simp
    obtain ⟨rows, hr, hrows⟩ := ih hs.2.2 hk.2.2 hp h0
    exact ⟨below ++ rows, by simp [getEverythingAsRows, hkey, hb, hr], hbelow.append hrows⟩

lemma forBranches_spec {f : Str → Item Str Payload → Except Exc (List Row)}
    {l : List (Str × Item Str Payload)}
    (h : ∀ k v, (k, v) ∈ l → k ≠ leafKey →
      (∃ rows, f k v = .ok rows ∧ RowsOf P data rows) ∨ f k v = .error .invalidEverythingCard) :
    (∃ rows, forBranches f l = .ok rows ∧ RowsOf P data rows) ∨
      forBranches f l = .error .invalidEverythingCard := by
  induction l with
  | nil => exact .inl ⟨[], rfl, .nil⟩
  | cons kv l ih =>
    obtain ⟨k, v⟩ := kv
    have ih := ih fun k v hm => h k v (List.mem_cons_of_mem _ hm)
    by_cases hk : k = leafKey
    · simpa [forBranches, hk] using ih
    · rcases h k v List.mem_cons_self hk with ⟨rows, hr, hrows⟩ | he
      · rcases ih with ⟨more, hm, hmore⟩ | he
        · exact .inl ⟨rows ++ more, by simp [forBranches, hk, hr, hm], hrows.append hmore⟩
        · exact .inr (by simp [forBranches, hk, hr, he])
      · exact .inr (by simp [forBranches, hk, he])

lemma mem_items_keysOf {d : Rdd Payload} (hs : Shape d) (hd : d.Distinct) (hk : KeysOf P d)
    {k : Str} {v : Item Str Payload} (h : (k, v) ∈ d.items) (hne : k ≠ leafKey) :
    P k ∧ ∃ b, v = .node b ∧ Shape b ∧ b.Distinct ∧ KeysOf P b := by
  have hv := (Dict.mem_items_iff hd.keys_nodup k v).mp h
  obtain ⟨b, rfl, hb⟩ := hs.get_node hne hv
  exact ⟨(hk.get hv).1 hne, b, rfl, hb, hd.get hv, (hk.get hv).2⟩

/-- Where a topic has a value, its nodes are keys of the tree. -/
lemma KeysOf.of_valueAt {t : Rdd Payload} (hk : KeysOf P t) (hs : Shape t)
    {p : List Str} (hp : valueAt t p ≠ none) : ∀ n ∈ p, P n := by
  induction p generalizing t with
  | nil => exact fun n hn => (nomatch hn)
  | cons k p ih =>
    have hkey : k ≠ leafKey := by
      rintro rfl
      exact hp (hs.valueAt_leafKey p)
    cases hv : t.get k with
    | none => rw [valueAt_cons, hv] at hp; exact absurd rfl hp
    | some v =>
      obtain ⟨b, rfl, hb⟩ := hs.get_node hkey hv
      rw [valueAt_of_get hv] at hp
      intro n hn
      rcases List.mem_cons.mp hn with rfl | hn
      · exact (hk.get hv).1 hkey
      · exact ih (hk.get hv).2 hb hp n hn

/-- **A message is turned into rows** over a tree of the right shape unless its `#` stands in
the wrong place, and the rows' topics are made of the static nodes of its topic and of the tree. -/
theorem getApplicableRows_spec {topic base : List Str} {found_wildcard : Bool} (h0 : topic ≠ [])
    (ht : ∀ n ∈ topic, isNodeStatic n → P n) (hb : ∀ n ∈ base, P n) (hL : leafKey ∉ topic)
    {d : Rdd Payload} (hs : Shape d) (hd : d.Distinct) (hk : KeysOf P d) :
    (∃ rows, getApplicableRows data qos topic base (.node d) found_wildcard = .ok rows ∧
      RowsOf P data rows) ∨
    getApplicableRows data qos topic base (.node d) found_wildcard =
      .error .invalidEverythingCard := by
  induction topic generalizing base found_wildcard d with
  | nil => exact absurd rfl h0
  | cons node next ih =>
    simp only [List.mem_cons, forall_eq_or_imp, not_or] at ht hL
    unfold getApplicableRows
    by_cases hE : node = everythingCard
    · rw [if_pos hE]
      by_cases hnil : next = []
      · rw [if_neg (not_not.mpr hnil)]
        exact .inl (getEverythingAsRows_spec hs hk hb (by simp))
      · exact .inr (if_pos hnil)
    rw [if_neg hE]
    by_cases hM : node = manyCard
    · rw [if_pos hM]
      by_cases hnil : next = []
      · simp only [if_pos hnil]
        refine forBranches_spec fun k v hm hkey => .inl ⟨_, rfl, .singleton (by simp) ?_⟩
        exact mem_concat hb (mem_items_keysOf hs hd hk hm hkey).1
      · simp only [if_neg hnil]
        refine forBranches_spec fun k v hm hkey => ?_
        obtain ⟨hP, b, rfl, hbs, hbd, hbk⟩ := mem_items_keysOf hs hd hk hm hkey
        exact ih hnil ht.2 (mem_concat hb hP) hL.2 hbs hbd hbk
    rw [if_neg hM]
    have hnode : P node := ht.1 (isNodeStatic_of_ne hE hM)
    by_cases hnil : next = []
    · rw [if_pos hnil]
      exact .inl ⟨_, rfl, .singleton (by simp) (mem_concat hb hnode)⟩
    · simp only [if_neg hnil]
      cases hv : d.get node with
      | none =>
        refine .inl ⟨_, rfl, ?_⟩
        split_ifs with hsome
        · exact .nil
        · have hall : next.all isNodeStatic := by_contra fun h => hsome (.inr h)
          refine .singleton (by simp) fun n hn => ?_
          rcases List.mem_append.mp hn with h | h
          · exact hb n h
          · rcases List.mem_cons.mp h with rfl | h
            · exact hnode
            · exact ht.2 n h (List.all_eq_true.mp hall n h)
      | some v =>
        obtain ⟨b, rfl, hbs⟩ := hs.get_node (fun e => hL.1 e.symm) hv
        exact ih hnil ht.2 (mem_concat hb hnode) hL.2 hbs (hd.get hv) (hk.get hv).2

/-! ### The rows of a payload tree -/

/-- A row that can be kept: its topic is made of nodes that satisfy `P`, its payload satisfies
`D`. -/
structure Keeps (P : Str → Prop) (D : Payload → Prop) (row : Row) : Prop where
  nonempty : row.topic ≠ []
  nodes : ∀ n ∈ row.topic, P n
  data : D row.data

/-- What holds of the payloads that a payload tree can give: texts, and none. -/
structure OfText (D : Payload → Prop) : Prop where
  none : D none
  text : ∀ s, D (some (Utf8.encode s))

lemma decodes_ofText : OfText Decodes where
  none := decodes_none
  text := fun s b hb => by cases hb; rw [Utf8.decode_encode]; rfl

variable {D : Payload → Prop}

lemma Keeps.concat {base : List Str} {key : Str} (hb : ∀ n ∈ base, P n) (hk : P key)
    (hd : D data) : Keeps P D ⟨base ++ [key], data, qos⟩ :=
  ⟨by simp, mem_concat hb hk, hd⟩

/-- Every key of the data satisfies `P`. -/
def DataKeys (P : Str → Prop) (data : JsonText.Value) : Prop := data.All fun k _ => P k

section
variable {f : Str → Item Str Payload → Except Exc (List Row)} {l : List (Str × Item Str Payload)}
  {rows : List Row}

/-- The rows of a loop are those of its branches, one after the other. -/
lemma forBranches_eq_ok : forBranches f l = .ok rows ↔
    ∃ g, (∀ e ∈ l, e.1 ≠ leafKey → f e.1 e.2 = .ok (g e)) ∧
      rows = (l.filter (·.1 ≠ leafKey)).flatMap g := by
  refine ⟨fun h => ⟨fun e => (f e.1 e.2).toOption.getD [], ?_⟩, ?_⟩
  · induction l generalizing rows with
    | nil =>
      cases h
      exact ⟨by simp, rfl⟩
    | cons e l ih =>
      obtain ⟨key, val⟩ := e
      unfold forBranches at h
      by_cases hk : key = leafKey
      · rw [if_pos hk] at h
        obtain ⟨hrest, rfl⟩ := ih h
        exact ⟨List.forall_mem_cons.mpr ⟨fun hne => absurd hk hne, hrest⟩, by simp [hk]⟩
      · rw [if_neg hk] at h
        obtain ⟨xs, hxs, h⟩ := ok_of_bind h
        obtain ⟨ys, hys, h⟩ := ok_of_bind h
        cases h
        obtain ⟨hrest, rfl⟩ := ih hys
        have hfirst : f key val = .ok ((f key val).toOption.getD []) := by
          rw [hxs]
          rfl
        refine ⟨List.forall_mem_cons.mpr ⟨fun _ => hfirst, hrest⟩, ?_⟩
        rw [List.filter_cons_of_pos (by simpa using hk), List.flatMap_cons, hxs]
        rfl
  · rintro ⟨g, hg, rfl⟩
    induction l with
    | nil => rfl
    | cons e l ih =>
      obtain ⟨hfirst, hrest⟩ := List.forall_mem_cons.mp hg
      obtain ⟨key, val⟩ := e
      by_cases hk : key = leafKey
      · simp [forBranches, hk, ih hrest]
      · simp [forBranches, hk, hfirst hk, ih hrest]

lemma exists_forBranches (h : ∀ k v, (k, v) ∈ l → k ≠ leafKey → ∃ rs, f k v = .ok rs) :
    ∃ rows, forBranches f l = .ok rows := by
  have hrows : ∀ e ∈ l, e.1 ≠ leafKey → ∃ rs, f e.1 e.2 = .ok rs := fun e he => h e.1 e.2 he
  choose! g hg using hrows
  exact ⟨_, forBranches_eq_ok.mpr ⟨g, hg, rfl⟩⟩

/-- A loop that returns has gone through every branch. -/
lemma exists_of_forBranches (h : forBranches f l = .ok rows) {k : Str} {v : Item Str Payload}
    (hm : (k, v) ∈ l) (hk : k ≠ leafKey) : ∃ rs, f k v = .ok rs := by
  obtain ⟨g, hg, -⟩ := forBranches_eq_ok.mp h
  exact ⟨_, hg (k, v) hm hk⟩

lemma mem_forBranches (h : forBranches f l = .ok rows) (row : Row) :
    row ∈ rows ↔ ∃ k v rs, (k, v) ∈ l ∧ k ≠ leafKey ∧ f k v = .ok rs ∧ row ∈ rs := by
  obtain ⟨g, hg, rfl⟩ := forBranches_eq_ok.mp h
  rw [List.mem_flatMap]
  refine ⟨?_, ?_⟩
  · rintro ⟨⟨k, v⟩, he, hrow⟩
    obtain ⟨hm, hk⟩ := List.mem_filter.mp he
    have hk : k ≠ leafKey := by simpa using hk
    exact ⟨k, v, _, hm, hk, hg (k, v) hm hk, hrow⟩
  · rintro ⟨k, v, rs, hm, hk, hrs, hrow⟩
    rw [hg (k, v) hm hk] at hrs
    cases hrs
    exact ⟨(k, v), List.mem_filter.mpr ⟨hm, by simpa using hk⟩, hrow⟩

end

lemma forBranches_ok {f : Str → Item Str Payload → Except Exc (List Row)} {Q : Row → Prop}
    {l : List (Str × Item Str Payload)} {rows : List Row} (h : forBranches f l = .ok rows)
    (hf : ∀ k v rs, (k, v) ∈ l → k ≠ leafKey → f k v = .ok rs → ∀ row ∈ rs, Q row) :
    ∀ row ∈ rows, Q row := by
  intro row hrow
  obtain ⟨k, v, rs, hm, hk, hrs, hrow⟩ := (mem_forBranches h row).mp hrow
  exact hf k v rs hm hk hrs row hrow

lemma missingKeys_ok (hD : OfText D) {items : List (Str × JsonText.Value)} {base : List Str}
    {tree : Item Str Payload} {rows : List Row} (h : missingKeys items qos base tree = .ok rows)
    (hb : ∀ n ∈ base, P n) (ht : tree.All fun k _ => k ≠ leafKey → P k) :
    ∀ row ∈ rows, Keeps P D row := by
  cases tree with
  | leaf a => cases h
  | node d =>
    refine forBranches_ok h fun k v rs hm hk hrs row hr => ?_
    have hP : P k := (Dict.All.of_mem_items ht hm).1 hk
    cases v with
    | leaf a => cases hrs
    | node b =>
      simp only at hrs
      split_ifs at hrs with hskip
      · cases hrs; cases hr
      · cases hrs
        cases List.mem_singleton.mp hr
        exact .concat hb hP hD.none

lemma treeGet_keys {tree branch : Item Str Payload} {key : Str}
    (h : treeGet tree key = .ok branch) (ht : tree.All fun k _ => k ≠ leafKey → P k) :
    branch.All fun k _ => k ≠ leafKey → P k := by
  cases tree with
  | leaf a => cases h
  | node d =>
    cases h
    cases hv : d.get key with
    | none => trivial
    | some v => exact (Dict.All.get ht hv).2

lemma encodeVal_ok {val : JsonText.Value} {b : Bytes} (h : encodeVal val = .ok b) :
    ∃ s, val = .leaf (.str s) ∧ b = Utf8.encode s := by
  unfold encodeVal at h
  split at h
  · cases h
    exact ⟨_, rfl, rfl⟩
  · cases h
  · cases h

/-- The rows of a loop are those of its items, one after the other. -/
lemma extendRows_eq_ok {f : Str → JsonText.Value → Except Exc (List Row)}
    {l : List (Str × JsonText.Value)} {rows : List Row} :
    extendRows f l = .ok rows ↔ ∃ g, (∀ e ∈ l, f e.1 e.2 = .ok (g e)) ∧ rows = l.flatMap g := by
  refine ⟨fun h => ⟨fun e => (f e.1 e.2).toOption.getD [], ?_⟩, ?_⟩
  · induction l generalizing rows with
    | nil =>
      cases h
      exact ⟨by simp, rfl⟩
    | cons e l ih =>
      obtain ⟨xs, hxs, h⟩ := ok_of_bind h
      obtain ⟨ys, hys, h⟩ := ok_of_bind h
      cases h
      obtain ⟨hrest, rfl⟩ := ih hys
      have hfirst : f e.1 e.2 = .ok ((f e.1 e.2).toOption.getD []) := by
        rw [hxs]
        rfl
      refine ⟨List.forall_mem_cons.mpr ⟨hfirst, hrest⟩, ?_⟩
      rw [List.flatMap_cons, hxs]
      rfl
  · rintro ⟨g, hg, rfl⟩
    induction l with
    | nil => rfl
    | cons e l ih =>
      obtain ⟨hfirst, hrest⟩ := List.forall_mem_cons.mp hg
      simp [extendRows, hfirst, ih hrest]

/-- The loop of the last node returns when every value is a text. -/
lemma extendRows_texts {base : List Str} {l : List (Str × JsonText.Value)} {rows : List Row} :
    extendRows (fun key val => do
      return [⟨base ++ [key], some (← encodeVal val), qos⟩]) l = .ok rows ↔
      ∃ text : Str × JsonText.Value → Str, (∀ e ∈ l, e.2 = .leaf (.str (text e))) ∧
        rows = l.map fun e => ⟨base ++ [e.1], some (Utf8.encode (text e)), qos⟩ := by
  rw [extendRows_eq_ok]
  refine ⟨?_, ?_⟩
  · rintro ⟨g, hg, rfl⟩
    have htext : ∀ e ∈ l, ∃ s, e.2 = .leaf (.str s) ∧
        g e = [⟨base ++ [e.1], some (Utf8.encode s), qos⟩] := by
      intro e he
      obtain ⟨b, hb, hrow⟩ := ok_of_bind (hg e he)
      obtain ⟨s, hs, rfl⟩ := encodeVal_ok hb
      exact ⟨s, hs, (Except.ok.inj hrow).symm⟩
    choose! text htext hrow using htext
    exact ⟨text, htext, by rw [List.flatMap_congr hrow, List.map_eq_flatMap]⟩
  · rintro ⟨text, htext, rfl⟩
    refine ⟨fun e => [⟨base ++ [e.1], some (Utf8.encode (text e)), qos⟩], fun e he => ?_,
      List.map_eq_flatMap⟩
    rw [htext e he]
    rfl

/-- The calls of `flatten_message_into_rows` that return, by the way they take. -/
inductive Flattens (qos : ℕ) (flags : Option JsonText.Value) :
    List Str → JsonText.Value → List Str → Item Str Payload → List Row → Prop
  | last {node s : Str} {base : List Str} {tree : Item Str Payload} :
      node ≠ everythingCard → node ≠ manyCard →
      Flattens qos flags [node] (.leaf (.str s)) base tree
        [⟨base ++ [node], some (Utf8.encode s), qos⟩]
  | static {node : Str} {next : List Str} {data : JsonText.Value} {base : List Str}
      {tree branch : Item Str Payload} {rows : List Row} :
      node ≠ everythingCard → node ≠ manyCard → next ≠ [] → treeGet tree node = .ok branch →
      Flattens qos flags next data (base ++ [node]) branch rows →
      Flattens qos flags (node :: next) data base tree rows
  | lastMany {d : Dict Str JsonText.Scalar} {base : List Str} {tree : Item Str Payload}
      {gone : List Row} {text : Str × JsonText.Value → Str} :
      (∀ e ∈ d.items, e.2 = .leaf (.str (text e))) →
      (flags = some (.leaf (.str manyCard)) → missingKeys d.items qos base tree = .ok gone) →
      (flags ≠ some (.leaf (.str manyCard)) → gone = []) →
      Flattens qos flags [manyCard] (.node d) base tree
        (d.items.map (fun e => ⟨base ++ [e.1], some (Utf8.encode (text e)), qos⟩) ++ gone)
  | many {next : List Str} {d : Dict Str JsonText.Scalar} {base : List Str}
      {tree : Item Str Payload} {branch : Str × JsonText.Value → Item Str Payload}
      {rows : Str × JsonText.Value → List Row} :
      next ≠ [] → (∀ e ∈ d.items, treeGet tree e.1 = .ok (branch e)) →
      (∀ e ∈ d.items, Flattens qos flags next e.2 (base ++ [e.1]) (branch e) (rows e)) →
      Flattens qos flags (manyCard :: next) (.node d) base tree (d.items.flatMap rows)

section
variable {flags : Option JsonText.Value} {topic base : List Str} {val : JsonText.Value}
  {tree : Item Str Payload} {rows : List Row}

lemma flattens_of_ok
    (h : flattenMessageIntoRows qos flags topic val base tree = .ok rows) :
    Flattens qos flags topic val base tree rows := by
  induction topic generalizing base val tree rows with
  | nil => cases h
  | cons node next ih =>
    unfold flattenMessageIntoRows at h
    by_cases hE : node = everythingCard
    · rw [if_pos hE] at h
      cases h
    rw [if_neg hE] at h
    by_cases hM : node = manyCard
    · subst hM
      rw [if_pos rfl] at h
      obtain ⟨items, hitems, h⟩ := ok_of_bind h
      obtain ⟨d, rfl, rfl⟩ : ∃ d, val = .node d ∧ items = d.items := by
        cases val with
        | leaf s => cases hitems
        | node d => cases hitems; exact ⟨d, rfl, rfl⟩
      by_cases hnil : next = []
      · subst hnil
        simp only [if_true] at h
        obtain ⟨results, hresults, h⟩ := ok_of_bind h
        obtain ⟨text, htext, rfl⟩ := extendRows_texts.mp hresults
        by_cases hflag : flags = some (.leaf (.str manyCard))
        · rw [if_pos hflag] at h
          obtain ⟨gone, hgone, h⟩ := ok_of_bind h
          cases h
          exact .lastMany htext (fun _ => hgone) (absurd hflag)
        · rw [if_neg hflag] at h
          cases h
          have hrows := @Flattens.lastMany qos flags d base tree [] text htext
            (fun h => absurd h hflag) (fun _ => rfl)
          rwa [List.append_nil] at hrows
      · simp only [if_neg hnil] at h
        obtain ⟨g, hg, rfl⟩ := extendRows_eq_ok.mp h
        have hbelow : ∀ e ∈ d.items, ∃ branch, treeGet tree e.1 = .ok branch ∧
            Flattens qos flags next e.2 (base ++ [e.1]) branch (g e) := by
          intro e he
          obtain ⟨branch, hbranch, hrows⟩ := ok_of_bind (hg e he)
          exact ⟨branch, hbranch, ih hrows⟩
        have : Nonempty (Item Str Payload) := ⟨.node .nil⟩
        choose! branch hbranch hrows using hbelow
        exact .many hnil hbranch hrows
    rw [if_neg hM] at h
    by_cases hnil : next = []
    · subst hnil
      rw [if_pos rfl] at h
      obtain ⟨b, hb, h⟩ := ok_of_bind h
      obtain ⟨s, rfl, rfl⟩ := encodeVal_ok hb
      cases h
      exact .last hE hM
    · rw [if_neg hnil] at h
      obtain ⟨branch, hbranch, h⟩ := ok_of_bind h
      exact .static hE hM hnil hbranch (ih h)

/-- And only they return. -/
lemma Flattens.ok (h : Flattens qos flags topic val base tree rows) :
    flattenMessageIntoRows qos flags topic val base tree = .ok rows := by
  induction h with
  | last hE hM => simp [flattenMessageIntoRows, hE, hM, encodeVal]
  | static hE hM hnil hbranch _ ih => simp [flattenMessageIntoRows, hE, hM, hnil, hbranch, ih]
  | @lastMany d base tree gone text htext hgone hnone =>
    unfold flattenMessageIntoRows
    rw [if_neg (by decide), if_pos rfl]
    simp only [jsonItems, ok_bind, if_true]
    rw [extendRows_texts.mpr ⟨text, htext, rfl⟩, ok_bind]
    by_cases hflag : flags = some (.leaf (.str manyCard))
    · rw [if_pos hflag, hgone hflag]
      rfl
    · rw [if_neg hflag, hnone hflag, List.append_nil]
      rfl
  | @many next d base tree branch rows hnil hbranch _ ih =>
    unfold flattenMessageIntoRows
    rw [if_neg (by decide), if_pos rfl]
    simp only [jsonItems, ok_bind, if_neg hnil]
    refine extendRows_eq_ok.mpr ⟨rows, fun e he => ?_, rfl⟩
    rw [hbranch e he, ok_bind, ih e he]

end

/-- **The rows of a payload tree can be kept** where the topic's nodes, the keys of the data and
those of the tree satisfy `P`. -/
theorem flattenMessageIntoRows_ok (hD : OfText D) {flags : Option JsonText.Value}
    {topic base : List Str} {val : JsonText.Value} {tree : Item Str Payload} {rows : List Row}
    (h : flattenMessageIntoRows qos flags topic val base tree = .ok rows)
    (ht : ∀ n ∈ topic, P n) (hb : ∀ n ∈ base, P n) (hk : DataKeys P val)
    (htree : tree.All fun k _ => k ≠ leafKey → P k) : ∀ row ∈ rows, Keeps P D row := by
  replace h := flattens_of_ok h
  induction h with
  | last =>
    intro row hr
    cases List.mem_singleton.mp hr
    exact .concat hb (ht _ List.mem_cons_self) (hD.text _)
  | static _ _ _ hbranch _ ih =>
    obtain ⟨hnode, hnext⟩ := List.forall_mem_cons.mp ht
    exact ih hnext (mem_concat hb hnode) hk (treeGet_keys hbranch htree)
  | lastMany _ hgone hnone =>
    intro row hr
    rcases List.mem_append.mp hr with hr | hr
    · obtain ⟨e, he, rfl⟩ := List.mem_map.mp hr
      exact .concat hb (Dict.All.of_mem_items hk he).1 (hD.text _)
    · by_cases hflag : flags = some (.leaf (.str manyCard))
      · exact missingKeys_ok hD (hgone hflag) hb htree row hr
      · rw [hnone hflag] at hr
        cases hr
  | many _ hbranch _ ih =>
    intro row hr
    obtain ⟨e, he, hr⟩ := List.mem_flatMap.mp hr
    obtain ⟨hkey, hval⟩ := Dict.All.of_mem_items hk he
    exact ih e he (List.forall_mem_cons.mp ht).2 (mem_concat hb hkey) hval
      (treeGet_keys (hbranch e he) htree) row hr

end MoteBroker.Rows

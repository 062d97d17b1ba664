import Mathlib.Data.List.AList
import MoteBroker.Lib.LastWrite
import MoteBroker.Lib.Wildcard
import MoteBroker.TreeItems

/-!
`create_messages_for_subscriptions`: one message for every subscription that rows match, and
what the message says.
-/

namespace MoteBroker.CreateMessages

open NestedDict Wildcard MoteBroker.Topics MoteBroker.RecursiveDefaultDict
open MoteBroker.TreeItems

/-- The clients of a subscription with their qos: the dictionary under the leaf key. -/
abbrev ClientSet := AList fun _ : Str => ℕ

/-- An instance that evaluates. -/
instance (cs : ClientSet) : Decidable (cs = ∅) :=
  decidable_of_iff (cs.entries = []) ⟨fun h => AList.ext h, fun h => congrArg AList.entries h⟩

/-- What a message is for: the walk reaches a client map, or, through it, one qos. -/
inductive Branch
  | clients (cs : ClientSet)
  | qos (n : ℕ)

structure Message where
  branch : Branch
  base : List Str
  data : Payload

/-! ### The data -/

/-- The nodes of the topic that stand at the cards of the base. -/
def captured : List Str → List Str → List Str
  | current_filter_node :: base, node :: topic =>
    if isNodeStatic current_filter_node then captured base topic
    else node :: captured base topic
  | _, _ => []

/-- The walk of `ref` and `ref_key` along the captured nodes, and the assignment at its end.
Without any the assignment misses the tree. -/
def assignPath (data : Payload) : Rdd Payload → List Str → Except Exc (Rdd Payload)
  | tree, [] => .ok tree
  | tree, [ref_key] => .ok (tree.set ref_key (.leaf data))
  | tree, ref_key :: x :: next =>
    match getItem none tree ref_key with
    | (.node ref, tree) => do
      let ref ← assignPath data ref (x :: next)
      return tree.set ref_key (.node ref)
    | (.leaf _, _) => .error .typeError

def buildTree (base : List Str) : Rdd Payload → List Row → Except Exc (Rdd Payload)
  | tree, [] => .ok tree
  | tree, row :: leaf_rows => do
    buildTree base (← assignPath row.data tree (captured base row.topic)) leaf_rows

def buildMessageData (leaf_rows : List Row) (base : List Str) (wildcards : Bool) :
    Except Exc Payload :=
  if wildcards then do
    let tree ← buildTree base .nil leaf_rows
    return some (← stringify tree)
  else
    match leaf_rows.getLast? with
    | some row => .ok row.data
    | none => .error .indexError

/-! ### The walk -/

/-- `rows_by_current_node[node]`. -/
def rowsAt (rows : List Row) (depth : ℕ) (node : Str) : List Row :=
  rows.filter fun row => row.topic[depth]? = some node

def leafRows (rows : List Row) (depth : ℕ) : List Row :=
  rows.filter fun row => depth = row.topic.length

/-- `new_rows` for a filter node. -/
def newRows (rows : List Row) (depth : ℕ) (filter_node : Str) : List Row :=
  if filter_node = manyCard then rows else rowsAt rows depth filter_node

/-- The walk below a client map, whose keys are then read as filter nodes: a qos has no
items. -/
def descendClients (rows : List Row) (base : List Str) (depth : ℕ) (wildcards : Bool) :
    List (Str × ℕ) → Except Exc (List Message)
  | [] => .ok []
  | (filter_node, qos) :: rest => do
    let messages ←
      if leafRows rows depth ≠ [] ∧ filter_node = leafKey then do
        let response_data ← buildMessageData (leafRows rows depth) base wildcards
        pure [⟨.qos qos, base, response_data⟩]
      else if newRows rows depth filter_node = [] then pure []
      else .error .attributeError
    return messages ++ (← descendClients rows base depth wildcards rest)

def createMessages (rows : List Row) (base : List Str) (depth : ℕ) (wildcards : Bool) :
    Rdd ClientSet → Except Exc (List Message)
  | .nil => .ok []
  | .leaf filter_node cs rest => do
    let messages ←
      if leafRows rows depth ≠ [] ∧ filter_node = leafKey then do
        let response_data ← buildMessageData (leafRows rows depth) base wildcards
        pure [⟨.clients cs, base, response_data⟩]
      else if newRows rows depth filter_node = [] then pure []
      else
        descendClients (newRows rows depth filter_node) (base ++ [filter_node]) (depth + 1)
          (wildcards || filter_node = manyCard) (cs.entries.map fun e => (e.1, e.2))
    return messages ++ (← createMessages rows base depth wildcards rest)
  | .node filter_node branch rest => do
    let messages ←
      -- a dictionary under the leaf key, which no subscription makes, has no clients
      if leafRows rows depth ≠ [] ∧ filter_node = leafKey then .error .attributeError
      else if newRows rows depth filter_node = [] then pure []
      else
        createMessages (newRows rows depth filter_node) (base ++ [filter_node]) (depth + 1)
          (wildcards || filter_node = manyCard) branch
    return messages ++ (← createMessages rows base depth wildcards rest)

/-- `create_messages_for_subscriptions`. -/
def createMessagesForSubscriptions (subscriptions : Rdd ClientSet) (rows : List Row) :
    Except Exc (List Message) := createMessages rows [] 0 false subscriptions

/-! ### Which rows match -/

/-- The rows that match the filter from the given depth on. -/
def matching (rows : List Row) (depth : ℕ) (F : List Str) : List Row :=
  rows.filter fun row =>
    depth ≤ row.topic.length ∧ Matches manyCard F (row.topic.drop depth)

lemma matching_nil (rows : List Row) (depth : ℕ) :
    matching rows depth [] = leafRows rows depth := by
  refine List.filter_congr fun row _ => ?_
  have : Matches manyCard [] (row.topic.drop depth) ↔ row.topic.length ≤ depth := by
    cases h : row.topic.drop depth with
    | nil => simpa [Matches] using List.drop_eq_nil_iff.mp h
    | cons n t =>
      have : depth < row.topic.length := by
        by_contra hle
        rw [List.drop_eq_nil_of_le (by omega)] at h
        cases h
      simp only [Matches, false_iff]
      omega
  simp only [this, decide_eq_decide]
  omega

/-- **Regrouping loses nothing**: the rows that match a filter are the rows that match its
rest among those the walk hands down for its first node. -/
lemma matching_cons (rows : List Row) (depth : ℕ) (f : Str) (F : List Str) :
    matching rows depth (f :: F) = matching (newRows rows depth f) (depth + 1) F := by
  have key : ∀ row : Row, (depth ≤ row.topic.length ∧
      Matches manyCard (f :: F) (row.topic.drop depth)) ↔
      (f = manyCard ∨ row.topic[depth]? = some f) ∧ depth + 1 ≤ row.topic.length ∧
        Matches manyCard F (row.topic.drop (depth + 1)) := by
    intro row
    by_cases hlt : depth < row.topic.length
    · rw [List.drop_eq_getElem_cons hlt, List.getElem?_eq_getElem hlt]
      simp only [Matches, Option.some.injEq, eq_comm (a := f)]
      refine ⟨?_, ?_⟩
      · rintro ⟨-, h, hm⟩; exact ⟨h, hlt, hm⟩
      · rintro ⟨h, -, hm⟩; exact ⟨by omega, h, hm⟩
    · rw [List.drop_eq_nil_of_le (by omega)]
      simp only [Matches, and_false, false_iff]
      omega
  unfold matching newRows rowsAt
  by_cases hf : f = manyCard
  · rw [if_pos hf]
    refine List.filter_congr fun row _ => decide_eq_decide.mpr ?_
    rw [key]
    simp [hf]
  · rw [if_neg hf, List.filter_filter]
    refine List.filter_congr fun row _ => ?_
    rw [← Bool.decide_and, decide_eq_decide, key]
    simp only [hf, false_or]
    tauto

lemma matching_zero (rows : List Row) (F : List Str) :
    matching rows 0 F = rows.filter fun row => Matches manyCard F row.topic := by
  simp [matching]

lemma mem_newRows {rows : List Row} {depth : ℕ} {f : Str} {row : Row}
    (h : row ∈ newRows rows depth f) : row ∈ rows := by
  unfold newRows rowsAt at h
  split_ifs at h
  · exact h
  · exact List.mem_of_mem_filter h

/-! ### The walk finds every subscription -/

/-- The filters of a subscription tree with their clients, in the order of the walk. -/
def subscribers (S : Rdd ClientSet) : List (List Str × ClientSet) :=
  S.leaves.map fun pc => (pc.1.dropLast, pc.2)

/-- What the rows call for at one filter below `base`. -/
def answer (rows : List Row) (base : List Str) (depth : ℕ) (wildcards : Bool) (F : List Str)
    (cs : ClientSet) : Except Exc (List Message) :=
  if matching rows depth F = [] then .ok []
  else do
    let data ← buildMessageData (matching rows depth F) (base ++ F)
      (wildcards || manyCard ∈ F)
    return [⟨.clients cs, base ++ F, data⟩]

def answers (rows : List Row) (base : List Str) (depth : ℕ) (wildcards : Bool) :
    List (List Str × ClientSet) → Except Exc (List Message)
  | [] => .ok []
  | (F, cs) :: l => do
    let messages ← answer rows base depth wildcards F cs
    return messages ++ (← answers rows base depth wildcards l)

/-- The messages of a list, one after the other, unless one of them cannot be had. -/
def concatAll {α : Type} (f : α → Except Exc (List Message)) : List α → Except Exc (List Message)
  | [] => .ok []
  | x :: l => do
    let messages ← f x
    return messages ++ (← concatAll f l)

/-- The walk towards the clients of one filter. -/
def walkAt (cs : ClientSet) :
    List Str → List Row → List Str → ℕ → Bool → Except Exc (List Message)
  | [], rows, base, depth, wildcards =>
    if leafRows rows depth ≠ [] then do
      let response_data ← buildMessageData (leafRows rows depth) base wildcards
      return [⟨.clients cs, base, response_data⟩]
    else if newRows rows depth leafKey = [] then .ok []
    else
      descendClients (newRows rows depth leafKey) (base ++ [leafKey]) (depth + 1)
        (wildcards || leafKey = manyCard) (cs.entries.map fun e => (e.1, e.2))
  | f :: F, rows, base, depth, wildcards =>
    if newRows rows depth f = [] then .ok []
    else walkAt cs F (newRows rows depth f) (base ++ [f]) (depth + 1) (wildcards || f = manyCard)

variable {rows : List Row} {base : List Str} {depth : ℕ} {wildcards : Bool}

section
variable {α : Type} {f : α → Except Exc (List Message)}

lemma concatAll_append (l l' : List α) :
    concatAll f (l ++ l') = do
      let messages ← concatAll f l
      return messages ++ (← concatAll f l') := by
  induction l with
  | nil => simp [concatAll]
  | cons x l ih =>
    rw [List.cons_append, concatAll, concatAll, ih]
    cases f x with
    | error e => rfl
    | ok a => cases concatAll f l with
      | error e => rfl
      | ok b => cases concatAll f l' with
        | error e => rfl
        | ok c => exact congrArg Except.ok (List.append_assoc a b c).symm

lemma concatAll_map {β : Type} (g : β → α) (l : List β) :
    concatAll f (l.map g) = concatAll (fun x => f (g x)) l := by
  induction l with
  | nil => rfl
  | cons x l ih => rw [List.map_cons, concatAll, concatAll, ih]

lemma concatAll_congr {g : α → Except Exc (List Message)} {l : List α} (h : ∀ x ∈ l, f x = g x) :
    concatAll f l = concatAll g l := by
  induction l with
  | nil => rfl
  | cons x l ih =>
    rw [concatAll, concatAll, h x List.mem_cons_self,
      ih fun y hy => h y (List.mem_cons_of_mem _ hy)]

lemma concatAll_nothing (l : List α) : concatAll (fun _ => .ok []) l = .ok [] := by
  induction l with
  | nil => rfl
  | cons x l ih =>
    rw [concatAll, ih]
    rfl

lemma concatAll_ok {g : α → List Message} {l : List α} (h : ∀ x ∈ l, f x = .ok (g x)) :
    concatAll f l = .ok (l.flatMap g) := by
  induction l with
  | nil => rfl
  | cons x l ih =>
    rw [concatAll, h x List.mem_cons_self, ih fun y hy => h y (List.mem_cons_of_mem _ hy)]
    rfl

/-- The messages of all elements, or an exception because of one of them. -/
lemma concatAll_cases (l : List α) :
    ((∀ x ∈ l, ∃ ms, f x = .ok ms) ∧
        concatAll f l = .ok (l.flatMap fun x => (f x).toOption.getD [])) ∨
      ((∃ x ∈ l, ∃ e, f x = .error e) ∧ ∃ e, concatAll f l = .error e) := by
  induction l with
  | nil => exact .inl ⟨fun x hx => (nomatch hx), rfl⟩
  | cons x l ih =>
    cases hx : f x with
    | error e => exact .inr ⟨⟨x, List.mem_cons_self, e, hx⟩, e, by simp [concatAll, hx]⟩
    | ok ms =>
      rcases ih with ⟨hall, hl⟩ | ⟨⟨y, hy, e, hye⟩, e', hl⟩
      · refine .inl ⟨fun y hy => ?_, by simp [concatAll, hx, hl, Except.toOption]⟩
        rcases List.mem_cons.mp hy with rfl | hy
        · exact ⟨ms, hx⟩
        · exact hall y hy
      · exact .inr ⟨⟨y, List.mem_cons_of_mem _ hy, e, hye⟩, e', by simp [concatAll, hx, hl]⟩

end

/-- Below a client map there are no clients. -/
lemma descendClients_qos {l : List (Str × ℕ)} {ms : List Message}
    (h : descendClients rows base depth wildcards l = .ok ms) :
    ∀ m ∈ ms, ∃ n, m.branch = .qos n := by
  induction l generalizing ms with
  | nil =>
    cases h
    exact fun m hm => absurd hm List.not_mem_nil
  | cons e l ih =>
    obtain ⟨filter_node, qos⟩ := e
    unfold descendClients at h
    dsimp only at h
    split_ifs at h
    · obtain ⟨data, -, h⟩ := ok_of_bind h
      obtain ⟨messages, hmessages, h⟩ := ok_of_bind h
      obtain ⟨rest, hrest, h⟩ := ok_of_bind h
      cases hmessages
      cases h
      intro m hm
      rcases List.mem_cons.mp hm with rfl | hm
      · exact ⟨qos, rfl⟩
      · exact ih hrest m hm
    · obtain ⟨messages, hmessages, h⟩ := ok_of_bind h
      obtain ⟨rest, hrest, h⟩ := ok_of_bind h
      cases hmessages
      cases h
      exact ih hrest
    · obtain ⟨messages, hmessages, -⟩ := ok_of_bind h
      cases hmessages

lemma answers_eq_concatAll (l : List (List Str × ClientSet)) :
    answers rows base depth wildcards l =
      concatAll (fun x => answer rows base depth wildcards x.1 x.2) l := by
  induction l with
  | nil => rfl
  | cons x l ih => rw [answers, concatAll, ih]

lemma answer_cons (f : Str) (F : List Str) (cs : ClientSet) :
    answer rows base depth wildcards (f :: F) cs =
      answer (newRows rows depth f) (base ++ [f]) (depth + 1) (wildcards || f = manyCard) F cs := by
  have hw : (wildcards || decide (manyCard ∈ f :: F)) =
      (wildcards || decide (f = manyCard) || decide (manyCard ∈ F)) := by
    simp [List.mem_cons, Bool.or_assoc, eq_comm (a := f)]
  unfold answer
  rw [matching_cons, hw, List.append_assoc]
  rfl

lemma answer_no_rows (F : List Str) (cs : ClientSet) :
    answer [] base depth wildcards F cs = .ok [] := rfl

lemma subscribers_node (f : Str) (s r : Rdd ClientSet) :
    subscribers (.node f s r) =
      (subscribers s).map (fun x => (f :: x.1, x.2)) ++ subscribers r := by
  simp only [subscribers, Dict.leaves, List.map_append, List.map_map]
  congr 1
  refine List.map_congr_left fun x hx => ?_
  obtain ⟨k, q, hq, -⟩ := Dict.head_mem_keys (p := x.1) (a := x.2) hx
  simp [hq]

/-- The walk visits the filters one after the other. -/
lemma createMessages_walk {S : Rdd ClientSet} (hS : Shape S) :
    createMessages rows base depth wildcards S =
      concatAll (fun x => walkAt x.2 x.1 rows base depth wildcards) (subscribers S) := by
  induction S generalizing rows base depth wildcards with
  | nil => rfl
  | leaf key cs rest ih =>
    obtain rfl : key = leafKey := hS.1
    have hsub : subscribers (.leaf leafKey cs rest) = ([], cs) :: subscribers rest := rfl
    rw [createMessages, hsub, concatAll, ih hS.2, walkAt]
    by_cases hl : leafRows rows depth = []
    · by_cases hn : newRows rows depth leafKey = [] <;> simp [hl, hn]
    · simp [hl]
  | node key s rest ihs ih =>
    have hk : key ≠ leafKey := hS.1
    rw [createMessages, subscribers_node, concatAll_append, concatAll_map, ih hS.2.2]
    simp only [hk, and_false, if_false, walkAt]
    by_cases hn : newRows rows depth key = []
    · simp only [hn, if_true, concatAll_nothing]
      rfl
    · simp only [hn, if_false, ihs hS.2.1]

/-- A row that goes on with the leaf key where the filter ends. -/
def Beyond (depth : ℕ) (F : List Str) (row : Row) : Prop :=
  ∃ p q, row.topic.drop depth = p ++ leafKey :: q ∧ Matches manyCard F p

lemma Beyond.of_newRows {f : Str} {F : List Str} {row : Row}
    (hrow : row ∈ newRows rows depth f) (h : Beyond (depth + 1) F row) :
    Beyond depth (f :: F) row := by
  obtain ⟨p, q, hdrop, hmatch⟩ := h
  have hlt : depth < row.topic.length := by
    by_contra hle
    rw [List.drop_eq_nil_of_le (by omega)] at hdrop
    simp at hdrop
  refine ⟨row.topic[depth] :: p, q, ?_, ?_, hmatch⟩
  · rw [List.drop_eq_getElem_cons hlt, hdrop, List.cons_append]
  · unfold newRows rowsAt at hrow
    split_ifs at hrow with hf
    · exact .inl hf
    · have := of_decide_eq_true (List.mem_filter.mp hrow).2
      rw [List.getElem?_eq_getElem hlt, Option.some.injEq] at this
      exact .inr this.symm

/-- At a filter that rows match, or beyond which no row goes on, the walk answers the filter. -/
lemma walkAt_eq {F : List Str} (cs : ClientSet)
    (h : matching rows depth F = [] → ∀ row ∈ rows, ¬Beyond depth F row) :
    walkAt cs F rows base depth wildcards = answer rows base depth wildcards F cs := by
  induction F generalizing rows base depth wildcards with
  | nil =>
    rw [walkAt, answer, matching_nil]
    by_cases hl : leafRows rows depth = []
    · rw [matching_nil] at h
      have hnew : newRows rows depth leafKey = [] := by
        have hcard : leafKey ≠ manyCard := by decide
        rw [newRows, if_neg hcard, rowsAt, List.filter_eq_nil_iff]
        intro row hrow hd
        refine h hl row hrow ⟨[], row.topic.drop (depth + 1), ?_, trivial⟩
        obtain ⟨hlt, hget⟩ := List.getElem?_eq_some_iff.mp (of_decide_eq_true hd)
        rw [List.drop_eq_getElem_cons hlt, hget, List.nil_append]
      simp [hl, hnew]
    · simp [hl]
  | cons f F ih =>
    rw [walkAt, answer_cons]
    by_cases hn : newRows rows depth f = []
    · rw [if_pos hn, hn, answer_no_rows]
    · rw [if_neg hn]
      refine ih fun hm row hrow hbeyond => ?_
      exact h (by rwa [matching_cons]) row (mem_newRows hrow) (.of_newRows hrow hbeyond)

/-- **The walk is the list of its filters**: for rows that keep clear of the leaf key it
answers every subscription by the rows that match its filter. -/
theorem createMessages_eq {S : Rdd ClientSet} (hS : Shape S)
    (h : ∀ row ∈ rows, leafKey ∉ row.topic) :
    createMessages rows base depth wildcards S =
      answers rows base depth wildcards (subscribers S) := by
  rw [createMessages_walk hS, answers_eq_concatAll]
  refine concatAll_congr fun x _ => walkAt_eq x.2 fun _ row hrow ⟨p, q, hdrop, _⟩ => ?_
  exact h row hrow (List.mem_of_mem_drop (i := depth) (by simp [hdrop]))

lemma mem_subscribers {S : Rdd ClientSet} (hs : Shape S) (hd : S.Distinct) (F : List Str)
    (cs : ClientSet) : (F, cs) ∈ subscribers S ↔ valueAt S F = some cs := by
  refine ⟨?_, ?_⟩
  · intro h
    obtain ⟨⟨p, c⟩, hp, he⟩ := List.mem_map.mp h
    cases he
    obtain ⟨ns, rfl, hvalue⟩ := hs.path_of_mem_leaves hd hp
    rwa [List.dropLast_concat]
  · intro h
    exact List.mem_map.mpr ⟨(F ++ [leafKey], cs), (Dict.mem_leaves_iff hd _ _).mpr h, by simp⟩

/-- No filter is listed twice. -/
lemma subscribers_nodup {S : Rdd ClientSet} (hs : Shape S) (hd : S.Distinct) :
    ((subscribers S).map Prod.fst).Nodup := by
  have heq : (subscribers S).map Prod.fst = paths S := by simp [subscribers, paths]
  rw [heq]
  exact paths_nodup hs hd

/-! ### What the data says -/

lemma captured_eq {F : List Str} (h : everythingCard ∉ F) (t : List Str) :
    captured F t = captures manyCard F t := by
  induction F generalizing t with
  | nil => cases t <;> rfl
  | cons f F ih =>
    simp only [List.mem_cons, not_or] at h
    cases t with
    | nil => rfl
    | cons n t =>
      have hs : isNodeStatic f = decide (f ≠ manyCard) := by
        simp [isNodeStatic, Ne.symm h.1]
      rw [captured, captures, hs, ih h.2]
      by_cases hf : f = manyCard <;> simp [hf]

/-- How many nodes a filter captures. -/
def cards (F : List Str) : ℕ := F.countP fun f => !isNodeStatic f

lemma length_captured {F t : List Str} (h : t.length = F.length) :
    (captured F t).length = cards F := by
  induction F generalizing t with
  | nil => cases t <;> rfl
  | cons f F ih => cases t with
    | nil => simp at h
    | cons n t =>
      have := ih (t := t) (by simpa using h)
      by_cases hf : isNodeStatic f = true <;> simp [captured, cards, hf] at this ⊢ <;> omega

lemma cards_pos {F : List Str} (h : manyCard ∈ F) : 0 < cards F :=
  List.countP_pos_iff.mpr ⟨manyCard, h, by decide⟩

lemma captured_dropLast_subset {F t : List Str} {n : Str} (h : n ∈ (captured F t).dropLast) :
    n ∈ t.dropLast := by
  induction F generalizing t with
  | nil => cases t <;> cases h
  | cons f F ih => cases t with
    | nil => cases h
    | cons m t =>
      cases t with
      | nil =>
        have hnil : captured F [] = [] := by cases F <;> rfl
        unfold captured at h
        split_ifs at h <;> simp [hnil] at h
      | cons x t =>
        rw [List.dropLast_cons_cons]
        unfold captured at h
        split_ifs at h
        · exact List.mem_cons_of_mem _ (ih h)
        · cases hc : captured F (x :: t) with
          | nil => simp [hc] at h
          | cons y c =>
            rw [hc, List.dropLast_cons_cons, ← hc] at h
            rcases List.mem_cons.mp h with rfl | h
            · exact List.mem_cons_self
            · exact List.mem_cons_of_mem _ (ih h)

/-- Where the plain assignment along a path succeeds, the walk of `ref` does the same. -/
lemma assignPath_eq {data : Payload} {d d' : Rdd Payload} {p : List Str}
    (hp : leafKey ∉ p.dropLast) (h : d.setPath data p = some d') :
    assignPath data d p = .ok d' := by
  induction p generalizing d d' with
  | nil => cases h
  | cons k p ih =>
    cases p with
    | nil => cases h; rfl
    | cons x p =>
      simp only [List.dropLast_cons_cons, List.mem_cons, not_or] at hp
      cases hk : d.get k with
      | none =>
        simp only [Dict.setPath, hk] at h
        obtain ⟨s, hs, rfl⟩ := Option.map_eq_some_iff.mp h
        simp [assignPath, getItem, hk, missing, Ne.symm hp.1, ih hp.2 hs, Dict.set_set]
      | some v => cases v with
        | leaf a => simp [Dict.setPath, hk] at h
        | node s =>
          simp only [Dict.setPath, hk] at h
          obtain ⟨s', hs, rfl⟩ := Option.map_eq_some_iff.mp h
          simp [assignPath, getItem, hk, ih hp.2 hs]

/-- The captured nodes of the rows with their payloads: what the rows write into the object. -/
def writes (F : List Str) (rows : List Row) : List (List Str × Payload) :=
  rows.map fun row => (captured F row.topic, row.data)

/-- The object grows by what each row captures, the last row winning. -/
lemma buildTree_spec {F : List Str} (hF : 0 < cards F) {rows : List Row}
    (hlen : ∀ row ∈ rows, row.topic.length = F.length)
    (hkey : ∀ row ∈ rows, leafKey ∉ (captured F row.topic).dropLast) {t : Rdd Payload}
    (hu : (Item.node t).Uniform (cards F)) (hd : t.Distinct) (hp : t.Pruned) :
    ∃ t', buildTree F t rows = .ok t' ∧ (Item.node t').Uniform (cards F) ∧ t'.Distinct ∧
      t'.Pruned ∧ ∀ c, t'.leafAt c = (LastWrite.last (writes F rows) c).or (t.leafAt c) := by
  induction rows generalizing t with
  | nil => exact ⟨t, rfl, hu, hd, hp, fun c => by simp [writes]⟩
  | cons row rows ih =>
    simp only [List.mem_cons, forall_eq_or_imp] at hlen hkey
    obtain ⟨n, hn⟩ : ∃ n, cards F = n + 1 := ⟨cards F - 1, by omega⟩
    have hcl := length_captured hlen.1
    rw [hn] at hu hcl
    obtain ⟨t₁, hset, hu₁, -, hd₁, hp₁, hl₁⟩ := Dict.setPath_spec row.data hu hcl
    have hassign := assignPath_eq hkey.1 hset
    obtain ⟨t', hb, hu', hd', hp', hl'⟩ :=
      ih hlen.2 hkey.2 (by rwa [hn]) (hd₁ hd) (hp₁ hp)
    refine ⟨t', by simp [buildTree, hassign, hb], hu', hd', hp', fun c => ?_⟩
    have hw : writes F (row :: rows) = (captured F row.topic, row.data) :: writes F rows := rfl
    rw [hl', hl₁, hw, LastWrite.last_cons, Option.or_assoc]
    by_cases hc : c = captured F row.topic
    · simp [hc]
    · simp [hc, Ne.symm hc]

/-- What the data of a message for the filter says, given the rows that match it: the payload
of the last of them, or the object of what they capture. -/
inductive Reply (F : List Str) (rows : List Row) (data : Payload) : Prop where
  | payload (static : manyCard ∉ F) (last : rows.getLast?.map Row.data = some data)
  | object (wildcard : manyCard ∈ F) (b : Bytes) (j : Dict Str JsonText.Scalar)
    (bytes : data = some b) (json : readJson b = some (.node j))
    (uniform : (Item.node j).Uniform (cards F)) (pruned : j.Pruned)
    (leaves : ∀ c, j.leafAt c = (LastWrite.last (writes F rows) c).map payloadScalar)

lemma mem_writes_snd {F : List Str} {rows : List Row} {c : List Str} {a : Payload}
    (h : (c, a) ∈ writes F rows) : ∃ row ∈ rows, row.data = a := by
  obtain ⟨row, hr, he⟩ := List.mem_map.mp h
  exact ⟨row, hr, congrArg Prod.snd he⟩

/-- **The data is built and says what it should**, for rows as long as the filter whose
payloads are text. -/
theorem buildMessageData_spec {F : List Str} {rows : List Row} (hne : rows ≠ [])
    (hlen : ∀ row ∈ rows, row.topic.length = F.length)
    (hkey : ∀ row ∈ rows, leafKey ∉ row.topic) (hdec : ∀ row ∈ rows, Decodes row.data) :
    ∃ data, buildMessageData rows F (decide (manyCard ∈ F)) = .ok data ∧ Reply F rows data := by
  by_cases hw : manyCard ∈ F
  · have hu : (Item.node (.nil : Rdd Payload)).Uniform (cards F) := by
      obtain ⟨n, hn⟩ := Nat.exists_eq_succ_of_ne_zero (Nat.pos_iff_ne_zero.mp (cards_pos hw))
      rw [hn]; exact Item.uniform_nil n
    obtain ⟨t, ht, hu, hd, hp, hl⟩ :=
      buildTree_spec (cards_pos hw) hlen
        (fun row hr hin => hkey row hr (List.dropLast_subset _ (captured_dropLast_subset hin)))
        hu trivial trivial
    obtain ⟨b, hb, hread⟩ := readJson_stringify hd fun p a ha => by
      rw [hl] at ha
      obtain ⟨row, hr, rfl⟩ := mem_writes_snd (LastWrite.mem_of_last (by simpa using ha))
      exact hdec row hr
    refine ⟨some b, by simp [buildMessageData, hw, ht, hb],
      .object hw b _ rfl hread (hu.map _) (Dict.pruned_map _ hp) fun c => ?_⟩
    rw [Dict.leafAt_map, hl]
    simp
  · obtain ⟨row, hrow⟩ : ∃ row, rows.getLast? = some row :=
      Option.isSome_iff_exists.mp (by simpa using hne)
    exact ⟨row.data, by simp [buildMessageData, hw, hrow], .payload hw (by simp [hrow])⟩

/-- The last payload captured is the last payload written to the topic that the captured nodes
fill in. -/
lemma last_writes {F : List Str} (hE : everythingCard ∉ F) (rows : List Row) {c : List Str}
    (hc : c.length = F.count manyCard) :
    LastWrite.last (writes F (matching rows 0 F)) c =
      LastWrite.last (rows.map fun row => (row.topic, row.data)) (fill manyCard F c) := by
  rw [writes, matching_zero]
  refine (LastWrite.last_map_filter rows fun row _ => ?_).symm
  rw [captured_eq hE, eq_comm, fill_eq_iff hc]

lemma cards_eq {F : List Str} (hE : everythingCard ∉ F) : cards F = F.count manyCard := by
  rw [List.count, cards]
  refine List.countP_congr fun f hf => ?_
  have : f ≠ everythingCard := fun e => hE (e ▸ hf)
  simp [isNodeStatic, this]

lemma length_of_mem_matching {F : List Str} {row : Row} (h : row ∈ matching rows 0 F) :
    row.topic.length = F.length := by
  rw [matching_zero] at h
  exact (of_decide_eq_true (List.mem_filter.mp h).2).length_eq

/-- What a message names are the payloads its rows write. -/
theorem Reply.named_eq {F : List Str} {data : Payload} (hE : everythingCard ∉ F)
    (h : Reply F (matching rows 0 F) data) (hdec : ∀ row ∈ rows, Decodes row.data)
    (c : List Str) :
    named F data c = LastWrite.last (writes F (matching rows 0 F)) c := by
  cases h with
  | payload static last =>
    have hw : writes F (matching rows 0 F) =
        (matching rows 0 F).map fun row => (([] : List Str), row.data) := by
      refine List.map_congr_left fun row hr => ?_
      have hlen := length_captured (length_of_mem_matching hr)
      rw [cards_eq hE, List.count_eq_zero.mpr static] at hlen
      rw [List.eq_nil_of_length_eq_zero hlen]
    rw [named, if_neg static, hw]
    by_cases hc : c = []
    · rw [if_pos hc, hc, LastWrite.last_map_const, last]
    · rw [if_neg hc, eq_comm, LastWrite.last_eq_none]
      intro w hw' he
      obtain ⟨row, -, rfl⟩ := List.mem_map.mp hw'
      exact hc he.symm
  | object wildcard b j bytes json uniform pruned leaves =>
    rw [named, if_pos wildcard, bytes, Option.bind_some, json]
    simp only [leaves]
    cases hl : LastWrite.last (writes F (matching rows 0 F)) c with
    | none => rfl
    | some a =>
      obtain ⟨row, hr, rfl⟩ := mem_writes_snd (LastWrite.mem_of_last hl)
      simp [scalarPayload_payloadScalar (hdec row (List.mem_of_mem_filter hr))]

/-! ### Exactness -/

/-- A message answers a subscription: it is for its clients, under its filter, and says what
the matching rows say. -/
structure Answers (rows : List Row) (x : List Str × ClientSet) (m : Message) : Prop where
  branch : m.branch = .clients x.2
  base : m.base = x.1
  data : Reply x.1 (matching rows 0 x.1) m.data

lemma exists_answer {l : List (List Str × ClientSet)} {ms : List Message} {m : Message}
    (h : List.Forall₂ (Answers rows) l ms) (hm : m ∈ ms) : ∃ x ∈ l, Answers rows x m := by
  induction h with
  | nil => cases hm
  | @cons x _ _ _ hx _ ih =>
    rcases List.mem_cons.mp hm with rfl | hm
    · exact ⟨x, List.mem_cons_self, hx⟩
    · obtain ⟨y, hy, hym⟩ := ih hm
      exact ⟨y, List.mem_cons_of_mem _ hy, hym⟩

lemma branch_of_mem {l : List (List Str × ClientSet)} {ms : List Message} {m : Message}
    (h : List.Forall₂ (Answers rows) l ms) (hm : m ∈ ms) : ∃ cs, m.branch = .clients cs := by
  obtain ⟨x, -, hx⟩ := exists_answer h hm
  exact ⟨x.2, hx.branch⟩

/-- **Every match is answered, once**: rows that keep clear of the leaf key and whose payloads are
text are answered by one message for each subscription that they match, and by no other. -/
theorem createMessages_exact {S : Rdd ClientSet} (hS : Shape S)
    (hkey : ∀ row ∈ rows, leafKey ∉ row.topic) (hdec : ∀ row ∈ rows, Decodes row.data) :
    ∃ ms, createMessagesForSubscriptions S rows = .ok ms ∧
      List.Forall₂ (Answers rows)
        ((subscribers S).filter fun x => matching rows 0 x.1 ≠ []) ms := by
  rw [createMessagesForSubscriptions, createMessages_eq hS hkey]
  induction subscribers S with
  | nil => exact ⟨[], rfl, .nil⟩
  | cons x l ih =>
    obtain ⟨ms, hms, hall⟩ := ih
    by_cases hm : matching rows 0 x.1 = []
    · exact ⟨ms, by simp [answers, answer, hm, hms], by simpa [hm] using hall⟩
    · obtain ⟨data, hb, hr⟩ := buildMessageData_spec hm
        (fun row hr => length_of_mem_matching hr)
        (fun row hr => hkey row (List.mem_of_mem_filter hr))
        (fun row hr => hdec row (List.mem_of_mem_filter hr))
      refine ⟨⟨.clients x.2, x.1, data⟩ :: ms, by simp [answers, answer, hm, hms, hb], ?_⟩
      rw [List.filter_cons_of_pos (by simpa using hm)]
      exact .cons ⟨rfl, rfl, hr⟩ hall

/-- The messages under one filter: one if it is among those answered, none otherwise. -/
lemma filter_base {l : List (List Str × ClientSet)} {ms : List Message}
    (h : List.Forall₂ (Answers rows) l ms) (hnd : (l.map Prod.fst).Nodup) (F : List Str) :
    (F ∉ l.map Prod.fst → ms.filter (fun m => m.base = F) = []) ∧
      ∀ cs, (F, cs) ∈ l → ∃ m, ms.filter (fun m => m.base = F) = [m] ∧ Answers rows (F, cs) m := by
  induction h with
  | nil => exact ⟨fun _ => rfl, fun cs hm => nomatch hm⟩
  | @cons x m l ms hx _ ih =>
    simp only [List.map_cons, List.nodup_cons] at hnd
    have ih := ih hnd.2
    by_cases hF : x.1 = F
    · have hno : F ∉ l.map Prod.fst := hF ▸ hnd.1
      refine ⟨fun hm => absurd (by simp [hF]) hm, fun cs hm => ⟨m, ?_, ?_⟩⟩
      · rw [List.filter_cons_of_pos (by simp [hx.base, hF]), ih.1 hno]
      · rcases List.mem_cons.mp hm with rfl | hm
        · exact hx
        · exact absurd (List.mem_map_of_mem hm) hno
    · have hskip : (m :: ms).filter (fun m => m.base = F) = ms.filter fun m => m.base = F :=
        List.filter_cons_of_neg (by simp [hx.base, hF])
      rw [hskip]
      refine ⟨fun hm => ih.1 fun h => hm (List.mem_cons_of_mem _ h), fun cs hm => ih.2 cs ?_⟩
      rcases List.mem_cons.mp hm with h | h
      · exact absurd (congrArg Prod.fst h).symm hF
      · exact h

/-- What a walk that finds every match has for one registered filter. -/
theorem message_for {S : Rdd ClientSet} (hS : Shape S) (hd : S.Distinct) {ms : List Message}
    (h : List.Forall₂ (Answers rows)
      ((subscribers S).filter fun x => matching rows 0 x.1 ≠ []) ms) {F : List Str}
    {cs : ClientSet} (hF : valueAt S F = some cs) :
    (matching rows 0 F = [] ∧ ms.filter (fun m => m.base = F) = []) ∨
      ∃ m, ms.filter (fun m => m.base = F) = [m] ∧ Answers rows (F, cs) m := by
  have hnd : (((subscribers S).filter fun x => matching rows 0 x.1 ≠ []).map Prod.fst).Nodup :=
    (List.filter_sublist.map _).nodup (subscribers_nodup hS hd)
  obtain ⟨hnone, hone⟩ := filter_base h hnd F
  by_cases hm : matching rows 0 F = []
  · refine .inl ⟨hm, hnone fun hin => ?_⟩
    obtain ⟨x, hx, rfl⟩ := List.mem_map.mp hin
    simpa [hm] using (List.mem_filter.mp hx).2
  · exact .inr (hone cs
      (List.mem_filter.mpr ⟨(mem_subscribers hS hd F cs).mpr hF, by simpa using hm⟩))

end MoteBroker.CreateMessages

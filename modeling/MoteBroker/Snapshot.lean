import MoteBroker.FilterTree

/-!
Snapshots: what `filter_tree_with_topic` has under the nodes that the wildcards capture, and for
which filters and trees these are the matching payloads and nothing else.
-/

namespace MoteBroker.Snapshot

open NestedDict MoteBroker.Topics MoteBroker.RecursiveDefaultDict MoteBroker.TreeItems
open MoteBroker.FilterTree

/-! ### The property -/

/-- The topic that a captured path makes of a filter: a node for each `+`, the rest for `#`. -/
def substitute : List Str → List Str → Option (List Str)
  | [], c => if c = [] then some [] else none
  | f :: F, c =>
    if f = everythingCard then some c
    else if f = manyCard then
      match c with
      | [] => none
      | n :: c => (substitute F c).map (n :: ·)
    else (substitute F c).map (f :: ·)

/-- What the result has under a captured path. Under `#` the payloads have the leaf key after
them. -/
def valueFor (F : List Str) (x : TreeItem) (c : List Str) : Option Payload :=
  match x with
  | .emptyStr => none
  | .item v => v.leafAt (if everythingCard ∈ F then c ++ [leafKey] else c)

/-- The result as a map. Outside of a dictionary `None`, like the empty string, is no entry. -/
def entry (F : List Str) (x : TreeItem) (c : List Str) : Option Payload :=
  match x with
  | .item (.leaf none) => none
  | x => valueFor F x c

/-- The entries of the result are the payloads of the topics that the filter matches. -/
def Exact (F : List Str) (tree : Rdd Payload) (x : TreeItem) : Prop :=
  ∀ c, entry F x c = ((substitute F c).bind fun topic => (valueAt tree topic).join).map some

/-- The dictionary that nodes lead to. -/
def branch : Rdd Payload → List Str → Option (Rdd Payload)
  | d, [] => some d
  | d, n :: ns =>
    match d.get n with
    | some (.node b) => branch b ns
    | _ => none

/-- Nothing that the filter matches is null: no deleted topic below a final `#`, no node without a
payload at a static end behind a `+`. -/
def NullFree (F : List Str) (tree : Rdd Payload) : Prop :=
  ¬F.all isNodeStatic → ∀ c topic, substitute F c = some topic →
    (F.getLast? = some everythingCard → valueAt tree topic ≠ some none) ∧
    (F.getLast?.any isNodeStatic → branch tree topic ≠ none → (valueAt tree topic).join ≠ none)

lemma everythingCard_ne : everythingCard ≠ manyCard := by decide

@[simp] lemma substitute_everything (F c : List Str) :
    substitute (everythingCard :: F) c = some c := by simp [substitute]

@[simp] lemma substitute_many_nil (F : List Str) : substitute (manyCard :: F) [] = none := by
  simp [substitute, everythingCard_ne.symm]

@[simp] lemma substitute_many_cons (F : List Str) (n : Str) (c : List Str) :
    substitute (manyCard :: F) (n :: c) = (substitute F c).map (n :: ·) := by
  simp [substitute, everythingCard_ne.symm]

lemma substitute_static {f : Str} (hE : f ≠ everythingCard) (hM : f ≠ manyCard) (F c : List Str) :
    substitute (f :: F) c = (substitute F c).map (f :: ·) := by
  cases c <;> simp [substitute, hE, hM]

/-! ### What the result has -/

/-- What a filter has for a topic that it matches. -/
def leafFor (F : List Str) (tree : Rdd Payload) (topic : List Str) : Option Payload :=
  if F.getLast? = some everythingCard then valueAt tree topic
  else if F.getLast? = some manyCard then (valueAt tree topic).filter fun a => truthy (.leaf a)
  else (branch tree topic).map fun b => (valueAt b []).join

lemma valueFor_nil_node (F c : List Str) : valueFor F (.item (.node .nil)) c = none := by
  simp [valueFor]

lemma valueFor_pickBranch (F : List Str) (x : TreeItem) (c : List Str) :
    ((pickBranch x).bind fun v => valueFor F (.item v) c) = valueFor F x c := by
  match x with
  | .emptyStr => rfl
  | .item (.leaf a) => rfl
  | .item (.node .nil) => exact (valueFor_nil_node F c).symm
  | .item (.node (.leaf k a r)) => rfl
  | .item (.node (.node k s r)) => rfl

lemma branch_of_get {d b : Rdd Payload} {n : Str} (h : d.get n = some (.node b)) (ns : List Str) :
    branch d (n :: ns) = branch b ns := by
  rw [branch, h]

/-- Nodes lead to a dictionary when the first does and the others lead on from there. -/
lemma branch_cons_ne_none {d : Rdd Payload} {n : Str} {ns : List Str} :
    branch d (n :: ns) ≠ none ↔ ∃ b, d.get n = some (.node b) ∧ branch b ns ≠ none := by
  refine ⟨fun h => ?_, ?_⟩
  · unfold branch at h
    split at h
    case h_1 b hget => exact ⟨b, hget, h⟩
    case h_2 => exact absurd rfl h
  · rintro ⟨b, hget, h⟩
    rwa [branch_of_get hget]

lemma leafFor_of_get {d b : Rdd Payload} {n : Str} (h : d.get n = some (.node b)) (f x : Str)
    (F ns : List Str) : leafFor (f :: x :: F) d (n :: ns) = leafFor (x :: F) b ns := by
  rw [leafFor, leafFor, valueAt_of_get h, branch_of_get h, List.getLast?_cons_cons]

lemma leafFor_of_get_none {d : Rdd Payload} {n : Str} (h : d.get n = none) (F ns : List Str) :
    leafFor F d (n :: ns) = none := by
  rw [leafFor, valueAt_cons, branch, h]
  split_ifs <;> rfl

lemma leafFor_leafKey {d : Rdd Payload} (h : Shape d) (F ns : List Str) :
    leafFor F d (leafKey :: ns) = none := by
  have hbranch : branch d (leafKey :: ns) = none := by
    unfold branch
    cases hv : d.get leafKey with
    | none => rfl
    | some v =>
      obtain ⟨a, rfl⟩ := h.get_leaf hv
      rfl
  rw [leafFor, h.valueAt_leafKey, hbranch]
  split_ifs <;> rfl

/-- What a dictionary has under the leaf key, `None` if it has nothing there. -/
lemma leaf_of_branch {b : Rdd Payload} (h : Shape b) :
    ∃ a, (b.get leafKey).getD (.leaf none) = .leaf a ∧ (valueAt b []).join = a := by
  cases hv : b.get leafKey with
  | none => exact ⟨none, rfl, by simp [valueAt, hv]⟩
  | some v =>
    obtain ⟨a, rfl⟩ := h.get_leaf hv
    exact ⟨a, rfl, by simp [valueAt, hv]⟩

/-- The entries of a dictionary are those of the items under its keys. -/
lemma valueFor_collect {F : List Str} {t r : Rdd Payload} (hs : Shape t)
    {g : Item Str Payload → Option (Item Str Payload)}
    (hget : ∀ k, r.get k = if k = leafKey then none else (t.get k).bind g)
    (hbelow : ∀ k b, t.get k = some (.node b) → ∀ c,
      ((g (.node b)).bind fun v => v.leafAt (if everythingCard ∈ F then c ++ [leafKey] else c)) =
        (substitute F c).bind fun p => leafFor (manyCard :: F) t (k :: p)) (c : List Str) :
    valueFor (manyCard :: F) (.item (.node r)) c =
      (substitute (manyCard :: F) c).bind (leafFor (manyCard :: F) t) := by
  have hmem : everythingCard ∈ manyCard :: F ↔ everythingCard ∈ F := by simp [everythingCard_ne]
  simp only [valueFor, hmem]
  cases c with
  | nil =>
    split_ifs
    · -- the leaf key is not among the collected ones
      simp [hget]
    · simp
  | cons k c =>
    have hcons : (if everythingCard ∈ F then k :: c ++ [leafKey] else k :: c) =
        k :: if everythingCard ∈ F then c ++ [leafKey] else c := by
      split_ifs <;> rfl
    rw [hcons, Item.leafAt_node, Dict.leafAt_cons, hget, substitute_many_cons, Option.bind_map]
    by_cases hk : k = leafKey
    · subst hk
      rw [if_pos rfl, Option.bind_none]
      exact (Option.bind_eq_none_iff.mpr fun p _ => leafFor_leafKey hs _ p).symm
    · rw [if_neg hk]
      cases hv : t.get k with
      | none =>
        rw [Option.bind_none, Option.bind_none]
        exact (Option.bind_eq_none_iff.mpr fun p _ => leafFor_of_get_none hv _ p).symm
      | some v =>
        obtain ⟨b, rfl, -⟩ := hs.get_node hk hv
        exact hbelow k b hv c

/-- What a filter makes of a tree: never a lone payload behind a wildcard, and for each captured
path the payload of the topic. -/
structure Yields (F : List Str) (t : Rdd Payload) (x : TreeItem) : Prop where
  noLeaf : F.all isNodeStatic = false → ∀ a, x ≠ .item (.leaf a)
  distinct : ∀ v, x = .item v → v.Distinct
  value : ∀ c, valueFor F x c = (substitute F c).bind (leafFor F t)

section
variable {node : Str} {next : List Str} {t : Rdd Payload}

/-- Behind `#`, the whole tree. -/
lemma yields_everything (hd : t.Distinct) : Yields [everythingCard] t (.item (.node t)) :=
  ⟨fun _ _ h => (nomatch h), fun v hv => by cases hv; exact hd,
    fun c => by simp [valueFor, leafFor, valueAt]⟩

/-- What is collected of a branch for `+` at the end. -/
lemma pickLeaf_value {b : Rdd Payload} (hb : Shape b) (c : List Str) :
    ((b.get leafKey).filter truthy).bind (fun v => v.leafAt c) =
      if c = [] then (valueAt b []).filter fun a => truthy (.leaf a) else none := by
  cases hleaf : b.get leafKey with
  | none => cases c <;> simp [valueAt, hleaf]
  | some v =>
    obtain ⟨e, rfl⟩ := hb.get_leaf hleaf
    cases ht : truthy (.leaf e) <;> cases c <;> simp [valueAt, hleaf, Option.filter, ht]

/-- At the end, `+` collects the leaves of the branches. -/
lemma yields_leaves (hs : Shape t) (hd : t.Distinct) :
    ∃ r, collect pickLeaf .nil t.items = .ok r ∧ Yields [manyCard] t (.item (.node r)) := by
  obtain ⟨r, hr, hrd, hrg⟩ := collect_leaves hs hd
  refine ⟨r, hr, fun _ a h => (nomatch h), fun v hv => by cases hv; exact hrd,
    valueFor_collect hs hrg fun k b hv c => ?_⟩
  have hpick : (pickLeaf (.node b)).toOption.join = (b.get leafKey).filter truthy := rfl
  simp only [hpick, List.not_mem_nil, if_false, pickLeaf_value (Dict.All.get hs hv).2]
  cases c with
  | nil =>
    rw [if_pos rfl, substitute, if_pos rfl, Option.bind_some, leafFor, List.getLast?_singleton,
      if_neg (by simp [everythingCard_ne.symm]), if_pos rfl, valueAt_of_get hv]
  | cons n c => rw [if_neg (by simp), substitute, if_neg (by simp), Option.bind_none]

/-- `+` collects what the rest of the filter makes of the branches, without the empty answers. -/
lemma yields_branches (hs : Shape t) (hd : t.Distinct) (hnil : next ≠ [])
    (hlow : ∀ b : Rdd Payload, Shape b → b.Distinct →
      ∃ y, filterTreeWithTopic next (.node b) = .ok y ∧ Yields next b y) :
    ∃ r, collect (fun val => (filterTreeWithTopic next val).map pickBranch) .nil t.items = .ok r ∧
      Yields (manyCard :: next) t (.item (.node r)) := by
  obtain ⟨r, hr, hrd, hrg⟩ := collect_branches hs hd fun k b hb => by
    obtain ⟨y, hy, hyields⟩ := hlow b (Dict.All.get hs hb).2 (hd.get hb)
    exact ⟨y, hy, hyields.distinct⟩
  refine ⟨r, hr, fun _ a h => (by cases h), fun v hv => by cases hv; exact hrd,
    valueFor_collect hs hrg fun k b hv c => ?_⟩
  obtain ⟨y, hy, hyields⟩ := hlow b (Dict.All.get hs hv).2 (hd.get hv)
  obtain ⟨x, F, rfl⟩ := List.exists_cons_of_ne_nil hnil
  simp only [hy, Except.toOption, Option.bind_some, leafFor_of_get hv]
  exact (valueFor_pickBranch _ y c).trans (hyields.value c)

/-- Where the tree has nothing below a static node. -/
lemma yields_missing (hE : node ≠ everythingCard) (hM : node ≠ manyCard)
    (hv : t.get node = none) : Yields (node :: next) t (missingBranch next) := by
  have hcases : missingBranch next = .emptyStr ∨ missingBranch next = .item (.node .nil) := by
    unfold missingBranch
    split
    · split_ifs
      · exact .inl rfl
      · exact .inr rfl
    · exact .inl rfl
  refine ⟨fun _ a h => ?_, fun v h => ?_, fun c => ?_⟩
  · rcases hcases with hm | hm <;> rw [hm] at h <;> cases h
  · rcases hcases with hm | hm <;> rw [hm] at h <;> cases h
    trivial
  · have hnone : valueFor (node :: next) (missingBranch next) c = none := by
      rcases hcases with hm | hm <;> rw [hm]
      · rfl
      · exact valueFor_nil_node _ c
    rw [hnone, substitute_static hE hM, Option.bind_map]
    exact (Option.bind_eq_none_iff.mpr fun p _ => leafFor_of_get_none hv _ p).symm

/-- At the end, a static node has the payload there. -/
lemma yields_leaf (hE : node ≠ everythingCard) (hM : node ≠ manyCard) {b : Rdd Payload}
    (hv : t.get node = some (.node b)) :
    Yields [node] t (.item (.leaf (valueAt b []).join)) := by
  have hfor : leafFor [node] t [node] = some (valueAt b []).join := by
    have hbranch : branch t [node] = some b := branch_of_get hv []
    simp [leafFor, hE, hM, hbranch]
  refine ⟨fun h => ?_, fun v hv => ?_, fun c => ?_⟩
  · simp [isNodeStatic, hE, hM] at h
  · cases hv
    trivial
  · rw [substitute_static hE hM]
    cases c with
    | nil => simp [valueFor, substitute, hfor, Ne.symm hE]
    | cons n c => simp [valueFor, substitute, Ne.symm hE]

/-- Below a static node is what the rest of the filter makes of its branch. -/
lemma Yields.below (hE : node ≠ everythingCard) (hM : node ≠ manyCard) (hnil : next ≠ [])
    {b : Rdd Payload} {y : TreeItem} (h : Yields next b y) (hv : t.get node = some (.node b)) :
    Yields (node :: next) t y := by
  have hmem : everythingCard ∈ node :: next ↔ everythingCard ∈ next := by
    simp [Ne.symm hE]
  refine ⟨fun hall => h.noLeaf ?_, h.distinct, fun c => ?_⟩
  · simpa [isNodeStatic, hE, hM] using hall
  · obtain ⟨x, F, rfl⟩ := List.exists_cons_of_ne_nil hnil
    rw [substitute_static hE hM, Option.bind_map]
    simp only [Function.comp_def, leafFor_of_get hv]
    rw [← h.value c]
    simp only [valueFor, hmem]

/-- **What the filter has under each captured path**, for filters with `#` at most at their end. -/
theorem filterTreeWithTopic_yields {F : List Str} (hF : Path F)
    (hE : everythingCard ∉ F.dropLast) {t : Rdd Payload} (hs : Shape t) (hd : t.Distinct) :
    ∃ x, filterTreeWithTopic F (.node t) = .ok x ∧ Yields F t x := by
  induction F generalizing t with
  | nil => exact absurd rfl hF.1
  | cons node next ih =>
    unfold filterTreeWithTopic
    by_cases hnE : node = everythingCard
    · subst hnE
      obtain rfl := eq_nil_of_everything_last hE
      exact ⟨.item (.node t), by simp, yields_everything hd⟩
    have hlow : next ≠ [] → ∀ b : Rdd Payload, Shape b → b.Distinct →
        ∃ y, filterTreeWithTopic next (.node b) = .ok y ∧ Yields next b y :=
      fun hnil b hb hbd => ih (hF.tail_of_ne hnil) (not_mem_dropLast_tail hE) hb hbd
    simp only [if_neg hnE]
    by_cases hM : node = manyCard
    · subst hM
      rw [if_pos rfl]
      by_cases hnil : next = []
      · subst hnil
        obtain ⟨r, hr, hyields⟩ := yields_leaves hs hd
        exact ⟨.item (.node r), by simp [hr, Except.map], hyields⟩
      · obtain ⟨r, hr, hyields⟩ := yields_branches hs hd hnil (hlow hnil)
        exact ⟨.item (.node r), by simp only [if_neg hnil, hr]; rfl, hyields⟩
    rw [if_neg hM]
    cases hv : t.get node with
    | none => exact ⟨missingBranch next, rfl, yields_missing hnE hM hv⟩
    | some v =>
      obtain ⟨b, rfl, hb⟩ := hs.get_node hF.head_ne hv
      by_cases hnil : next = []
      · subst hnil
        obtain ⟨a, ha, rfl⟩ := leaf_of_branch hb
        exact ⟨_, by simp [ha], yields_leaf hnE hM hv⟩
      · obtain ⟨y, hy, hyields⟩ := hlow hnil b hb (hd.get hv)
        exact ⟨y, by simp [hnil, hy], hyields.below hnE hM hnil hv⟩

end

/-! ### When it is exact -/

lemma valueAt_of_branch {d b : Rdd Payload} {ns : List Str} (h : branch d ns = some b) :
    valueAt d ns = valueAt b [] := by
  induction ns generalizing d with
  | nil =>
    cases h
    rfl
  | cons n ns ih =>
    unfold branch at h
    split at h
    case h_1 b' hget => rw [valueAt_of_get hget, ih h]
    case h_2 => cases h

lemma branch_ne_none {d : Rdd Payload} (hs : Shape d) {ns : List Str} (h : valueAt d ns ≠ none) :
    branch d ns ≠ none := by
  induction ns generalizing d with
  | nil => exact Option.some_ne_none d
  | cons n ns ih =>
    have hn : n ≠ leafKey := fun e => h (by rw [e]; exact hs.valueAt_leafKey ns)
    cases hv : d.get n with
    | none => exact absurd (by rw [valueAt_cons, hv]; rfl) h
    | some v =>
      obtain ⟨b, rfl, hb⟩ := hs.get_node hn hv
      rw [valueAt_of_get hv] at h
      rw [branch_of_get hv]
      exact ih hb h

/-- At a static end the filter has what lies at the topic, if the tree has the node. -/
lemma leafFor_static {F : List Str} {t : Rdd Payload} (hF : F.getLast?.any isNodeStatic)
    (topic : List Str) :
    leafFor F t topic = (branch t topic).map fun _ => (valueAt t topic).join := by
  have hE : F.getLast? ≠ some everythingCard := fun h => by
    rw [h] at hF
    exact absurd hF (by decide)
  have hM : F.getLast? ≠ some manyCard := fun h => by
    rw [h] at hF
    exact absurd hF (by decide)
  rw [leafFor, if_neg hE, if_neg hM]
  cases hb : branch t topic with
  | none => rfl
  | some b => rw [valueAt_of_branch hb, Option.map_some, Option.map_some]

/-- What the filter has for a topic is the topic's payload, unless it is null. -/
lemma leafFor_eq_iff {F : List Str} {t : Rdd Payload} (hs : Shape t)
    (hfull : ∀ p b, valueAt t p = some (some b) → b ≠ []) (hF : F ≠ []) (topic : List Str) :
    leafFor F t topic = (valueAt t topic).join.map some ↔
      (F.getLast? = some everythingCard → valueAt t topic ≠ some none) ∧
      (F.getLast?.any isNodeStatic → branch t topic ≠ none → (valueAt t topic).join ≠ none) := by
  obtain ⟨last, hlast⟩ := Option.isSome_iff_exists.mp (List.getLast?_isSome.mpr hF)
  by_cases hE : last = everythingCard
  · subst hE
    have hstatic : isNodeStatic everythingCard = false := rfl
    rw [leafFor, if_pos hlast, hlast]
    rcases valueAt t topic with _ | _ | b <;> simp [hstatic]
  by_cases hM : last = manyCard
  · subst hM
    have hstatic : isNodeStatic manyCard = false := rfl
    rw [leafFor, if_neg (by simpa [hlast] using hE), if_pos hlast, hlast]
    rcases hv : valueAt t topic with _ | _ | b
    · simp [hstatic, hE]
    · simp [hstatic, hE, truthy]
    · simp [hstatic, hE, truthy, Option.filter, hfull _ _ hv]
  · have hstatic : isNodeStatic last = true := by simp [isNodeStatic, hE, hM]
    rw [leafFor_static (by simpa [hlast] using hstatic), hlast]
    cases hb : branch t topic with
    | none =>
      have hnone : valueAt t topic = none := not_not.mp fun h => branch_ne_none hs h hb
      simp [hnone, hE]
    | some b => rcases valueAt t topic with _ | _ | b' <;> simp [hE, hstatic]

lemma substitute_all_static {F : List Str} (h : F.all isNodeStatic) (c : List Str) :
    substitute F c = if c = [] then some F else none := by
  induction F with
  | nil => rfl
  | cons f F ih =>
    obtain ⟨hf, hF⟩ : isNodeStatic f = true ∧ F.all isNodeStatic = true := by simpa using h
    have hEM : f ≠ everythingCard ∧ f ≠ manyCard := by
      constructor <;> rintro rfl <;> exact absurd hf (by decide)
    rw [substitute_static hEM.1 hEM.2, ih hF]
    split_ifs <;> rfl

lemma entry_nil {F : List Str} (hF : everythingCard ∉ F) (x : TreeItem) :
    entry F x [] = (valueFor F x []).join.map some := by
  match x with
  | .emptyStr => rfl
  | .item (.leaf none) => simp [entry, valueFor, hF]
  | .item (.leaf (some b)) => simp [entry, valueFor, hF]
  | .item (.node d) => simp [entry, valueFor, hF]

lemma entry_eq_none {F : List Str} {x : TreeItem} {c : List Str} (h : valueFor F x c = none) :
    entry F x c = none := by
  unfold entry
  split
  · rfl
  · exact h

/-- **When a snapshot is the matching retained messages**, for every tree of payloads that are not
empty and every filter with `#` at most at its end: if nothing that matches is null. -/
theorem snapshot_exact_iff {F : List Str} (hF : Path F) (hE : everythingCard ∉ F.dropLast)
    {t : Rdd Payload} (hs : Shape t) (hd : t.Distinct)
    (hfull : ∀ p b, valueAt t p = some (some b) → b ≠ []) :
    (∃ x, filterTreeWithTopic F (.node t) = .ok x ∧ Exact F t x) ↔ NullFree F t := by
  obtain ⟨x, hx, hleaf, -, hvalue⟩ := filterTreeWithTopic_yields hF hE hs hd
  have hexact : (∃ x, filterTreeWithTopic F (.node t) = .ok x ∧ Exact F t x) ↔ Exact F t x := by
    simp [hx]
  rw [hexact]
  by_cases hstatic : F.all isNodeStatic
  · -- without a wildcard `None` stands for no entry
    refine ⟨fun _ hno => absurd hstatic hno, fun _ c => ?_⟩
    have hval := hvalue c
    rw [substitute_all_static hstatic] at hval ⊢
    by_cases hc : c = []
    · subst hc
      have hno : everythingCard ∉ F := fun h =>
        absurd (List.all_eq_true.mp hstatic _ h) (by decide)
      have hlast : F.getLast?.any isNodeStatic := by
        rw [List.getLast?_eq_some_getLast hF.1]
        exact List.all_eq_true.mp hstatic _ (List.getLast_mem hF.1)
      rw [if_pos rfl, Option.bind_some] at hval ⊢
      rw [entry_nil hno, hval, leafFor_static hlast]
      cases hb : branch t F with
      | none =>
        have hnone : valueAt t F = none := not_not.mp fun h => branch_ne_none hs h hb
        rw [hnone]
        rfl
      | some b => rfl
    · rw [if_neg hc] at hval ⊢
      exact entry_eq_none hval
  · have hentry : ∀ c, entry F x c = valueFor F x c := fun c => by
      unfold entry
      split
      · exact absurd rfl (hleaf (by simpa using hstatic) none)
      · rfl
    simp only [Exact, NullFree, hentry, hvalue, hstatic, Bool.false_eq_true,
      not_false_eq_true, true_imp_iff]
    refine forall_congr' fun c => ?_
    cases hsub : substitute F c with
    | none => simp
    | some topic => simpa using leafFor_eq_iff hs hfull hF.1 topic

/-- A light, and one that was deleted. -/
def lights : Rdd Payload :=
  .node "hall".toList (.node "light".toList (.leaf leafKey (some [49]) .nil) .nil) <|
    .node "attic".toList (.node "light".toList (.leaf leafKey none .nil) .nil) .nil

theorem snapshot_exact_hall :
    ∃ x, filterTreeWithTopic (split "hall/+".toList) (.node lights) = .ok x ∧
      Exact (split "hall/+".toList) lights x := by
  have hd : lights.Distinct := by decide
  have hfull : ∀ p b, valueAt lights p = some (some b) → b ≠ [] := fun p b hb => by
    have hm := (Dict.mem_leaves_iff hd _ _).mpr hb
    rintro rfl
    simp [lights, Dict.leaves] at hm
  exact (snapshot_exact_iff (path_split _) (by decide) (by decide) hd hfull).mpr
    fun _ c topic _ => ⟨fun h => absurd h (by decide), fun h => absurd h (by decide)⟩

/-- The node of the deleted light is in the snapshot, with `None`. -/
theorem lights_not_exact :
    ¬∃ x, filterTreeWithTopic (split "+/light".toList) (.node lights) = .ok x ∧
      Exact (split "+/light".toList) lights x := by
  rintro ⟨x, hx, hexact⟩
  have hresult : filterTreeWithTopic (split "+/light".toList) (.node lights) =
      .ok (.item (.node (.leaf "hall".toList (some [49]) (.leaf "attic".toList none .nil)))) := rfl
  cases hx.symm.trans hresult
  exact absurd (hexact ["attic".toList]) (by decide)

end MoteBroker.Snapshot

import MoteBroker.Retain
import MoteBroker.Snapshot

/-!
Which requests for retained messages can be answered: when `filter_tree_with_topic` raises, which
payloads there are in what it returns, and when these can be written as JSON.
-/

namespace MoteBroker.Answerable

open NestedDict Wildcard MoteBroker.Topics MoteBroker.RecursiveDefaultDict MoteBroker.TreeItems
open MoteBroker.FilterTree MoteBroker.Snapshot MoteBroker.Messages MoteBroker.Retain

/-! ### The condition -/

/-- There is a `#` before the end of the filter, and the tree has a branch for the nodes before. -/
def Misplaced (F : List Str) (t : Rdd Payload) : Prop :=
  ∃ P rest p, F = P ++ everythingCard :: rest ∧ rest ≠ [] ∧ everythingCard ∉ P ∧
    Matches manyCard P p ∧ branch t p ≠ none

/-- The payload is kept for a topic that the filter matches. -/
def Kept (F : List Str) (t : Rdd Payload) (a : Payload) : Prop :=
  ∃ c topic, substitute F c = some topic ∧ valueAt t topic = some a

/-- No `#` is misplaced, and what a filter with a wildcard matches is text. -/
structure Readable (F : List Str) (t : Rdd Payload) : Prop where
  placed : ¬Misplaced F t
  text : ¬F.all isNodeStatic → ∀ a, Kept F t a → Decodes a

section
variable {f : Str} {next : List Str} {t : Rdd Payload}

/-- A `#` at the front is misplaced when it is not at the end. -/
lemma misplaced_everything : Misplaced (everythingCard :: next) t ↔ next ≠ [] := by
  refine ⟨?_, ?_⟩
  · rintro ⟨P, rest, p, hF, hrest, hP, -⟩
    cases P with
    | nil => exact (List.cons.inj hF).2 ▸ hrest
    | cons x P => exact absurd ((List.cons.inj hF).1 ▸ List.mem_cons_self) hP
  · intro hnext
    exact ⟨[], next, [], rfl, hnext, List.not_mem_nil, trivial, Option.some_ne_none t⟩

/-- Another node leads to the branches that it matches. -/
lemma misplaced_cons (hf : f ≠ everythingCard) :
    Misplaced (f :: next) t ↔
      ∃ k b, (f = manyCard ∨ f = k) ∧ t.get k = some (.node b) ∧ Misplaced next b := by
  refine ⟨?_, ?_⟩
  · rintro ⟨P, rest, p, hF, hrest, hP, hmatch, hbranch⟩
    cases P with
    | nil => exact absurd (List.cons.inj hF).1 hf
    | cons x P =>
      obtain ⟨rfl, rfl⟩ := List.cons.inj hF
      cases p with
      | nil => exact hmatch.elim
      | cons k p =>
        obtain ⟨b, hb, hbranch⟩ := branch_cons_ne_none.mp hbranch
        exact ⟨k, b, hmatch.1, hb, P, rest, p, rfl, hrest,
          fun h => hP (List.mem_cons_of_mem _ h), hmatch.2, hbranch⟩
  · rintro ⟨k, b, hk, hb, P, rest, p, rfl, hrest, hP, hmatch, hbranch⟩
    refine ⟨f :: P, rest, k :: p, rfl, hrest, ?_, ⟨hk, hmatch⟩, ?_⟩
    · rw [List.mem_cons, not_or]
      exact ⟨hf.symm, hP⟩
    · exact branch_cons_ne_none.mpr ⟨b, hb, hbranch⟩

lemma not_misplaced_nil : ¬Misplaced [] t := by
  rintro ⟨P, rest, p, hF, -⟩
  exact absurd hF (by simp)

/-- What is kept for a filter is kept below the branches that its first node matches. -/
lemma kept_cons (hf : f ≠ everythingCard) {a : Payload} :
    Kept (f :: next) t a ↔
      ∃ k b, (f = manyCard ∨ f = k) ∧ t.get k = some (.node b) ∧ Kept next b a := by
  have hget : ∀ {k : Str} {ns : List Str}, valueAt t (k :: ns) = some a →
      ∃ b, t.get k = some (.node b) ∧ valueAt b ns = some a := by
    intro k ns h
    obtain ⟨v, hv, hleaf⟩ := Option.bind_eq_some_iff.mp h
    cases v with
    | leaf e => cases ns <;> cases hleaf
    | node b => exact ⟨b, hv, hleaf⟩
  refine ⟨?_, ?_⟩
  · rintro ⟨c, topic, hsub, hval⟩
    by_cases hM : f = manyCard
    · subst hM
      cases c with
      | nil => rw [substitute_many_nil] at hsub; cases hsub
      | cons k c =>
        rw [substitute_many_cons] at hsub
        obtain ⟨ns, hns, rfl⟩ := Option.map_eq_some_iff.mp hsub
        obtain ⟨b, hb, hval⟩ := hget hval
        exact ⟨k, b, .inl rfl, hb, c, ns, hns, hval⟩
    · rw [substitute_static hf hM] at hsub
      obtain ⟨ns, hns, rfl⟩ := Option.map_eq_some_iff.mp hsub
      obtain ⟨b, hb, hval⟩ := hget hval
      exact ⟨f, b, .inr rfl, hb, c, ns, hns, hval⟩
  · rintro ⟨k, b, hk, hb, c, ns, hns, hval⟩
    have hval' : valueAt t (k :: ns) = some a := (valueAt_of_get hb ns).trans hval
    by_cases hM : f = manyCard
    · subst hM
      exact ⟨k :: c, k :: ns, by rw [substitute_many_cons, hns]; rfl, hval'⟩
    · obtain rfl := hk.resolve_left hM
      exact ⟨c, f :: ns, by rw [substitute_static hf hM, hns]; rfl, hval'⟩

lemma kept_nil {a : Payload} : Kept [] t a ↔ valueAt t [] = some a := by
  refine ⟨?_, ?_⟩
  · rintro ⟨c, topic, hsub, hval⟩
    unfold substitute at hsub
    split_ifs at hsub
    cases hsub
    exact hval
  · intro h
    exact ⟨[], [], rfl, h⟩

end

/-! ### What the filter finds -/

def HasLeaf (x : TreeItem) (a : Payload) : Prop := ∃ v p, x = .item v ∧ v.leafAt p = some a

/-- What the filter returns. Without wildcards it is no dictionary, else it is no leaf; of the
payloads that are not text it has those that are kept for the filter. -/
structure Found (F : List Str) (t : Rdd Payload) (x : TreeItem) : Prop where
  distinct : ∀ v, x = .item v → v.Distinct
  static : F.all isNodeStatic → ∀ r, x ≠ .item (.node r)
  wild : ¬F.all isNodeStatic → ∀ a, x ≠ .item (.leaf a)
  leaves : ∀ b, ¬(Utf8.decode b).isSome → (HasLeaf x (some b) ↔ Kept F t (some b))

lemma hasLeaf_node {r : Rdd Payload} {a : Payload} :
    HasLeaf (.item (.node r)) a ↔ ∃ k v p, r.get k = some v ∧ v.leafAt p = some a := by
  refine ⟨?_, ?_⟩
  · rintro ⟨v, p, hv, hp⟩
    cases hv
    cases p with
    | nil => cases hp
    | cons k p =>
      obtain ⟨v, hv, hleaf⟩ := Option.bind_eq_some_iff.mp hp
      exact ⟨k, v, p, hv, hleaf⟩
  · rintro ⟨k, v, p, hv, hp⟩
    exact ⟨_, k :: p, rfl, Option.bind_eq_some_iff.mpr ⟨v, hv, hp⟩⟩

lemma hasLeaf_pickBranch {x : TreeItem} {a : Payload} :
    (∃ v p, pickBranch x = some v ∧ v.leafAt p = some a) ↔ HasLeaf x a := by
  refine ⟨?_, ?_⟩
  · rintro ⟨v, p, hv, hp⟩
    exact ⟨v, p, pickBranch_some hv, hp⟩
  · rintro ⟨v, p, rfl, hp⟩
    refine ⟨v, p, ?_, hp⟩
    unfold pickBranch
    split
    case h_1 h => cases h
    case h_2 h => cases h; simp at hp
    case h_3 h => cases h; rfl

/-- A loop fails when one of its turns does. -/
lemma collect_fails {pick : Item Str Payload → Except Exc (Option (Item Str Payload))} {k : Str}
    {v : Item Str Payload} {l : List (Str × Item Str Payload)} (hm : (k, v) ∈ l) (hk : k ≠ leafKey)
    (h : ∃ e, pick v = .error e) (acc : Rdd Payload) : ∃ e, collect pick acc l = .error e := by
  induction l generalizing acc with
  | nil => cases hm
  | cons kv l ih =>
    obtain ⟨key, w⟩ := kv
    unfold collect
    rcases List.mem_cons.mp hm with heq | hm
    · cases heq
      obtain ⟨e, he⟩ := h
      exact ⟨e, by rw [if_neg hk, he]; rfl⟩
    · split_ifs
      · exact ih hm acc
      · cases hp : pick w with
        | error e => exact ⟨e, rfl⟩
        | ok o =>
          cases o with
          | none => exact ih hm acc
          | some u => exact ih hm (acc.set key u)

/-- The items of a dictionary that are collected are found below its branches. -/
lemma found_collect {next : List Str} {t r : Rdd Payload} (hs : Shape t) (hr : r.Distinct)
    {g : Item Str Payload → Option (Item Str Payload)}
    (hget : ∀ k, r.get k = if k = leafKey then none else (t.get k).bind g)
    (h : ∀ k b, t.get k = some (.node b) → ∀ bs, ¬(Utf8.decode bs).isSome →
      ((∃ v p, g (.node b) = some v ∧ v.leafAt p = some (some bs)) ↔ Kept next b (some bs))) :
    Found (manyCard :: next) t (.item (.node r)) where
  distinct v hv := by
    cases hv
    exact hr
  static hall := absurd hall (by simp [isNodeStatic])
  wild _ a ha := (nomatch ha)
  leaves bs hbs := by
    rw [hasLeaf_node, kept_cons everythingCard_ne.symm]
    refine ⟨?_, ?_⟩
    · rintro ⟨k, v, p, hv, hp⟩
      rw [hget] at hv
      split_ifs at hv with hk
      obtain ⟨w, hw, hgw⟩ := Option.bind_eq_some_iff.mp hv
      obtain ⟨b, rfl, -⟩ := hs.get_node hk hw
      exact ⟨k, b, .inl rfl, hw, (h k b hw bs hbs).mp ⟨v, p, hgw, hp⟩⟩
    · rintro ⟨k, b, -, hb, hkept⟩
      obtain ⟨v, p, hv, hp⟩ := (h k b hb bs hbs).mpr hkept
      refine ⟨k, v, p, ?_, hp⟩
      rw [hget, if_neg (Dict.All.get hs hb).1, hb]
      exact hv

/-- What is found below a branch that the first node names. -/
lemma Found.below {f : Str} {next : List Str} {t b : Rdd Payload} {x : TreeItem}
    (hx : Found next b x) (hE : f ≠ everythingCard) (hM : f ≠ manyCard)
    (hb : t.get f = some (.node b)) : Found (f :: next) t x where
  distinct := hx.distinct
  static hall := hx.static (by simp_all)
  wild hall := hx.wild fun hnext => hall (by simp [isNodeStatic_of_ne hE hM, hnext])
  leaves bs hbs := by
    rw [hx.leaves bs hbs, kept_cons hE]
    refine ⟨?_, ?_⟩
    · exact fun hkept => ⟨f, b, .inr rfl, hb, hkept⟩
    · rintro ⟨k, b', hk, hb', hkept⟩
      obtain rfl := hk.resolve_left hM
      cases hb.symm.trans hb'
      exact hkept

/-- Where the topic leaves the tree nothing is found. -/
lemma found_missing {f : Str} {next : List Str} {t : Rdd Payload} (hE : f ≠ everythingCard)
    (hM : f ≠ manyCard) (hf : t.get f = none) : Found (f :: next) t (missingBranch next) := by
  have hcases : missingBranch next = .emptyStr ∨
      missingBranch next = .item (.node .nil) ∧ ¬next.all isNodeStatic := by
    unfold missingBranch
    cases hlast : next.getLast? with
    | none => exact .inl rfl
    | some last =>
      by_cases hstatic : isNodeStatic last
      · exact .inl (if_pos hstatic)
      · refine .inr ⟨if_neg hstatic, fun hall => hstatic ?_⟩
        exact List.all_eq_true.mp hall last (List.mem_of_getLast? hlast)
  have hnone : ∀ a, ¬HasLeaf (missingBranch next) a := by
    rintro a ⟨v, p, hv, hp⟩
    rcases hcases with h | ⟨h, -⟩ <;> rw [h] at hv <;> cases hv
    simp at hp
  refine ⟨fun v hv => ?_, fun hall r hr => ?_, fun _ a ha => ?_, fun bs _ => ?_⟩
  · rcases hcases with h | ⟨h, -⟩ <;> rw [h] at hv <;> cases hv
    trivial
  · rcases hcases with h | ⟨-, h⟩
    · rw [h] at hr
      cases hr
    · exact h (by simp_all)
  · rcases hcases with h | ⟨h, -⟩ <;> rw [h] at ha <;> cases ha
  · refine iff_of_false (hnone _) fun hkept => ?_
    obtain ⟨k, b, hk, hb, -⟩ := (kept_cons hE).mp hkept
    obtain rfl := hk.resolve_left hM
    rw [hf] at hb
    cases hb

/-- A payload that is not text is not empty. -/
lemma truthy_of_not_text {bs : Bytes} (h : ¬(Utf8.decode bs).isSome) :
    truthy (.leaf (some bs)) = true := by
  unfold truthy
  rw [decide_eq_true_iff]
  rintro rfl
  exact h rfl

/-- At the end of a topic the payload is found. -/
lemma found_leaf {f : Str} {t b : Rdd Payload} (hE : f ≠ everythingCard) (hM : f ≠ manyCard)
    (hb : t.get f = some (.node b)) (hs : Shape b) :
    Found [f] t (.item ((b.get leafKey).getD (.leaf none))) := by
  have hkept : ∀ a, Kept [f] t a ↔ valueAt b [] = some a := by
    intro a
    rw [kept_cons hE]
    refine ⟨?_, ?_⟩
    · rintro ⟨k, b', hk, hb', h⟩
      obtain rfl := hk.resolve_left hM
      cases hb.symm.trans hb'
      exact kept_nil.mp h
    · exact fun h => ⟨f, b, .inr rfl, hb, kept_nil.mpr h⟩
  obtain ⟨a, ha, hval⟩ : ∃ a, (b.get leafKey).getD (.leaf none) = .leaf a ∧
      ∀ bs, valueAt b [] = some (some bs) ↔ a = some bs := by
    cases hv : b.get leafKey with
    | none => exact ⟨none, rfl, fun bs => by simp [valueAt, hv]⟩
    | some v =>
      obtain ⟨a, rfl⟩ := hs.get_leaf hv
      exact ⟨a, rfl, fun bs => by simp [valueAt, hv]⟩
  rw [ha]
  refine ⟨fun v hv => ?_, fun _ r hr => ?_, fun hall => ?_, fun bs _ => ?_⟩
  · cases hv
    trivial
  · cases hr
  · exact absurd (by simp [isNodeStatic_of_ne hE hM]) hall
  · rw [hkept, hval]
    refine ⟨?_, ?_⟩
    · rintro ⟨v, p, hv, hp⟩
      cases hv
      cases p with
      | nil => exact Option.some.inj hp
      | cons k p => cases hp
    · rintro rfl
      exact ⟨_, [], rfl, rfl⟩

/-- At a final `+` the payloads of the branches are found. -/
lemma found_many {t : Rdd Payload} (hs : Shape t) (hd : t.Distinct) :
    ∃ r, collect pickLeaf .nil t.items = .ok r ∧ Found [manyCard] t (.item (.node r)) := by
  obtain ⟨r, hr, hrd, hrg⟩ := collect_leaves hs hd
  refine ⟨r, hr, found_collect hs hrd hrg fun k b hb bs hbs => ?_⟩
  have hpick : (pickLeaf (.node b)).toOption.join = (b.get leafKey).filter truthy := rfl
  rw [hpick, kept_nil]
  refine ⟨?_, ?_⟩
  · rintro ⟨v, p, hv, hp⟩
    have hv := (Option.filter_eq_some_iff.mp hv).1
    obtain ⟨a, rfl⟩ := Shape.get_leaf (Dict.All.get hs hb).2 hv
    cases p with
    | nil =>
      cases hp
      exact Option.bind_eq_some_iff.mpr ⟨_, hv, rfl⟩
    | cons k p => cases hp
  · intro hval
    obtain ⟨v, hv, hleaf⟩ := Option.bind_eq_some_iff.mp hval
    obtain ⟨a, rfl⟩ := Shape.get_leaf (Dict.All.get hs hb).2 hv
    cases hleaf
    exact ⟨_, [], Option.filter_eq_some_iff.mpr ⟨hv, truthy_of_not_text hbs⟩, rfl⟩

/-- What the filter does with the rest of a topic, of which no `#` is misplaced. -/
def Finds (F : List Str) (t : Rdd Payload) : Prop :=
  (Misplaced F t → ∃ e, filterTreeWithTopic F (.node t) = .error e) ∧
    (¬Misplaced F t → ∃ x, filterTreeWithTopic F (.node t) = .ok x ∧ Found F t x)

/-- Behind another `+` the answers below the branches are found, without the empty ones. -/
lemma found_many_next {next : List Str} {t : Rdd Payload} (hs : Shape t) (hd : t.Distinct)
    (h : ∀ k b, t.get k = some (.node b) → Finds next b) :
    let loop := collect (fun val => (filterTreeWithTopic next val).map pickBranch) .nil t.items
    (Misplaced (manyCard :: next) t → ∃ e, loop = .error e) ∧
      (¬Misplaced (manyCard :: next) t →
        ∃ r, loop = .ok r ∧ Found (manyCard :: next) t (.item (.node r))) := by
  rw [misplaced_cons everythingCard_ne.symm]
  refine ⟨?_, ?_⟩
  · rintro ⟨k, b, -, hb, hmis⟩
    obtain ⟨e, he⟩ := (h k b hb).1 hmis
    exact collect_fails ((Dict.mem_items_iff hd.keys_nodup k _).mpr hb) (Dict.All.get hs hb).1
      ⟨e, by rw [he]; rfl⟩ .nil
  · intro hmis
    have hok : ∀ k b, t.get k = some (.node b) →
        ∃ x, filterTreeWithTopic next (.node b) = .ok x ∧ Found next b x := fun k b hb =>
      (h k b hb).2 fun hbelow => hmis ⟨k, b, .inl rfl, hb, hbelow⟩
    obtain ⟨r, hr, hrd, hrg⟩ := collect_branches hs hd fun k b hb => by
      obtain ⟨y, hy, hfound⟩ := hok k b hb
      exact ⟨y, hy, hfound.distinct⟩
    refine ⟨r, hr, found_collect hs hrd hrg fun k b hb bs hbs => ?_⟩
    obtain ⟨y, hy, hfound⟩ := hok k b hb
    rw [← hfound.leaves bs hbs, ← hasLeaf_pickBranch]
    simp only [hy, Except.toOption, Option.bind_some]

/-- **When the filter raises, and what it finds**: it raises when a `#` is misplaced. -/
theorem filterTreeWithTopic_finds {F : List Str} (hF : Path F) {t : Rdd Payload} (hs : Shape t)
    (hd : t.Distinct) : Finds F t := by
  induction F generalizing t with
  | nil => exact absurd rfl hF.1
  | cons f next ih =>
    have hlow : next ≠ [] → ∀ k b, t.get k = some (.node b) → Finds next b := by
      intro hnext k b hb
      cases next with
      | nil => exact absurd rfl hnext
      | cons x next => exact ih hF.tail (Dict.All.get hs hb).2 (hd.get hb)
    unfold Finds filterTreeWithTopic
    by_cases hE : f = everythingCard
    · subst hE
      rw [misplaced_everything, if_pos rfl]
      refine ⟨fun hnext => ⟨_, if_neg hnext⟩, fun hnext => ?_⟩
      -- the whole tree
      obtain rfl : next = [] := not_not.mp hnext
      refine ⟨_, if_pos rfl, fun v hv => ?_, fun hall => absurd hall (by decide),
        fun _ a ha => ?_, fun bs _ => ⟨?_, ?_⟩⟩
      · cases hv
        exact hd
      · cases ha
      · rintro ⟨v, p, hv, hp⟩
        cases hv
        obtain ⟨ns, rfl, -⟩ := hs.path_of_leafAt hp
        exact ⟨ns, ns, substitute_everything _ _, hp⟩
      · rintro ⟨c, topic, -, hval⟩
        exact ⟨_, topic ++ [leafKey], rfl, hval⟩
    rw [if_neg hE]
    dsimp only
    by_cases hM : f = manyCard
    · subst hM
      rw [if_pos rfl]
      by_cases hnext : next = []
      · subst hnext
        rw [if_pos rfl]
        obtain ⟨r, hr, hfound⟩ := found_many hs hd
        refine ⟨fun hmis => ?_, fun _ => ⟨_, by rw [hr]; rfl, hfound⟩⟩
        obtain ⟨_, _, _, _, h⟩ := (misplaced_cons hE).mp hmis
        exact absurd h not_misplaced_nil
      · rw [if_neg hnext]
        obtain ⟨herr, hok⟩ := found_many_next hs hd (hlow hnext)
        refine ⟨fun hmis => ?_, fun hmis => ?_⟩
        · obtain ⟨e, he⟩ := herr hmis
          exact ⟨e, by rw [he]; rfl⟩
        · obtain ⟨r, hr, hfound⟩ := hok hmis
          exact ⟨_, by rw [hr]; rfl, hfound⟩
    · rw [if_neg hM, misplaced_cons hE]
      cases hf : t.get f with
      | none =>
        refine ⟨fun hmis => ?_, fun _ => ⟨_, rfl, found_missing hE hM hf⟩⟩
        obtain ⟨k, b, hk, hb, -⟩ := hmis
        obtain rfl := hk.resolve_left hM
        rw [hf] at hb
        cases hb
      | some v =>
        obtain ⟨b, rfl, hb⟩ := hs.get_node hF.head_ne hf
        have hmis : (∃ k b', (f = manyCard ∨ f = k) ∧ t.get k = some (.node b') ∧
            Misplaced next b') ↔ Misplaced next b := by
          refine ⟨?_, ?_⟩
          · rintro ⟨k, b', hk, hb', h⟩
            obtain rfl := hk.resolve_left hM
            cases hf.symm.trans hb'
            exact h
          · exact fun h => ⟨f, b, .inr rfl, hf, h⟩
        rw [hmis]
        by_cases hnext : next = []
        · subst hnext
          exact ⟨fun h => absurd h not_misplaced_nil,
            fun _ => ⟨_, rfl, found_leaf hE hM hf hb⟩⟩
        · obtain ⟨herr, hok⟩ := hlow hnext f b hf
          dsimp only
          rw [if_neg hnext]
          refine ⟨herr, fun h => ?_⟩
          obtain ⟨x, hx, hfound⟩ := hok h
          exact ⟨x, hx, hfound.below hE hM hf⟩

/-! ### Messages -/

/-- What is found can be written as JSON when nothing in it is not text. -/
lemma Found.fromTreeItem_ok_iff {F : List Str} {t : Rdd Payload} {x : TreeItem} (h : Found F t x)
    (topic : Str) (qos : ℕ) :
    (∃ m, OutgoingMessage.fromTreeItem topic qos x = .ok m) ↔
      (¬F.all isNodeStatic → ∀ a, Kept F t a → Decodes a) := by
  have hkept : (∀ a, Kept F t a → Decodes a) ↔
      ∀ bs, ¬(Utf8.decode bs).isSome → ¬HasLeaf x (some bs) := by
    refine ⟨?_, ?_⟩
    · intro htext bs hbs hleaf
      exact hbs (htext _ ((h.leaves bs hbs).mp hleaf) bs rfl)
    · rintro hno a ha bs rfl
      by_contra hbs
      exact hno bs hbs ((h.leaves bs hbs).mpr ha)
  rw [hkept]
  match x, h with
  | .emptyStr, _ =>
    refine iff_of_true ⟨_, rfl⟩ fun _ bs _ => ?_
    rintro ⟨v, p, hv, -⟩
    cases hv
  | .item (.leaf a), h => exact iff_of_true ⟨_, rfl⟩ fun hwild => absurd rfl (h.wild hwild a)
  | .item (.node r), h =>
    have hwild : ¬F.all isNodeStatic := fun hall => h.static hall r rfl
    have hmap : (∃ m, OutgoingMessage.fromTreeItem topic qos (.item (.node r)) = .ok m) ↔
        ∃ b, stringify r = .ok b := by
      change (∃ m, (stringify r).map _ = .ok m) ↔ _
      cases stringify r <;> simp [Except.map]
    rw [hmap, stringify_ok_iff (h.distinct _ rfl)]
    refine ⟨?_, ?_⟩
    · rintro hall - bs hbs ⟨v, p, hv, hp⟩
      cases hv
      exact hbs (hall p _ hp bs rfl)
    · rintro hno p a hp bs rfl
      by_contra hbs
      exact hno hwild bs hbs ⟨_, p, rfl, hp⟩

/-- **When retained messages can be asked for**: when the filter is readable in the tree. -/
theorem getMessage_ok_iff {tm : TreeManager} (hs : Shape tm.tree) (hd : tm.tree.Distinct)
    (topic_str : Str) (qos : ℕ) :
    (∃ m, tm.getMessage (Topic.fromStr topic_str) qos = .ok m) ↔
      Readable (split topic_str) tm.tree := by
  obtain ⟨herr, hok⟩ := filterTreeWithTopic_finds (path_split topic_str) hs hd
  have hget : tm.getMessage (Topic.fromStr topic_str) qos =
      (filterTreeWithTopic (split topic_str) (.node tm.tree)).bind
        (OutgoingMessage.fromTreeItem topic_str qos) := rfl
  rw [hget]
  by_cases hmis : Misplaced (split topic_str) tm.tree
  · obtain ⟨e, he⟩ := herr hmis
    rw [he]
    exact iff_of_false (fun ⟨_, hm⟩ => (nomatch hm)) fun h => h.placed hmis
  · obtain ⟨x, hx, hfound⟩ := hok hmis
    rw [hx]
    change (∃ m, OutgoingMessage.fromTreeItem topic_str qos x = .ok m) ↔ _
    rw [hfound.fromTreeItem_ok_iff]
    exact ⟨fun htext => ⟨hmis, htext⟩, fun h => h.text⟩

end MoteBroker.Answerable

import MoteBroker.Rows
import MoteBroker.Lib.Wildcard

/-!
Publishes with wildcards: which topics `get_applicable_rows` finds in the retained tree.
-/

namespace MoteBroker.Applicable

open NestedDict Wildcard MoteBroker.Topics MoteBroker.RecursiveDefaultDict
open MoteBroker.TreeItems MoteBroker.Rows

/-! ### The property -/

/-- A topic without wildcards. -/
def Static (topic : List Str) : Prop := ∀ n ∈ topic, isNodeStatic n = true

/-- The topic of the publish stands for this one: `+` for one node, `#` for one or more at the
end. -/
abbrev StandsFor (T topic : List Str) : Prop := MatchesDeep manyCard everythingCard T topic

/-- The rows are about topics, each once, that the publish stands for, and about all of the
tree's. -/
structure Covers (data : Payload) (qos : ℕ) (T : List Str) (tree : Rdd Payload)
    (rows : List Row) : Prop where
  distinct : (rows.map Row.topic).Nodup
  sound : ∀ row ∈ rows, Static row.topic ∧ StandsFor T row.topic ∧ row.data = data ∧ row.qos = qos
  complete : ∀ topic, valueAt tree topic ≠ none → StandsFor T topic →
    ∃ row ∈ rows, row.topic = topic

/-! ### The topics of the rows -/

/-- The topics below `base`, each once: those that satisfy `C`, and no others than satisfy `P`. -/
structure Found (P C : List Str → Prop) (topics : List (List Str)) : Prop where
  nodup : topics.Nodup
  sound : ∀ p ∈ topics, P p
  complete : ∀ p, C p → p ∈ topics

section
variable {data : Payload} {qos : ℕ}

/-- The rows for topics below `base`. -/
def rowsFor (data : Payload) (qos : ℕ) (base : List Str) (topics : List (List Str)) : List Row :=
  topics.map fun p => ⟨base ++ p, data, qos⟩

lemma rowsFor_cons (base : List Str) (k : Str) (topics : List (List Str)) :
    rowsFor data qos (base ++ [k]) topics = rowsFor data qos base (topics.map (k :: ·)) := by
  simp [rowsFor]

lemma rowsFor_append (base : List Str) (ps qs : List (List Str)) :
    rowsFor data qos base ps ++ rowsFor data qos base qs = rowsFor data qos base (ps ++ qs) :=
  List.map_append.symm

lemma getEverythingAsRows_eq {t : Rdd Payload} (hs : Shape t) (topic : List Str) (start : Bool) :
    getEverythingAsRows data qos topic start t =
      .ok (rowsFor data qos topic (if start then (paths t).filter (· ≠ []) else paths t)) := by
  induction t generalizing topic start with
  | nil => cases start <;> rfl
  | leaf key val rest ih =>
    obtain rfl : key = leafKey := hs.1
    rw [getEverythingAsRows, ih hs.2, paths_leaf]
    cases start with
    | true => simp [rowsFor]
    | false => simp [rowsFor]
  | node key val rest ihs ih =>
    have hkey : key ≠ leafKey := hs.1
    have hall : ((paths val).map (key :: ·)).filter (· ≠ []) = (paths val).map (key :: ·) := by
      rw [List.filter_eq_self]
      intro p hp
      obtain ⟨q, -, rfl⟩ := List.mem_map.mp hp
      rfl
    rw [getEverythingAsRows, ihs hs.2.1, ih hs.2.2, paths_node]
    cases start with
    | true =>
      simp only [hkey, if_false, if_true, ok_bind, List.filter_append, hall, Bool.false_eq_true,
        rowsFor_cons, pure, Except.pure, rowsFor_append]
    | false =>
      simp only [hkey, if_false, ok_bind, Bool.false_eq_true, rowsFor_cons, pure, Except.pure,
        rowsFor_append]

/-- One branch after the other: the topics begin with the key of their branch. -/
lemma forBranches_found {f : Str → Item Str Payload → Except Exc (List Row)}
    {P : List Str → Prop} {C : Str → Item Str Payload → List Str → Prop} {base : List Str}
    {l : List (Str × Item Str Payload)} (hl : (l.map Prod.fst).Nodup)
    (h : ∀ k v, (k, v) ∈ l → k ≠ leafKey → ∃ topics,
      f k v = .ok (rowsFor data qos (base ++ [k]) topics) ∧
      Found (fun p => P (k :: p)) (C k v) topics) :
    ∃ topics, forBranches f l = .ok (rowsFor data qos base topics) ∧
      Found (fun p => P p ∧ ∃ k q, p = k :: q ∧ k ∈ l.map Prod.fst)
        (fun p => ∃ k v q, (k, v) ∈ l ∧ k ≠ leafKey ∧ p = k :: q ∧ C k v q) topics := by
  induction l with
  | nil =>
    refine ⟨[], rfl, List.nodup_nil, fun p hp => (nomatch hp), ?_⟩
    rintro p ⟨k, v, q, hm, -⟩
    cases hm
  | cons kv l ih =>
    obtain ⟨key, val⟩ := kv
    simp only [List.map_cons, List.nodup_cons] at hl
    obtain ⟨qs, hqs, hfound⟩ := ih hl.2 fun k v hm => h k v (List.mem_cons_of_mem _ hm)
    have hsound : ∀ p ∈ qs, P p ∧ ∃ k q, p = k :: q ∧ k ∈ ((key, val) :: l).map Prod.fst :=
      fun p hp => by
        obtain ⟨hP, k, q, rfl, hk⟩ := hfound.sound p hp
        exact ⟨hP, k, q, rfl, List.mem_cons_of_mem _ hk⟩
    by_cases hk : key = leafKey
    · refine ⟨qs, by simp [forBranches, hk, hqs], hfound.nodup, hsound, ?_⟩
      rintro p ⟨k, v, q, hm, hne, rfl, hC⟩
      rcases List.mem_cons.mp hm with heq | hm
      · cases heq
        exact absurd hk hne
      · exact hfound.complete _ ⟨k, v, q, hm, hne, rfl, hC⟩
    · obtain ⟨ps, hps, hbelow⟩ := h key val List.mem_cons_self hk
      refine ⟨ps.map (key :: ·) ++ qs, ?_, ?_, fun p hp => ?_, ?_⟩
      · simp only [forBranches, hk, if_false, hps, hqs, ok_bind, rowsFor_cons, pure, Except.pure,
          rowsFor_append]
      · refine (hbelow.nodup.map (List.cons_injective)).append hfound.nodup fun p hp hq => ?_
        obtain ⟨q, -, rfl⟩ := List.mem_map.mp hp
        obtain ⟨-, k, q', heq, hk'⟩ := hfound.sound _ hq
        cases heq
        exact hl.1 hk'
      · rcases List.mem_append.mp hp with hp | hp
        · obtain ⟨q, hq, rfl⟩ := List.mem_map.mp hp
          exact ⟨hbelow.sound q hq, key, q, rfl, List.mem_cons_self⟩
        · exact hsound p hp
      · rintro p ⟨k, v, q, hm, hne, rfl, hC⟩
        rcases List.mem_cons.mp hm with heq | hm
        · cases heq
          exact List.mem_append_left _ (List.mem_map_of_mem (hbelow.complete q hC))
        · exact List.mem_append_right _ (hfound.complete _ ⟨k, v, q, hm, hne, rfl, hC⟩)

lemma Static.cons {n : Str} {p : List Str} (hn : isNodeStatic n = true) (hp : Static p) :
    Static (n :: p) := fun m hm => by
  rcases List.mem_cons.mp hm with rfl | hm
  · exact hn
  · exact hp m hm

lemma standsFor_cons {f n : Str} {F p : List Str} (hf : f ≠ everythingCard) :
    StandsFor (f :: F) (n :: p) ↔ (f = manyCard ∨ f = n) ∧ StandsFor F p := by
  rw [StandsFor, MatchesDeep, if_neg hf]

/-- `#` stands for all below the base. -/
lemma standsFor_everything {p : List Str} : StandsFor [everythingCard] p ↔ p ≠ [] := by
  cases p with
  | nil => simp [StandsFor, MatchesDeep]
  | cons n p => simp [StandsFor, MatchesDeep]

lemma standsFor_same {f : Str} {F p : List Str} (hf : f ≠ everythingCard) :
    StandsFor (f :: F) (f :: p) ↔ StandsFor F p := by
  rw [standsFor_cons hf]
  exact and_iff_right (.inr rfl)

/-- What a static node stands for begins with it. -/
lemma StandsFor.head {f : Str} {F p : List Str} (hE : f ≠ everythingCard) (hM : f ≠ manyCard)
    (h : StandsFor (f :: F) p) : ∃ q, p = f :: q := by
  cases p with
  | nil => exact h.elim
  | cons n q =>
    obtain ⟨hn, -⟩ := (standsFor_cons hE).mp h
    exact ⟨q, by rw [hn.resolve_left hM]⟩

/-- The rows found for the topic: those it stands for, among them all that have a value. -/
abbrev FoundIn (t : Rdd Payload) (T : List Str) (topics : List (List Str)) : Prop :=
  Found (fun p => Static p ∧ StandsFor T p) (fun p => valueAt t p ≠ none ∧ StandsFor T p) topics

section
variable {node : Str} {next : List Str} {t : Rdd Payload}

/-- Behind `#`, the topics of the whole tree but the base. -/
lemma foundIn_everything (hs : Shape t) (hd : t.Distinct)
    (hk : KeysOf (fun n => isNodeStatic n = true) t) :
    FoundIn t [everythingCard] ((paths t).filter (· ≠ [])) := by
  refine ⟨(paths_nodup hs hd).filter _, fun p hp => ?_, fun p hp => ?_⟩
  · obtain ⟨hp, hne⟩ := List.mem_filter.mp hp
    exact ⟨hk.of_valueAt hs ((mem_paths hs hd).mp hp),
      standsFor_everything.mpr (of_decide_eq_true hne)⟩
  · exact List.mem_filter.mpr ⟨(mem_paths hs hd).mpr hp.1,
      decide_eq_true (standsFor_everything.mp hp.2)⟩

/-- Behind `+`, the topics found in the branches. -/
lemma Found.foundIn {C : Str → Item Str Payload → List Str → Prop} {topics : List (List Str)}
    (h : Found (fun p => (Static p ∧ StandsFor (node :: next) p) ∧
        ∃ k q, p = k :: q ∧ k ∈ t.items.map Prod.fst)
      (fun p => ∃ k v q, (k, v) ∈ t.items ∧ k ≠ leafKey ∧ p = k :: q ∧ C k v q) topics)
    (hE : node ≠ everythingCard) (hs : Shape t) (hd : t.Distinct)
    (hC : ∀ k v q, v.leafAt (q ++ [leafKey]) ≠ none → StandsFor next q → C k v q) :
    FoundIn t (node :: next) topics := by
  refine ⟨h.nodup, fun p hp => (h.sound p hp).1, fun p ⟨hvalue, hstands⟩ => ?_⟩
  cases p with
  | nil => exact hstands.elim
  | cons k q =>
    have hkey : k ≠ leafKey := by
      rintro rfl
      exact hvalue (hs.valueAt_leafKey q)
    rw [valueAt_cons] at hvalue
    cases hv : t.get k with
    | none => exact absurd (by rw [hv]; rfl) hvalue
    | some v =>
      rw [hv, Option.bind_some] at hvalue
      exact h.complete _ ⟨k, v, q, (Dict.mem_items_iff hd.keys_nodup k v).mpr hv, hkey, rfl,
        hC k v q hvalue ((standsFor_cons hE).mp hstands).2⟩

/-- At the end, `+` finds every branch. -/
lemma forBranches_foundIn_nil (hs : Shape t) (hd : t.Distinct)
    (hk : KeysOf (fun n => isNodeStatic n = true) t) (base : List Str) :
    ∃ topics, forBranches (fun key _ => .ok [⟨base ++ [key], data, qos⟩]) t.items =
        .ok (rowsFor data qos base topics) ∧ FoundIn t [manyCard] topics := by
  have hM : manyCard ≠ everythingCard := by decide
  have hnd : (t.items.map Prod.fst).Nodup := by
    rw [← Dict.keys_eq_items]
    exact hd.keys_nodup
  have hrow : ∀ k v, (k, v) ∈ t.items → k ≠ leafKey → ∃ topics,
      (Except.ok [⟨base ++ [k], data, qos⟩] : Except Exc (List Row)) =
        .ok (rowsFor data qos (base ++ [k]) topics) ∧
      Found (fun p => Static (k :: p) ∧ StandsFor [manyCard] (k :: p)) (fun q => q = [])
        topics := fun k v hm hkey => by
    refine ⟨[[]], by simp [rowsFor], List.nodup_singleton _, fun p hp => ?_, fun p hp => ?_⟩
    · obtain rfl := List.mem_singleton.mp hp
      exact ⟨Static.cons (mem_items_keysOf hs hd hk hm hkey).1 (fun _ h => nomatch h),
        (standsFor_cons hM).mpr ⟨.inl rfl, trivial⟩⟩
    · rw [hp]
      exact List.mem_singleton_self _
  obtain ⟨topics, hok, hfound⟩ := @forBranches_found data qos _
    (fun p => Static p ∧ StandsFor [manyCard] p) (fun _ _ q => q = []) base _ hnd hrow
  refine ⟨topics, hok, hfound.foundIn hM hs hd fun k v q _ hq => ?_⟩
  cases q with
  | nil => rfl
  | cons n q => exact hq.elim

/-- `+` finds what the rest of the topic finds in the branches. -/
lemma forBranches_foundIn {f : Str → Item Str Payload → Except Exc (List Row)} {base : List Str}
    (hs : Shape t) (hd : t.Distinct) (hk : KeysOf (fun n => isNodeStatic n = true) t)
    (h : ∀ k b, Shape b → b.Distinct → KeysOf (fun n => isNodeStatic n = true) b → ∃ topics,
      f k (.node b) = .ok (rowsFor data qos (base ++ [k]) topics) ∧ FoundIn b next topics) :
    ∃ topics, forBranches f t.items = .ok (rowsFor data qos base topics) ∧
      FoundIn t (manyCard :: next) topics := by
  have hM : manyCard ≠ everythingCard := by decide
  have hnd : (t.items.map Prod.fst).Nodup := by
    rw [← Dict.keys_eq_items]
    exact hd.keys_nodup
  have hrows : ∀ k v, (k, v) ∈ t.items → k ≠ leafKey → ∃ topics,
      f k v = .ok (rowsFor data qos (base ++ [k]) topics) ∧
      Found (fun p => Static (k :: p) ∧ StandsFor (manyCard :: next) (k :: p))
        (fun q => v.leafAt (q ++ [leafKey]) ≠ none ∧ StandsFor next q) topics := by
    intro k v hm hkey
    obtain ⟨hP, b, rfl, hbs, hbd, hbk⟩ := mem_items_keysOf hs hd hk hm hkey
    obtain ⟨qs, hqs, hfound⟩ := h k b hbs hbd hbk
    refine ⟨qs, hqs, hfound.nodup, fun q hq => ?_, hfound.complete⟩
    obtain ⟨hstatic, hstands⟩ := hfound.sound q hq
    exact ⟨hstatic.cons hP, (standsFor_cons hM).mpr ⟨.inl rfl, hstands⟩⟩
  obtain ⟨topics, hok, hfound⟩ := @forBranches_found data qos f
    (fun p => Static p ∧ StandsFor (manyCard :: next) p)
    (fun _ v q => v.leafAt (q ++ [leafKey]) ≠ none ∧ StandsFor next q) base _ hnd hrows
  exact ⟨topics, hok, hfound.foundIn hM hs hd fun k v q hv hq => ⟨hv, hq⟩⟩

/-- At the end, a static node finds its topic. -/
lemma foundIn_single (hE : node ≠ everythingCard) (hM : node ≠ manyCard) :
    FoundIn t [node] [[node]] := by
  refine ⟨List.nodup_singleton _, fun p hp => ?_, fun p hp => ?_⟩
  · obtain rfl := List.mem_singleton.mp hp
    exact ⟨Static.cons (isNodeStatic_of_ne hE hM) (fun _ h => nomatch h),
      (matchesDeep_singleton hE hM).mpr rfl⟩
  · rw [(matchesDeep_singleton hE hM).mp hp.2]
    exact List.mem_singleton_self _

/-- Below a static node are the topics of its branch. -/
lemma Found.below {b : Rdd Payload} {topics : List (List Str)} (h : FoundIn b next topics)
    (hE : node ≠ everythingCard) (hM : node ≠ manyCard) (hv : t.get node = some (.node b)) :
    FoundIn t (node :: next) (topics.map (node :: ·)) := by
  refine ⟨h.nodup.map List.cons_injective, fun p hp => ?_, fun p ⟨hvalue, hstands⟩ => ?_⟩
  · obtain ⟨q, hq, rfl⟩ := List.mem_map.mp hp
    obtain ⟨hstatic, hstands⟩ := h.sound q hq
    exact ⟨hstatic.cons (isNodeStatic_of_ne hE hM), (standsFor_same hE).mpr hstands⟩
  · obtain ⟨q, rfl⟩ := StandsFor.head hE hM hstands
    rw [valueAt_of_get hv] at hvalue
    exact List.mem_map_of_mem (h.complete q ⟨hvalue, (standsFor_same hE).mp hstands⟩)

/-- Where the tree has nothing below a static node, the topic itself is all there is to find. -/
lemma foundIn_missing (hE : node ≠ everythingCard) (hM : node ≠ manyCard)
    (hv : t.get node = none) {topics : List (List Str)} (hnd : topics.Nodup)
    (hself : ∀ p ∈ topics, p = node :: next ∧ Static next) : FoundIn t (node :: next) topics := by
  refine ⟨hnd, fun p hp => ?_, fun p ⟨hvalue, hstands⟩ => ?_⟩
  · obtain ⟨rfl, hstatic⟩ := hself p hp
    refine ⟨hstatic.cons (isNodeStatic_of_ne hE hM), (standsFor_same hE).mpr <|
      matchesDeep_self fun hm => ?_⟩
    exact absurd (hstatic _ hm) (by decide)
  · obtain ⟨q, rfl⟩ := StandsFor.head hE hM hstands
    rw [valueAt_cons, hv] at hvalue
    exact absurd rfl hvalue

/-- **The rows of a publish**, over a tree whose keys are static: the topics below the base that it
stands for, each once, among them all that have a value. -/
theorem getApplicableRows_found {T : List Str} (hT : Path T) (hE : everythingCard ∉ T.dropLast)
    {t : Rdd Payload} (hs : Shape t) (hd : t.Distinct)
    (hk : KeysOf (fun n => isNodeStatic n = true) t) (base : List Str) (found_wildcard : Bool) :
    ∃ topics, getApplicableRows data qos T base (.node t) found_wildcard =
        .ok (rowsFor data qos base topics) ∧ FoundIn t T topics := by
  induction T generalizing t base found_wildcard with
  | nil => exact absurd rfl hT.1
  | cons node next ih =>
    unfold getApplicableRows
    by_cases hnE : node = everythingCard
    · subst hnE
      obtain rfl := eq_nil_of_everything_last hE
      refine ⟨_, ?_, foundIn_everything hs hd hk⟩
      simp only [if_true, ne_eq, not_true_eq_false, if_false, getEverythingAsRows_eq hs]
    rw [if_neg hnE]
    have hE' := not_mem_dropLast_tail hE
    by_cases hM : node = manyCard
    · subst hM
      rw [if_pos rfl]
      by_cases hnil : next = []
      · subst hnil
        simp only [if_true]
        exact forBranches_foundIn_nil hs hd hk base
      · simp only [if_neg hnil]
        exact forBranches_foundIn hs hd hk fun k b hbs hbd hbk =>
          ih (hT.tail_of_ne hnil) hE' hbs hbd hbk (base ++ [k]) true
    rw [if_neg hM]
    by_cases hnil : next = []
    · subst hnil
      exact ⟨[[node]], by simp [rowsFor], foundIn_single hnE hM⟩
    simp only [if_neg hnil]
    cases hv : t.get node with
    | none =>
      by_cases hskip : found_wildcard = true ∨ ¬next.all isNodeStatic = true
      · exact ⟨[], by simp only [if_pos hskip]; rfl,
          foundIn_missing hnE hM hv List.nodup_nil fun p hp => (nomatch hp)⟩
      · refine ⟨[node :: next], by simp only [if_neg hskip]; rfl,
          foundIn_missing hnE hM hv (List.nodup_singleton _) fun p hp => ?_⟩
        have hall : next.all isNodeStatic = true := by
          by_contra hnot
          exact hskip (.inr hnot)
        exact ⟨List.mem_singleton.mp hp, List.all_eq_true.mp hall⟩
    | some v =>
      obtain ⟨b, rfl, hb⟩ := hs.get_node hT.head_ne hv
      obtain ⟨qs, hqs, hfound⟩ := ih (hT.tail_of_ne hnil) hE' hb (hd.get hv) (hk.get hv).2
        (base ++ [node]) found_wildcard
      exact ⟨qs.map (node :: ·), by rw [← rowsFor_cons]; exact hqs, hfound.below hnE hM hv⟩

end

/-- A topic without wildcards stands for itself, whatever the tree holds. -/
lemma getApplicableRows_static {T : List Str} (hT : Path T) (hstatic : Static T) {t : Rdd Payload}
    (hs : Shape t) (base : List Str) :
    getApplicableRows data qos T base (.node t) false = .ok [⟨base ++ T, data, qos⟩] := by
  induction T generalizing t base with
  | nil => exact absurd rfl hT.1
  | cons node next ih =>
    have hnode := hstatic node List.mem_cons_self
    have hnE : node ≠ everythingCard := by
      rintro rfl
      exact absurd hnode (by decide)
    have hM : node ≠ manyCard := by
      rintro rfl
      exact absurd hnode (by decide)
    have hnext : Static next := fun n hn => hstatic n (List.mem_cons_of_mem _ hn)
    unfold getApplicableRows
    rw [if_neg hnE, if_neg hM]
    by_cases hnil : next = []
    · rw [if_pos hnil, hnil]
    · simp only [if_neg hnil]
      cases hv : t.get node with
      | none =>
        have hall : next.all isNodeStatic = true := List.all_eq_true.mpr hnext
        simp [hall]
      | some v =>
        obtain ⟨b, rfl, hb⟩ := hs.get_node hT.head_ne hv
        have hTnext := hT.tail_of_ne hnil
        simpa using ih hTnext hnext hb (base ++ [node])

end

/-- **A publish with wildcards is complete and without duplicates**: over every tree whose keys are
static, for every topic with `#` at most at its end, the rows are those of the topics that it stands
for; and a topic without wildcards is its own row, whatever the tree holds. -/
theorem applicable_rows (data : Payload) (qos : ℕ) {T : List Str} (hT : Path T) {t : Rdd Payload}
    (hs : Shape t) (hd : t.Distinct) :
    (everythingCard ∉ T.dropLast → KeysOf (fun n => isNodeStatic n = true) t →
      ∃ rows, getApplicableRows data qos T [] (.node t) false = .ok rows ∧
        Covers data qos T t rows) ∧
    (Static T → getApplicableRows data qos T [] (.node t) false = .ok [⟨T, data, qos⟩]) := by
  refine ⟨fun hE hk => ?_, fun hstatic => getApplicableRows_static hT hstatic hs []⟩
  obtain ⟨topics, hok, hfound⟩ :=
    @getApplicableRows_found data qos T hT hE t hs hd hk [] false
  have htopics : (rowsFor data qos [] topics).map Row.topic = topics := by
    rw [rowsFor, List.map_map]
    exact List.map_id' topics
  refine ⟨_, hok, by rw [htopics]; exact hfound.nodup, fun row hrow => ?_, fun topic hv hm => ?_⟩
  · obtain ⟨p, hp, rfl⟩ := List.mem_map.mp hrow
    obtain ⟨hstatic, hstands⟩ := hfound.sound p hp
    exact ⟨hstatic, hstands, rfl, rfl⟩
  · exact ⟨_, List.mem_map_of_mem (hfound.complete topic ⟨hv, hm⟩), rfl⟩

/-- Two lights, one of them deleted, and a room without a light. -/
def house : Rdd Payload :=
  .node "hall".toList (.node "light".toList (.leaf leafKey (some [49]) .nil) .nil) <|
    .node "attic".toList (.node "light".toList (.leaf leafKey none .nil) .nil) <|
      .node "cellar".toList (.node "door".toList (.leaf leafKey (some [48]) .nil) .nil) .nil

theorem applicable_rows_house :
    ∃ rows, getApplicableRows (some [49]) 1 (split "+/light".toList) [] (.node house) false =
      .ok rows ∧ Covers (some [49]) 1 (split "+/light".toList) house rows := by
  have hk : KeysOf (fun n => isNodeStatic n = true) house := by
    simp [KeysOf, house, Dict.All]
    decide
  exact (applicable_rows _ _ (path_split _) (by decide) (by decide)).1 (by decide) hk

end MoteBroker.Applicable

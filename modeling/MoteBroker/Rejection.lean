import MoteBroker.Applicable
import MoteBroker.Snapshot

/-!
A `#` before the end of a topic: over which trees `get_applicable_rows` and
`filter_tree_with_topic` refuse the topic.
-/

namespace MoteBroker.Rejection

open NestedDict Wildcard MoteBroker.Topics MoteBroker.RecursiveDefaultDict
open MoteBroker.TreeItems MoteBroker.FilterTree MoteBroker.Rows MoteBroker.Snapshot
open MoteBroker.Applicable

/-! ### The property -/

/-- `#` stands at a position other than the last. -/
def Misplaced (T : List Str) : Prop := everythingCard ∈ T.dropLast

instance (T : List Str) : Decidable (Misplaced T) :=
  inferInstanceAs (Decidable (everythingCard ∈ T.dropLast))

/-- The topics that a publish and a subscription refuse are those with a misplaced `#`. -/
def RejectsMisplaced (data : Payload) (qos : ℕ) (T : List Str) (tree : Rdd Payload) : Prop :=
  (getApplicableRows data qos T [] (.node tree) false = .error .invalidEverythingCard ↔
    Misplaced T) ∧
  (filterTreeWithTopic T (.node tree) = .error .invalidEverythingCard ↔ Misplaced T)

/-- Nodes that the pattern matches lead to a dictionary of the tree. -/
def Reaches (F : List Str) (tree : Rdd Payload) : Prop :=
  ∃ p, Matches manyCard F p ∧ branch tree p ≠ none

/-- The nodes before the first `#`. -/
def beforeEverything (T : List Str) : List Str := T.takeWhile (· ≠ everythingCard)

/-! ### What the tree has for a pattern -/

section
variable {node : Str} {next : List Str} {t : Rdd Payload}

lemma reaches_nil (t : Rdd Payload) : Reaches [] t := ⟨[], trivial, Option.some_ne_none t⟩

lemma reaches_cons : Reaches (node :: next) t ↔
    ∃ k b, (node = manyCard ∨ node = k) ∧ t.get k = some (.node b) ∧ Reaches next b := by
  refine ⟨?_, ?_⟩
  · rintro ⟨p, hp, hbranch⟩
    cases p with
    | nil => exact hp.elim
    | cons k q =>
      obtain ⟨b, hget, hbranch⟩ := branch_cons_ne_none.mp hbranch
      exact ⟨k, b, hp.1, hget, q, hp.2, hbranch⟩
  · rintro ⟨k, b, hk, hget, q, hq, hbranch⟩
    exact ⟨k :: q, ⟨hk, hq⟩, branch_cons_ne_none.mpr ⟨b, hget, hbranch⟩⟩

lemma reaches_static (hM : node ≠ manyCard) :
    Reaches (node :: next) t ↔ ∃ b, t.get node = some (.node b) ∧ Reaches next b := by
  rw [reaches_cons]
  refine ⟨?_, ?_⟩
  · rintro ⟨k, b, hk, hget, hnext⟩
    obtain rfl := hk.resolve_left hM
    exact ⟨b, hget, hnext⟩
  · rintro ⟨b, hget, hnext⟩
    exact ⟨node, b, .inr rfl, hget, hnext⟩

lemma reaches_many :
    Reaches (manyCard :: next) t ↔ ∃ k b, t.get k = some (.node b) ∧ Reaches next b := by
  simp [reaches_cons]

lemma beforeEverything_cons (hE : node ≠ everythingCard) :
    beforeEverything (node :: next) = node :: beforeEverything next :=
  List.takeWhile_cons_of_pos (by simpa using hE)

lemma misplaced_cons (hE : node ≠ everythingCard) : Misplaced (node :: next) ↔ Misplaced next := by
  cases next with
  | nil => rfl
  | cons x next => simp [Misplaced, Ne.symm hE]

lemma misplaced_everything : Misplaced (everythingCard :: next) ↔ next ≠ [] := by
  cases next with
  | nil => simp [Misplaced]
  | cons x next => simp [Misplaced]

end

/-! ### When a call refuses the topic -/

/-- The call raises `InvalidEverythingCard` if `P` holds, and returns if not. -/
structure Refuses {α : Type} (call : Except Exc α) (P : Prop) : Prop where
  raises : P → call = .error .invalidEverythingCard
  returns : ¬P → ∃ a, call = .ok a

section
variable {α β : Type} {P Q : Prop}

lemma Refuses.iff {call : Except Exc α} (h : Refuses call P) :
    call = .error .invalidEverythingCard ↔ P := by
  refine ⟨fun hcall => ?_, h.raises⟩
  by_contra hno
  obtain ⟨a, ha⟩ := h.returns hno
  rw [ha] at hcall
  cases hcall

lemma Refuses.of_ok {call : Except Exc α} (h : ∃ a, call = .ok a) (hno : ¬P) :
    Refuses call P := ⟨fun hP => absurd hP hno, fun _ => h⟩

lemma Refuses.congr {call : Except Exc α} (h : Refuses call P) (hiff : Q ↔ P) :
    Refuses call Q := ⟨fun hQ => h.raises (hiff.mp hQ), fun hQ => h.returns fun hP =>
      hQ (hiff.mpr hP)⟩

lemma Refuses.map {call : Except Exc α} (h : Refuses call P) (f : α → β) :
    Refuses (call.map f) P := by
  refine ⟨fun hP => ?_, fun hP => ?_⟩
  · rw [h.raises hP]
    rfl
  · obtain ⟨a, ha⟩ := h.returns hP
    exact ⟨f a, by rw [ha]; rfl⟩

/-- One call after the other: either may refuse. -/
lemma Refuses.bind {call : Except Exc α} {f : α → Except Exc β} (h : Refuses call P)
    (hf : ∀ a, Refuses (f a) Q) : Refuses (call >>= f) (P ∨ Q) := by
  by_cases hP : P
  · exact ⟨fun _ => by rw [h.raises hP]; rfl, fun hno => absurd (.inl hP) hno⟩
  · obtain ⟨a, ha⟩ := h.returns hP
    rw [ha, or_iff_right hP]
    exact hf a

end

/-- A branch among the items of a tree: the first, unless it is the leaf, or a later one. -/
lemma exists_branch_cons {Q : Str → Item Str Payload → Prop} {key : Str} {val : Item Str Payload}
    {l : List (Str × Item Str Payload)} :
    (∃ k v, (k, v) ∈ (key, val) :: l ∧ k ≠ leafKey ∧ Q k v) ↔
      (key ≠ leafKey ∧ Q key val) ∨ ∃ k v, (k, v) ∈ l ∧ k ≠ leafKey ∧ Q k v := by
  simp only [List.mem_cons, Prod.mk.injEq]
  refine ⟨?_, ?_⟩
  · rintro ⟨k, v, ⟨rfl, rfl⟩ | hm, hne, hQ⟩
    · exact .inl ⟨hne, hQ⟩
    · exact .inr ⟨k, v, hm, hne, hQ⟩
  · rintro (⟨hne, hQ⟩ | ⟨k, v, hm, hne, hQ⟩)
    · exact ⟨key, val, .inl ⟨rfl, rfl⟩, hne, hQ⟩
    · exact ⟨k, v, .inr hm, hne, hQ⟩

/-- A loop over the branches refuses the topic if a branch does. -/
lemma forBranches_refuses {f : Str → Item Str Payload → Except Exc (List Row)}
    {Q : Str → Item Str Payload → Prop} {l : List (Str × Item Str Payload)}
    (h : ∀ k v, (k, v) ∈ l → k ≠ leafKey → Refuses (f k v) (Q k v)) :
    Refuses (forBranches f l) (∃ k v, (k, v) ∈ l ∧ k ≠ leafKey ∧ Q k v) := by
  induction l with
  | nil => exact .of_ok ⟨_, rfl⟩ (by simp)
  | cons kv l ih =>
    obtain ⟨key, val⟩ := kv
    have hrest := ih fun k v hm => h k v (List.mem_cons_of_mem _ hm)
    rw [exists_branch_cons, forBranches]
    by_cases hk : key = leafKey
    · rw [if_pos hk]
      exact hrest.congr (by simp [hk])
    · rw [if_neg hk]
      have hboth := (h key val List.mem_cons_self hk).bind fun rows =>
        hrest.map fun more => rows ++ more
      exact hboth.congr (by simp [hk])

/-- And so does the loop that collects from the branches. -/
lemma collect_refuses {pick : Item Str Payload → Except Exc (Option (Item Str Payload))}
    {Q : Item Str Payload → Prop} {l : List (Str × Item Str Payload)}
    (h : ∀ k v, (k, v) ∈ l → k ≠ leafKey → Refuses (pick v) (Q v)) (acc : Rdd Payload) :
    Refuses (collect pick acc l) (∃ k v, (k, v) ∈ l ∧ k ≠ leafKey ∧ Q v) := by
  induction l generalizing acc with
  | nil => exact .of_ok ⟨_, rfl⟩ (by simp)
  | cons kv l ih =>
    obtain ⟨key, val⟩ := kv
    have hrest := ih fun k v hm => h k v (List.mem_cons_of_mem _ hm)
    rw [@exists_branch_cons fun _ v => Q v, collect]
    by_cases hk : key = leafKey
    · rw [if_pos hk]
      exact (hrest acc).congr (by simp [hk])
    · rw [if_neg hk]
      refine Refuses.congr (Refuses.bind (Q := ∃ k v, (k, v) ∈ l ∧ k ≠ leafKey ∧ Q v)
        (h key val List.mem_cons_self hk) fun picked => ?_) (by simp [hk])
      cases picked with
      | none => exact hrest acc
      | some v => exact hrest (acc.set key v)

/-! ### The two calls -/

section
variable {t : Rdd Payload}

/-- The branches of a tree are its items but the leaf. -/
lemma exists_branch_iff (hs : Shape t) (hd : t.Distinct) {Q : Rdd Payload → Prop} {R : Prop} :
    (∃ k v, (k, v) ∈ t.items ∧ k ≠ leafKey ∧ R ∧ ∃ b, v = .node b ∧ Q b) ↔
      R ∧ ∃ k b, t.get k = some (.node b) ∧ Q b := by
  simp only [Dict.mem_items_iff hd.keys_nodup]
  refine ⟨?_, ?_⟩
  · rintro ⟨k, v, hget, -, hR, b, rfl, hQ⟩
    exact ⟨hR, k, b, hget, hQ⟩
  · rintro ⟨hR, k, b, hget, hQ⟩
    refine ⟨k, _, hget, ?_, hR, b, rfl, hQ⟩
    exact (hs.get hget).1

/-- The topic `T` is refused over the tree. -/
abbrev RefusedOver (T : List Str) (t : Rdd Payload) : Prop :=
  Misplaced T ∧ Reaches (beforeEverything T) t

lemma refusedOver_everything {next : List Str} :
    RefusedOver (everythingCard :: next) t ↔ next ≠ [] := by
  have hbefore : beforeEverything (everythingCard :: next) = [] := by simp [beforeEverything]
  rw [RefusedOver, misplaced_everything, hbefore]
  exact and_iff_left (reaches_nil t)

lemma not_refusedOver_singleton {node : Str} : ¬RefusedOver [node] t :=
  fun h => List.not_mem_nil h.1

lemma refusedOver_many {next : List Str} : RefusedOver (manyCard :: next) t ↔
    Misplaced next ∧ ∃ k b, t.get k = some (.node b) ∧ Reaches (beforeEverything next) b := by
  have hE : manyCard ≠ everythingCard := by decide
  rw [RefusedOver, misplaced_cons hE, beforeEverything_cons hE, reaches_many]

lemma refusedOver_static {node : Str} {next : List Str} (hE : node ≠ everythingCard)
    (hM : node ≠ manyCard) : RefusedOver (node :: next) t ↔
      ∃ b, t.get node = some (.node b) ∧ RefusedOver next b := by
  rw [RefusedOver, misplaced_cons hE, beforeEverything_cons hE, reaches_static hM]
  refine ⟨?_, ?_⟩
  · rintro ⟨hmis, b, hget, hreach⟩
    exact ⟨b, hget, hmis, hreach⟩
  · rintro ⟨b, hget, hmis, hreach⟩
    exact ⟨hmis, b, hget, hreach⟩

/-- `get_applicable_rows` refuses a topic when the tree leads it to a misplaced `#`. -/
lemma getApplicableRows_refuses {T : List Str} (hT : Path T) (hs : Shape t) (hd : t.Distinct)
    (data : Payload) (qos : ℕ) (base : List Str) (found_wildcard : Bool) :
    Refuses (getApplicableRows data qos T base (.node t) found_wildcard) (RefusedOver T t) := by
  induction T generalizing t base found_wildcard with
  | nil => exact absurd rfl hT.1
  | cons node next ih =>
    unfold getApplicableRows
    by_cases hE : node = everythingCard
    · subst hE
      refine Refuses.congr ?_ refusedOver_everything
      by_cases hnil : next = []
      · exact .of_ok (by simp [hnil, getEverythingAsRows_eq hs]) (not_not.mpr hnil)
      · exact ⟨fun _ => by simp [hnil], fun hno => absurd hnil hno⟩
    rw [if_neg hE]
    by_cases hnil : next = []
    · subst hnil
      by_cases hM : node = manyCard
      · have hrows := @exists_forBranches (fun key _ => .ok [⟨base ++ [key], data, qos⟩]) t.items
          fun k v _ _ => ⟨_, rfl⟩
        exact .of_ok (by simpa only [if_pos hM, if_true] using hrows) not_refusedOver_singleton
      · exact .of_ok (by simp [hM]) not_refusedOver_singleton
    have hnext := hT.tail_of_ne hnil
    by_cases hM : node = manyCard
    · subst hM
      simp only [if_true, if_neg hnil]
      refine Refuses.congr (forBranches_refuses fun k v hm hk => ?_)
        (refusedOver_many.trans (exists_branch_iff hs hd).symm)
      have hget := (Dict.mem_items_iff hd.keys_nodup k v).mp hm
      obtain ⟨b, rfl, hb⟩ := hs.get_node hk hget
      exact (ih hnext hb (hd.get hget) (base ++ [k]) true).congr (by simp [RefusedOver])
    · simp only [if_neg hM, if_neg hnil]
      cases hv : t.get node with
      | none => exact .of_ok ⟨_, rfl⟩ (by simp [refusedOver_static hE hM, hv])
      | some v =>
        obtain ⟨b, rfl, hb⟩ := hs.get_node hT.head_ne hv
        exact (ih hnext hb (hd.get hv) (base ++ [node]) found_wildcard).congr
          (by simp [refusedOver_static hE hM, hv])

/-- So does `filter_tree_with_topic`. -/
lemma filterTreeWithTopic_refuses {T : List Str} (hT : Path T) (hs : Shape t) (hd : t.Distinct) :
    Refuses (filterTreeWithTopic T (.node t)) (RefusedOver T t) := by
  induction T generalizing t with
  | nil => exact absurd rfl hT.1
  | cons node next ih =>
    unfold filterTreeWithTopic
    by_cases hE : node = everythingCard
    · subst hE
      refine Refuses.congr ?_ refusedOver_everything
      by_cases hnil : next = []
      · exact .of_ok (by simp [hnil]) (not_not.mpr hnil)
      · exact ⟨fun _ => by simp [hnil], fun hno => absurd hnil hno⟩
    simp only [if_neg hE]
    by_cases hnil : next = []
    · subst hnil
      by_cases hM : node = manyCard
      · obtain ⟨r, hok, -⟩ := yields_leaves hs hd
        exact .of_ok (by simp [hM, hok, Except.map]) not_refusedOver_singleton
      · cases hv : t.get node with
        | none => exact .of_ok (by simp [hM]) not_refusedOver_singleton
        | some v =>
          obtain ⟨b, rfl, -⟩ := hs.get_node hT.head_ne hv
          exact .of_ok (by simp [hM]) not_refusedOver_singleton
    have hnext := hT.tail_of_ne hnil
    by_cases hM : node = manyCard
    · subst hM
      simp only [if_true, if_neg hnil]
      refine Refuses.congr (Refuses.map (collect_refuses (fun k v hm hk => ?_) _) _)
        (refusedOver_many.trans (exists_branch_iff hs hd).symm)
      have hget := (Dict.mem_items_iff hd.keys_nodup k v).mp hm
      obtain ⟨b, rfl, hb⟩ := hs.get_node hk hget
      exact ((ih hnext hb (hd.get hget)).map _).congr (by simp [RefusedOver])
    · simp only [if_neg hM, if_neg hnil]
      cases hv : t.get node with
      | none => exact .of_ok ⟨_, rfl⟩ (by simp [refusedOver_static hE hM, hv])
      | some v =>
        obtain ⟨b, rfl, hb⟩ := hs.get_node hT.head_ne hv
        exact (ih hnext hb (hd.get hv)).congr (by simp [refusedOver_static hE hM, hv])

end

/-- **When a misplaced `#` is refused**: by both calls if the tree has nodes for all that stands
before it, else by neither; and no other topic is refused. -/
theorem rejects_misplaced_iff (data : Payload) (qos : ℕ) {T : List Str} (hT : Path T)
    {t : Rdd Payload} (hs : Shape t) (hd : t.Distinct) :
    RejectsMisplaced data qos T t ↔ (Misplaced T → Reaches (beforeEverything T) t) := by
  unfold RejectsMisplaced
  rw [(getApplicableRows_refuses hT hs hd data qos [] false).iff,
    (filterTreeWithTopic_refuses hT hs hd).iff, and_self]
  exact and_iff_left_iff_imp

theorem rejects_misplaced_hall :
    RejectsMisplaced none 0 (split "hall/#/light".toList) house :=
  (rejects_misplaced_iff none 0 (path_split _) (by decide) (by decide)).mpr fun _ =>
    ⟨["hall".toList], by decide, by decide⟩

/-- Over an empty tree a misplaced `#` is not noticed. -/
theorem not_rejects_misplaced : ¬RejectsMisplaced none 0 (split "hall/#/light".toList) .nil := by
  rintro ⟨hrows, -⟩
  have hok : getApplicableRows none 0 (split "hall/#/light".toList) [] (.node .nil) false =
      .ok [] := rfl
  have herror := hrows.mpr (by decide)
  rw [hok] at herror
  cases herror

end MoteBroker.Rejection

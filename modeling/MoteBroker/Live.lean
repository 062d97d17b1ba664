import MoteBroker.Snapshot
import MoteBroker.Walk

/-!
Live delivery: for which filters and batches a topic whose payload is in a filter's snapshot has
the filter's clients told of its next row, whatever else is subscribed.
-/

namespace MoteBroker.Live

open NestedDict Wildcard MoteBroker.Topics MoteBroker.RecursiveDefaultDict MoteBroker.TreeItems
open MoteBroker.FilterTree MoteBroker.CreateMessages MoteBroker.Snapshot MoteBroker.Walk

/-! ### The property -/

/-- The snapshot of the filter has the payload of the topic. -/
def Includes (F : List Str) (tree : Rdd Payload) (topic : List Str) : Prop :=
  ∃ x c b, filterTreeWithTopic F (.node tree) = .ok x ∧ substitute F c = some topic ∧
    entry F x c = some (some b) ∧ valueAt tree topic = some (some b)

/-- The batch has a message for the filter, whatever the subscription tree has besides it. -/
def Produces (F : List Str) (rows : List Row) : Prop :=
  ∀ S : Rdd ClientSet, Valid S → ∀ cs, valueAt S F = some cs →
    ∃ ms, createMessagesForSubscriptions S rows = .ok ms ∧
      ∃ m ∈ ms, m.branch = .clients cs ∧ m.base = F

/-- A filter with `#` is matched with `#` taken for a node, the last payload of each topic is text,
and no topic leads astray with a node `/`. -/
structure Deliverable (F : List Str) (rows : List Row) : Prop where
  matching : everythingCard ∈ F → ∃ row ∈ rows, Matches manyCard F row.topic
  legible : Legible rows
  closed : ∀ row ∈ rows, leafKey ∈ row.topic → Closed rows row.topic

/-! ### Snapshots -/

lemma matches_of_substitute {F c topic : List Str} (hF : everythingCard ∉ F)
    (h : substitute F c = some topic) : Matches manyCard F topic := by
  induction F generalizing c topic with
  | nil =>
    unfold substitute at h
    split_ifs at h
    cases h
    trivial
  | cons f F ih =>
    simp only [List.mem_cons, not_or] at hF
    by_cases hM : f = manyCard
    · subst hM
      cases c with
      | nil => simp at h
      | cons n c =>
        rw [substitute_many_cons] at h
        obtain ⟨t, ht, rfl⟩ := Option.map_eq_some_iff.mp h
        exact ⟨.inl rfl, ih hF.2 ht⟩
    · rw [substitute_static (Ne.symm hF.1) hM] at h
      obtain ⟨t, ht, rfl⟩ := Option.map_eq_some_iff.mp h
      exact ⟨.inr rfl, ih hF.2 ht⟩

/-! ### One filter at a time -/

/-- A batch has a message for a filter in every tree if the walk can answer every filter, and rows
match this one. -/
lemma produces_iff (topic_str : Str) (rows : List Row) :
    Produces (split topic_str) rows ↔
      Answerable rows ∧ ∃ row ∈ rows, Matches manyCard (split topic_str) row.topic := by
  have hmatching : (∃ row ∈ rows, Matches manyCard (split topic_str) row.topic) ↔
      matching rows 0 (split topic_str) ≠ [] := by
    rw [matching_zero]
    simp
  refine ⟨?_, ?_⟩
  · intro h
    refine ⟨?_, ?_⟩
    · intro other cs
      obtain ⟨S, hS, hvalue⟩ := exists_tree valid_nil topic_str clash
      obtain ⟨S', hS', hvalue'⟩ := exists_tree hS other cs
      obtain ⟨cs', hcs'⟩ : ∃ cs', valueAt S' (split topic_str) = some cs' := by
        rw [hvalue', hvalue, if_pos rfl]
        split_ifs <;> exact ⟨_, rfl⟩
      obtain ⟨ms, hms, -⟩ := h S' hS' cs' hcs'
      exact (createMessages_ok hS' hms).1 _ _ (by rw [hvalue', if_pos rfl])
    · rw [hmatching]
      intro hm
      obtain ⟨S, hS, hvalue⟩ := exists_tree valid_nil topic_str clash
      obtain ⟨ms, hms, m, hin, -⟩ := h S hS clash (by rw [hvalue, if_pos rfl])
      obtain ⟨F, cs, ms', hF, hwalk, hin⟩ := (createMessages_ok hS hms).2 m hin
      rw [hvalue, valueAt_nil] at hF
      split_ifs at hF with heq
      cases hF
      subst heq
      by_cases hbeyond : ∃ row ∈ rows, Beyond 0 (split topic_str) row
      · obtain ⟨row, hrow, hbeyond⟩ := hbeyond
        rw [walkAt_clash hm hrow hbeyond] at hwalk
        cases hwalk
      · rw [walkAt_eq clash fun _ row hrow hb => hbeyond ⟨row, hrow, hb⟩, answer,
          if_pos hm] at hwalk
        cases hwalk
        cases hin
  · rintro ⟨hall, hrow⟩ S hS cs hF
    rw [createMessagesForSubscriptions, createMessages_walk hS.shape]
    rcases concatAll_cases (f := fun x => walkAt x.2 x.1 rows [] 0 false) (subscribers S) with
      ⟨-, hok⟩ | ⟨⟨x, hx, e, herr⟩, -⟩
    · refine ⟨_, hok, ?_⟩
      obtain ⟨ms, hms⟩ := hall topic_str cs
      have hanswer := @walkAt_eq rows [] 0 false (split topic_str) cs
        fun hm => absurd hm (hmatching.mp hrow)
      rw [hms, answer, if_neg (hmatching.mp hrow)] at hanswer
      obtain ⟨data, -, hdata⟩ := ok_of_bind hanswer.symm
      cases hdata
      refine ⟨⟨.clients cs, [] ++ split topic_str, data⟩, List.mem_flatMap.mpr
        ⟨_, (mem_subscribers hS.shape hS.distinct _ _).mpr hF, ?_⟩, rfl, rfl⟩
      rw [hms]
      exact List.mem_singleton_self _
    · obtain ⟨t, ht⟩ := hS.spelled x.1 x.2 ((mem_subscribers hS.shape hS.distinct _ _).mp hx)
      obtain ⟨ms, hms⟩ := hall t x.2
      rw [ht, hms] at herr
      cases herr

/-! ### Live delivery -/

/-- **A filter's snapshot and its live messages are about the same topics** exactly for filters
without `#`, in batches that can be answered: for a topic whose payload is in the snapshot, a batch
with a row for it has a message for the filter in every tree. -/
theorem produces_iff_deliverable {topic_str : Str} {tree : Rdd Payload} {topic : List Str}
    (hinc : Includes (split topic_str) tree topic) {rows : List Row}
    (hrow : ∃ row ∈ rows, row.topic = topic) :
    Produces (split topic_str) rows ↔ Deliverable (split topic_str) rows := by
  rw [produces_iff]
  refine ⟨?_, ?_⟩
  · rintro ⟨hall, hmatch⟩
    obtain ⟨hlegible, hclosed⟩ := answerable_iff.mp hall
    exact ⟨fun _ => hmatch, hlegible, hclosed⟩
  · intro h
    refine ⟨answerable_iff.mpr ⟨h.legible, h.closed⟩, ?_⟩
    by_cases hE : everythingCard ∈ split topic_str
    · exact h.matching hE
    · obtain ⟨x, c, b, -, hsub, -⟩ := hinc
      obtain ⟨row, hr, rfl⟩ := hrow
      exact ⟨row, hr, matches_of_substitute hE hsub⟩

lemma lights_includes : Includes (split "hall/+".toList) lights ["hall".toList, "light".toList] ∧
    Includes (split "hall/#".toList) lights ["hall".toList, "light".toList] :=
  ⟨⟨.item (.node (.leaf "light".toList (some [49]) .nil)), ["light".toList], [49], rfl, by decide,
      rfl, rfl⟩,
    ⟨.item (.node (.node "light".toList (.leaf leafKey (some [49]) .nil) .nil)), ["light".toList],
      [49], rfl, by decide, rfl, rfl⟩⟩

/-- The light in the hall goes off. -/
def darkRows : List Row := [⟨["hall".toList, "light".toList], some [48], 0⟩]

theorem produces_dark : Produces (split "hall/+".toList) darkRows := by
  refine (produces_iff_deliverable lights_includes.1 ⟨_, List.mem_cons_self, rfl⟩).mpr
    ⟨fun h => absurd h (by decide), fun topic data _ hlast => ?_, fun row hrow hin => ?_⟩
  · have hmem := LastWrite.mem_of_last hlast
    obtain ⟨-, rfl⟩ := Prod.mk.inj (List.mem_singleton.mp hmem)
    intro b hb
    cases hb
    decide
  · obtain rfl := List.mem_singleton.mp hrow
    exact absurd hin (by decide)

/-- The filter `hall/#` has the light in its snapshot and is not told when it goes off. -/
theorem dark_not_produced :
    Includes (split "hall/#".toList) lights ["hall".toList, "light".toList] ∧
      (∃ row ∈ darkRows, row.topic = ["hall".toList, "light".toList]) ∧
      ¬Produces (split "hall/#".toList) darkRows := by
  refine ⟨lights_includes.2, ⟨_, List.mem_cons_self, rfl⟩, fun h => ?_⟩
  obtain ⟨-, row, hrow, hmatch⟩ := (produces_iff _ _).mp h
  obtain rfl := List.mem_singleton.mp hrow
  exact absurd hmatch (by decide)

end MoteBroker.Live

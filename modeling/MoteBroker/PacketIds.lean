import MoteBroker.Exchanges

/-!
Which packet ids `next_packet_id` allocates.
-/

namespace MoteBroker.PacketIds

open MoteBroker.Exchanges

/-! ### The search -/

/-- The loop ends at the first id from its start on that is not in use. -/
lemma nextPacketIdFrom_some {used_ids : List ℕ} {turns i id : ℕ}
    (h : nextPacketIdFrom used_ids turns i = some id) :
    i ≤ id ∧ id < i + turns ∧ id ∉ used_ids ∧ ∀ j, i ≤ j → j < id → j ∈ used_ids := by
  induction turns generalizing i with
  | zero => cases h
  | succ turns ih =>
    unfold nextPacketIdFrom at h
    by_cases hi : i ∈ used_ids
    · rw [if_pos hi] at h
      obtain ⟨hle, hlt, hfree, hbefore⟩ := ih h
      refine ⟨by omega, by omega, hfree, fun j hij hj => ?_⟩
      rcases Nat.eq_or_lt_of_le hij with rfl | hij
      · exact hi
      · exact hbefore j hij hj
    · rw [if_neg hi] at h
      have hid : i = id := Option.some.inj h
      subst hid
      exact ⟨le_rfl, by omega, hi, fun j hij hj => by omega⟩

/-- It raises if there is none among the ids that it tries. -/
lemma nextPacketIdFrom_eq_none {used_ids : List ℕ} {turns i : ℕ} :
    nextPacketIdFrom used_ids turns i = none ↔ ∀ j, i ≤ j → j < i + turns → j ∈ used_ids := by
  constructor
  · intro h
    induction turns generalizing i with
    | zero =>
      intro j hij hj
      omega
    | succ turns ih =>
      unfold nextPacketIdFrom at h
      by_cases hi : i ∈ used_ids
      · rw [if_pos hi] at h
        intro j hij hj
        rcases Nat.eq_or_lt_of_le hij with rfl | hij
        · exact hi
        · exact ih h j hij (by omega)
      · rw [if_neg hi] at h
        cases h
  · intro hall
    cases h : nextPacketIdFrom used_ids turns i with
    | none => rfl
    | some id =>
      obtain ⟨hle, hlt, hfree, -⟩ := nextPacketIdFrom_some h
      exact absurd (hall id hle hlt) hfree

/-! ### Legal packet ids -/

/-- An id that is not in use and may stand in a packet, or none because all that may are in use. -/
def Allocated (used_ids : List ℕ) : Option ℕ → Prop
  | some id => id ∉ used_ids ∧ 1 ≤ id ∧ id ≤ 65535
  | none => ∀ id, 1 ≤ id → id ≤ 65535 → id ∈ used_ids

/-- The search starts at the id that no packet may have, and stops before the last one. -/
theorem allocated_nextPacketId_iff (h : Handler) :
    Allocated h.usedIds h.nextPacketId ↔
      0 ∈ h.usedIds ∧ (65535 ∈ h.usedIds ∨ ∃ id, 1 ≤ id ∧ id < 65535 ∧ id ∉ h.usedIds) := by
  unfold Handler.nextPacketId
  cases hnext : nextPacketIdFrom h.usedIds 65535 0 with
  | none =>
    have hall := nextPacketIdFrom_eq_none.mp hnext
    have hzero : 0 ∈ h.usedIds := hall 0 le_rfl (by omega)
    constructor
    · intro hused
      exact ⟨hzero, .inl (hused 65535 (by omega) le_rfl)⟩
    · rintro ⟨-, hlast | ⟨id, -, hlt, hfree⟩⟩
      · intro id hpos hle
        rcases Nat.eq_or_lt_of_le hle with rfl | hlt
        · exact hlast
        · exact hall id (Nat.zero_le id) (by omega)
      · exact absurd (hall id (Nat.zero_le id) (by omega)) hfree
  | some id =>
    obtain ⟨-, hlt, hfree, hbefore⟩ := nextPacketIdFrom_some hnext
    constructor
    · rintro ⟨-, hpos, -⟩
      exact ⟨hbefore 0 le_rfl (by omega), .inr ⟨id, hpos, by omega, hfree⟩⟩
    · rintro ⟨hzero, -⟩
      have hne : id ≠ 0 := by
        rintro rfl
        exact hfree hzero
      exact ⟨hfree, by omega, by omega⟩

/-- The first id of a connection is none that a packet may have. -/
theorem new_handler_allocates_zero : ¬Allocated Handler.new.usedIds Handler.new.nextPacketId := by
  rintro ⟨-, hpos, -⟩
  cases hpos

end MoteBroker.PacketIds

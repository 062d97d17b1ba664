import Mathlib.Data.List.Induction
import Mathlib.Tactic.Common

/-!
A store that batches of writes change one after the other, and a mirror of it that takes the
same batches later and perhaps in another order: what the mirror still lacks, and when it has
caught up.
-/

namespace Mirror

variable {κ ν : Type*}

/-- The values that a batch writes. -/
abbrev Batch (κ ν : Type*) := κ → Option ν

def Batch.apply (b : Batch κ ν) (m : κ → ν) (k : κ) : ν := (b k).getD (m k)

/-- The batch that writes one key. -/
def single [DecidableEq κ] (k : κ) (v : ν) : Batch κ ν := fun x => if x = k then some v else none

lemma single_ne_none [DecidableEq κ] {k x : κ} {v : ν} : single k v x ≠ none ↔ x = k := by
  unfold single
  split_ifs with h <;> simp [h]

lemma single_apply [DecidableEq κ] (k : κ) (v : ν) (m : κ → ν) :
    (single k v).apply m = Function.update m k v := by
  funext x
  rw [Function.update_apply]
  unfold Batch.apply single
  split_ifs <;> rfl

/-- Batches one after the other. -/
def applyAll (bs : List (Batch κ ν)) (m : κ → ν) : κ → ν := bs.foldl (fun m b => b.apply m) m

/-- Batch number `n` of the history is the last one that writes the key, and writes `v`. -/
def LastAt (H : List (Batch κ ν)) (n : ℕ) (k : κ) (v : ν) : Prop :=
  (∃ b, H[n]? = some b ∧ b k = some v) ∧ ∀ m b, n < m → H[m]? = some b → b k = none

lemma lastAt_append {H : List (Batch κ ν)} {c : Batch κ ν} {n : ℕ} {k : κ} {v : ν} :
    LastAt (H ++ [c]) n k v ↔
      (n = H.length ∧ c k = some v) ∨ (c k = none ∧ LastAt H n k v) := by
  have hlast : (H ++ [c])[H.length]? = some c := by simp
  have hold : ∀ m < H.length, (H ++ [c])[m]? = H[m]? := fun m hm =>
    List.getElem?_append_left hm
  refine ⟨?_, ?_⟩
  · rintro ⟨⟨b, hb, hv⟩, hlater⟩
    rcases Nat.lt_trichotomy n H.length with hn | rfl | hn
    · have hc := hlater _ _ hn hlast
      refine .inr ⟨hc, ⟨b, by rwa [← hold n hn], hv⟩, fun m d hm hd => hlater m d hm ?_⟩
      have hlt : m < H.length := (List.getElem?_eq_some_iff.mp hd).1
      rwa [hold m hlt]
    · rw [hlast] at hb
      cases hb
      exact .inl ⟨rfl, hv⟩
    · have : n < (H ++ [c]).length := (List.getElem?_eq_some_iff.mp hb).1
      rw [List.length_append, List.length_singleton] at this
      omega
  · rintro (⟨rfl, hv⟩ | ⟨hc, ⟨b, hb, hv⟩, hlater⟩)
    · refine ⟨⟨c, hlast, hv⟩, fun m d hm hd => ?_⟩
      have : m < (H ++ [c]).length := (List.getElem?_eq_some_iff.mp hd).1
      rw [List.length_append, List.length_singleton] at this
      omega
    · have hn : n < H.length := (List.getElem?_eq_some_iff.mp hb).1
      refine ⟨⟨b, by rwa [hold n hn], hv⟩, fun m d hm hd => ?_⟩
      by_cases hlt : m < H.length
      · exact hlater m d hm (by rwa [← hold m hlt])
      · have : m < (H ++ [c]).length := (List.getElem?_eq_some_iff.mp hd).1
        have hm : m = H.length := by
          rw [List.length_append, List.length_singleton] at this
          omega
        rw [hm, hlast] at hd
        cases hd
        exact hc

/-- A key that is written is written last by some batch. -/
lemma exists_lastAt {H : List (Batch κ ν)} {n : ℕ} {b : Batch κ ν} {k : κ} {v : ν}
    (hb : H[n]? = some b) (hv : b k = some v) : ∃ m w, n ≤ m ∧ LastAt H m k w := by
  induction H using List.reverseRecOn with
  | nil => simp at hb
  | append_singleton H c ih =>
    have hn : n < (H ++ [c]).length := (List.getElem?_eq_some_iff.mp hb).1
    rw [List.length_append, List.length_singleton] at hn
    cases hc : c k with
    | some w => exact ⟨H.length, w, by omega, lastAt_append.mpr (.inl ⟨rfl, hc⟩)⟩
    | none =>
      have hlt : n < H.length := by
        by_contra hge
        have hn : n = H.length := by omega
        have hlast : (H ++ [c])[H.length]? = some c := by simp
        rw [hn, hlast] at hb
        cases hb
        rw [hc] at hv
        cases hv
      rw [List.getElem?_append_left hlt] at hb
      obtain ⟨m, w, hm, hlastAt⟩ := ih hb
      exact ⟨m, w, hm, lastAt_append.mpr (.inr ⟨hc, hlastAt⟩)⟩

/-! ### The store -/

/-- The store holds what the batches have written last. -/
def Current (H : List (Batch κ ν)) (store : κ → ν) : Prop :=
  ∀ n k v, LastAt H n k v → store k = v

lemma current_nil (store : κ → ν) : Current ([] : List (Batch κ ν)) store := by
  rintro n k v ⟨⟨b, hb, -⟩, -⟩
  simp at hb

lemma Current.append {H : List (Batch κ ν)} {store : κ → ν} (h : Current H store)
    (c : Batch κ ν) : Current (H ++ [c]) (c.apply store) := by
  intro n k v hlast
  rcases lastAt_append.mp hlast with ⟨-, hv⟩ | ⟨hc, hlast⟩
  · simp [Batch.apply, hv]
  · simpa [Batch.apply, hc] using h n k v hlast

lemma Current.appendAll {H : List (Batch κ ν)} {store : κ → ν} (h : Current H store)
    (bs : List (Batch κ ν)) : Current (H ++ bs) (applyAll bs store) := by
  induction bs generalizing H store with
  | nil => rwa [List.append_nil]
  | cons b bs ih =>
    have := ih (h.append b)
    rwa [List.append_assoc, List.singleton_append] at this

/-! ### The mirror -/

/-- Where the mirror differs from the store, the batch that wrote the store last is pending. -/
def Behind (H : List (Batch κ ν)) (store mirror : κ → ν) (pending : ℕ → Prop) : Prop :=
  ∀ k, mirror k = store k ∨ ∃ n v, pending n ∧ LastAt H n k v

lemma behind_refl (H : List (Batch κ ν)) (store : κ → ν) (pending : ℕ → Prop) :
    Behind H store store pending := fun _ => .inl rfl

variable {H : List (Batch κ ν)} {store mirror : κ → ν} {pending : ℕ → Prop}

lemma Behind.mono {pending' : ℕ → Prop} (h : Behind H store mirror pending)
    (hle : ∀ n, pending n → pending' n) : Behind H store mirror pending' := fun k =>
  (h k).imp_right fun ⟨n, v, hn, hlast⟩ => ⟨n, v, hle n hn, hlast⟩

/-- A batch changes the store, and is pending. -/
lemma Behind.append (h : Behind H store mirror pending) (c : Batch κ ν)
    {pending' : ℕ → Prop} (hnew : pending' H.length) (hle : ∀ n, pending n → pending' n) :
    Behind (H ++ [c]) (c.apply store) mirror pending' := by
  intro k
  cases hc : c k with
  | some w => exact .inr ⟨H.length, w, hnew, lastAt_append.mpr (.inl ⟨rfl, hc⟩)⟩
  | none =>
    have hk : c.apply store k = store k := by simp [Batch.apply, hc]
    rw [hk]
    refine (h k).imp_right ?_
    rintro ⟨n, v, hn, hlast⟩
    exact ⟨n, v, hle n hn, lastAt_append.mpr (.inr ⟨hc, hlast⟩)⟩

lemma Behind.appendAll (h : Behind H store mirror pending) (bs : List (Batch κ ν))
    {pending' : ℕ → Prop} (hnew : ∀ j < bs.length, pending' (H.length + j))
    (hle : ∀ n, pending n → pending' n) :
    Behind (H ++ bs) (applyAll bs store) mirror pending' := by
  induction bs generalizing H store pending with
  | nil =>
    rw [List.append_nil]
    exact h.mono hle
  | cons b bs ih =>
    have hfirst := h.append b (hnew 0 (by simp)) hle
    have := ih hfirst (fun j hj => by
      rw [List.length_append, List.length_singleton, Nat.add_assoc, Nat.add_comm 1 j]
      exact hnew (j + 1) (by simpa using hj)) fun n hn => hn
    rwa [List.append_assoc, List.singleton_append] at this

/-- A batch after number `n` that writes the key is pending. -/
def Covered (H : List (Batch κ ν)) (pending : ℕ → Prop) (n : ℕ) (k : κ) : Prop :=
  ∃ m c, n < m ∧ pending m ∧ H[m]? = some c ∧ c k ≠ none

lemma LastAt.not_covered {n : ℕ} {k : κ} {v : ν} (h : LastAt H n k v) : ¬Covered H pending n k := by
  rintro ⟨m, c, hm, -, hc, hk⟩
  exact hk (h.2 m c hm hc)

/-- **The mirror takes a pending batch**, which is safe where every later batch that writes one
of its keys is pending or covered. -/
theorem Behind.deliver (h : Behind H store mirror pending) (hcur : Current H store) {n : ℕ}
    {b : Batch κ ν} (hb : H[n]? = some b)
    (hlater : ∀ k m c, b k ≠ none → n < m → H[m]? = some c → c k ≠ none →
      pending m ∨ Covered H pending m k) :
    Behind H store (b.apply mirror) fun m => pending m ∧ m ≠ n := by
  intro k
  cases hbk : b k with
  | none =>
    have hk : b.apply mirror k = mirror k := by simp [Batch.apply, hbk]
    rw [hk]
    refine (h k).imp_right ?_
    rintro ⟨m, v, hm, hlast⟩
    refine ⟨m, v, ⟨hm, fun e => ?_⟩, hlast⟩
    obtain ⟨c, hc, hv⟩ := hlast.1
    rw [e, hb] at hc
    cases hc
    rw [hbk] at hv
    cases hv
  | some w =>
    have hk : b.apply mirror k = w := by simp [Batch.apply, hbk]
    rw [hk]
    obtain ⟨m, v, hm, hlast⟩ := exists_lastAt hb hbk
    obtain ⟨c, hc, hv⟩ := hlast.1
    rcases Nat.eq_or_lt_of_le hm with rfl | hlt
    · have hvw : w = v := by
        rw [hb] at hc
        cases hc
        exact Option.some.inj (hbk.symm.trans hv)
      exact .inl (hvw.trans (hcur n k v hlast).symm)
    · have hpend : pending m := (hlater k m c (by simp [hbk]) hlt hc (by simp [hv])).resolve_right
        hlast.not_covered
      exact .inr ⟨m, v, ⟨hpend, by omega⟩, hlast⟩

/-- The mirror never takes a batch whose keys are all covered. -/
lemma Behind.skip (h : Behind H store mirror pending) {n : ℕ} {b : Batch κ ν}
    (hb : H[n]? = some b) (hcov : ∀ k, b k ≠ none → Covered H pending n k) :
    Behind H store mirror fun m => pending m ∧ m ≠ n := by
  intro k
  refine (h k).imp_right ?_
  rintro ⟨m, v, hm, hlast⟩
  refine ⟨m, v, ⟨hm, fun e => ?_⟩, hlast⟩
  subst e
  obtain ⟨c, hc, hv⟩ := hlast.1
  rw [hb] at hc
  cases hc
  exact hlast.not_covered (hcov k (by simp [hv]))

/-- The mirror takes a block of consecutive batches, all pending. -/
theorem Behind.deliverAll (h : Behind H store mirror pending) (hcur : Current H store)
    {bs : List (Batch κ ν)} {n : ℕ} (hb : ∀ j b, bs[j]? = some b → H[n + j]? = some b)
    (hown : ∀ j < bs.length, pending (n + j))
    (hlater : ∀ b ∈ bs, ∀ k m c, b k ≠ none → n + bs.length ≤ m → H[m]? = some c → c k ≠ none →
      pending m ∨ Covered H pending m k) :
    Behind H store (applyAll bs mirror) fun m =>
      pending m ∧ ¬(n ≤ m ∧ m < n + bs.length) := by
  induction bs generalizing n mirror pending with
  | nil => exact h.mono fun m hm => ⟨hm, by simp⟩
  | cons b bs ih =>
    have hfirst : H[n]? = some b := hb 0 b rfl
    have hnext : ∀ m, n < m → m < n + 1 + bs.length → pending m := fun m hlt hm => by
      have := hown (m - n) (by simp only [List.length_cons]; omega)
      rwa [show n + (m - n) = m by omega] at this
    have h₁ := h.deliver hcur hfirst fun k m c hk hlt hc hck => by
      by_cases hm : m < n + 1 + bs.length
      · exact .inl (hnext m hlt hm)
      · exact hlater b List.mem_cons_self k m c hk (by simp only [List.length_cons]; omega) hc hck
    have h₂ := @ih _ (fun m => pending m ∧ m ≠ n) h₁ (n + 1)
      (fun j c hj => by
        rw [show n + 1 + j = n + (j + 1) by omega]
        exact hb (j + 1) c hj)
      (fun j hj => ⟨hnext _ (by omega) (by omega), by omega⟩)
      (fun c hc k m d hk hm hd hdk => by
        have hle : n + (b :: bs).length ≤ m := by simp only [List.length_cons]; omega
        rcases hlater c (List.mem_cons_of_mem _ hc) k m d hk hle hd hdk with hp | ⟨l, e, hl, hp, he⟩
        · exact .inl ⟨hp, by omega⟩
        · exact .inr ⟨l, e, hl, ⟨hp, by omega⟩, he⟩)
    refine h₂.mono fun m hm => ⟨hm.1.1, ?_⟩
    have := hm.1.2
    have := hm.2
    simp only [List.length_cons]
    omega

/-- **Nothing pending, nothing lacking.** -/
theorem Behind.eq (h : Behind H store mirror pending) (hnone : ∀ n, ¬pending n) :
    mirror = store :=
  funext fun k => (h k).resolve_right fun ⟨n, _, hn, _⟩ => hnone n hn

end Mirror

import Mathlib.Data.List.Forall2
import Mathlib.Data.List.Induction
import Mathlib.Tactic.Ring

/-!
Readers of byte streams: what a reader takes off the front of its input, how readers compose,
and numbers in big-endian bytes.
-/

namespace ByteReader

/-- A reader takes bytes off the front of its input, or fails. -/
abbrev Reader (ε : Type) := StateT (List UInt8) (Except ε)

variable {ε α β : Type}

/-- Exactly `n` bytes, or the failure `eof`. -/
def take (eof : ε) (n : ℕ) : Reader ε (List UInt8) := fun bs =>
  if n ≤ bs.length then .ok (bs.take n, bs.drop n) else .error eof

/-- `n` bytes, or as many as there are. -/
def takeUpTo (n : ℕ) : Reader ε (List UInt8) := fun bs => .ok (bs.take n, bs.drop n)

def many (m : Reader ε α) : ℕ → Reader ε (List α)
  | 0 => pure []
  | n + 1 => do
    let a ← m
    let as ← many m n
    return a :: as

/-- Whatever follows them, the reader takes exactly the bytes `bs`, and returns `a`. -/
def Reads (m : Reader ε α) (bs : List UInt8) (a : α) : Prop :=
  ∀ rest, m.run (bs ++ rest) = .ok (a, rest)

lemma Reads.pure (a : α) : Reads (pure a : Reader ε α) [] a := fun _ => rfl

lemma Reads.bind {m : Reader ε α} {f : α → Reader ε β} {bs cs : List UInt8} {a : α} {b : β}
    (hm : Reads m bs a) (hf : Reads (f a) cs b) : Reads (m >>= f) (bs ++ cs) b := by
  intro rest
  rw [StateT.run_bind, List.append_assoc, hm (cs ++ rest)]
  exact hf rest

/-- The last reading of a block, after which nothing more is taken. -/
lemma Reads.bind_nil {m : Reader ε α} {f : α → Reader ε β} {bs : List UInt8} {a : α} {b : β}
    (hm : Reads m bs a) (hf : Reads (f a) [] b) : Reads (m >>= f) bs b := by
  have h := hm.bind hf
  rwa [List.append_nil] at h

lemma Reads.map {m : Reader ε α} (f : α → β) {bs : List UInt8} {a : α} (hm : Reads m bs a) :
    Reads (do return f (← m)) bs (f a) := hm.bind_nil (Reads.pure (f a))

/-- A computation that takes no bytes, before a reading. -/
lemma Reads.lift_bind {m : Except ε α} {f : α → Reader ε β} {bs : List UInt8} {a : α} {b : β}
    (hm : m = .ok a) (hf : Reads (f a) bs b) : Reads (liftM m >>= f) bs b := by
  subst hm
  intro rest
  exact hf rest

lemma reads_take (eof : ε) (bs : List UInt8) : Reads (take eof bs.length) bs bs := by
  intro rest
  have h : bs.length ≤ (bs ++ rest).length := by simp
  change (if bs.length ≤ (bs ++ rest).length then _ else _) = _
  rw [if_pos h, List.take_left, List.drop_left]

lemma reads_takeUpTo (bs : List UInt8) :
    Reads (takeUpTo bs.length : Reader ε (List UInt8)) bs bs := by
  intro rest
  change Except.ok ((bs ++ rest).take bs.length, (bs ++ rest).drop bs.length) = _
  rw [List.take_left, List.drop_left]

/-- Readings one after the other take the bytes one after the other. -/
theorem reads_many {m : Reader ε α} {as : List α} {bss : List (List UInt8)}
    (h : List.Forall₂ (fun a bs => Reads m bs a) as bss) :
    Reads (many m as.length) bss.flatten as := by
  induction h with
  | nil => exact Reads.pure []
  | @cons a bs as bss ha _ ih =>
    rw [List.flatten_cons]
    exact ha.bind (ih.map _)

/-! ### How many bytes a reader takes -/

lemma run_bind_ok {m : Reader ε α} {f : α → Reader ε β} {bs rest : List UInt8} {b : β}
    (h : (m >>= f).run bs = .ok (b, rest)) :
    ∃ a mid, m.run bs = .ok (a, mid) ∧ (f a).run mid = .ok (b, rest) := by
  rw [StateT.run_bind] at h
  cases hm : m.run bs with
  | error e => rw [hm] at h; cases h
  | ok r => rw [hm] at h; exact ⟨r.1, r.2, rfl, h⟩

lemma run_take_ok {eof : ε} {n : ℕ} {bs rest cs : List UInt8}
    (h : (take eof n).run bs = .ok (cs, rest)) : cs.length = n ∧ cs ++ rest = bs := by
  change (if n ≤ bs.length then _ else _) = _ at h
  split_ifs at h with hle
  cases h
  exact ⟨List.length_take_of_le hle, List.take_append_drop n bs⟩

lemma run_takeUpTo_ok {n : ℕ} {bs rest cs : List UInt8}
    (h : (takeUpTo n : Reader ε (List UInt8)).run bs = .ok (cs, rest)) :
    cs = bs.take n ∧ rest = bs.drop n := by
  cases h
  exact ⟨rfl, rfl⟩

/-- The reader leaves no more bytes than there were. -/
def Consumes (m : Reader ε α) : Prop :=
  ∀ bs a rest, m.run bs = .ok (a, rest) → rest.length ≤ bs.length

lemma Consumes.pure (a : α) : Consumes (pure a : Reader ε α) := fun _ _ _ h => by cases h; rfl

lemma consumes_takeUpTo (n : ℕ) : Consumes (takeUpTo n : Reader ε (List UInt8)) :=
  fun bs cs rest h => by
    rw [(run_takeUpTo_ok h).2, List.length_drop]
    exact Nat.sub_le _ _

lemma Consumes.bind {m : Reader ε α} {f : α → Reader ε β} (hm : Consumes m)
    (hf : ∀ a, Consumes (f a)) : Consumes (m >>= f) := by
  intro bs b rest h
  obtain ⟨a, mid, hrun, hnext⟩ := run_bind_ok h
  exact (hf a mid b rest hnext).trans (hm bs a mid hrun)

lemma run_liftM {m : Except ε α} {a : α} (h : m = .ok a) (bs : List UInt8) :
    (liftM m : Reader ε α).run bs = .ok (a, bs) := by
  subst h
  rfl

lemma run_liftM_ok {m : Except ε α} {bs rest : List UInt8} {a : α}
    (h : (liftM m : Reader ε α).run bs = .ok (a, rest)) : m = .ok a ∧ rest = bs := by
  cases m with
  | error e => cases h
  | ok a => cases h; exact ⟨rfl, rfl⟩

/-- From `bs` the reader takes `n` bytes and returns a value with `P`, or fails because there are
not so many. -/
structure Takes (m : Reader ε α) (bs : List UInt8) (n : ℕ) (P : α → Prop) : Prop where
  ok : n ≤ bs.length → ∃ a, m.run bs = .ok (a, bs.drop n) ∧ P a
  error : bs.length < n → ∃ e, m.run bs = .error e

lemma Takes.pure {P : α → Prop} {a : α} (bs : List UInt8) (h : P a) :
    Takes (pure a : Reader ε α) bs 0 P :=
  ⟨fun _ => ⟨a, rfl, h⟩, fun hlt => absurd hlt (Nat.not_lt_zero _)⟩

lemma takes_take (eof : ε) (n : ℕ) (bs : List UInt8) : Takes (take eof n) bs n (· = bs.take n) := by
  refine ⟨?_, ?_⟩
  · intro hle
    exact ⟨_, if_pos hle, rfl⟩
  · intro hlt
    exact ⟨eof, if_neg (by omega)⟩

lemma Takes.bind {m : Reader ε α} {f : α → Reader ε β} {bs : List UInt8} {n k : ℕ}
    {P : α → Prop} {Q : β → Prop} (hm : Takes m bs n P)
    (hf : ∀ a, P a → Takes (f a) (bs.drop n) k Q) : Takes (m >>= f) bs (n + k) Q := by
  refine ⟨?_, ?_⟩
  · intro hle
    obtain ⟨a, hrun, ha⟩ := hm.ok (by omega)
    obtain ⟨b, hnext, hb⟩ := (hf a ha).ok (by rw [List.length_drop]; omega)
    refine ⟨b, ?_, hb⟩
    rw [StateT.run_bind, hrun, ← List.drop_drop]
    exact hnext
  · intro hlt
    by_cases hle : n ≤ bs.length
    · obtain ⟨a, hrun, ha⟩ := hm.ok hle
      obtain ⟨e, hnext⟩ := (hf a ha).error (by rw [List.length_drop]; omega)
      exact ⟨e, by rw [StateT.run_bind, hrun]; exact hnext⟩
    · obtain ⟨e, hrun⟩ := hm.error (by omega)
      exact ⟨e, by rw [StateT.run_bind, hrun]; rfl⟩

/-- A reader that is followed by no more reading. -/
lemma Takes.map {m : Reader ε α} {f : α → Reader ε β} {bs : List UInt8} {n : ℕ} {P : α → Prop}
    {Q : β → Prop} (hm : Takes m bs n P) (hf : ∀ a, P a → Takes (f a) (bs.drop n) 0 Q) :
    Takes (m >>= f) bs n Q := hm.bind hf

/-- A computation that takes no bytes, before a reader. -/
lemma Takes.lift_bind {m : Except ε α} {f : α → Reader ε β} {bs : List UInt8} {n : ℕ} {a : α}
    {P : β → Prop} (hm : m = .ok a) (hf : Takes (f a) bs n P) : Takes (liftM m >>= f) bs n P := by
  subst hm
  exact ⟨hf.ok, hf.error⟩

/-! ### Big-endian numbers -/

def ofBE (bs : List UInt8) : ℕ := bs.foldl (fun n b => n * 256 + b.toNat) 0

/-- The lowest `size` bytes of a number, the highest of them first. -/
def toBE : ℕ → ℕ → List UInt8
  | 0, _ => []
  | size + 1, n => toBE size (n / 256) ++ [UInt8.ofNat (n % 256)]

@[simp] lemma length_toBE (size n : ℕ) : (toBE size n).length = size := by
  induction size generalizing n with
  | zero => rfl
  | succ size ih => simp [toBE, ih]

lemma ofBE_concat (bs : List UInt8) (b : UInt8) : ofBE (bs ++ [b]) = ofBE bs * 256 + b.toNat := by
  simp [ofBE]

lemma ofBE_append (bs cs : List UInt8) :
    ofBE (bs ++ cs) = ofBE bs * 256 ^ cs.length + ofBE cs := by
  induction cs using List.reverseRecOn with
  | nil => simp [ofBE]
  | append_singleton cs c ih =>
    rw [← List.append_assoc, ofBE_concat, ofBE_concat, ih, List.length_append,
      List.length_singleton, pow_succ]
    ring

lemma ofBE_lt (bs : List UInt8) : ofBE bs < 256 ^ bs.length := by
  induction bs using List.reverseRecOn with
  | nil => exact Nat.one_pos
  | append_singleton bs b ih =>
    have hb := b.toNat_lt
    rw [ofBE_concat, List.length_append, List.length_singleton, pow_succ]
    omega

theorem ofBE_toBE {size n : ℕ} (h : n < 256 ^ size) : ofBE (toBE size n) = n := by
  induction size generalizing n with
  | zero =>
    have : n = 0 := by simpa using h
    subst this; rfl
  | succ size ih =>
    have hdiv : n / 256 < 256 ^ size := by
      rw [Nat.div_lt_iff_lt_mul (by norm_num)]
      rwa [pow_succ] at h
    have hbyte : (UInt8.ofNat (n % 256)).toNat = n % 256 := by
      rw [UInt8.toNat_ofNat']
      omega
    rw [toBE, ofBE_concat, ih hdiv, hbyte]
    omega

/-- Bytes are the number that they stand for, in as many bytes. -/
theorem toBE_ofBE (bs : List UInt8) : toBE bs.length (ofBE bs) = bs := by
  induction bs using List.reverseRecOn with
  | nil => rfl
  | append_singleton bs b ih =>
    have hb := b.toNat_lt
    have hdiv : (ofBE bs * 256 + b.toNat) / 256 = ofBE bs := by omega
    have hmod : (ofBE bs * 256 + b.toNat) % 256 = b.toNat := by omega
    rw [List.length_append, List.length_singleton, ofBE_concat, toBE, hdiv, hmod, ih,
      UInt8.ofNat_toNat]

end ByteReader

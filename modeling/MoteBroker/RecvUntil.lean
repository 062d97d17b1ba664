import MoteBroker.Lib.Search
import MoteBroker.Socket

/-!
`recv_until`, which reads the handshake of a websocket: when it ends, and when it takes nothing
from the frames that follow.
-/

namespace MoteBroker.RecvUntil

open Search MoteBroker.Topics MoteBroker.Socket

/-- `data.decode()`. -/
def decode (data : Bytes) : Except Exc Str :=
  match Utf8.decode data with
  | some s => .ok s
  | none => .error .unicodeDecodeError

/-- The loop of `recv_until`, for as many turns: `none` if it has not ended by then. -/
def recvLoop (buf_size : ℕ) (edl : Bytes) : ℕ → Bytes → Receiver → Option (Bytes × Receiver)
  | 0, _, _ => none
  | turns + 1, data, r =>
    match find edl data with
    | some _ => some (data, r)
    | none => recvLoop buf_size edl turns (data ++ (r.recv buf_size).1) (r.recv buf_size).2

def recvUntil (turns buf_size : ℕ) (delimiter : Str) (r : Receiver) :
    Option (Except Exc Str × Receiver) :=
  (recvLoop buf_size (Utf8.encode delimiter) turns (r.recv buf_size).1 (r.recv buf_size).2).map
    fun (data, r) => (decode data, r)

/-- The text up to the first delimiter is returned and what comes after it left, and a stream
without the delimiter is an error. -/
structure TakesUntil (buf_size : ℕ) (delimiter : Str) (r : Receiver) : Prop where
  found : ∀ pre post, r.unread = pre ++ Utf8.encode delimiter ++ post →
    (∀ m < pre.length, ¬Utf8.encode delimiter <+: r.unread.drop m) →
    ∃ turns s r', recvUntil turns buf_size delimiter r = some (.ok s, r') ∧
      Utf8.encode s = pre ++ Utf8.encode delimiter ∧ r'.unread = post
  missing : ¬Utf8.encode delimiter <:+: r.unread →
    ∃ turns e r', recvUntil turns buf_size delimiter r = some (.error e, r')

/-! ### One `recv` after the other -/

/-- The bytes that `k` calls of `recv` return together, and the receiver after them. -/
def recvs (size : ℕ) : ℕ → Receiver → Bytes × Receiver
  | 0, r => ([], r)
  | k + 1, r => ((recvs size k r).1 ++ ((recvs size k r).2.recv size).1,
    ((recvs size k r).2.recv size).2)

lemma recvs_append (size k : ℕ) (r : Receiver) :
    (recvs size k r).1 ++ (recvs size k r).2.unread = r.unread := by
  induction k with
  | zero => rfl
  | succ k ih => rw [recvs, List.append_assoc, Receiver.recv_append, ih]

lemma recvs_unread (size k : ℕ) (r : Receiver) : (recvs size k r).1 <+: r.unread :=
  ⟨_, recvs_append size k r⟩

lemma recvs_mono (size : ℕ) (r : Receiver) {j k : ℕ} (h : j ≤ k) :
    (recvs size j r).1 <+: (recvs size k r).1 := by
  induction k, h using Nat.le_induction with
  | base => exact List.prefix_rfl
  | succ k _ ih => exact ih.trans (List.prefix_append _ _)

/-- Every `recv` returns something, until nothing is left. -/
lemma length_recvs {size : ℕ} (hsize : 0 < size) (k : ℕ) (r : Receiver) :
    min k r.unread.length ≤ (recvs size k r).1.length := by
  induction k with
  | zero => exact Nat.min_le_left _ _
  | succ k ih =>
    have hstream := congrArg List.length (recvs_append size k r)
    have hrecv : min 1 (recvs size k r).2.unread.length ≤
        ((recvs size k r).2.recv size).1.length := by
      unfold Receiver.recv
      split
      · rw [List.length_take]
        omega
      · rw [List.length_take]
        unfold clip
        omega
    rw [List.length_append] at hstream
    rw [recvs, List.length_append]
    omega

/-! ### The loop -/

/-- The loop ends after the first `recv` with which it has the delimiter. -/
lemma recvLoop_recvs {size : ℕ} {edl : Bytes} {r : Receiver} {turns k : ℕ}
    {out : Bytes × Receiver} :
    recvLoop size edl turns (recvs size k r).1 (recvs size k r).2 = some out ↔
      ∃ j, k ≤ j ∧ j < k + turns ∧ out = recvs size j r ∧
        (∃ n, find edl (recvs size j r).1 = some n) ∧
        ∀ i, k ≤ i → i < j → find edl (recvs size i r).1 = none := by
  induction turns generalizing k with
  | zero =>
    unfold recvLoop
    constructor
    · intro h
      cases h
    · rintro ⟨j, hkj, hj, -⟩
      omega
  | succ turns ih =>
    unfold recvLoop
    cases hfind : find edl (recvs size k r).1 with
    | some n =>
      dsimp only
      constructor
      · intro h
        cases h
        exact ⟨k, le_rfl, by omega, rfl, ⟨n, hfind⟩, fun i hki hik => by omega⟩
      · rintro ⟨j, hkj, -, rfl, -, hbefore⟩
        rcases Nat.eq_or_lt_of_le hkj with rfl | hlt
        · rfl
        · have := hbefore k le_rfl hlt
          rw [hfind] at this
          cases this
    | none =>
      have hturn : recvLoop size edl turns ((recvs size k r).1 ++ ((recvs size k r).2.recv size).1)
          ((recvs size k r).2.recv size).2 =
          recvLoop size edl turns (recvs size (k + 1) r).1 (recvs size (k + 1) r).2 := rfl
      dsimp only
      rw [hturn, ih]
      constructor
      · rintro ⟨j, hkj, hj, hout, hthere, hbefore⟩
        refine ⟨j, by omega, by omega, hout, hthere, fun i hki hij => ?_⟩
        rcases Nat.eq_or_lt_of_le hki with rfl | hlt
        · exact hfind
        · exact hbefore i hlt hij
      · rintro ⟨j, hkj, hj, hout, ⟨n, hthere⟩, hbefore⟩
        have hne : k ≠ j := by
          rintro rfl
          rw [hfind] at hthere
          cases hthere
        exact ⟨j, by omega, by omega, hout, ⟨n, hthere⟩, fun i hki hij => hbefore i (by omega) hij⟩

/-- What `recv_until` returns, if it returns. -/
lemma recvUntil_eq_some {turns size : ℕ} {delimiter : Str} {r r' : Receiver}
    {out : Except Exc Str} :
    recvUntil turns size delimiter r = some (out, r') ↔
      ∃ j, 1 ≤ j ∧ j < 1 + turns ∧ out = decode (recvs size j r).1 ∧ r' = (recvs size j r).2 ∧
        (∃ n, find (Utf8.encode delimiter) (recvs size j r).1 = some n) ∧
        ∀ i, 1 ≤ i → i < j → find (Utf8.encode delimiter) (recvs size i r).1 = none := by
  unfold recvUntil
  rw [Option.map_eq_some_iff]
  have hloop : ∀ out, recvLoop size (Utf8.encode delimiter) turns (r.recv size).1 (r.recv size).2 =
      some out ↔ _ := fun out => recvLoop_recvs (k := 1)
  constructor
  · rintro ⟨⟨data, r₁⟩, hout, heq⟩
    cases heq
    obtain ⟨j, hj, hlt, hrecvs, hthere, hbefore⟩ := (hloop _).mp hout
    obtain ⟨hdata, hr⟩ := Prod.mk.inj hrecvs
    exact ⟨j, hj, hlt, by rw [hdata], hr, hthere, hbefore⟩
  · rintro ⟨j, hj, hlt, hout, hr, hthere, hbefore⟩
    exact ⟨recvs size j r, (hloop _).mpr ⟨j, hj, hlt, rfl, hthere, hbefore⟩, by rw [hout, hr]⟩

/-- Without the delimiter it never returns. -/
lemma recvUntil_eq_none {delimiter : Str} {r : Receiver} (h : ¬Utf8.encode delimiter <:+: r.unread)
    (turns size : ℕ) : recvUntil turns size delimiter r = none := by
  cases hrun : recvUntil turns size delimiter r with
  | none => rfl
  | some out =>
    obtain ⟨j, -, -, -, -, ⟨n, hfind⟩, -⟩ := recvUntil_eq_some.mp hrun
    have hnone := find_eq_none.mpr h
    rw [find_mono (recvs_unread size j r) hfind] at hnone
    cases hnone

/-! ### What is taken -/

section
variable {size : ℕ} {delimiter : Str} {r : Receiver}

/-- The bytes up to and including the first delimiter, if there is one, are text, and one of the
calls of `recv` ends exactly behind it. -/
def EndsBehind (size : ℕ) (delimiter : Str) (r : Receiver) : Prop :=
  ∃ n, find (Utf8.encode delimiter) r.unread = some n ∧
    (Utf8.decode (r.unread.take (n + (Utf8.encode delimiter).length))).isSome ∧
    ∃ k, 1 ≤ k ∧ (recvs size k r).1 = r.unread.take (n + (Utf8.encode delimiter).length)

/-- Once a `recv` has brought the delimiter, the loop has ended, with that `recv` or before. -/
lemma exists_turns {n k : ℕ} (hk : 1 ≤ k)
    (hfind : find (Utf8.encode delimiter) (recvs size k r).1 = some n) :
    ∃ turns j, 1 ≤ j ∧ j ≤ k ∧ find (Utf8.encode delimiter) (recvs size j r).1 = some n ∧
      recvUntil turns size delimiter r = some (decode (recvs size j r).1, (recvs size j r).2) := by
  have hexists : ∃ j, 1 ≤ j ∧ find (Utf8.encode delimiter) (recvs size j r).1 ≠ none :=
    ⟨k, hk, by rw [hfind]; exact Option.some_ne_none n⟩
  obtain ⟨hpos, hne⟩ := Nat.find_spec hexists
  have hle : Nat.find hexists ≤ k :=
    Nat.find_min' hexists ⟨hk, by rw [hfind]; exact Option.some_ne_none n⟩
  have hbefore : ∀ i, 1 ≤ i → i < Nat.find hexists →
      find (Utf8.encode delimiter) (recvs size i r).1 = none := fun i hi hlt => by
    by_contra hne
    exact Nat.find_min hexists hlt ⟨hi, hne⟩
  generalize Nat.find hexists = j at hpos hne hle hbefore
  obtain ⟨m, hm⟩ := Option.ne_none_iff_exists'.mp hne
  have hsame := find_mono (recvs_mono size r hle) hm
  rw [hfind] at hsame
  have hj : find (Utf8.encode delimiter) (recvs size j r).1 = some n := hm.trans hsame.symm
  exact ⟨j, j, hpos, hle, hj,
    recvUntil_eq_some.mpr ⟨j, hpos, by omega, rfl, rfl, ⟨n, hj⟩, hbefore⟩⟩

/-- **The handshake reader ends** exactly if the delimiter comes. -/
theorem returns_iff (hsize : 0 < size) :
    (∃ turns out, recvUntil turns size delimiter r = some out) ↔
      Utf8.encode delimiter <:+: r.unread := by
  constructor
  · rintro ⟨turns, out, hrun⟩
    by_contra hno
    rw [recvUntil_eq_none hno] at hrun
    cases hrun
  · intro hin
    cases hfind : find (Utf8.encode delimiter) r.unread with
    | none => exact absurd hin (find_eq_none.mp hfind)
    | some n =>
      have hall : (recvs size (r.unread.length + 1) r).1 = r.unread := by
        have hlength := length_recvs hsize (r.unread.length + 1) r
        exact (recvs_unread size _ r).eq_of_length_le (by omega)
      obtain ⟨turns, j, -, -, -, hrun⟩ := exists_turns (k := r.unread.length + 1) (n := n)
        (by omega) (by rw [hall]; exact hfind)
      exact ⟨turns, _, hrun⟩

/-- What has been returned was text, and the last `recv` had ended behind it. -/
lemma TakesUntil.endsBehind (h : TakesUntil size delimiter r) : EndsBehind size delimiter r := by
  cases hfind : find (Utf8.encode delimiter) r.unread with
  | none =>
    have hno := find_eq_none.mp hfind
    obtain ⟨turns, e, r', hrun⟩ := h.missing hno
    rw [recvUntil_eq_none hno] at hrun
    cases hrun
  | some n =>
    obtain ⟨pre, post, hstream, rfl⟩ := append_of_find hfind
    obtain ⟨turns, s, r', hrun, hs, -⟩ := h.found pre post hstream (find_spec hfind).2
    obtain ⟨j, hj, -, hdecode, -, -, -⟩ := recvUntil_eq_some.mp hrun
    have hdata : Utf8.decode (recvs size j r).1 = some s := by
      unfold decode at hdecode
      split at hdecode
      case h_1 s' hs' =>
        cases hdecode
        exact hs'
      case h_2 => cases hdecode
    have hrecvs : (recvs size j r).1 =
        r.unread.take (pre.length + (Utf8.encode delimiter).length) := by
      rw [← Utf8.encode_of_decode hdata, hs, hstream, ← List.length_append, List.take_left]
    exact ⟨pre.length, hfind, by rw [← hrecvs, hdata]; rfl, j, hj, hrecvs⟩

/-- The loop cannot end before the delimiter is complete, nor after a `recv` that ends behind it. -/
lemma EndsBehind.takesUntil (h : EndsBehind size delimiter r) : TakesUntil size delimiter r := by
  obtain ⟨n, hfind, htext, k, hk, hbehind⟩ := h
  refine ⟨fun pre post hstream hfirst => ?_, fun hno => ?_⟩
  · rw [hstream] at hfirst
    have hpre := find_append hfirst
    rw [← hstream, hfind] at hpre
    obtain rfl := Option.some.inj hpre
    have htake : r.unread.take (pre.length + (Utf8.encode delimiter).length) =
        pre ++ Utf8.encode delimiter := by
      rw [hstream, ← List.length_append, List.take_left]
    have hthere : find (Utf8.encode delimiter) (recvs size k r).1 = some pre.length := by
      rw [hbehind]
      exact find_take hfind
    obtain ⟨turns, j, -, hjk, hj, hrun⟩ := exists_turns hk hthere
    have hdata : (recvs size j r).1 = pre ++ Utf8.encode delimiter := by
      rw [← htake, ← hbehind]
      refine (recvs_mono size r hjk).eq_of_length_le ?_
      rw [hbehind, List.length_take]
      exact (Nat.min_le_left _ _).trans (find_le hj)
    rw [htake] at htext
    obtain ⟨s, hs⟩ := Option.isSome_iff_exists.mp htext
    have hleft := recvs_append size j r
    rw [hdata, hstream] at hleft
    refine ⟨turns, s, _, ?_, Utf8.encode_of_decode hs, List.append_cancel_left hleft⟩
    rw [hrun, hdata, decode, hs]
  · rw [find_eq_none.mpr hno] at hfind
    cases hfind

end

/-- **When the handshake reader takes only the handshake.** It returns the text up to the first
delimiter and leaves the rest exactly if that is text and one `recv` ends behind it; a stream
without the delimiter is no error, for it never returns. -/
theorem takesUntil_iff (size : ℕ) (delimiter : Str) (r : Receiver) :
    TakesUntil size delimiter r ↔ EndsBehind size delimiter r :=
  ⟨TakesUntil.endsBehind, EndsBehind.takesUntil⟩

example : EndsBehind 1024 "\r\n".toList ⟨[71, 69, 84, 13, 10, 130, 0], [5]⟩ :=
  ⟨3, by decide, by decide, 1, le_rfl, by decide⟩

/-- A peer that sends three bytes and closes the connection is waited for without an end. -/
theorem closed_not_takesUntil : ¬TakesUntil 1024 "\r\n\r\n".toList ⟨[71, 69, 84], []⟩ := by
  intro htakes
  have hno : ¬Utf8.encode "\r\n\r\n".toList <:+: [71, 69, 84] := by decide
  obtain ⟨turns, e, r', hrun⟩ := htakes.missing hno
  rw [recvUntil_eq_none hno] at hrun
  cases hrun

end MoteBroker.RecvUntil

import MoteBroker.Lib.ByteReader

/-!
Decoders that ask a transport for bytes, so many at a time: what they ask for, what they make of
a stream of bytes, and that they make the same of every transport that carries the stream.
-/

namespace ByteReader

/-- A decoder returns, raises, or asks for so many bytes and goes on with them. -/
inductive ReadTree (ε α : Type)
  | pure (a : α)
  | throw (e : ε)
  | read (n : ℕ) (next : List UInt8 → ReadTree ε α)

namespace ReadTree

variable {ε α β σ : Type}

/-- The decoder as a reader of a stream, which fails with `eof` where the stream ends. -/
def onStream (eof : ε) : ReadTree ε α → Reader ε α
  | .pure a => Pure.pure a
  | .throw e => MonadExcept.throw e
  | .read n next => take eof n >>= fun bs => (next bs).onStream eof

/-- The decoder over a transport with the state `σ`. -/
def runOn (read : ℕ → σ → Except ε (List UInt8) × σ) : ReadTree ε α → σ → Except ε α × σ
  | .pure a, s => (.ok a, s)
  | .throw e, s => (.error e, s)
  | .read n next, s =>
    match read n s with
    | (.ok bs, s) => (next bs).runOn read s
    | (.error e, s) => (.error e, s)

/-- How many bytes the decoder asks the stream for, one time after the other, as long as there are
so many. -/
def sizes : ReadTree ε α → List UInt8 → List ℕ
  | .pure _, _ | .throw _, _ => []
  | .read n next, bs =>
    if n ≤ bs.length then n :: (next (bs.take n)).sizes (bs.drop n) else []

protected def bind : ReadTree ε α → (α → ReadTree ε β) → ReadTree ε β
  | .pure a, f => f a
  | .throw e, _ => .throw e
  | .read n next, f => .read n fun bs => (next bs).bind f

lemma onStream_bind (eof : ε) (t : ReadTree ε α) (f : α → ReadTree ε β) :
    (t.bind f).onStream eof = t.onStream eof >>= fun a => (f a).onStream eof := by
  induction t with
  | pure a => rfl
  | throw e => rfl
  | read n next ih =>
    have hnext : (fun bs => ((next bs).bind f).onStream eof) =
        fun bs => (next bs).onStream eof >>= fun a => (f a).onStream eof := funext ih
    change take eof n >>= (fun bs => ((next bs).bind f).onStream eof) =
      (take eof n >>= fun bs => (next bs).onStream eof) >>= fun a => (f a).onStream eof
    rw [hnext, bind_assoc]

lemma onStream_read_ok {eof : ε} {n : ℕ} {next : List UInt8 → ReadTree ε α} {bs : List UInt8}
    (h : n ≤ bs.length) : ((ReadTree.read n next).onStream eof).run bs =
      ((next (bs.take n)).onStream eof).run (bs.drop n) := by
  change (take eof n >>= _).run bs = _
  have htake : (take eof n).run bs = .ok (bs.take n, bs.drop n) := if_pos h
  rw [StateT.run_bind, htake]
  rfl

lemma onStream_read_error {eof : ε} {n : ℕ} {next : List UInt8 → ReadTree ε α} {bs : List UInt8}
    (h : bs.length < n) : ((ReadTree.read n next).onStream eof).run bs = .error eof := by
  change (take eof n >>= _).run bs = _
  have htake : (take eof n).run bs = .error eof := if_neg (Nat.not_le.mpr h)
  rw [StateT.run_bind, htake]
  rfl

/-- A transport in a state `s` with `R s bs` carries the stream `bs`: it gives what it is asked
for while it lasts, and then fails. -/
structure Carries (read : ℕ → σ → Except ε (List UInt8) × σ) (R : σ → List UInt8 → Prop) :
    Prop where
  gives : ∀ n s bs, R s bs → n ≤ bs.length →
    ∃ s', read n s = (.ok (bs.take n), s') ∧ R s' (bs.drop n)
  ends : ∀ n s bs, R s bs → bs.length < n → ∃ e s', read n s = (.error e, s')

/-- The result is that on the stream, and what the transport then carries is what is left. -/
def Agrees (R : σ → List UInt8 → Prop) : Except ε α × σ → Except ε (α × List UInt8) → Prop
  | (.ok a, s), .ok (b, rest) => a = b ∧ R s rest
  | (.error _, _), .error _ => True
  | _, _ => False

/-- **A decoder makes of a transport what it makes of the stream that the transport carries.** -/
theorem Carries.agrees {read : ℕ → σ → Except ε (List UInt8) × σ} {R : σ → List UInt8 → Prop}
    (hc : Carries read R) (eof : ε) (t : ReadTree ε α) {s : σ} {bs : List UInt8} (hs : R s bs) :
    Agrees R (t.runOn read s) ((t.onStream eof).run bs) := by
  induction t generalizing s bs with
  | pure a => exact ⟨rfl, hs⟩
  | throw e => trivial
  | read n next ih =>
    by_cases hn : n ≤ bs.length
    · obtain ⟨s', hread, hs'⟩ := hc.gives n s bs hs hn
      rw [onStream_read_ok hn, runOn, hread]
      exact ih _ hs'
    · obtain ⟨e, s', hread⟩ := hc.ends n s bs hs (Nat.not_le.mp hn)
      rw [onStream_read_error (Nat.not_le.mp hn), runOn, hread]
      trivial

end ReadTree

/-- A reader of a stream that takes its bytes by asking for them: the decoder that it is. -/
structure Decoder {ε α : Type} (eof : ε) (m : Reader ε α) where
  tree : ReadTree ε α
  onStream_tree : tree.onStream eof = m

namespace Decoder

variable {ε α β : Type} {eof : ε}

protected def pure (a : α) : Decoder eof (Pure.pure a : Reader ε α) := ⟨.pure a, rfl⟩

protected def throw (e : ε) : Decoder eof (MonadExcept.throw e : Reader ε α) := ⟨.throw e, rfl⟩

protected def take (n : ℕ) : Decoder eof (take eof n) :=
  ⟨.read n .pure, by
    change (ByteReader.take eof n >>= fun bs => Pure.pure bs) = _
    exact bind_pure _⟩

/-- One decoder after the other. -/
protected def bind {m : Reader ε α} {f : α → Reader ε β} (d : Decoder eof m)
    (next : ∀ a, Decoder eof (f a)) : Decoder eof (m >>= f) where
  tree := d.tree.bind fun a => (next a).tree
  onStream_tree := by
    rw [ReadTree.onStream_bind, d.onStream_tree]
    exact congrArg (m >>= ·) (funext fun a => (next a).onStream_tree)

/-- A computation that takes no bytes. -/
protected def lift (x : Except ε α) : Decoder eof (liftM x : Reader ε α) :=
  match x with
  | .ok a => ⟨.pure a, rfl⟩
  | .error e => ⟨.throw e, rfl⟩

protected def ite {m m' : Reader ε α} (p : Prop) [Decidable p] (d : Decoder eof m)
    (d' : Decoder eof m') : Decoder eof (if p then m else m') where
  tree := if p then d.tree else d'.tree
  onStream_tree := by
    split_ifs
    · exact d.onStream_tree
    · exact d'.onStream_tree

protected def many {m : Reader ε α} (d : Decoder eof m) : ∀ k, Decoder eof (many m k)
  | 0 => .pure []
  | k + 1 => .bind d fun _ => .bind (d.many k) fun _ => .pure _

end Decoder

end ByteReader

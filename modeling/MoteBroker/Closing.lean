import MoteBroker.Websocket

/-!
Any bytes on a websocket: what `WebsocketHandler` reads of them, and how the reading ends.
-/

namespace MoteBroker.Closing

open ByteReader MoteBroker.Topics MoteBroker.Frames MoteBroker.Websocket

/-! ### The frames of any bytes -/

/-- How the frames that keep a connection alive come to an end. -/
inductive Ending
  /-- The stream ends before the header of another. -/
  | broken
  /-- A frame for which the connection is ended, and what stands behind it. -/
  | closed (frame : Frame) (rest : Bytes)
  deriving DecidableEq

def Goes (f : Frame) : Prop := IsData f ∨ f.opcode = opPing ∨ f.opcode = opPong

instance decGoes : DecidablePred Goes := fun f =>
  inferInstanceAs (Decidable (IsData f ∨ f.opcode = opPing ∨ f.opcode = opPong))

/-- The frames up to the ending. -/
def incoming (bs : Bytes) : List Frame × Ending :=
  match _h : recv.run bs with
  | .error _ => ([], .broken)
  | .ok (frame, rest) =>
    if Goes frame then (frame :: (incoming rest).1, (incoming rest).2)
    else ([], .closed frame rest)
termination_by bs.length
decreasing_by all_goals exact recv_shorter _h

/-- The last frame of a message. -/
def Whole (f : Frame) : Prop := IsData f ∧ f.fin = true

instance decWhole : DecidablePred Whole := fun f =>
  inferInstanceAs (Decidable (IsData f ∧ f.fin = true))

/-- The data of the messages that are whole. -/
def delivered : List Frame → Bytes
  | [] => []
  | f :: fs => if ∃ g ∈ f :: fs, Whole g then dataOf [f] ++ delivered fs else []

def pongs (fs : List Frame) : List Bytes := (pinged fs).map pong

/-- What is sent when the connection is ended. -/
def Ending.answer : Ending → List Bytes
  | .broken => []
  | .closed frame _ =>
    if frame.opcode = opClose ∧ frame.fin = true then
      [(⟨opClose, true, false, []⟩ : Frame).bytes]
    else []

/-- What is left on the socket behind the frame that has ended the connection. -/
def Ending.Left : Ending → Bytes → Prop
  | .broken, bs => bs.length < 2
  | .closed _ rest, bs => bs = rest

def Ending.alive : Ending → Bool
  | .broken => true
  | .closed _ _ => false

/-- The handler has come to the ending of the bytes, and has answered all that is to be answered. -/
structure Ended (fs : List Frame) (ending : Ending) (sent : List Bytes) (ws : Handler) : Prop where
  sent_eq : ws.sent = sent ++ pongs fs ++ ending.answer
  alive_eq : ws.alive = ending.alive
  left : ending.Left ws.unread

/-! ### One turn -/

section
variable {bs rest : Bytes} {f : Frame} {fs gs : List Frame}

lemma incoming_error {e : Exc} (h : recv.run bs = .error e) : incoming bs = ([], .broken) := by
  unfold incoming
  split
  case h_1 => rfl
  case h_2 hok =>
    rw [h] at hok
    cases hok

lemma incoming_ok (h : recv.run bs = .ok (f, rest)) :
    incoming bs = if Goes f then (f :: (incoming rest).1, (incoming rest).2)
      else ([], .closed f rest) := by
  rw [incoming]
  split
  case h_1 he =>
    rw [h] at he
    cases he
  case h_2 hok =>
    rw [h] at hok
    cases hok
    rfl

lemma pongs_append (fs gs : List Frame) : pongs (fs ++ gs) = pongs fs ++ pongs gs := by
  simp [pongs, pinged_append]

lemma pongs_ping (h : f.opcode = opPing) : pongs [f] = [pong f.payload] := by
  simp [pongs, pinged_ping h]

lemma pongs_other (h : f.opcode ≠ opPing) : pongs [f] = [] := by
  simp [pongs, pinged_other h]

lemma delivered_of_whole (h : ∃ g ∈ f :: fs, Whole g) :
    delivered (f :: fs) = dataOf [f] ++ delivered fs := if_pos h

lemma delivered_of_none (h : ¬∃ g ∈ fs, Whole g) : delivered fs = [] := by
  cases fs with
  | nil => rfl
  | cons f fs => exact if_neg h

end

/-- The handler when it has read one more frame that keeps the connection alive. -/
def after (ws : Handler) (f : Frame) (rest : Bytes) : Handler :=
  { ws with unread := rest, sent := ws.sent ++ pongs [f] }

/-- A turn of the loop of `read_frames`: the ending, or a frame, with which it returns or not. -/
inductive Turn (ws : Handler) (buf : Bytes) : Prop
  | ended {e : Exc} {ending : Ending} {ws' : Handler} (hin : incoming ws.unread = ([], ending))
    (hends : Ended [] ending ws.sent ws') (hread : readFrames ws buf = (.error e, ws'))
  | goes {f : Frame} {rest : Bytes} (hlt : rest.length < ws.unread.length)
    (hin : incoming ws.unread = (f :: (incoming rest).1, (incoming rest).2))
    (hread : readFrames ws buf = if Whole f then (.ok (buf ++ dataOf [f]), after ws f rest)
      else readFrames (after ws f rest) (buf ++ dataOf [f]))

section
variable {ws : Handler}

lemma turn (halive : ws.alive = true) (buf : Bytes) : Turn ws buf := by
  cases hrecv : recv.run ws.unread with
  | error e =>
    refine @Turn.ended ws buf e _ ws (incoming_error hrecv)
      ⟨?_, halive, (recv_error_iff _).mp ⟨e, hrecv⟩⟩ ?_
    · simp [pongs, pinged, Ending.answer]
    · rw [readFrames, if_pos halive]
      split
      case h_1 e' he' =>
        rw [hrecv] at he'
        cases he'
        rfl
      case h_2 hok =>
        rw [hrecv] at hok
        cases hok
  | ok r =>
    obtain ⟨f, rest⟩ := r
    have hturn := readFrames_turn halive hrecv buf
    have hin := incoming_ok hrecv
    by_cases hdata : IsData f
    · have hping : f.opcode ≠ opPing := by
        rintro h
        rcases hdata with hop | hop <;> rw [hop] at h <;> cases h
      have hgoes : Goes f := .inl hdata
      rw [if_pos hgoes] at hin
      refine .goes (recv_shorter hrecv) hin ?_
      have hop : f.opcode = opBytes ∨ f.opcode = opContinuation := hdata
      rw [hturn, if_pos hop, dataOf_data hdata, after, pongs_other hping, List.append_nil]
      by_cases hfin : f.fin = true
      · have hwhole : Whole f := ⟨hdata, hfin⟩
        rw [if_pos hfin, if_pos hwhole]
      · have hpart : ¬Whole f := fun h => hfin h.2
        rw [if_neg hfin, if_neg hpart]
    · have hpart : ¬Whole f := fun h => hdata h.1
      have hop : ¬(f.opcode = opBytes ∨ f.opcode = opContinuation) := hdata
      rw [if_neg hop] at hturn
      by_cases hcontrol : f.opcode = opPing ∨ f.opcode = opPong
      · have hgoes : Goes f := .inr hcontrol
        rw [if_pos hgoes] at hin
        refine .goes (recv_shorter hrecv) hin ?_
        rw [if_neg hpart, dataOf_control hdata, List.append_nil, hturn]
        rcases hcontrol with hping | hpong
        · rw [if_neg (by rw [hping]; decide), if_pos hping, after, pongs_ping hping]
          rfl
        · have hne : f.opcode ≠ opPing := by rw [hpong]; decide
          rw [if_neg (by rw [hpong]; decide), if_neg hne, if_pos hpong, after, pongs_other hne,
            List.append_nil]
      · have hends : ¬Goes f := fun h => h.elim hdata hcontrol
        rw [if_neg hends] at hin
        obtain ⟨hping, hpong⟩ := not_or.mp hcontrol
        rw [if_neg hping, if_neg hpong] at hturn
        by_cases hclose : f.opcode = opClose ∧ f.fin = true
        · rw [if_pos hclose.1, if_pos hclose.2] at hturn
          refine @Turn.ended ws buf .typeError _
            { ws with unread := rest, alive := false, sent := ws.sent ++ _ } hin ⟨?_, rfl, rfl⟩
            hturn
          rw [Ending.answer, if_pos hclose]
          simp [pongs, pinged]
        · have hsilent : (if f.opcode = opClose then
              (if f.fin = true then ({ ws with unread := rest } : Handler).sendClose
                else { ws with unread := rest }).endConnection
              else ({ ws with unread := rest } : Handler).endConnection) =
              ((.error .typeError, { ws with unread := rest, alive := false }) :
                Except Exc Bytes × Handler) := by
            by_cases hop : f.opcode = opClose
            · rw [if_pos hop, if_neg fun hfin => hclose ⟨hop, hfin⟩]
              rfl
            · rw [if_neg hop]
              rfl
          refine @Turn.ended ws buf .typeError _ { ws with unread := rest, alive := false } hin
            ⟨?_, rfl, rfl⟩ (hturn.trans hsilent)
          rw [Ending.answer, if_neg hclose]
          simp [pongs, pinged]

/-- The handler has read these frames. -/
structure Took (ws : Handler) (taken : List Frame) (ws' : Handler) : Prop where
  incoming_eq : incoming ws.unread =
    (taken ++ (incoming ws'.unread).1, (incoming ws'.unread).2)
  alive : ws'.alive = true
  buf_eq : ws'.buf = ws.buf
  sent_eq : ws'.sent = ws.sent ++ pongs taken

/-- `read_frames` takes the frames to the end of a message that is whole. -/
lemma readFrames_whole (halive : ws.alive = true)
    (hwhole : ∃ g ∈ (incoming ws.unread).1, Whole g) (buf : Bytes) :
    ∃ taken ws', Took ws taken ws' ∧ readFrames ws buf = (.ok (buf ++ dataOf taken), ws') ∧
      delivered (incoming ws.unread).1 = dataOf taken ++ delivered (incoming ws'.unread).1 := by
  induction hn : ws.unread.length using Nat.strong_induction_on generalizing ws buf with
  | _ n ih =>
    subst hn
    cases turn halive buf with
    | ended hin =>
      rw [hin] at hwhole
      obtain ⟨g, hg, -⟩ := hwhole
      cases hg
    | @goes f rest hlt hin hread =>
      by_cases hf : Whole f
      · rw [if_pos hf] at hread
        refine ⟨[f], after ws f rest, ⟨hin, halive, rfl, rfl⟩, hread, ?_⟩
        rw [hin]
        exact delivered_of_whole ⟨f, List.mem_cons_self, hf⟩
      · rw [if_neg hf] at hread
        have hlater : ∃ g ∈ (incoming rest).1, Whole g := by
          rw [hin] at hwhole
          obtain ⟨g, hg, hgw⟩ := hwhole
          rcases List.mem_cons.mp hg with rfl | hg
          · exact absurd hgw hf
          · exact ⟨g, hg, hgw⟩
        obtain ⟨taken, ws', htook, hnext, hdelivered⟩ :=
          @ih _ hlt (after ws f rest) halive hlater (buf ++ dataOf [f]) rfl
        refine ⟨f :: taken, ws', ⟨?_, htook.alive, htook.buf_eq, ?_⟩, ?_, ?_⟩
        · have hrest : incoming rest = _ := htook.incoming_eq
          rw [hin, hrest]
          rfl
        · rw [htook.sent_eq, after, List.append_assoc, ← pongs_append]
          rfl
        · rw [hread, hnext, List.append_assoc, ← dataOf_append]
          rfl
        · have hrest : delivered (incoming rest).1 = _ := hdelivered
          rw [hin, delivered_of_whole (by rwa [hin] at hwhole), hrest, ← List.append_assoc,
            ← dataOf_append]
          rfl

/-- Without one it reads on to the ending. -/
lemma readFrames_ended (halive : ws.alive = true)
    (hwhole : ¬∃ g ∈ (incoming ws.unread).1, Whole g) (buf : Bytes) :
    ∃ e ws', readFrames ws buf = (.error e, ws') ∧
      Ended (incoming ws.unread).1 (incoming ws.unread).2 ws.sent ws' := by
  induction hn : ws.unread.length using Nat.strong_induction_on generalizing ws buf with
  | _ n ih =>
    subst hn
    cases turn halive buf with
    | @ended e ending ws' hin hends hread => exact ⟨e, ws', hread, by rwa [hin]⟩
    | @goes f rest hlt hin hread =>
      have hf : ¬Whole f := fun hf => hwhole ⟨f, by rw [hin]; exact List.mem_cons_self, hf⟩
      rw [if_neg hf] at hread
      have hlater : ¬∃ g ∈ (incoming rest).1, Whole g := fun ⟨g, hg, hgw⟩ =>
        hwhole ⟨g, by rw [hin]; exact List.mem_cons_of_mem _ hg, hgw⟩
      obtain ⟨e, ws', hnext, hends⟩ :=
        @ih _ hlt (after ws f rest) halive hlater (buf ++ dataOf [f]) rfl
      refine ⟨e, ws', hread.trans hnext, ?_, ?_, ?_⟩
      · rw [hends.sent_eq, hin]
        simp only [after, List.append_assoc]
        rw [← List.append_assoc (pongs [f]), ← pongs_append]
        rfl
      · rw [hin]
        exact hends.alive_eq
      · rw [hin]
        exact hends.left

/-! ### The loops -/

lemma Took.refl (halive : ws.alive = true) : Took ws [] ws :=
  ⟨rfl, halive, rfl, by simp [pongs, pinged]⟩

lemma Took.trans {ws₁ ws₂ ws₃ : Handler} {fs gs : List Frame} (h : Took ws₁ fs ws₂)
    (h' : Took ws₂ gs ws₃) : Took ws₁ (fs ++ gs) ws₃ where
  incoming_eq := by rw [h.incoming_eq, h'.incoming_eq, List.append_assoc]
  alive := h'.alive
  buf_eq := h'.buf_eq.trans h.buf_eq
  sent_eq := by rw [h'.sent_eq, h.sent_eq, pongs_append, List.append_assoc]

lemma Took.ended {ws₁ ws₂ ws₃ : Handler} {fs : List Frame} (h : Took ws₁ fs ws₂)
    (h' : Ended (incoming ws₂.unread).1 (incoming ws₂.unread).2 ws₂.sent ws₃) :
    Ended (incoming ws₁.unread).1 (incoming ws₁.unread).2 ws₁.sent ws₃ := by
  rw [h.incoming_eq]
  refine ⟨?_, h'.alive_eq, h'.left⟩
  rw [h'.sent_eq, h.sent_eq, pongs_append, ← List.append_assoc ws₁.sent]

/-- The loop of `read` takes whole messages until it has enough. -/
lemma readLoop_enough {n : ℕ} (halive : ws.alive = true) {buffer : Bytes}
    (hn : n ≤ (buffer ++ delivered (incoming ws.unread).1).length) :
    ∃ taken ws', Took ws taken ws' ∧ n ≤ (buffer ++ dataOf taken).length ∧
      readLoop n ws buffer = (.ok (buffer ++ dataOf taken), ws') ∧
      delivered (incoming ws.unread).1 = dataOf taken ++ delivered (incoming ws'.unread).1 := by
  induction hlen : ws.unread.length using Nat.strong_induction_on generalizing ws buffer with
  | _ k ih =>
    subst hlen
    by_cases hlt : buffer.length < n
    · have hwhole : ∃ g ∈ (incoming ws.unread).1, Whole g := by
        by_contra hno
        rw [delivered_of_none hno, List.append_nil] at hn
        omega
      obtain ⟨taken, ws₁, htook, hread, hdelivered⟩ := readFrames_whole halive hwhole buffer
      rw [hdelivered, ← List.append_assoc] at hn
      obtain ⟨more, ws₂, hmore, hle, hloop, hrest⟩ :=
        @ih _ (readFrames_shorter hread) ws₁ htook.alive _ hn rfl
      refine ⟨taken ++ more, ws₂, htook.trans hmore, ?_, ?_, ?_⟩
      · rwa [dataOf_append, ← List.append_assoc]
      · rw [readLoop, if_pos hlt]
        split
        case h_1 heq =>
          rw [hread] at heq
          cases heq
        case h_2 heq =>
          rw [hread] at heq
          cases heq
          rw [hloop, dataOf_append, List.append_assoc]
      · rw [hdelivered, hrest, dataOf_append, List.append_assoc]
    · refine ⟨[], ws, .refl halive, by simpa [dataOf] using hlt, ?_, rfl⟩
      rw [readLoop, if_neg hlt]
      simp [dataOf]

/-- If there is not enough it comes to the ending. -/
lemma readLoop_ended {n : ℕ} (halive : ws.alive = true) {buffer : Bytes}
    (hn : (buffer ++ delivered (incoming ws.unread).1).length < n) :
    ∃ e ws', readLoop n ws buffer = (.error e, ws') ∧
      Ended (incoming ws.unread).1 (incoming ws.unread).2 ws.sent ws' := by
  induction hlen : ws.unread.length using Nat.strong_induction_on generalizing ws buffer with
  | _ k ih =>
    subst hlen
    have hlt : buffer.length < n := by
      rw [List.length_append] at hn
      omega
    by_cases hwhole : ∃ g ∈ (incoming ws.unread).1, Whole g
    · obtain ⟨taken, ws₁, htook, hread, hdelivered⟩ := readFrames_whole halive hwhole buffer
      rw [hdelivered, ← List.append_assoc] at hn
      obtain ⟨e, ws₂, hloop, hends⟩ := @ih _ (readFrames_shorter hread) ws₁ htook.alive _ hn rfl
      refine ⟨e, ws₂, ?_, htook.ended hends⟩
      rw [readLoop, if_pos hlt]
      split
      case h_1 heq =>
        rw [hread] at heq
        cases heq
      case h_2 heq =>
        rw [hread] at heq
        cases heq
        exact hloop
    · obtain ⟨e, ws₁, hread, hends⟩ := readFrames_ended halive hwhole buffer
      refine ⟨e, ws₁, ?_, hends⟩
      rw [readLoop, if_pos hlt]
      split
      case h_1 heq =>
        rw [hread] at heq
        cases heq
        rfl
      case h_2 heq =>
        rw [hread] at heq
        cases heq

/-- What the handler can still return. -/
def stream (ws : Handler) : Bytes := ws.buf ++ delivered (incoming ws.unread).1

lemma read_enough {n : ℕ} (halive : ws.alive = true) (hn : n ≤ (stream ws).length) :
    ∃ taken ws', read n ws = (.ok ((stream ws).take n), ws') ∧
      stream ws' = (stream ws).drop n ∧ ws'.alive = true ∧ ws'.sent = ws.sent ++ pongs taken ∧
      incoming ws.unread = (taken ++ (incoming ws'.unread).1, (incoming ws'.unread).2) := by
  obtain ⟨taken, ws', htook, hle, hloop, hdelivered⟩ :=
    @readLoop_enough { ws with buf := [] } n halive ws.buf hn
  have hstream : stream ws = ws.buf ++ dataOf taken ++ delivered (incoming ws'.unread).1 := by
    rw [List.append_assoc, ← hdelivered]
    rfl
  refine ⟨taken, { ws' with buf := (ws.buf ++ dataOf taken).drop n }, ?_, ?_, htook.alive,
    htook.sent_eq, htook.incoming_eq⟩
  · rw [Websocket.read, hloop, hstream, List.take_append_of_le_length hle]
  · rw [hstream, List.drop_append_of_le_length hle]
    rfl

lemma read_ended {n : ℕ} (halive : ws.alive = true) (hn : (stream ws).length < n) :
    ∃ e ws', read n ws = (.error e, ws') ∧
      Ended (incoming ws.unread).1 (incoming ws.unread).2 ws.sent ws' := by
  obtain ⟨e, ws', hloop, hends⟩ := @readLoop_ended { ws with buf := [] } n halive ws.buf hn
  exact ⟨e, ws', by rw [Websocket.read, hloop], hends⟩

lemma readAll_enough {sizes : List ℕ} (halive : ws.alive = true)
    (hn : sizes.sum ≤ (stream ws).length) :
    ∃ bss taken ws', readAll sizes ws = (.ok bss, ws') ∧ bss.map List.length = sizes ∧
      bss.flatten = (stream ws).take sizes.sum ∧ ws'.alive = true ∧
      ws'.sent = ws.sent ++ pongs taken ∧
      incoming ws.unread = (taken ++ (incoming ws'.unread).1, (incoming ws'.unread).2) := by
  induction sizes generalizing ws with
  | nil => exact ⟨[], [], ws, rfl, rfl, rfl, halive, by simp [pongs, pinged], rfl⟩
  | cons n sizes ih =>
    rw [List.sum_cons] at hn
    obtain ⟨taken, ws₁, hread, hstream, halive₁, hsent, hin⟩ := @read_enough ws n halive (by omega)
    obtain ⟨bss, more, ws₂, hreads, hlengths, hflat, halive₂, hsent₂, hin₂⟩ :=
      ih halive₁ (by rw [hstream, List.length_drop]; omega)
    refine ⟨(stream ws).take n :: bss, taken ++ more, ws₂, ?_, ?_, ?_, halive₂, ?_, ?_⟩
    · rw [readAll, hread]
      simp only [hreads]
    · rw [List.map_cons, hlengths, List.length_take_of_le (by omega)]
    · rw [List.flatten_cons, hflat, hstream, List.sum_cons, List.take_add]
    · rw [hsent₂, hsent, pongs_append, List.append_assoc]
    · rw [hin, hin₂, List.append_assoc]

lemma readAll_ended {sizes : List ℕ} (halive : ws.alive = true)
    (hn : (stream ws).length < sizes.sum) :
    ∃ e ws', readAll sizes ws = (.error e, ws') ∧
      Ended (incoming ws.unread).1 (incoming ws.unread).2 ws.sent ws' := by
  induction sizes generalizing ws with
  | nil =>
    rw [List.sum_nil] at hn
    omega
  | cons n sizes ih =>
    rw [List.sum_cons] at hn
    by_cases hle : n ≤ (stream ws).length
    · obtain ⟨taken, ws₁, hread, hstream, halive₁, hsent, hin⟩ := read_enough halive hle
      obtain ⟨e, ws₂, hreads, hends⟩ := ih halive₁ (by rw [hstream, List.length_drop]; omega)
      refine ⟨e, ws₂, by rw [readAll, hread]; simp only [hreads], ?_⟩
      rw [hin]
      refine ⟨?_, hends.alive_eq, hends.left⟩
      rw [hends.sent_eq, hsent, pongs_append, ← List.append_assoc ws.sent]
    · obtain ⟨e, ws₁, hread, hends⟩ := read_ended halive (Nat.not_le.mp hle)
      exact ⟨e, ws₁, by rw [readAll, hread], hends⟩

end

/-- **Any bytes on a websocket.** The reads return the data of the messages that are whole before
the first frame which ends the connection, as many bytes as they ask for, with a pong for each ping
on the way; a read of more fails, and by then every ping has been answered, and a closing frame by
one closing frame, behind which nothing is read. -/
theorem any_bytes (bs : Bytes) (sizes : List ℕ) :
    (sizes.sum ≤ (delivered (incoming bs).1).length → ∃ bss taken todo ws,
      readAll sizes ⟨bs, [], true, []⟩ = (.ok bss, ws) ∧ (incoming bs).1 = taken ++ todo ∧
      bss.map List.length = sizes ∧ bss.flatten = (delivered (incoming bs).1).take sizes.sum ∧
      ws.alive = true ∧ ws.sent = pongs taken) ∧
    ((delivered (incoming bs).1).length < sizes.sum → ∃ e ws,
      readAll sizes ⟨bs, [], true, []⟩ = (.error e, ws) ∧
      Ended (incoming bs).1 (incoming bs).2 [] ws) := by
  refine ⟨fun hn => ?_, fun hn => ?_⟩
  · obtain ⟨bss, taken, ws, hreads, hlengths, hflat, halive, hsent, hin⟩ :=
      @readAll_enough ⟨bs, [], true, []⟩ sizes rfl hn
    exact ⟨bss, taken, _, ws, hreads, congrArg Prod.fst hin, hlengths, hflat, halive, hsent⟩
  · exact @readAll_ended ⟨bs, [], true, []⟩ sizes rfl hn

/-- The stream ends in the payload of a frame, which is read without the rest of it. -/
def cutShort : Bytes := [130, 5, 97, 98]

lemma incoming_cutShort : incoming cutShort = ([⟨opBytes, true, false, [97, 98]⟩], .broken) := by
  have hrecv : recv.run cutShort = .ok (⟨opBytes, true, false, [97, 98]⟩, []) := rfl
  have hend : recv.run [] = .error .connectionError := rfl
  rw [incoming_ok hrecv, if_pos (by decide), incoming_error hend]

theorem any_bytes_cutShort :
    (∃ bss ws, readAll [1, 1] ⟨cutShort, [], true, []⟩ = (.ok bss, ws) ∧
      bss.flatten = [97, 98]) ∧
    ∃ e ws, readAll [1, 2] ⟨cutShort, [], true, []⟩ = (.error e, ws) := by
  have hdata : delivered (incoming cutShort).1 = [97, 98] := by
    rw [incoming_cutShort]
    decide
  have henough := (any_bytes cutShort [1, 1]).1
  have hends := (any_bytes cutShort [1, 2]).2
  rw [hdata] at henough hends
  obtain ⟨bss, -, -, ws, hreads, -, -, hflat, -⟩ := henough (by decide)
  obtain ⟨e, ws', hfails, -⟩ := hends (by decide)
  exact ⟨⟨bss, ws, hreads, hflat⟩, e, ws', hfails⟩

/-! ### The messages of a client -/

/-- The frames of a conversation, and the end of the stream between them, before a header. -/
lemma incoming_wire {inside : Bool} {fs : List ClientFrame} (h : Conversation inside fs)
    {rest : Bytes} (hrest : rest.length < 2) :
    incoming (wire fs ++ rest) = (fs.map ClientFrame.frame, .broken) := by
  have hgoes : ∀ (f : ClientFrame) (gs : List ClientFrame), Goes f.frame →
      incoming (wire gs ++ rest) = (gs.map ClientFrame.frame, .broken) →
      incoming (wire (f :: gs) ++ rest) = ((f :: gs).map ClientFrame.frame, .broken) := by
    intro f gs hf ih
    have hrecv : recv.run (wire (f :: gs) ++ rest) = .ok (f.frame, wire gs ++ rest) :=
      @recv_wire f gs rest ⟨wire (f :: gs) ++ rest, [], true, []⟩ rfl
    rw [incoming_ok hrecv, if_pos hf, ih]
    rfl
  induction h with
  | done =>
    obtain ⟨e, he⟩ := (recv_error_iff rest).mpr hrest
    exact incoming_error he
  | @control inside f fs hop _ ih => exact hgoes f fs (.inr hop) ih
  | @data inside f fs hop _ ih => exact hgoes f fs (.inl (Conversation.isData hop)) ih

lemma exists_whole {inside : Bool} {fs : List ClientFrame} (h : Conversation inside fs)
    (hin : inside = true) : ∃ f ∈ fs, Whole f.frame := by
  induction h with
  | done => cases hin
  | control hop hfs ih =>
    obtain ⟨f, hf, hwhole⟩ := ih hin
    exact ⟨f, List.mem_cons_of_mem _ hf, hwhole⟩
  | @data inside f fs hop hfs ih =>
    by_cases hfin : f.fin = true
    · exact ⟨f, List.mem_cons_self, Conversation.isData hop, hfin⟩
    · obtain ⟨g, hg, hwhole⟩ := ih (by simpa using hfin)
      exact ⟨g, List.mem_cons_of_mem _ hg, hwhole⟩

/-- All messages of a conversation are whole. -/
lemma delivered_conversation {inside : Bool} {fs : List ClientFrame} (h : Conversation inside fs) :
    delivered (fs.map ClientFrame.frame) = payloads fs := by
  induction h with
  | done => rfl
  | @control inside f fs hop hfs ih =>
    have hcontrol : ¬IsData f.frame := not_isData hop
    rw [payloads_control hcontrol, ← ih, List.map_cons]
    by_cases hwhole : ∃ g ∈ f.frame :: fs.map ClientFrame.frame, Whole g
    · rw [delivered_of_whole hwhole, dataOf_control hcontrol]
      rfl
    · rw [delivered_of_none hwhole, delivered_of_none]
      exact fun ⟨g, hg, hgw⟩ => hwhole ⟨g, List.mem_cons_of_mem _ hg, hgw⟩
  | @data inside f fs hop hfs ih =>
    have hdata := Conversation.isData hop
    have hwhole : ∃ g ∈ f.frame :: fs.map ClientFrame.frame, Whole g := by
      by_cases hfin : f.fin = true
      · exact ⟨f.frame, List.mem_cons_self, hdata, hfin⟩
      · obtain ⟨g, hg, hgw⟩ := exists_whole hfs (by simpa using hfin)
        exact ⟨g.frame, List.mem_cons_of_mem _ (List.mem_map_of_mem hg), hgw⟩
    rw [payloads_data hdata, ← ih, List.map_cons, delivered_of_whole hwhole, dataOf_data hdata]
    rfl

lemma delivered_wire {fs : List ClientFrame} (h : Conversation false fs) {rest : Bytes}
    (hrest : rest.length < 2) : delivered (incoming (wire fs ++ rest)).1 = payloads fs := by
  rw [incoming_wire h hrest, delivered_conversation h]

end MoteBroker.Closing

import MoteBroker.Frames

/-!
`WebsocketHandler`: reading a stream of bytes out of the frames of a client's messages.
-/

namespace MoteBroker.Websocket

open ByteReader MoteBroker.Topics MoteBroker.Frames

/-! ### The handler -/

/-- The bytes on the socket still unread, what is left in `buf`, whether the connection is alive,
and what has been sent. -/
structure Handler where
  unread : Bytes
  buf : Bytes
  alive : Bool
  sent : List Bytes
  deriving DecidableEq, Repr

def Handler.send (ws : Handler) (frame : Frame) : Handler :=
  { ws with sent := ws.sent ++ [frame.bytes] }

def Handler.sendPong (ws : Handler) (payload : Bytes) : Handler :=
  ws.send ⟨opPong, true, false, payload⟩

def Handler.sendClose (ws : Handler) : Handler := ws.send ⟨opClose, true, false, []⟩

/-- `end_connection`, which raises an exception whose argument is missing. -/
def Handler.endConnection {α : Type} (ws : Handler) : Except Exc α × Handler :=
  (.error .typeError, { ws with alive := false })

/-- `read_frames`. Once the connection has ended there is nothing to return, which `read` cannot
use. -/
def readFrames (ws : Handler) (buf : Bytes) : Except Exc Bytes × Handler :=
  if ws.alive then
    match _h : recv.run ws.unread with
    | .error e => (.error e, ws)
    | .ok (frame, unread) =>
      let ws' := { ws with unread := unread }
      if frame.opcode = opBytes ∨ frame.opcode = opContinuation then
        if frame.fin then (.ok (buf ++ frame.payload), ws')
        else readFrames ws' (buf ++ frame.payload)
      else if frame.opcode = opClose then
        (if frame.fin then ws'.sendClose else ws').endConnection
      else if frame.opcode = opPing then readFrames (ws'.sendPong frame.payload) buf
      else if frame.opcode = opPong then readFrames ws' buf
      else ws'.endConnection
  else (.error .typeError, ws)
termination_by ws.unread.length
decreasing_by all_goals exact recv_shorter _h

/-- One turn of the loop of `read_frames`. -/
lemma readFrames_turn {ws : Handler} (halive : ws.alive = true) {frame : Frame} {unread : Bytes}
    (h : recv.run ws.unread = .ok (frame, unread)) (buf : Bytes) :
    readFrames ws buf =
      if frame.opcode = opBytes ∨ frame.opcode = opContinuation then
        if frame.fin then (.ok (buf ++ frame.payload), { ws with unread := unread })
        else readFrames { ws with unread := unread } (buf ++ frame.payload)
      else if frame.opcode = opClose then
        (if frame.fin then ({ ws with unread := unread } : Handler).sendClose
          else { ws with unread := unread }).endConnection
      else if frame.opcode = opPing then
        readFrames (({ ws with unread := unread } : Handler).sendPong frame.payload) buf
      else if frame.opcode = opPong then readFrames { ws with unread := unread } buf
      else ({ ws with unread := unread } : Handler).endConnection := by
  rw [readFrames, if_pos halive]
  split
  case h_1 e he =>
    rw [h] at he
    cases he
  case h_2 frame' unread' hok =>
    rw [h] at hok
    cases hok
    rfl

lemma readFrames_shorter {ws ws' : Handler} {buf buf' : Bytes}
    (h : readFrames ws buf = (.ok buf', ws')) : ws'.unread.length < ws.unread.length := by
  induction hn : ws.unread.length using Nat.strong_induction_on generalizing ws buf with
  | _ n ih =>
    subst hn
    by_cases halive : ws.alive = true
    · cases hrecv : recv.run ws.unread with
      | error e =>
        rw [readFrames, if_pos halive] at h
        split at h
        case h_1 => cases h
        case h_2 frame' unread' hok =>
          rw [hrecv] at hok
          cases hok
      | ok r =>
        obtain ⟨frame, unread⟩ := r
        have hlt := recv_shorter hrecv
        rw [readFrames_turn halive hrecv] at h
        split_ifs at h
        · cases h
          exact hlt
        · exact (ih _ hlt h rfl).trans hlt
        · cases h
        · cases h
        · exact (ih _ hlt h rfl).trans hlt
        · exact (ih _ hlt h rfl).trans hlt
        · cases h
    · rw [readFrames, if_neg halive] at h
      cases h

/-- The loop of `read`. -/
def readLoop (n : ℕ) (ws : Handler) (buffer : Bytes) : Except Exc Bytes × Handler :=
  if buffer.length < n then
    match _h : readFrames ws buffer with
    | (.error e, ws') => (.error e, ws')
    | (.ok buffer', ws') => readLoop n ws' buffer'
  else (.ok buffer, ws)
termination_by ws.unread.length
decreasing_by exact readFrames_shorter _h

def read (n : ℕ) (ws : Handler) : Except Exc Bytes × Handler :=
  match readLoop n { ws with buf := [] } ws.buf with
  | (.ok buffer, ws) => (.ok (buffer.take n), { ws with buf := buffer.drop n })
  | (.error e, ws) => (.error e, ws)

/-- One `read` after the other. -/
def readAll : List ℕ → Handler → Except Exc (List Bytes) × Handler
  | [], ws => (.ok [], ws)
  | n :: sizes, ws =>
    match read n ws with
    | (.error e, ws) => (.error e, ws)
    | (.ok bs, ws) =>
      match readAll sizes ws with
      | (.ok bss, ws) => (.ok (bs :: bss), ws)
      | (.error e, ws) => (.error e, ws)

/-! ### The messages of a client -/

def IsData (f : Frame) : Prop := f.opcode = opBytes ∨ f.opcode = opContinuation

instance : DecidablePred IsData := fun f =>
  inferInstanceAs (Decidable (f.opcode = opBytes ∨ f.opcode = opContinuation))

/-- The data of frames. -/
def dataOf (fs : List Frame) : Bytes := (fs.filter fun f => IsData f).flatMap Frame.payload

/-- The payloads of the pings among frames. -/
def pinged (fs : List Frame) : List Bytes :=
  (fs.filter fun f => f.opcode = opPing).map Frame.payload

/-- The bytes that answer a ping. -/
def pong (payload : Bytes) : Bytes := (⟨opPong, true, false, payload⟩ : Frame).bytes

/-- The frames of whole messages, from the middle of one or not: a message has one or more frames,
of which the last has the flag `fin`, and pings and pongs stand anywhere between frames. -/
inductive Conversation : Bool → List ClientFrame → Prop
  | done : Conversation false []
  | control {inside : Bool} {f : ClientFrame} {fs : List ClientFrame}
    (hop : f.opcode = opPing ∨ f.opcode = opPong) (hfs : Conversation inside fs) :
    Conversation inside (f :: fs)
  | data {inside : Bool} {f : ClientFrame} {fs : List ClientFrame}
    (hop : f.opcode = if inside then opContinuation else opBytes)
    (hfs : Conversation (!f.fin) fs) : Conversation inside (f :: fs)

def wire (fs : List ClientFrame) : Bytes := fs.flatMap ClientFrame.wire

/-- The concatenated data of the messages. -/
def payloads (fs : List ClientFrame) : Bytes := dataOf (fs.map ClientFrame.frame)

def pings (fs : List ClientFrame) : List Bytes := pinged (fs.map ClientFrame.frame)

section
variable {f : Frame}

lemma dataOf_append (fs gs : List Frame) : dataOf (fs ++ gs) = dataOf fs ++ dataOf gs := by
  simp [dataOf, List.flatMap_append]

lemma pinged_append (fs gs : List Frame) : pinged (fs ++ gs) = pinged fs ++ pinged gs := by
  simp [pinged]

lemma dataOf_data (h : IsData f) : dataOf [f] = f.payload := by
  simp [dataOf, h]

lemma dataOf_control (h : ¬IsData f) : dataOf [f] = [] := by
  simp [dataOf, h]

lemma pinged_ping (h : f.opcode = opPing) : pinged [f] = [f.payload] := by
  simp [pinged, h]

lemma pinged_other (h : f.opcode ≠ opPing) : pinged [f] = [] := by
  simp [pinged, h]

lemma not_isData (hop : f.opcode = opPing ∨ f.opcode = opPong) : ¬IsData f := by
  rintro (h | h) <;> rcases hop with hop | hop <;> rw [hop] at h <;> cases h

end

lemma payloads_append (fs gs : List ClientFrame) :
    payloads (fs ++ gs) = payloads fs ++ payloads gs := by
  simp [payloads, dataOf_append]

lemma pings_append (fs gs : List ClientFrame) : pings (fs ++ gs) = pings fs ++ pings gs := by
  simp [pings, pinged_append]

lemma payloads_data {f : ClientFrame} (h : IsData f.frame) (fs : List ClientFrame) :
    payloads (f :: fs) = f.payload ++ payloads fs := by
  simp only [payloads, List.map_cons]
  rw [← List.singleton_append, dataOf_append, dataOf_data h]
  rfl

lemma payloads_control {f : ClientFrame} (h : ¬IsData f.frame) (fs : List ClientFrame) :
    payloads (f :: fs) = payloads fs := by
  simp only [payloads, List.map_cons]
  rw [← List.singleton_append, dataOf_append, dataOf_control h]
  rfl

lemma pings_ping {f : ClientFrame} (h : f.opcode = opPing) (fs : List ClientFrame) :
    pings (f :: fs) = f.payload :: pings fs := by
  have hping : f.frame.opcode = opPing := h
  simp only [pings, List.map_cons]
  rw [← List.singleton_append, pinged_append, pinged_ping hping]
  rfl

lemma pings_other {f : ClientFrame} (h : f.opcode ≠ opPing) (fs : List ClientFrame) :
    pings (f :: fs) = pings fs := by
  have hother : f.frame.opcode ≠ opPing := h
  simp only [pings, List.map_cons]
  rw [← List.singleton_append, pinged_append, pinged_other hother]
  rfl

lemma Conversation.isData {inside : Bool} {f : ClientFrame}
    (hop : f.opcode = if inside then opContinuation else opBytes) : IsData f.frame := by
  cases inside with
  | false => exact .inl hop
  | true => exact .inr hop

lemma Conversation.exists_data {inside : Bool} {fs : List ClientFrame} (h : Conversation inside fs)
    (hin : inside = true) : ∃ f ∈ fs, IsData f.frame := by
  induction h with
  | done => cases hin
  | control hop hfs ih =>
    obtain ⟨f, hf, hdata⟩ := ih hin
    exact ⟨f, List.mem_cons_of_mem _ hf, hdata⟩
  | @data inside f fs hop => exact ⟨f, List.mem_cons_self, Conversation.isData hop⟩

lemma recv_wire {f : ClientFrame} {fs : List ClientFrame} {rest : Bytes} {ws : Handler}
    (h : ws.unread = wire (f :: fs) ++ rest) :
    recv.run ws.unread = .ok (f.frame, wire fs ++ rest) := by
  rw [h, wire, List.flatMap_cons, List.append_assoc]
  exact reads_frame f _

/-- One turn of `read_frames`, on each of a client's frames. -/
lemma readFrames_wire {f : ClientFrame} {fs : List ClientFrame} {rest : Bytes} {ws : Handler}
    (halive : ws.alive = true) (h : ws.unread = wire (f :: fs) ++ rest) (buf : Bytes) :
    (IsData f.frame → readFrames ws buf =
      if f.fin then (.ok (buf ++ f.payload), { ws with unread := wire fs ++ rest })
      else readFrames { ws with unread := wire fs ++ rest } (buf ++ f.payload)) ∧
    (f.opcode = opPing → readFrames ws buf =
      readFrames (({ ws with unread := wire fs ++ rest } : Handler).sendPong f.payload) buf) ∧
    (f.opcode = opPong → readFrames ws buf =
      readFrames { ws with unread := wire fs ++ rest } buf) := by
  have hturn := readFrames_turn halive (recv_wire h) buf
  refine ⟨fun hdata => ?_, fun hping => ?_, fun hpong => ?_⟩
  · have hop : f.frame.opcode = opBytes ∨ f.frame.opcode = opContinuation := hdata
    rw [hturn, if_pos hop]
    rfl
  · have hop : f.frame.opcode = opPing := hping
    rw [hturn, hop]
    rfl
  · have hop : f.frame.opcode = opPong := hpong
    rw [hturn, hop]
    rfl

/-- What `read_frames` does with the frames to the end of a message. -/
lemma readFrames_spec {inside : Bool} {fs : List ClientFrame} (h : Conversation inside fs)
    (hdata : ∃ f ∈ fs, IsData f.frame) (rest : Bytes) {ws : Handler}
    (halive : ws.alive = true) (hunread : ws.unread = wire fs ++ rest) (buf : Bytes) :
    ∃ taken todo, fs = taken ++ todo ∧ taken ≠ [] ∧ Conversation false todo ∧
      readFrames ws buf = (.ok (buf ++ payloads taken),
        { ws with unread := wire todo ++ rest, sent := ws.sent ++ (pings taken).map pong }) := by
  induction h generalizing ws buf with
  | done =>
    obtain ⟨f, hf, -⟩ := hdata
    cases hf
  | @control inside f fs hop hfs ih =>
    have hcontrol : ¬IsData f.frame := not_isData hop
    have hlater : ∃ g ∈ fs, IsData g.frame := by
      obtain ⟨g, hg, hgdata⟩ := hdata
      rcases List.mem_cons.mp hg with rfl | hg
      · exact absurd hgdata hcontrol
      · exact ⟨g, hg, hgdata⟩
    obtain ⟨-, hping, hpong⟩ := readFrames_wire halive hunread buf
    rcases hop with hop | hop
    · -- a ping is answered
      obtain ⟨taken, todo, rfl, -, htodo, hread⟩ := @ih hlater
        (({ ws with unread := wire fs ++ rest } : Handler).sendPong f.payload) halive rfl buf
      refine ⟨f :: taken, todo, rfl, List.cons_ne_nil _ _, htodo, ?_⟩
      rw [hping hop, hread, payloads_control hcontrol, pings_ping hop]
      simp [Handler.sendPong, Handler.send, pong]
    · obtain ⟨taken, todo, rfl, -, htodo, hread⟩ := @ih hlater
        { ws with unread := wire fs ++ rest } halive rfl buf
      refine ⟨f :: taken, todo, rfl, List.cons_ne_nil _ _, htodo, ?_⟩
      have hne : f.opcode ≠ opPing := by rw [hop]; decide
      rw [hpong hop, hread, payloads_control hcontrol, pings_other hne]
  | @data inside f fs hop hfs ih =>
    have hf : IsData f.frame := Conversation.isData hop
    have hne : f.opcode ≠ opPing := fun h => not_isData (.inl h) hf
    obtain ⟨hread, -, -⟩ := readFrames_wire halive hunread buf
    by_cases hfin : f.fin = true
    · -- the message ends
      rw [hfin] at hfs
      refine ⟨[f], fs, rfl, List.cons_ne_nil _ _, hfs, ?_⟩
      rw [hread hf, if_pos hfin, payloads_data hf, pings_other hne]
      simp [payloads, pings, dataOf, pinged]
    · have hlater := hfs.exists_data (by simpa using hfin)
      obtain ⟨taken, todo, rfl, -, htodo, hnext⟩ := @ih hlater
        { ws with unread := wire fs ++ rest } halive rfl (buf ++ f.payload)
      refine ⟨f :: taken, todo, rfl, List.cons_ne_nil _ _, htodo, ?_⟩
      rw [hread hf, if_neg hfin, hnext, payloads_data hf, pings_other hne, List.append_assoc]

lemma payloads_eq_nil {fs : List ClientFrame} (h : ∀ f ∈ fs, ¬IsData f.frame) :
    payloads fs = [] := by
  have hfilter : (fs.map ClientFrame.frame).filter (fun f => IsData f) = [] := by
    simpa [List.filter_eq_nil_iff] using h
  rw [payloads, dataOf, hfilter]
  rfl

/-- The loop of `read` takes whole messages until it has enough. -/
lemma readLoop_spec {n : ℕ} {fs : List ClientFrame} (h : Conversation false fs) (rest : Bytes)
    {ws : Handler} (halive : ws.alive = true) (hunread : ws.unread = wire fs ++ rest)
    {buffer : Bytes} (hn : n ≤ (buffer ++ payloads fs).length) :
    ∃ taken todo, fs = taken ++ todo ∧ Conversation false todo ∧
      n ≤ (buffer ++ payloads taken).length ∧
      readLoop n ws buffer = (.ok (buffer ++ payloads taken),
        { ws with unread := wire todo ++ rest, sent := ws.sent ++ (pings taken).map pong }) := by
  induction hlen : fs.length using Nat.strong_induction_on generalizing fs ws buffer with
  | _ k ih =>
    subst hlen
    by_cases hlt : buffer.length < n
    · have hdata : ∃ f ∈ fs, IsData f.frame := by
        by_contra hno
        rw [payloads_eq_nil fun f hf hd => hno ⟨f, hf, hd⟩, List.append_nil] at hn
        omega
      obtain ⟨taken, todo, rfl, hne, htodo, hread⟩ :=
        readFrames_spec h hdata rest halive hunread buffer
      have hshort : todo.length < (taken ++ todo).length := by
        have := List.length_pos_iff.mpr hne
        rw [List.length_append]
        omega
      obtain ⟨more, todo, rfl, htodo, hle, hloop⟩ := @ih _ hshort todo htodo
        { ws with unread := wire todo ++ rest, sent := ws.sent ++ (pings taken).map pong } halive
        rfl (buffer ++ payloads taken) (by rwa [List.append_assoc, ← payloads_append]) rfl
      refine ⟨taken ++ more, todo, (List.append_assoc _ _ _).symm, htodo, ?_, ?_⟩
      · rwa [payloads_append, ← List.append_assoc]
      · rw [readLoop, if_pos hlt]
        split
        case h_1 e ws' heq =>
          rw [hread] at heq
          cases heq
        case h_2 buffer' ws' heq =>
          rw [hread] at heq
          cases heq
          rw [hloop, payloads_append, pings_append, List.map_append]
          simp only [List.append_assoc]
    · refine ⟨[], fs, rfl, h, by simpa [payloads, dataOf] using hlt, ?_⟩
      rw [readLoop, if_neg hlt]
      simp [payloads, pings, dataOf, pinged, ← hunread]

/-- A read that there is data for returns what it was asked for, and keeps the rest. -/
lemma read_spec {n : ℕ} {fs : List ClientFrame} (h : Conversation false fs) (rest : Bytes)
    {ws : Handler} (halive : ws.alive = true) (hunread : ws.unread = wire fs ++ rest)
    (hn : n ≤ (ws.buf ++ payloads fs).length) :
    ∃ taken todo, fs = taken ++ todo ∧ Conversation false todo ∧
      n ≤ (ws.buf ++ payloads taken).length ∧
      read n ws = (.ok ((ws.buf ++ payloads taken).take n),
        { ws with
          unread := wire todo ++ rest, buf := (ws.buf ++ payloads taken).drop n,
          sent := ws.sent ++ (pings taken).map pong }) := by
  obtain ⟨taken, todo, hfs, htodo, hle, hloop⟩ :=
    @readLoop_spec n fs h rest { ws with buf := [] } halive hunread ws.buf hn
  exact ⟨taken, todo, hfs, htodo, hle, by rw [read, hloop]⟩

lemma take_drop_append {n k : ℕ} {xs ys : Bytes} (h : n ≤ xs.length) :
    xs.take n ++ (xs.drop n ++ ys).take k = (xs ++ ys).take (n + k) ∧
      (xs.drop n ++ ys).drop k = (xs ++ ys).drop (n + k) := by
  rw [← List.drop_append_of_le_length h, List.drop_drop, List.take_add,
    List.take_append_of_le_length h]
  exact ⟨rfl, rfl⟩

lemma readAll_spec {sizes : List ℕ} {fs : List ClientFrame} (h : Conversation false fs)
    (rest : Bytes) {ws : Handler} (halive : ws.alive = true)
    (hunread : ws.unread = wire fs ++ rest) (hn : sizes.sum ≤ (ws.buf ++ payloads fs).length) :
    ∃ bss taken todo, fs = taken ++ todo ∧
      readAll sizes ws = (.ok bss,
        { ws with
          unread := wire todo ++ rest, buf := (ws.buf ++ payloads taken).drop sizes.sum,
          sent := ws.sent ++ (pings taken).map pong }) ∧
      bss.map List.length = sizes ∧ bss.flatten = (ws.buf ++ payloads fs).take sizes.sum := by
  induction sizes generalizing fs ws with
  | nil =>
    refine ⟨[], [], fs, rfl, ?_, rfl, rfl⟩
    simp [readAll, payloads, pings, dataOf, pinged, ← hunread]
  | cons n sizes ih =>
    rw [List.sum_cons] at hn
    obtain ⟨taken, todo, rfl, htodo, hle, hread⟩ :=
      @read_spec n fs h rest ws halive hunread (by omega)
    have hrest : sizes.sum ≤ ((ws.buf ++ payloads taken).drop n ++ payloads todo).length := by
      simp only [payloads_append, List.length_append, List.length_drop] at hn hle ⊢
      omega
    obtain ⟨bss, more, todo, rfl, hreads, hlengths, hflat⟩ := @ih todo htodo
      { ws with
        unread := wire todo ++ rest, buf := (ws.buf ++ payloads taken).drop n,
        sent := ws.sent ++ (pings taken).map pong } halive rfl hrest
    refine ⟨(ws.buf ++ payloads taken).take n :: bss, taken ++ more, todo,
      (List.append_assoc _ _ _).symm, ?_, ?_, ?_⟩
    · have hbuf := (@take_drop_append n sizes.sum _ (payloads more) hle).2
      rw [List.append_assoc, ← payloads_append] at hbuf
      rw [readAll, hread]
      simp only [hreads, hbuf, pings_append, List.map_append, List.append_assoc, List.sum_cons]
    · rw [List.map_cons, hlengths, List.length_take_of_le hle]
    · rw [List.flatten_cons, hflat, (take_drop_append hle).1, List.sum_cons, List.append_assoc,
        ← payloads_append]

/-- **The websocket is a stream of bytes**: for every conversation, every sequence of sizes for
which it has the data and whatever comes after it, each read returns as many bytes as it was asked
for, together they are the beginning of the data, and each ping among the frames taken is answered
by one pong, in order. -/
theorem reads_are_stream {fs : List ClientFrame} (h : Conversation false fs) (rest : Bytes)
    {sizes : List ℕ} (hsizes : sizes.sum ≤ (payloads fs).length) :
    ∃ bss taken todo ws, fs = taken ++ todo ∧
      readAll sizes ⟨wire fs ++ rest, [], true, []⟩ = (.ok bss, ws) ∧
      bss.map List.length = sizes ∧ bss.flatten = (payloads fs).take sizes.sum ∧
      ws.unread = wire todo ++ rest ∧ ws.sent = (pings taken).map pong ∧
      ∀ payload ∈ pings taken, payload.length < 65535 →
        Reads recv (pong payload) ⟨opPong, true, false, payload⟩ := by
  obtain ⟨bss, taken, todo, hfs, hreads, hlengths, hflat⟩ :=
    @readAll_spec sizes fs h rest ⟨wire fs ++ rest, [], true, []⟩ rfl rfl hsizes
  exact ⟨bss, taken, todo, _, hfs, hreads, hlengths, hflat, rfl, rfl,
    fun payload _ hlt => reads_bytes (by decide) true hlt⟩

/-- A message in two frames, with a ping between them. -/
def hello : List ClientFrame :=
  [⟨opBytes, false, some [1, 2, 3, 4], .short, [104, 101], by decide, by decide, by decide⟩,
    ⟨opPing, true, none, .short, [112], by decide, by decide, by decide⟩,
    ⟨opContinuation, true, none, .long, [121], by decide, by decide, by decide⟩]

lemma hello_conversation : Conversation false hello :=
  .data rfl <| .control (.inl rfl) <| @Conversation.data _ _ [] rfl .done

theorem reads_are_stream_hello :
    ∃ bss taken todo ws, hello = taken ++ todo ∧
      readAll [1, 2] ⟨wire hello ++ [130], [], true, []⟩ = (.ok bss, ws) ∧
      bss.map List.length = [1, 2] ∧ bss.flatten = [104, 101, 121] ∧
      ws.unread = wire todo ++ [130] ∧ ws.sent = (pings taken).map pong ∧
      ∀ payload ∈ pings taken, payload.length < 65535 →
        Reads recv (pong payload) ⟨opPong, true, false, payload⟩ :=
  reads_are_stream hello_conversation [130] (by decide)

end MoteBroker.Websocket

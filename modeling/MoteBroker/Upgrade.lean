import MoteBroker.Lib.Sha1
import MoteBroker.Lib.Split
import MoteBroker.RecvUntil

/-!
The opening handshake of a websocket: which requests are answered, and that exactly the request is
read, however the transport splits it.
-/

namespace MoteBroker.Upgrade

open Search MoteBroker.Topics MoteBroker.Socket MoteBroker.RecvUntil

/-! ### The handshake -/

def crlf : Str := "\r\n".toList

def upgradeSet : List Str :=
  ["Upgrade: WebSocket".toList, "Upgrade: websocket".toList, "upgrade: websocket".toList]

def labelSet : List Str := ["Sec-WebSocket-Key".toList, "sec-websocket-key".toList]

def secretKey : Str := "258EAFA5-E914-47DA-95CA-C5AB0DC85B11".toList

/-- `digest`; a key that is not ASCII raises `UnicodeEncodeError`, a `ValueError`. -/
def digest (client_secret_key : Str) : Except Exc Str :=
  if Utf8.Ascii (client_secret_key ++ secretKey) then
    .ok (Sha1.b64encode (Sha1.sha1 (Utf8.encode (client_secret_key ++ secretKey))))
  else .error .valueError

example : digest "dGhlIHNhbXBsZSBub25jZQ==".toList = .ok "s3pPLMBiTxaQ9kYGzzhZRbK+xOo=".toList := by
  decide +kernel

def response (accept : Str) : Str :=
  "HTTP/1.1 101 Switching Protocols\r\nUpgrade: websocket\r\nConnection: Upgrade\r\n".toList ++
    "Sec-WebSocket-Accept: ".toList ++ accept ++
    "\r\nSec-WebSocket-Protocol: mqtt\r\nSec-WebSocket-Version: 13\r\n\r\n".toList

def colon : Str := ": ".toList

/-- `label, value = token.split(": ", 1)`. -/
def labelValue (token : Str) : Except Exc (Str × Str) :=
  match find colon token with
  | none => .error .valueError
  | some n => .ok (token.take n, token.drop (n + colon.length))

/-- The loop of `get_handshake_response`. -/
def searchKey : List Str → Except Exc (Option Str)
  | [] => .ok none
  | token :: tokens => do
    let (label, value) ← labelValue token
    if label ∈ labelSet then return some (response (← digest value))
    searchKey tokens

def getHandshakeResponse (request : Str) : Except Exc (Option Str) :=
  if ∃ u ∈ upgradeSet, u ∈ split crlf request then searchKey ((split crlf request).drop 1)
  else .ok none

/-- `start_connection`: what is sent, or the exception, if as many calls of `recv` are enough. -/
def startConnection (turns : ℕ) (r : Receiver) : Option (Except Exc Bytes × Receiver) :=
  (recvUntil turns 1024 (crlf ++ crlf) r).map fun (upgrade_request, r) =>
    (do
      match ← getHandshakeResponse (← upgrade_request) with
      | none => .error .connectionError
      | some handshake => .ok (Utf8.encode handshake), r)

/-! ### Which requests are answered -/

/-- The line is a header. -/
def Labelled (line label value : Str) : Prop :=
  line = label ++ colon ++ value ∧ ¬colon <:+: label ++ colon.dropLast

instance decLabelled (line label value : Str) : Decidable (Labelled line label value) :=
  inferInstanceAs (Decidable (line = label ++ colon ++ value ∧
    ¬colon <:+: label ++ colon.dropLast))

/-- The request asks for a websocket. -/
def Upgrades (lines : List Str) : Prop := ∃ u ∈ upgradeSet, u ∈ lines

/-- The answer to these headers, the lines after the first one: it has the digest of the first key,
and every line before the key is a header. -/
inductive Answers : List Str → Str → Prop
  | key {line label key accept : Str} {rest : List Str} (line_eq : Labelled line label key)
      (label_mem : label ∈ labelSet) (accept_eq : digest key = .ok accept) :
      Answers (line :: rest) (response accept)
  | header {line label value answer : Str} {rest : List Str} (line_eq : Labelled line label value)
      (label_notMem : label ∉ labelSet) (rest_answers : Answers rest answer) :
      Answers (line :: rest) answer

lemma labelValue_eq_ok {token label value : Str} :
    labelValue token = .ok (label, value) ↔ Labelled token label value := by
  have hcolon : colon ≠ [] := by decide
  unfold labelValue Labelled
  constructor
  · intro h
    cases hfind : find colon token with
    | none =>
      rw [hfind] at h
      cases h
    | some n =>
      rw [hfind] at h
      cases h
      obtain ⟨post, hpost⟩ := (find_spec hfind).1
      refine ⟨?_, free_of_find hcolon hfind⟩
      rw [← List.drop_drop, ← hpost, List.drop_left, List.append_assoc, hpost,
        List.take_append_drop]
  · rintro ⟨rfl, hfree⟩
    rw [find_of_free value hfree]
    simp only [List.append_assoc, List.take_left]
    rw [← List.append_assoc, ← List.length_append, List.drop_left]

section
variable {fields rest : List Str} {answer : Str}

/-- An empty line is no header, so that the loop does not come to its end. -/
lemma searchKey_cases (fields rest : List Str) :
    (∃ answer, searchKey (fields ++ [] :: rest) = .ok (some answer)) ∨
      searchKey (fields ++ [] :: rest) = .error .valueError := by
  induction fields with
  | nil => exact .inr rfl
  | cons field fields ih =>
    rw [List.cons_append, searchKey]
    cases hfield : labelValue field with
    | error e =>
      unfold labelValue at hfield
      split at hfield <;> cases hfield
      exact .inr rfl
    | ok x =>
      obtain ⟨label, value⟩ := x
      rw [ok_bind]
      dsimp only
      split_ifs with hlabel
      · unfold digest
        split_ifs
        · exact .inl ⟨_, rfl⟩
        · exact .inr rfl
      · exact ih

lemma searchKey_eq_some :
    searchKey (fields ++ [] :: rest) = .ok (some answer) ↔ Answers fields answer := by
  induction fields with
  | nil =>
    constructor
    · intro h
      cases h
    · intro h
      cases h
  | cons field fields ih =>
    rw [List.cons_append, searchKey]
    cases hfield : labelValue field with
    | error e =>
      have hno : ∀ label value, ¬Labelled field label value := fun label value h => by
        rw [labelValue_eq_ok.mpr h] at hfield
        cases hfield
      constructor
      · intro h
        cases h
      · intro h
        cases h with
        | key hline => exact absurd hline (hno _ _)
        | header hline => exact absurd hline (hno _ _)
    | ok x =>
      obtain ⟨label, value⟩ := x
      have hthis := labelValue_eq_ok.mp hfield
      have hunique : ∀ label' value', Labelled field label' value' →
          label' = label ∧ value' = value := fun label' value' h => by
        rw [labelValue_eq_ok.mpr h] at hfield
        exact Prod.mk.inj (Except.ok.inj hfield)
      rw [ok_bind]
      dsimp only
      split_ifs with hlabel
      · constructor
        · intro h
          obtain ⟨accept, haccept, h⟩ := ok_of_bind h
          cases h
          exact .key hthis hlabel haccept
        · intro h
          cases h with
          | key hline _ haccept =>
            obtain ⟨rfl, rfl⟩ := hunique _ _ hline
            rw [haccept]
            rfl
          | header hline hno =>
            obtain ⟨rfl, rfl⟩ := hunique _ _ hline
            exact absurd hlabel hno
      · rw [ih]
        constructor
        · exact .header hthis hlabel
        · intro h
          cases h with
          | key hline hmem =>
            obtain ⟨rfl, rfl⟩ := hunique _ _ hline
            exact absurd hmem hlabel
          | header _ _ hrest => exact hrest

end

/-! ### Reading the request -/

/-- A text whose only delimiter is at its end is read whole, however it is split. -/
lemma recvUntil_of_last {size : ℕ} {delimiter x : Str} {r : Receiver} (hsize : 0 < size)
    (hascii : Utf8.Ascii delimiter) (hlast : ¬delimiter <:+: x ++ delimiter.dropLast)
    (hunread : r.unread = Utf8.encode (x ++ delimiter)) :
    ∃ turns r', recvUntil turns size delimiter r = some (.ok (x ++ delimiter), r') ∧
      r'.unread = [] := by
  have hne : delimiter ≠ [] := by
    rintro rfl
    exact hlast List.nil_infix
  have hstream : r.unread = Utf8.encode x ++ Utf8.encode delimiter ++ [] := by
    rw [List.append_nil, ← Utf8.encode_append, hunread]
  have hfind : find (Utf8.encode delimiter) r.unread = some (Utf8.encode x).length := by
    rw [hstream]
    refine find_of_free [] fun h => hlast ?_
    rw [Utf8.encode_dropLast hascii, ← Utf8.encode_append] at h
    exact Utf8.infix_of_encode hne hascii h
  have hall : r.unread.take ((Utf8.encode x).length + (Utf8.encode delimiter).length) =
      r.unread := by
    rw [hstream, List.append_nil, ← List.length_append, List.take_length]
  -- after so many calls of `recv` nothing is left
  have hrecvs : (recvs size (r.unread.length + 1) r).1 = r.unread := by
    have hlength := length_recvs hsize (r.unread.length + 1) r
    exact (recvs_unread size _ r).eq_of_length_le (by omega)
  have hbehind : EndsBehind size delimiter r := by
    refine ⟨_, hfind, ?_, r.unread.length + 1, by omega, ?_⟩
    · rw [hall, hunread, Utf8.decode_encode]
      rfl
    · rw [hall, hrecvs]
  obtain ⟨turns, s, r', hrun, hs, hrest⟩ :=
    hbehind.takesUntil.found _ _ hstream (find_spec hfind).2
  have htext : s = x ++ delimiter := by
    have hdecode := Utf8.decode_encode s
    rw [hs, ← Utf8.encode_append, Utf8.decode_encode] at hdecode
    exact (Option.some.inj hdecode).symm
  exact ⟨turns, r', htext ▸ hrun, hrest⟩

/-- The lines of a request are those before its empty line, and two empty ones. -/
lemma split_request (x : Str) : split crlf (x ++ (crlf ++ crlf)) = split crlf x ++ [[], []] := by
  have hcrlf : crlf ≠ [] := by decide
  -- a line break is not begun by the end of a text and completed by the next one
  have hfree : ∀ y : Str, crlf <:+: y ++ crlf.dropLast → crlf <:+: y := by
    rintro y ⟨pre, post, h⟩
    rcases List.eq_nil_or_concat post with rfl | ⟨post, c, rfl⟩
    · have hend := congrArg List.getLast? h
      rw [List.append_nil, List.getLast?_append, List.getLast?_append] at hend
      exact absurd (show some '\n' = some '\r' from hend) (by decide)
    · refine ⟨pre, post, ?_⟩
      rw [List.concat_eq_append, ← List.append_assoc] at h
      exact (List.append_inj' h rfl).1
  have hend : split crlf (crlf ++ []) = [[], []] := by decide
  rw [← List.append_assoc, ← hend, ← List.append_nil (x ++ crlf ++ crlf), List.append_assoc _ crlf]
  exact split_append hcrlf hfree x _

lemma getHandshakeResponse_request (x : Str) :
    (Upgrades (split crlf x) → getHandshakeResponse (x ++ (crlf ++ crlf)) =
      searchKey ((split crlf x).tail ++ [] :: [[]])) ∧
    (¬Upgrades (split crlf x) → getHandshakeResponse (x ++ (crlf ++ crlf)) = .ok none) := by
  have hset : ∀ u ∈ upgradeSet, u ≠ [] := by decide
  have hsame : Upgrades (split crlf (x ++ (crlf ++ crlf))) ↔ Upgrades (split crlf x) := by
    rw [split_request]
    constructor
    · rintro ⟨u, hu, hmem⟩
      refine ⟨u, hu, (List.mem_append.mp hmem).resolve_right fun hempty => hset u hu ?_⟩
      simpa using hempty
    · rintro ⟨u, hu, hmem⟩
      exact ⟨u, hu, List.mem_append_left _ hmem⟩
  refine ⟨fun hupgrades => ?_, fun hno => if_neg (hsame.not.mpr hno)⟩
  refine (if_pos (hsame.mpr hupgrades)).trans ?_
  rw [split_request]
  obtain ⟨line, lines, hlines⟩ := List.exists_cons_of_ne_nil (split_ne_nil crlf x)
  rw [hlines]
  rfl

/-- **The opening handshake.** A request whose only empty line is its last one is read to its end,
however the transport splits it. It is answered exactly if one of its lines asks for a websocket and
its headers lead to a key, and then with the digest of that key; `ConnectionError` means that it
did not ask, and every other request is a `ValueError`. -/
theorem handshake_answers {x : Str} {r : Receiver}
    (hlast : ¬crlf ++ crlf <:+: x ++ (crlf ++ crlf).dropLast)
    (hunread : r.unread = Utf8.encode (x ++ (crlf ++ crlf))) :
    ∃ turns out r', startConnection turns r = some (out, r') ∧ r'.unread = [] ∧
      (∀ sent, out = .ok sent ↔ Upgrades (split crlf x) ∧
        ∃ answer, Answers (split crlf x).tail answer ∧ sent = Utf8.encode answer) ∧
      (out = .error .connectionError ↔ ¬Upgrades (split crlf x)) ∧
      ∀ e, out = .error e → e = .connectionError ∨ e = .valueError := by
  have hsize : 0 < 1024 := by omega
  obtain ⟨turns, r', hrun, hrest⟩ :=
    recvUntil_of_last hsize (by decide) hlast hunread
  obtain ⟨hask, hno⟩ := getHandshakeResponse_request x
  refine ⟨turns, _, r', by rw [startConnection, hrun]; rfl, hrest, ?_⟩
  rw [ok_bind]
  by_cases hupgrades : Upgrades (split crlf x)
  · rw [hask hupgrades]
    rcases searchKey_cases (split crlf x).tail [[]] with ⟨answer, hanswer⟩ | hwrong
    · have hthis := searchKey_eq_some.mp hanswer
      rw [hanswer, ok_bind]
      refine ⟨fun sent => ⟨fun h => ⟨hupgrades, answer, hthis, (Except.ok.inj h).symm⟩, ?_⟩,
        ⟨fun h => (by cases h), fun h => absurd hupgrades h⟩, fun e h => by cases h⟩
      rintro ⟨-, answer', hother, rfl⟩
      rw [searchKey_eq_some.mpr hother] at hanswer
      cases hanswer
      rfl
    · rw [hwrong, error_bind]
      refine ⟨fun sent => ⟨fun h => (by cases h), ?_⟩,
        ⟨fun h => (by cases h), fun h => absurd hupgrades h⟩, fun e h => .inr ?_⟩
      · rintro ⟨-, answer, hother, -⟩
        rw [searchKey_eq_some.mpr hother] at hwrong
        cases hwrong
      · cases h
        rfl
  · rw [hno hupgrades, ok_bind]
    refine ⟨fun sent => ⟨fun h => (by cases h), fun h => absurd h.1 hupgrades⟩,
      ⟨fun _ => hupgrades, fun _ => rfl⟩, fun e h => .inl ?_⟩
    cases h
    rfl

def browserRequest : Str :=
  "GET /mqtt HTTP/1.1\r\nUpgrade: websocket\r\nSec-WebSocket-Key: dGhlIHNhbXBsZSBub25jZQ==".toList

theorem handshake_answers_browser :
    ∃ turns r', startConnection turns ⟨Utf8.encode (browserRequest ++ (crlf ++ crlf)), [5, 30]⟩ =
      some (.ok (Utf8.encode (response "s3pPLMBiTxaQ9kYGzzhZRbK+xOo=".toList)), r') ∧
      r'.unread = [] := by
  obtain ⟨turns, out, r', hrun, hrest, hok, -⟩ := handshake_answers (x := browserRequest)
    (r := ⟨Utf8.encode (browserRequest ++ (crlf ++ crlf)), [5, 30]⟩) (by decide +kernel) rfl
  have hlines : split crlf browserRequest = ["GET /mqtt HTTP/1.1".toList,
      "Upgrade: websocket".toList, "Sec-WebSocket-Key: dGhlIHNhbXBsZSBub25jZQ==".toList] := by
    decide +kernel
  have hanswers : Answers (split crlf browserRequest).tail
      (response "s3pPLMBiTxaQ9kYGzzhZRbK+xOo=".toList) := by
    rw [hlines]
    have hasks : Labelled "Upgrade: websocket".toList "Upgrade".toList "websocket".toList := by
      decide
    have hkey : Labelled "Sec-WebSocket-Key: dGhlIHNhbXBsZSBub25jZQ==".toList
        "Sec-WebSocket-Key".toList "dGhlIHNhbXBsZSBub25jZQ==".toList := by decide
    exact .header hasks (by decide) (.key hkey (by decide) (by decide +kernel))
  have hupgrades : Upgrades (split crlf browserRequest) :=
    ⟨"Upgrade: websocket".toList, by decide, by rw [hlines]; decide⟩
  rw [(hok _).mpr ⟨hupgrades, _, hanswers, rfl⟩] at hrun
  exact ⟨turns, r', hrun, hrest⟩

end MoteBroker.Upgrade

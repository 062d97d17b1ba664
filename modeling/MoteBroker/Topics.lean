import Mathlib.Data.List.Basic
import MoteBroker.Lib.Utf8

/-!
Topics: the constants, the text of a topic and its list of nodes, and the ways in which a call
of the broker does not come back with a value.
-/

namespace MoteBroker.Topics

/-- A Python `str`: its Unicode scalar values. -/
abbrev Str := List Char
abbrev Bytes := List UInt8

def topicSep : Char := '/'
def manyCard : Str := ['+']
def tableFlag : Char := '@'
def everythingCard : Str := ['#']
/-- `LEAF_KEY = TOPIC_SEP`. -/
def leafKey : Str := [topicSep]

inductive Exc
  | indexError | keyError | typeError | attributeError | valueError | structError
  | unicodeDecodeError | jsonDecodeError | ioError | connectionError
  | invalidEverythingCard | dynamicMessageError
  | unknownPacketError | packetMismatchError
  /-- Nothing is raised, and the call does not return either. -/
  | noReturn
  deriving DecidableEq, Repr

@[simp] lemma ok_bind {α β : Type} (a : α) (f : α → Except Exc β) :
    (Except.ok a >>= f) = f a := rfl

@[simp] lemma error_bind {α β : Type} (e : Exc) (f : α → Except Exc β) :
    (Except.error e >>= f) = .error e := rfl

lemma ok_of_bind {α β : Type} {x : Except Exc α} {f : α → Except Exc β} {b : β}
    (h : x >>= f = .ok b) : ∃ a, x = .ok a ∧ f a = .ok b := by
  cases x with
  | error e => cases h
  | ok a => exact ⟨a, rfl, h⟩

lemma ok_of_map {α β : Type} {x : Except Exc α} {f : α → β} {b : β} (h : x.map f = .ok b) :
    ∃ a, x = .ok a ∧ f a = b := by
  cases x with
  | error e => cases h
  | ok a => exact ⟨a, rfl, Except.ok.inj h⟩

instance decMem (node : Str) (nodes : List Str) : Decidable (node ∈ nodes) :=
  List.instDecidableMemOfLawfulBEq node nodes

instance decMemNodes (nodes : List Str) (topics : List (List Str)) : Decidable (nodes ∈ topics) :=
  List.instDecidableMemOfLawfulBEq nodes topics

def isNodeStatic (node : Str) : Bool := node ∉ [manyCard, everythingCard]

lemma isNodeStatic_of_ne {node : Str} (hE : node ≠ everythingCard) (hM : node ≠ manyCard) :
    isNodeStatic node = true := by
  simp [isNodeStatic, hE, hM]

/-- `#` has nothing after it where it is at most the last node. -/
lemma eq_nil_of_everything_last {next : List Str}
    (h : everythingCard ∉ (everythingCard :: next).dropLast) : next = [] := by
  by_contra hne
  rw [List.dropLast_cons_of_ne_nil hne] at h
  exact h List.mem_cons_self

lemma not_mem_dropLast_tail {x node : Str} {next : List Str} (h : x ∉ (node :: next).dropLast) :
    x ∉ next.dropLast := by
  cases next with
  | nil => simp
  | cons y next => exact fun hx => h (List.mem_cons_of_mem _ hx)

/-- `s.split(TOPIC_SEP)`. -/
def split (s : Str) : List Str := s.splitOn topicSep

/-- `TOPIC_SEP.join(nodes)`. -/
def join (nodes : List Str) : Str := [topicSep].intercalate nodes

structure Topic where
  nodeList : List Str
  fullStr : Str
  deriving DecidableEq, Repr

def Topic.fromStr (s : Str) : Topic := ⟨split s, s⟩

/-- `from_nodes`: the chain of parents is kept as the list of nodes it spells. -/
def Topic.fromNodes : List Str → Option Topic
  | [] => none
  | n :: ns => some ⟨n :: ns, join (n :: ns)⟩

/-- `self.node_list[0][0] == TABLE_FLAG`. -/
def Topic.forTable (t : Topic) : Except Exc Bool :=
  match t.nodeList with
  | (c :: _) :: _ => .ok (c = tableFlag)
  | _ => .error .indexError

/-! ### Nodes and their text -/

/-- A node of a single level: the separator does not occur in it. -/
def SingleLevel (node : Str) : Prop := topicSep ∉ node

instance : DecidablePred SingleLevel := fun n => inferInstanceAs (Decidable (topicSep ∉ n))

lemma SingleLevel.ne_leafKey {n : Str} (h : SingleLevel n) : n ≠ leafKey := by
  rintro rfl; exact h (by simp [leafKey])

lemma split_ne_nil (s : Str) : split s ≠ [] := List.splitOn_ne_nil _ _

@[simp] lemma join_split (s : Str) : join (split s) = s := List.intercalate_splitOn _

lemma split_join {nodes : List Str} (h : ∀ n ∈ nodes, SingleLevel n) (h0 : nodes ≠ []) :
    split (join nodes) = nodes := List.splitOn_intercalate _ h h0

lemma singleLevel_of_mem_split {s n : Str} (h : n ∈ split s) : SingleLevel n := by
  induction s generalizing n with
  | nil =>
    obtain rfl : n = [] := by simpa [split] using h
    exact List.not_mem_nil
  | cons c s ih =>
    rw [split, List.splitOn_cons_eq_if_modifyHead] at h
    by_cases hc : c = topicSep
    · rcases List.mem_cons.mp (by simpa [hc] using h) with rfl | h
      · exact List.not_mem_nil
      · exact ih h
    · obtain ⟨m, ms, hm⟩ := List.exists_cons_of_ne_nil (split_ne_nil s)
      have hm' : List.splitOn topicSep s = m :: ms := hm
      simp only [hm', beq_iff_eq, hc, if_false, List.modifyHead_cons] at h
      rcases List.mem_cons.mp h with rfl | h
      · have := ih (n := m) (by simp [hm])
        exact fun hin => (List.mem_cons.mp hin).elim (fun e => hc e.symm) this
      · exact ih (by rw [hm]; exact List.mem_cons_of_mem _ h)

/-- The characters of a node are those of the text. -/
lemma mem_of_mem_split {s n : Str} (h : n ∈ split s) {c : Char} (hc : c ∈ n) : c ∈ s := by
  induction s generalizing n with
  | nil =>
    obtain rfl : n = [] := by simpa [split] using h
    cases hc
  | cons d s ih =>
    rw [split, List.splitOn_cons_eq_if_modifyHead] at h
    by_cases hd : d = topicSep
    · rcases List.mem_cons.mp (by simpa [hd] using h) with rfl | h
      · cases hc
      · exact List.mem_cons_of_mem _ (ih h hc)
    · obtain ⟨m, ms, hm⟩ := List.exists_cons_of_ne_nil (split_ne_nil s)
      have hm' : List.splitOn topicSep s = m :: ms := hm
      simp only [hm', beq_iff_eq, hd, if_false, List.modifyHead_cons] at h
      rcases List.mem_cons.mp h with rfl | h
      · rcases List.mem_cons.mp hc with rfl | hc
        · exact List.mem_cons_self
        · exact List.mem_cons_of_mem _ (ih (by simp [hm]) hc)
      · exact List.mem_cons_of_mem _ (ih (by rw [hm]; exact List.mem_cons_of_mem _ h) hc)

lemma split_injective {s t : Str} (h : split s = split t) : s = t := by
  rw [← join_split s, h, join_split]

lemma join_injective {ms ns : List Str} (hm : ∀ n ∈ ms, SingleLevel n) (hm0 : ms ≠ [])
    (hn : ∀ n ∈ ns, SingleLevel n) (hn0 : ns ≠ []) (h : join ms = join ns) : ms = ns := by
  rw [← split_join hm hm0, h, split_join hn hn0]

/-! ### The first node -/

lemma split_sep (s : Str) : split (topicSep :: s) = [] :: split s := by
  rw [split, List.splitOn_cons_eq_if_modifyHead]
  simp [split]

lemma split_cons {c : Char} (hc : c ≠ topicSep) (s : Str) :
    ∃ n ns, split (c :: s) = (c :: n) :: ns := by
  obtain ⟨n, ns, hn⟩ := List.exists_cons_of_ne_nil (split_ne_nil s)
  have hn' : List.splitOn topicSep s = n :: ns := hn
  refine ⟨n, ns, ?_⟩
  rw [split, List.splitOn_cons_eq_if_modifyHead]
  simp [hn', hc]

/-- Only a leading separator makes the first node empty. -/
lemma head_split_cons {c : Char} (hc : c ≠ topicSep) (s : Str) :
    (split (c :: s)).head? ≠ some [] := by
  obtain ⟨n, ns, hn⟩ := split_cons hc s
  simp [hn]

lemma forTable_sep (s : Str) : (Topic.fromStr (topicSep :: s)).forTable = .error .indexError := by
  obtain ⟨m, ms, hm⟩ := List.exists_cons_of_ne_nil (split_ne_nil s)
  simp only [Topic.forTable, Topic.fromStr, split_sep, hm]

lemma forTable_cons {c : Char} (hc : c ≠ topicSep) (s : Str) :
    (Topic.fromStr (c :: s)).forTable = .ok (c = tableFlag) := by
  obtain ⟨n, ns, hn⟩ := split_cons hc s
  simp only [Topic.forTable, Topic.fromStr, hn]

/-- The nodes of a table's topic. -/
def ForTable (nodes : List Str) : Prop := nodes.head?.bind List.head? = some tableFlag

instance : DecidablePred ForTable := fun nodes =>
  inferInstanceAs (Decidable (nodes.head?.bind List.head? = some tableFlag))

lemma forTable_split (s : Str) : ForTable (split s) ↔ s.head? = some tableFlag := by
  cases s with
  | nil => simp [ForTable, split]
  | cons c s =>
    by_cases hc : c = topicSep
    · rw [hc, ForTable, split_sep]
      simp [topicSep, tableFlag]
    · obtain ⟨n, ns, hn⟩ := split_cons hc s
      simp [ForTable, hn]

example : split "light/+/is_on".toList = ["light".toList, manyCard, "is_on".toList] := by decide

end MoteBroker.Topics

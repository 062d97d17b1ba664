import Mathlib.Data.Char
import MoteBroker.Lib.NestedPath

/-!
JSON text: the writer for nested dictionaries of strings and nulls, a reader for all of JSON,
and that reading what was written gives it back.

The writer escapes everything outside printable ASCII. The reader keeps a number as it is
spelt, drops the elements of an array, and takes the last of two members with one name. A
string may have surrogates in it that are not half of a pair; a name that has is not read.
-/

namespace JsonText

open NestedDict

/-- One place of a string: a character, or half of a surrogate pair without the other half. -/
inductive Code
  | char (c : Char)
  | surrogate (n : ℕ)
  deriving DecidableEq, Repr

/-- A value that is not an object. -/
inductive Scalar
  | null
  | bool (b : Bool)
  | num (text : List Char)
  | str (s : List Char)
  /-- A string with a lone surrogate in it, which has no encoding. -/
  | codes (cs : List Code)
  | arr
  deriving DecidableEq, Repr

abbrev Value := Item (List Char) Scalar

/-- The characters of a string, if it has no lone surrogate. -/
def text : List Code → Option (List Char)
  | [] => some []
  | .char c :: cs => (text cs).map (c :: ·)
  | .surrogate _ :: _ => none

def ofCodes (cs : List Code) : Scalar :=
  match text cs with
  | some s => .str s
  | none => .codes cs

@[simp] lemma text_map_char (s : List Char) : text (s.map .char) = some s := by
  induction s with
  | nil => rfl
  | cons c s ih => simp [text, ih]

@[simp] lemma ofCodes_map_char (s : List Char) : ofCodes (s.map .char) = .str s := by
  simp [ofCodes]

/-! ### Writing -/

def hexDigit (n : ℕ) : Char := "0123456789abcdef".toList.getD n '0'

/-- The escape with four hexadecimal digits. -/
def unicodeEscape (n : ℕ) : List Char :=
  ['\\', 'u', hexDigit (n / 4096 % 16), hexDigit (n / 256 % 16), hexDigit (n / 16 % 16),
    hexDigit (n % 16)]

def highSurrogate (n : ℕ) : ℕ := 0xd800 + (n - 0x10000) / 0x400
def lowSurrogate (n : ℕ) : ℕ := 0xdc00 + (n - 0x10000) % 0x400

def escape (c : Char) : List Char :=
  if c = '"' then ['\\', '"']
  else if c = '\\' then ['\\', '\\']
  else if c = '\n' then ['\\', 'n']
  else if c = '\r' then ['\\', 'r']
  else if c = '\t' then ['\\', 't']
  else if c = '\x0c' then ['\\', 'f']
  else if c = '\x08' then ['\\', 'b']
  else if 0x20 ≤ c.toNat ∧ c.toNat ≤ 0x7e then [c]
  else if c.toNat < 0x10000 then unicodeEscape c.toNat
  else unicodeEscape (highSurrogate c.toNat) ++ unicodeEscape (lowSurrogate c.toNat)

def quote (s : List Char) : List Char := '"' :: (s.flatMap escape ++ ['"'])

def dumpsScalar : Option (List Char) → List Char
  | none => ['n', 'u', 'l', 'l']
  | some s => quote s

/-- The members of an object; a comma stands before each but the first. -/
def dumpsMembers : Bool → Dict (List Char) (Option (List Char)) → List Char
  | _, .nil => []
  | first, .leaf k a r =>
    (if first then [] else [',', ' ']) ++ quote k ++ [':', ' '] ++ dumpsScalar a ++
      dumpsMembers false r
  | first, .node k s r =>
    (if first then [] else [',', ' ']) ++ quote k ++ [':', ' '] ++
      '{' :: dumpsMembers true s ++ '}' :: dumpsMembers false r

def dumps (d : Dict (List Char) (Option (List Char))) : List Char :=
  '{' :: dumpsMembers true d ++ ['}']

/-! ### Reading -/

def isSpace (c : Char) : Bool := c = ' ' ∨ c = '\t' ∨ c = '\n' ∨ c = '\r'

def skipSpace (s : List Char) : List Char := s.dropWhile isSpace

def hexVal (c : Char) : Option ℕ :=
  if '0' ≤ c ∧ c ≤ '9' then some (c.toNat - '0'.toNat)
  else if 'a' ≤ c ∧ c ≤ 'f' then some (c.toNat - 'a'.toNat + 10)
  else if 'A' ≤ c ∧ c ≤ 'F' then some (c.toNat - 'A'.toNat + 10)
  else none

def hex4 : List Char → Option (ℕ × List Char)
  | a :: b :: c :: d :: r => do
    let a ← hexVal a
    let b ← hexVal b
    let c ← hexVal c
    let d ← hexVal d
    return (4096 * a + 256 * b + 16 * c + d, r)
  | _ => none

def surrogatePair (n m : ℕ) : Char :=
  Char.ofNat (0x10000 + 0x400 * (n - 0xd800) + (m - 0xdc00))

/-- What a `\u` escape names, a surrogate pair being read as one character. -/
def readUnicode (s : List Char) : Option (Code × List Char) :=
  match hex4 s with
  | none => none
  | some (n, r) =>
    if 0xd800 ≤ n ∧ n < 0xdc00 then
      match r with
      | '\\' :: 'u' :: low =>
        match hex4 low with
        | none => none
        | some (m, rest) =>
          if 0xdc00 ≤ m ∧ m < 0xe000 then some (.char (surrogatePair n m), rest)
          else some (.surrogate n, r)
      | _ => some (.surrogate n, r)
    else if 0xdc00 ≤ n ∧ n < 0xe000 then some (.surrogate n, r)
    else some (.char (Char.ofNat n), r)

def simpleEscape (c : Char) : Option Char :=
  if c = '"' ∨ c = '\\' ∨ c = '/' then some c
  else if c = 'n' then some '\n'
  else if c = 'r' then some '\r'
  else if c = 't' then some '\t'
  else if c = 'f' then some '\x0c'
  else if c = 'b' then some '\x08'
  else none

/-- One place of a string. -/
def readChar : List Char → Option (Code × List Char)
  | [] => none
  | c :: r =>
    if c = '\\' then
      match r with
      | [] => none
      | e :: r => if e = 'u' then readUnicode r else (simpleEscape e).map fun c => (.char c, r)
    else if c.toNat < 0x20 then none
    else some (.char c, r)

/-- A string up to its closing quote. -/
def readStr : ℕ → List Char → Option (List Code × List Char)
  | 0, _ => none
  | n + 1, s =>
    match s with
    | '"' :: r => some ([], r)
    | s => do
      let (c, r) ← readChar s
      let (cs, r) ← readStr n r
      return (c :: cs, r)

def isDigit (c : Char) : Bool := '0' ≤ c ∧ c ≤ '9'

/-- The fraction and the exponent of a number: a mark and at least one digit, or nothing. -/
def readDigitsAfter (mark : List Char → Option (List Char × List Char)) (s : List Char) :
    List Char × List Char :=
  match mark s with
  | some (m, r) =>
    let ds := r.takeWhile isDigit
    if ds = [] then ([], s) else (m ++ ds, r.dropWhile isDigit)
  | none => ([], s)

def fracMark : List Char → Option (List Char × List Char)
  | '.' :: r => some (['.'], r)
  | _ => none

def expMark : List Char → Option (List Char × List Char)
  | c :: s :: r =>
    if c = 'e' ∨ c = 'E' then
      if s = '+' ∨ s = '-' then some ([c, s], r) else some ([c], s :: r)
    else none
  | _ => none

def readNum (s : List Char) : Option (List Char × List Char) :=
  let (sign, s) := match s with
    | '-' :: r => (['-'], r)
    | s => ([], s)
  let int := match s with
    | '0' :: r => some (['0'], r)
    | s => if s.takeWhile isDigit = [] then none
      else some (s.takeWhile isDigit, s.dropWhile isDigit)
  int.map fun (ds, s) =>
    let (frac, s) := readDigitsAfter fracMark s
    let (exp, s) := readDigitsAfter expMark s
    (sign ++ ds ++ frac ++ exp, s)

def literals : List (List Char × Scalar) :=
  [("null".toList, .null), ("true".toList, .bool true), ("false".toList, .bool false),
    ("NaN".toList, .num "NaN".toList), ("Infinity".toList, .num "Infinity".toList),
    ("-Infinity".toList, .num "-Infinity".toList)]

def readScalar (s : List Char) : Option (Scalar × List Char) :=
  match literals.find? fun l => l.1.isPrefixOf s with
  | some l => some (l.2, s.drop l.1.length)
  | none => (readNum s).map fun (n, r) => (.num n, r)

mutual

/-- A value, at a nesting depth and length that the fuel bounds. -/
def readValue : ℕ → List Char → Option (Value × List Char)
  | 0, _ => none
  | n + 1, s =>
    match skipSpace s with
    | '"' :: r => (readStr (r.length + 1) r).map fun (cs, r) => (.leaf (ofCodes cs), r)
    | '{' :: r =>
      match skipSpace r with
      | '}' :: r => some (.node .nil, r)
      | r => (readMembers n .nil r).map fun (d, r) => (.node d, r)
    | '[' :: r =>
      match skipSpace r with
      | ']' :: r => some (.leaf .arr, r)
      | r => (readElements n r).map fun r => (.leaf .arr, r)
    | r => (readScalar r).map fun (a, r) => (.leaf a, r)

/-- The members of an object from the quote of a name on, added to those already read. -/
def readMembers : ℕ → Dict (List Char) Scalar → List Char →
    Option (Dict (List Char) Scalar × List Char)
  | 0, _, _ => none
  | n + 1, d, s =>
    match s with
    | '"' :: r => do
      let (cs, r) ← readStr (r.length + 1) r
      let k ← text cs
      match skipSpace r with
      | ':' :: r => do
        let (v, r) ← readValue n r
        match skipSpace r with
        | ',' :: r => readMembers n (d.set k v) (skipSpace r)
        | '}' :: r => some (d.set k v, r)
        | _ => none
      | _ => none
    | _ => none

def readElements : ℕ → List Char → Option (List Char)
  | 0, _ => none
  | n + 1, s => do
    let (_, r) ← readValue n s
    match skipSpace r with
    | ',' :: r => readElements n r
    | ']' :: r => some r
    | _ => none

end

def loads (s : List Char) : Option Value :=
  match readValue (s.length + 1) s with
  | some (v, r) => if skipSpace r = [] then some v else none
  | none => none

/-! ### The keys of what is read -/

/-- Of two members with one name only one is kept, at every depth. -/
lemma read_distinct (n : ℕ) :
    (∀ s v r, readValue n s = some (v, r) → v.Distinct) ∧
    ∀ d s d' r, d.Distinct → readMembers n d s = some (d', r) → d'.Distinct := by
  induction n with
  | zero =>
    refine ⟨fun s v r h => ?_, fun d s d' r _ h => ?_⟩
    · cases h
    · cases h
  | succ n ih =>
    refine ⟨fun s v r h => ?_, fun d s d' r hd h => ?_⟩
    · unfold readValue at h
      split at h
      · obtain ⟨_, -, h⟩ := Option.map_eq_some_iff.mp h
        cases h
        trivial
      · split at h
        · cases h
          trivial
        · obtain ⟨⟨d, _⟩, hd, h⟩ := Option.map_eq_some_iff.mp h
          cases h
          exact ih.2 .nil _ d _ trivial hd
      · split at h
        · cases h
          trivial
        · obtain ⟨_, -, h⟩ := Option.map_eq_some_iff.mp h
          cases h
          trivial
      · obtain ⟨_, -, h⟩ := Option.map_eq_some_iff.mp h
        cases h
        trivial
    · unfold readMembers at h
      split at h
      case h_2 => cases h
      obtain ⟨⟨cs, r₁⟩, -, h⟩ := Option.bind_eq_some_iff.mp h
      obtain ⟨k, -, h⟩ := Option.bind_eq_some_iff.mp h
      dsimp only at h
      split at h
      case h_2 => cases h
      obtain ⟨⟨v, r₂⟩, hv, h⟩ := Option.bind_eq_some_iff.mp h
      have hset : (d.set k v).Distinct := hd.set k (ih.1 _ v _ hv)
      dsimp only at h
      split at h
      · exact ih.2 _ _ _ _ hset h
      · cases h
        exact hset
      · cases h

theorem loads_distinct {s : List Char} {v : Value} (h : loads s = some v) : v.Distinct := by
  unfold loads at h
  split at h
  case h_1 w r hread =>
    split_ifs at h
    cases h
    exact (read_distinct _).1 s _ r hread
  case h_2 => cases h

/-! ### Reading what was written -/

lemma hexVal_hexDigit : ∀ n < 16, hexVal (hexDigit n) = some n := by decide

lemma hex4_unicodeEscape {n : ℕ} (h : n < 65536) (r : List Char) :
    hex4 ((unicodeEscape n).drop 2 ++ r) = some (n, r) := by
  have h1 := hexVal_hexDigit (n / 4096 % 16) (by omega)
  have h2 := hexVal_hexDigit (n / 256 % 16) (by omega)
  have h3 := hexVal_hexDigit (n / 16 % 16) (by omega)
  have h4 := hexVal_hexDigit (n % 16) (by omega)
  simp only [unicodeEscape, List.drop_succ_cons, List.drop_zero, List.cons_append,
    List.nil_append, hex4, h1, h2, h3, h4, Option.bind_eq_bind, Option.bind_some, Option.pure_def,
    Option.some.injEq, Prod.mk.injEq, and_true]
  omega

lemma unicodeEscape_eq (n : ℕ) : unicodeEscape n = '\\' :: 'u' :: (unicodeEscape n).drop 2 :=
  rfl

lemma toNat_not_surrogate (c : Char) : ¬(0xd800 ≤ c.toNat ∧ c.toNat < 0xe000) := by
  have h : c.val.toNat < 0xd800 ∨ (0xdfff < c.val.toNat ∧ c.val.toNat < 0x110000) := c.valid
  have : c.toNat = c.val.toNat := rfl
  omega

lemma toNat_lt (c : Char) : c.toNat < 0x110000 := by
  have h : c.val.toNat < 0xd800 ∨ (0xdfff < c.val.toNat ∧ c.val.toNat < 0x110000) := c.valid
  have : c.toNat = c.val.toNat := rfl
  omega

lemma readUnicode_bmp {c : Char} (h : c.toNat < 0x10000) (r : List Char) :
    readUnicode ((unicodeEscape c.toNat).drop 2 ++ r) = some (.char c, r) := by
  have hs := toNat_not_surrogate c
  have h1 : ¬(0xd800 ≤ c.toNat ∧ c.toNat < 0xdc00) := by omega
  have h2 : ¬(0xdc00 ≤ c.toNat ∧ c.toNat < 0xe000) := by omega
  unfold readUnicode
  simp only [hex4_unicodeEscape h, h1, h2, if_false, Char.ofNat_toNat]

lemma highSurrogate_range {n : ℕ} (h : 0x10000 ≤ n) (h' : n < 0x110000) :
    0xd800 ≤ highSurrogate n ∧ highSurrogate n < 0xdc00 := by
  unfold highSurrogate; omega

lemma lowSurrogate_range (n : ℕ) : 0xdc00 ≤ lowSurrogate n ∧ lowSurrogate n < 0xe000 := by
  unfold lowSurrogate; omega

lemma surrogatePair_eq {c : Char} (h : 0x10000 ≤ c.toNat) :
    surrogatePair (highSurrogate c.toNat) (lowSurrogate c.toNat) = c := by
  have he : 0x10000 + 0x400 * (highSurrogate c.toNat - 0xd800) +
      (lowSurrogate c.toNat - 0xdc00) = c.toNat := by
    unfold highSurrogate lowSurrogate; omega
  rw [surrogatePair, he, Char.ofNat_toNat]

lemma readUnicode_pair {c : Char} {n m : ℕ} (hn : 0xd800 ≤ n ∧ n < 0xdc00)
    (hm : 0xdc00 ≤ m ∧ m < 0xe000) (hc : surrogatePair n m = c) (r : List Char) :
    readUnicode ((unicodeEscape n).drop 2 ++ (unicodeEscape m ++ r)) = some (.char c, r) := by
  rw [unicodeEscape_eq m]
  unfold readUnicode
  simp only [hex4_unicodeEscape (show n < 65536 by omega), hn, List.cons_append, and_self,
    if_true, hex4_unicodeEscape (show m < 65536 by omega), hm, hc]

lemma readChar_unicode (r : List Char) : readChar ('\\' :: 'u' :: r) = readUnicode r := rfl

/-- A character is escaped by another, or stays as it is, or is written by its code. -/
lemma escape_cases (c : Char) :
    (∃ e, escape c = ['\\', e] ∧ e ≠ 'u' ∧ simpleEscape e = some c) ∨
      (escape c = [c] ∧ c ≠ '"' ∧ c ≠ '\\' ∧ 0x20 ≤ c.toNat) ∨
      (escape c = unicodeEscape c.toNat ∧ c.toNat < 0x10000) ∨
      (escape c = unicodeEscape (highSurrogate c.toNat) ++ unicodeEscape (lowSurrogate c.toNat) ∧
        0x10000 ≤ c.toNat) := by
  by_cases h1 : c = '"'
  · exact .inl ⟨'"', by rw [h1]; rfl, by decide, by rw [h1]; rfl⟩
  by_cases h2 : c = '\\'
  · exact .inl ⟨'\\', by rw [h2]; rfl, by decide, by rw [h2]; rfl⟩
  by_cases h3 : c = '\n'
  · exact .inl ⟨'n', by rw [h3]; rfl, by decide, by rw [h3]; rfl⟩
  by_cases h4 : c = '\r'
  · exact .inl ⟨'r', by rw [h4]; rfl, by decide, by rw [h4]; rfl⟩
  by_cases h5 : c = '\t'
  · exact .inl ⟨'t', by rw [h5]; rfl, by decide, by rw [h5]; rfl⟩
  by_cases h6 : c = '\x0c'
  · exact .inl ⟨'f', by rw [h6]; rfl, by decide, by rw [h6]; rfl⟩
  by_cases h7 : c = '\x08'
  · exact .inl ⟨'b', by rw [h7]; rfl, by decide, by rw [h7]; rfl⟩
  rw [escape, if_neg h1, if_neg h2, if_neg h3, if_neg h4, if_neg h5, if_neg h6, if_neg h7]
  by_cases h8 : 0x20 ≤ c.toNat ∧ c.toNat ≤ 0x7e
  · exact .inr (.inl ⟨if_pos h8, h1, h2, h8.1⟩)
  rw [if_neg h8]
  by_cases h9 : c.toNat < 0x10000
  · exact .inr (.inr (.inl ⟨if_pos h9, h9⟩))
  · exact .inr (.inr (.inr ⟨if_neg h9, not_lt.mp h9⟩))

/-- A character is read back from its escape. -/
lemma readChar_escape (c : Char) (r : List Char) :
    readChar (escape c ++ r) = some (.char c, r) := by
  rcases escape_cases c with ⟨e, he, hu, hsimple⟩ | ⟨he, -, hb, hc⟩ | ⟨he, hc⟩ | ⟨he, hc⟩
  · simp only [he, List.cons_append, List.nil_append, readChar, if_true, if_neg hu, hsimple,
      Option.map_some]
  · simp only [he, List.cons_append, List.nil_append, readChar, if_neg hb]
    rw [if_neg (by omega)]
  · rw [he, unicodeEscape_eq, List.cons_append, List.cons_append, readChar_unicode]
    exact readUnicode_bmp hc r
  · rw [he, unicodeEscape_eq (highSurrogate c.toNat), List.append_assoc, List.cons_append,
      List.cons_append, readChar_unicode]
    exact readUnicode_pair (highSurrogate_range hc (toNat_lt c)) (lowSurrogate_range _)
      (surrogatePair_eq hc) r

/-- An escape never starts like a closing quote. -/
lemma escape_head (c : Char) : ∃ x xs, escape c = x :: xs ∧ x ≠ '"' := by
  rcases escape_cases c with ⟨e, he, -⟩ | ⟨he, hq, -⟩ | ⟨he, -⟩ | ⟨he, -⟩
  · exact ⟨_, _, he, by decide⟩
  · exact ⟨_, _, he, hq⟩
  · exact ⟨_, _, he, by decide⟩
  · exact ⟨_, _, he, by decide⟩

lemma readStr_quote (s r : List Char) {n : ℕ} (h : s.length < n) :
    readStr n (s.flatMap escape ++ '"' :: r) = some (s.map .char, r) := by
  induction s generalizing n with
  | nil =>
    obtain ⟨n, rfl⟩ := Nat.exists_eq_add_of_lt h
    simp [readStr]
  | cons c s ih =>
    obtain ⟨n, rfl⟩ : ∃ m, n = m + 1 := ⟨n - 1, by simp at h; omega⟩
    have hc := readChar_escape c (s.flatMap escape ++ '"' :: r)
    obtain ⟨x, xs, hx, hne⟩ := escape_head c
    rw [List.flatMap_cons, List.append_assoc]
    rw [hx] at hc ⊢
    rw [List.cons_append] at hc ⊢
    rw [readStr]
    · rw [hc]
      simp only [Option.bind_eq_bind, Option.bind_some]
      rw [ih (by simpa using h)]
      rfl
    · intro r' he
      exact hne (List.cons.inj he).1

lemma length_le_flatMap_escape (s : List Char) : s.length ≤ (s.flatMap escape).length := by
  induction s with
  | nil => simp
  | cons c s ih =>
    obtain ⟨x, xs, hx, -⟩ := escape_head c
    simp only [List.flatMap_cons, List.length_append, List.length_cons, hx]
    omega

/-- A quoted string, read from behind its opening quote. -/
lemma readStr_tail (s r : List Char) :
    readStr ((s.flatMap escape ++ '"' :: r).length + 1) (s.flatMap escape ++ '"' :: r) =
      some (s.map .char, r) := by
  refine readStr_quote s r ?_
  have := length_le_flatMap_escape s
  simp only [List.length_append]
  omega

def toScalar : Option (List Char) → Scalar
  | none => .null
  | some s => .str s

lemma readValue_scalar (n : ℕ) (a : Option (List Char)) (r : List Char) :
    readValue (n + 1) (' ' :: (dumpsScalar a ++ r)) = some (.leaf (toScalar a), r) := by
  have hs : skipSpace (' ' :: (dumpsScalar a ++ r)) = dumpsScalar a ++ r := by
    cases a <;> rfl
  rw [readValue, hs]
  cases a with
  | none => rfl
  | some s =>
    have := readStr_tail s r
    simp only [dumpsScalar, quote, List.cons_append, List.append_assoc, List.nil_append, this]
    simp [toScalar]

lemma dumpsMembers_false {d : Dict (List Char) (Option (List Char))} (h : d ≠ .nil) :
    dumpsMembers false d = ',' :: ' ' :: dumpsMembers true d := by
  cases d with
  | nil => exact absurd rfl h
  | leaf k a r => simp [dumpsMembers]
  | node k s r => simp [dumpsMembers]

lemma dumpsMembers_head {d : Dict (List Char) (Option (List Char))} (h : d ≠ .nil) :
    ∃ t, dumpsMembers true d = '"' :: t := by
  cases d with
  | nil => exact absurd rfl h
  | leaf k a r => exact ⟨_, rfl⟩
  | node k s r => exact ⟨_, rfl⟩

/-- One member is read when its value is, and the others after it. -/
lemma readMembers_member {n : ℕ} {acc R : Dict (List Char) Scalar} {k w rest : List Char}
    {v : Value} {r : Dict (List Char) (Option (List Char))}
    (hv : readValue n (' ' :: (w ++ (dumpsMembers false r ++ '}' :: rest))) =
      some (v, dumpsMembers false r ++ '}' :: rest))
    (hnil : r = .nil → R = acc.set k v)
    (hr : r ≠ .nil → readMembers n (acc.set k v) (dumpsMembers true r ++ '}' :: rest) =
      some (R, rest)) :
    readMembers (n + 1) acc
      (quote k ++ ':' :: ' ' :: (w ++ (dumpsMembers false r ++ '}' :: rest))) =
      some (R, rest) := by
  have hk := readStr_tail k (':' :: ' ' :: (w ++ (dumpsMembers false r ++ '}' :: rest)))
  simp only [quote, List.cons_append, List.append_assoc, List.nil_append]
  rw [readMembers, hk]
  have hcolon : ∀ t, skipSpace (':' :: t) = ':' :: t := fun t => rfl
  simp only [Option.bind_eq_bind, Option.bind_some, text_map_char, hcolon, hv]
  by_cases h : r = .nil
  · rw [hnil h, h]; rfl
  · obtain ⟨t, ht⟩ := dumpsMembers_head h
    have hsp : skipSpace (' ' :: (dumpsMembers true r ++ '}' :: rest)) =
        dumpsMembers true r ++ '}' :: rest := by rw [ht]; rfl
    have hcomma : ∀ t, skipSpace (',' :: t) = ',' :: t := fun t => rfl
    rw [dumpsMembers_false h]
    simp only [List.cons_append, hcomma, hsp, hr h]

/-- A nonempty object is read when its members are. -/
lemma readValue_object {n : ℕ} {s t : List Char} {R : Dict (List Char) Scalar}
    {d : Dict (List Char) (Option (List Char))} (h0 : d ≠ .nil)
    (hs : skipSpace s = '{' :: (dumpsMembers true d ++ '}' :: t))
    (h : readMembers n .nil (dumpsMembers true d ++ '}' :: t) = some (R, t)) :
    readValue (n + 1) s = some (.node R, t) := by
  obtain ⟨x, hx⟩ := dumpsMembers_head h0
  rw [hx] at hs h
  have hq : ∀ y, skipSpace ('"' :: y) = '"' :: y := fun y => rfl
  rw [readValue, hs]
  simp only [List.cons_append, hq] at h ⊢
  change Option.map (fun p => (Item.node p.1, p.2))
    (readMembers n .nil ('"' :: (x ++ '}' :: t))) = some (Item.node R, t)
  rw [h]
  rfl

/-- The fuel that reading a dictionary back takes. -/
def fuel : Dict (List Char) (Option (List Char)) → ℕ
  | .nil => 0
  | .leaf _ _ r => fuel r + 2
  | .node _ s r => fuel s + fuel r + 2

lemma fuel_le (first : Bool) (d : Dict (List Char) (Option (List Char))) :
    fuel d ≤ (dumpsMembers first d).length := by
  induction d generalizing first with
  | nil => simp [fuel]
  | leaf k a r ih =>
    have := ih false
    simp only [fuel, dumpsMembers, quote, List.length_append, List.length_cons]
    omega
  | node k s r ihs ih =>
    have h1 := ihs true
    have h2 := ih false
    simp only [fuel, dumpsMembers, quote, List.length_append, List.length_cons]
    omega

/-- The members of a dictionary are read back, on top of those read before. -/
lemma readMembers_dumpsMembers {d : Dict (List Char) (Option (List Char))} (hd : d.Distinct)
    (h0 : d ≠ .nil) (acc : Dict (List Char) Scalar) (rest : List Char) {n : ℕ}
    (hn : fuel d ≤ n) :
    readMembers n acc (dumpsMembers true d ++ '}' :: rest) =
      some (acc.update (d.map toScalar), rest) := by
  induction d generalizing acc rest n with
  | nil => exact absurd rfl h0
  | leaf k a r ih =>
    obtain ⟨n, rfl⟩ : ∃ m, n = m + 2 := ⟨n - 2, by simp [fuel] at hn; omega⟩
    have he : dumpsMembers true (.leaf k a r) ++ '}' :: rest =
        quote k ++ ':' :: ' ' :: (dumpsScalar a ++ (dumpsMembers false r ++ '}' :: rest)) := by
      simp [dumpsMembers]
    rw [he]
    refine readMembers_member (readValue_scalar n a _) ?_ ?_
    · rintro rfl; rfl
    · exact fun h => ih hd.2 h _ rest (by simp [fuel] at hn; omega)
  | node k s r ihs ih =>
    obtain ⟨n, rfl⟩ : ∃ m, n = m + 2 := ⟨n - 2, by simp [fuel] at hn; omega⟩
    have he : dumpsMembers true (.node k s r) ++ '}' :: rest =
        quote k ++ ':' :: ' ' ::
          (('{' :: dumpsMembers true s ++ ['}']) ++ (dumpsMembers false r ++ '}' :: rest)) := by
      simp [dumpsMembers]
    rw [he]
    refine readMembers_member (v := .node (s.map toScalar)) ?_ ?_ ?_
    · -- the inner object
      generalize dumpsMembers false r ++ '}' :: rest = t
      by_cases hs : s = .nil
      · subst hs; rfl
      · have := ihs hd.2.1 hs .nil t (n := n) (by simp [fuel] at hn; omega)
        rw [Dict.nil_update (by simpa using hd.2.1)] at this
        refine readValue_object hs ?_ this
        simp only [List.cons_append, List.append_assoc, List.nil_append]
        rfl
    · rintro rfl; rfl
    · exact fun h => ih hd.2.2 h _ rest (by simp [fuel] at hn; omega)

/-- **Reading gives back what was written.** -/
theorem loads_dumps {d : Dict (List Char) (Option (List Char))} (hd : d.Distinct) :
    loads (dumps d) = some (.node (d.map toScalar)) := by
  unfold loads dumps
  by_cases h : d = .nil
  · subst h; rfl
  · have := readMembers_dumpsMembers hd h .nil []
      (n := ('{' :: dumpsMembers true d ++ ['}']).length)
      (by have := fuel_le true d; simp only [List.length_append, List.length_cons]; omega)
    rw [Dict.nil_update (by simpa using hd)] at this
    rw [readValue_object h rfl this]
    rfl

end JsonText

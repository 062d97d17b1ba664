import Mathlib.Data.List.Basic

/-!
UTF-8 on lists of bytes, and that encoding and strict decoding undo each other.
-/

namespace Utf8

def encode (s : List Char) : List UInt8 := s.flatMap String.utf8EncodeChar

/-- Strict decoding: `none` unless the bytes are well-formed UTF-8. -/
def decode (b : List UInt8) : Option (List Char) :=
  b.toByteArray.utf8Decode?.map Array.toList

lemma toByteArray_encode (s : List Char) : (encode s).toByteArray = s.utf8Encode := rfl

@[simp] theorem decode_encode (s : List Char) : decode (encode s) = some s := by
  simp [decode, toByteArray_encode, List.utf8Decode?_utf8Encode]

theorem encode_of_decode {b : List UInt8} {s : List Char} (h : decode b = some s) :
    encode s = b := by
  obtain ⟨a, ha, rfl⟩ := Option.map_eq_some_iff.mp h
  have hs : b.toByteArray.utf8Decode?.isSome := by rw [ha]; rfl
  have he := ByteArray.utf8Encode_get_utf8Decode? (b := b.toByteArray) (h := hs)
  have hg : b.toByteArray.utf8Decode?.get hs = a := by simp [ha]
  rw [hg, ← toByteArray_encode] at he
  have := congrArg (fun x => x.data.toList) he
  simpa using this

lemma encode_eq_nil {s : List Char} : encode s = [] ↔ s = [] := by
  refine ⟨?_, ?_⟩
  · intro h
    have := decode_encode s
    rw [h] at this
    have h0 : decode [] = some [] := decode_encode []
    rw [h0] at this
    exact (Option.some.inj this).symm
  · rintro rfl; rfl

/-- A list is no longer than what is written for its members, if something is for each of them. -/
lemma length_le_flatMap {α β : Type*} {f : α → List β} (h : ∀ a, f a ≠ []) (l : List α) :
    l.length ≤ (l.flatMap f).length := by
  induction l with
  | nil => exact Nat.zero_le _
  | cons a l ih =>
    have hpos := List.length_pos_iff.mpr (h a)
    rw [List.flatMap_cons, List.length_append, List.length_cons]
    omega

lemma length_le_encode (s : List Char) : s.length ≤ (encode s).length :=
  length_le_flatMap (fun _ => String.utf8EncodeChar_ne_nil) s

/-! ### ASCII -/

/-- The characters of one byte. -/
def Ascii (s : List Char) : Prop := ∀ c ∈ s, c.utf8Size = 1

instance decAscii (s : List Char) : Decidable (Ascii s) :=
  List.decidableBAll (fun c : Char => c.utf8Size = 1) s

lemma toNat_le_of_ascii {c : Char} (h : c.utf8Size = 1) : c.val.toNat ≤ 127 :=
  Char.utf8Size_eq_one_iff.mp h

/-- The bytes of a character that has more than one are not ASCII. -/
lemma le_of_mem_utf8EncodeChar {c : Char} (h : c.utf8Size ≠ 1) {b : UInt8}
    (hb : b ∈ String.utf8EncodeChar c) : 128 ≤ b.toNat := by
  have hor : ∀ x y : UInt8, 128 ≤ y.toNat → 128 ≤ (x ||| y).toNat := fun x y hy => by
    rw [UInt8.toNat_or]
    exact Nat.le_trans hy Nat.right_le_or
  have hle := c.utf8Size_le_four
  have hpos := c.utf8Size_pos
  obtain hsize | hsize | hsize : c.utf8Size = 2 ∨ c.utf8Size = 3 ∨ c.utf8Size = 4 := by omega
  · rw [String.utf8EncodeChar_eq_cons_cons hsize] at hb
    simp only [List.mem_cons, List.not_mem_nil, or_false] at hb
    rcases hb with rfl | rfl <;> exact hor _ _ (by decide)
  · rw [String.utf8EncodeChar_eq_cons_cons_cons hsize] at hb
    simp only [List.mem_cons, List.not_mem_nil, or_false] at hb
    rcases hb with rfl | rfl | rfl <;> exact hor _ _ (by decide)
  · rw [String.utf8EncodeChar_eq_cons_cons_cons_cons hsize] at hb
    simp only [List.mem_cons, List.not_mem_nil, or_false] at hb
    rcases hb with rfl | rfl | rfl | rfl <;> exact hor _ _ (by decide)

lemma encode_cons (c : Char) (s : List Char) :
    encode (c :: s) = String.utf8EncodeChar c ++ encode s := rfl

lemma encode_append (s t : List Char) : encode (s ++ t) = encode s ++ encode t :=
  List.flatMap_append

lemma encode_cons_ascii {c : Char} (h : c.utf8Size = 1) (s : List Char) :
    encode (c :: s) = c.val.toUInt8 :: encode s := by
  rw [encode_cons, String.utf8EncodeChar_eq_singleton h]
  rfl

lemma encode_dropLast {s : List Char} (h : Ascii s) : (encode s).dropLast = encode s.dropLast := by
  rcases List.eq_nil_or_concat s with rfl | ⟨s, c, rfl⟩
  · rfl
  · rw [List.concat_eq_append] at h ⊢
    have hc := h c (List.mem_append_right _ (List.mem_singleton_self c))
    rw [encode_append, encode_cons_ascii hc, List.dropLast_concat]
    exact List.dropLast_concat

lemma toNat_toUInt8_of_ascii {c : Char} (h : c.utf8Size = 1) :
    c.val.toUInt8.toNat = c.val.toNat := by
  have hle := toNat_le_of_ascii h
  rw [UInt32.toNat_toUInt8]
  omega

/-- An ASCII text is found at the beginning of bytes only where it is in the text. -/
lemma prefix_of_encode {pat s : List Char} (hpat : Ascii pat) (h : encode pat <+: encode s) :
    pat <+: s := by
  induction pat generalizing s with
  | nil => exact List.nil_prefix
  | cons p pat ih =>
    have hp := hpat p List.mem_cons_self
    rw [encode_cons_ascii hp] at h
    cases s with
    | nil => exact absurd (List.prefix_nil.mp h) (List.cons_ne_nil _ _)
    | cons c s =>
      by_cases hc : c.utf8Size = 1
      · rw [encode_cons_ascii hc, List.cons_prefix_cons] at h
        obtain ⟨hbyte, hrest⟩ := h
        have hval : p.val.toNat = c.val.toNat := by
          rw [← toNat_toUInt8_of_ascii hp, hbyte, toNat_toUInt8_of_ascii hc]
        obtain rfl : p = c := Char.ext (UInt32.toNat_inj.mp hval)
        exact List.cons_prefix_cons.mpr
          ⟨rfl, ih (fun x hx => hpat x (List.mem_cons_of_mem _ hx)) hrest⟩
      · obtain ⟨b, bs, hbytes⟩ := List.exists_cons_of_ne_nil
          (String.utf8EncodeChar_ne_nil : String.utf8EncodeChar c ≠ [])
        have hb := le_of_mem_utf8EncodeChar hc (hbytes ▸ List.mem_cons_self)
        rw [encode_cons, hbytes, List.cons_append, List.cons_prefix_cons] at h
        have hle := toNat_le_of_ascii hp
        rw [← toNat_toUInt8_of_ascii hp, h.1] at hle
        omega

/-- Bytes that are not ASCII do not begin an ASCII text. -/
lemma infix_of_append {x : UInt8} {pat u bs : List UInt8} (hx : x.toNat < 128)
    (hu : ∀ b ∈ u, 128 ≤ b.toNat) (h : x :: pat <:+: u ++ bs) : x :: pat <:+: bs := by
  induction u with
  | nil => exact h
  | cons b u ih =>
    rcases List.infix_cons_iff.mp h with hhere | hrest
    · obtain rfl := (List.cons_prefix_cons.mp hhere).1
      have hb := hu x List.mem_cons_self
      omega
    · exact ih (fun b hb => hu b (List.mem_cons_of_mem _ hb)) hrest

/-- **An ASCII text is found in bytes only where it is in the text.** -/
theorem infix_of_encode {pat s : List Char} (hne : pat ≠ []) (hpat : Ascii pat)
    (h : encode pat <:+: encode s) : pat <:+: s := by
  obtain ⟨p, rest, rfl⟩ := List.exists_cons_of_ne_nil hne
  have hp := hpat p List.mem_cons_self
  induction s with
  | nil => exact absurd (encode_eq_nil.mp (List.infix_nil.mp h)) (List.cons_ne_nil _ _)
  | cons c s ih =>
    by_cases hc : c.utf8Size = 1
    · rw [encode_cons_ascii hc, List.infix_cons_iff, ← encode_cons_ascii hc] at h
      rcases h with hhere | hrest
      · exact (prefix_of_encode hpat hhere).isInfix
      · exact List.infix_cons (ih hrest)
    · have hlt : p.val.toUInt8.toNat < 128 := by
        rw [toNat_toUInt8_of_ascii hp]
        exact Nat.lt_succ_of_le (toNat_le_of_ascii hp)
      rw [encode_cons_ascii hp, encode_cons] at h
      have hrest := infix_of_append hlt (fun b hb => le_of_mem_utf8EncodeChar hc hb) h
      rw [← encode_cons_ascii hp] at hrest
      exact List.infix_cons (ih hrest)

end Utf8

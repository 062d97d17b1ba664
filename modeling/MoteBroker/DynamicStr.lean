import MoteBroker.Framing

/-!
Strings on the wire: when `PacketDynamicStr.to_bytes` writes what `decode_str` has read.
-/

namespace MoteBroker.DynamicStr

open ByteReader MoteBroker.Topics MoteBroker.Streams MoteBroker.PacketTypes

/-! ### What is read -/

/-- What is read as a string is a length and as many bytes, of which the string is the text. -/
lemma wire_of_reads {wire : Bytes} {s : Str} {k : ℕ} (h : Reads decodeStr wire (s, k)) :
    (wire.drop 2).length < 256 ^ 2 ∧ wire = toBE 2 (wire.drop 2).length ++ wire.drop 2 ∧
      s = text (wire.drop 2) := by
  have hrun := h []
  rw [List.append_nil] at hrun
  have htakes := Framing.takes_decodeStr wire
  have hle : 2 + ofBE (wire.take 2) ≤ wire.length := by
    by_contra hgt
    obtain ⟨e, herror⟩ := htakes.error (by omega)
    rw [hrun] at herror
    cases herror
  obtain ⟨r, hok, -⟩ := htakes.ok hle
  have hrest : [] = wire.drop (2 + ofBE (wire.take 2)) :=
    (Prod.mk.inj (Except.ok.inj (hrun.symm.trans hok))).2
  have hge : wire.length ≤ 2 + ofBE (wire.take 2) := List.drop_eq_nil_iff.mp hrest.symm
  have htwo : (wire.take 2).length = 2 := List.length_take_of_le (by omega)
  have hbody : (wire.drop 2).length = ofBE (wire.take 2) := by
    rw [List.length_drop]
    omega
  have hlt : (wire.drop 2).length < 256 ^ 2 := by
    have hbound := ofBE_lt (wire.take 2)
    rwa [htwo, ← hbody] at hbound
  have hwire : wire = toBE 2 (wire.drop 2).length ++ wire.drop 2 := by
    have hsize := toBE_ofBE (wire.take 2)
    rw [htwo, ← hbody] at hsize
    rw [hsize, List.take_append_drop]
  have htext := reads_text hlt []
  rw [← hwire, List.append_nil, hrun] at htext
  exact ⟨hlt, hwire, congrArg (fun r => r.1.1) (Except.ok.inj htext)⟩

lemma reprByte_ne_nil (quote : Char) (b : UInt8) : reprByte quote b ≠ [] := by
  unfold reprByte
  dsimp only
  split_ifs <;> exact List.cons_ne_nil _ _

/-- The `repr` of bytes is longer than they are. -/
lemma length_lt_reprBytes (bs : Bytes) : bs.length < (Utf8.encode (reprBytes bs)).length := by
  unfold reprBytes
  dsimp only
  generalize (if 0x27 ∈ bs ∧ 0x22 ∉ bs then '"' else '\'') = quote
  have hbytes := Utf8.length_le_flatMap (reprByte_ne_nil quote) bs
  have hchars := Utf8.length_le_encode ('b' :: quote :: (bs.flatMap (reprByte quote) ++ [quote]))
  simp only [List.length_cons, List.length_append, List.length_nil] at hchars
  omega

/-! ### Writing what was read -/

lemma toBytes_ok {s : Str} {wire : Bytes} (h : Basic.dynamicStr.toBytes (.str s) = .ok wire) :
    wire.length = 2 + (Utf8.encode s).length := by
  obtain ⟨size, hpack, hwire⟩ := ok_of_bind h
  cases hwire
  unfold pack at hpack
  split at hpack
  · cases hpack
    rw [List.length_append, length_toBE]
  · cases hpack

/-- The text of bytes is written as these bytes exactly if they are UTF-8. -/
lemma toBytes_text_iff {bs : Bytes} (h : bs.length < 256 ^ 2) :
    Basic.dynamicStr.toBytes (.str (text bs)) = .ok (toBE 2 bs.length ++ bs) ↔
      (Utf8.decode bs).isSome := by
  unfold text
  cases hdecode : Utf8.decode bs with
  | some s =>
    refine iff_of_true ?_ rfl
    rw [Option.getD_some, Basic.toBytes, Utf8.encode_of_decode hdecode, pack, if_pos h]
    rfl
  | none =>
    refine iff_of_false (fun hwrite => ?_) (by simp)
    have hlength := toBytes_ok hwrite
    have hlonger := length_lt_reprBytes bs
    rw [List.length_append, length_toBE, Option.getD_none] at hlength
    omega

lemma toBytes_read_iff {wire : Bytes} {s : Str} {k : ℕ} (h : Reads decodeStr wire (s, k)) :
    Basic.dynamicStr.toBytes (.str s) = .ok wire ↔ (Utf8.decode (wire.drop 2)).isSome := by
  obtain ⟨hlt, hwire, rfl⟩ := wire_of_reads h
  have hiff := toBytes_text_iff hlt
  rwa [← hwire] at hiff

/-- **Decoding strings is faithful to UTF-8**: a string is written again as the bytes from which it
was read exactly if those after the length are UTF-8, no other such bytes are read as the same
string, and bytes that are not UTF-8 are read as their `repr`. -/
theorem decodeStr_faithful {wire : Bytes} {s : Str} {k : ℕ} (h : Reads decodeStr wire (s, k)) :
    (Basic.dynamicStr.toBytes (.str s) = .ok wire ↔ (Utf8.decode (wire.drop 2)).isSome) ∧
    (∀ other l, Reads decodeStr other (s, l) → (Utf8.decode (wire.drop 2)).isSome →
      (Utf8.decode (other.drop 2)).isSome → other = wire) ∧
    (Utf8.decode (wire.drop 2) = none → s = reprBytes (wire.drop 2)) := by
  refine ⟨toBytes_read_iff h, fun other l hother hutf8 hutf8' => ?_, fun hnone => ?_⟩
  · have hwrite := (toBytes_read_iff h).mpr hutf8
    have hwrite' := (toBytes_read_iff hother).mpr hutf8'
    exact Except.ok.inj (hwrite'.symm.trans hwrite)
  · obtain ⟨-, -, rfl⟩ := wire_of_reads h
    rw [text, hnone]
    rfl

theorem decodeStr_faithful_a :
    (Basic.dynamicStr.toBytes (.str ['a']) = .ok [0, 1, 97] ↔ (Utf8.decode [97]).isSome) ∧
    (∀ other l, Reads decodeStr other (['a'], l) → (Utf8.decode [97]).isSome →
      (Utf8.decode (other.drop 2)).isSome → other = [0, 1, 97]) ∧
    (Utf8.decode [97] = none → ['a'] = reprBytes [97]) :=
  decodeStr_faithful (reads_decodeStr (s := ['a']) (by decide))

/-- A byte that is not UTF-8 is read like the seven characters of its `repr`. -/
theorem invalid_byte_not_faithful :
    Reads decodeStr [0, 1, 0xff] ("b'\\xff'".toList, 3) ∧
    Reads decodeStr [0, 7, 98, 39, 92, 120, 102, 102, 39] ("b'\\xff'".toList, 9) ∧
    Basic.dynamicStr.toBytes (.str "b'\\xff'".toList) ≠ .ok [0, 1, 0xff] := by
  have hinvalid : text [0xff] = "b'\\xff'".toList := by decide
  have hread := @reads_text [0xff] (by decide)
  rw [hinvalid] at hread
  refine ⟨hread, reads_decodeStr (s := "b'\\xff'".toList) (by decide), ?_⟩
  decide

end MoteBroker.DynamicStr

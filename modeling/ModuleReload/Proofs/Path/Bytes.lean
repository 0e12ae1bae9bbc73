import ModuleReload.Path.Parts

/-!
# Texts in bytes

The ASCII characters of a text stand in its bytes as they are, and none of its other characters has
a byte that looks like one (`mem_encode_iff`). So a text has a dot or a slash exactly if its bytes
do.
-/

namespace ModuleReload

namespace Text

/-! ## The bytes of a character -/

/-- The bytes of one character. -/
def bytesOf (c : Char) : List Char :=
  (String.utf8EncodeChar c).map Char.ofUInt8

theorem toList_encode (s : String) : (encode s).toList = s.toList.flatMap bytesOf := by
  rw [encode, String.toList_ofList, List.map_flatMap]
  rfl

theorem toNat_ofUInt8 {n : Nat} (h : n < 256) : (Char.ofUInt8 (UInt8.ofNat n)).toNat = n :=
  Nat.mod_eq_of_lt h

theorem bytesOf_ascii {c : Char} (h : c.toNat < 128) : bytesOf c = [c] := by
  have hc : String.utf8EncodeChar c = [UInt8.ofNat c.toNat] := by
    have hle : c.val.toNat ≤ 127 := Nat.le_of_lt_succ h
    simp only [String.utf8EncodeChar, if_pos hle]
    rfl
  rw [bytesOf, hc, List.map_singleton, List.singleton_inj, ← Char.toNat_inj,
    toNat_ofUInt8 (by omega)]

theorem le_toNat_of_mem_bytesOf {c d : Char} (h : 128 ≤ c.toNat) (hd : d ∈ bytesOf c) :
    128 ≤ d.toNat := by
  have hgt : ¬c.val.toNat ≤ 127 := Nat.not_le.mpr h
  have hbyte {n : Nat} (hn : 128 ≤ n ∧ n < 256) : 128 ≤ (Char.ofUInt8 (UInt8.ofNat n)).toNat := by
    rw [toNat_ofUInt8 hn.2]
    exact hn.1
  simp only [bytesOf, String.utf8EncodeChar, if_neg hgt] at hd
  split at hd
  · simp only [List.map_cons, List.map_nil, List.mem_cons, List.not_mem_nil, or_false] at hd
    rcases hd with rfl | rfl <;> exact hbyte (by omega)
  · split at hd
    · simp only [List.map_cons, List.map_nil, List.mem_cons, List.not_mem_nil, or_false] at hd
      rcases hd with rfl | rfl | rfl <;> exact hbyte (by omega)
    · simp only [List.map_cons, List.map_nil, List.mem_cons, List.not_mem_nil, or_false] at hd
      rcases hd with rfl | rfl | rfl | rfl <;> exact hbyte (by omega)

theorem mem_bytesOf_iff {c d : Char} (hd : d.toNat < 128) : d ∈ bytesOf c ↔ d = c := by
  by_cases hc : c.toNat < 128
  · rw [bytesOf_ascii hc, List.mem_singleton]
  · refine ⟨fun h ↦ ?_, fun h ↦ absurd (h ▸ hd) hc⟩
    have := le_toNat_of_mem_bytesOf (Nat.not_lt.mp hc) h
    omega

/-! ## The bytes of a text -/

/-- An ASCII character stands in the bytes of a text where it stands in the text. -/
theorem mem_encode_iff {c : Char} (hc : c.toNat < 128) {s : String} :
    c ∈ (encode s).toList ↔ c ∈ s.toList := by
  rw [toList_encode, List.mem_flatMap]
  constructor
  · rintro ⟨d, hd, hmem⟩
    rwa [(mem_bytesOf_iff hc).mp hmem]
  · exact fun h ↦ ⟨c, h, (mem_bytesOf_iff hc).mpr rfl⟩

@[simp] theorem encode_empty : encode "" = "" := by
  decide

@[simp] theorem encode_eq_empty_iff {s : String} : encode s = "" ↔ s = "" :=
  ⟨fun h ↦ encode_inj.mp (h.trans encode_empty.symm), fun h ↦ h ▸ encode_empty⟩

@[simp] theorem encode_append (s t : String) : encode (s ++ t) = encode s ++ encode t := by
  rw [← String.toList_inj]
  simp only [toList_encode, String.toList_append, List.flatMap_append]

theorem bind_decode?_eq_some_iff {b : Option Bytes} {s : String} :
    b.bind decode? = some s ↔ b = some (encode s) := by
  cases b with
  | none => simp
  | some b => rw [Option.bind_some, decode?_eq_some_iff, Option.some.injEq, eq_comm]

end Text

end ModuleReload

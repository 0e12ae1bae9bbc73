import ModuleReload.Text.Pieces

/-!
# Bytes

What a file system calls its files are bytes, and these need not be the UTF-8 of any text. Bytes
are kept as a string in which each character, up to the code 255, stands for the byte of its code:
ASCII stands for itself, `é` is the two characters of its two bytes, and a name may hold the one
character `ÿ`, the byte 255, which is in no UTF-8. So what is cut at slashes and dots are bytes.

`encode` gives the bytes of a text and `decode?` the text of bytes that have one. Each takes back
the other (`decode?_eq_some_iff`). Messages show all bytes (`shown`).
-/

namespace ModuleReload

/-- Bytes, each as the character of its code. -/
abbrev Bytes := String

namespace Text

/-! ## UTF-8 -/

def encode (s : String) : Bytes :=
  String.ofList ((s.toList.flatMap String.utf8EncodeChar).map Char.ofUInt8)

/-- The text that the bytes are the UTF-8 of. A character above 255 is no byte. -/
def decode? (b : Bytes) : Option String :=
  if b.toList.all (·.toNat < 256) then
    String.fromUTF8? (b.toList.map Char.toUInt8).toByteArray
  else none

theorem toUInt8_ofUInt8 (b : UInt8) : (Char.ofUInt8 b).toUInt8 = b :=
  UInt8.toUInt8_toUInt32 b

theorem toNat_ofUInt8_lt (b : UInt8) : (Char.ofUInt8 b).toNat < 256 :=
  b.toNat_lt

theorem ofUInt8_toUInt8 {c : Char} (h : c.toNat < 256) : Char.ofUInt8 c.toUInt8 = c := by
  refine Char.ext (UInt32.toNat_inj.mp ?_)
  have hmod : c.val.toUInt8.toNat = c.toNat % 256 := UInt32.toNat_toUInt8 c.val
  exact hmod.trans (Nat.mod_eq_of_lt h)

theorem decode?_encode (s : String) : decode? (encode s) = some s := by
  have hbytes : (encode s).toList.map Char.toUInt8 = s.toList.flatMap String.utf8EncodeChar := by
    rw [encode, String.toList_ofList, List.map_map]
    exact (List.map_congr_left fun b _ ↦ toUInt8_ofUInt8 b).trans (List.map_id _)
  have hall : (encode s).toList.all (·.toNat < 256) = true := by
    simp [encode, toNat_ofUInt8_lt]
  have harray : (s.toList.flatMap String.utf8EncodeChar).toByteArray = s.toByteArray := by
    rw [← List.utf8Encode, ← String.toByteArray_ofList, String.ofList_toList]
  rw [decode?, if_pos hall, hbytes, harray, String.fromUTF8?, dif_pos s.isValidUTF8]
  rfl

theorem encode_of_decode? {b : Bytes} {s : String} (h : decode? b = some s) : encode s = b := by
  rw [decode?] at h
  split at h
  case isFalse => simp at h
  case isTrue hall =>
    rw [String.fromUTF8?] at h
    split at h
    case isFalse => simp at h
    case isTrue hvalid =>
      have hs : s.toByteArray = (b.toList.map Char.toUInt8).toByteArray := by
        rw [← Option.some.inj h, String.fromUTF8]
      have hbytes : s.toList.flatMap String.utf8EncodeChar = b.toList.map Char.toUInt8 := by
        rw [← List.toByteArray_inj, ← hs, ← List.utf8Encode, ← String.toByteArray_ofList,
          String.ofList_toList]
      have hchars : (b.toList.map Char.toUInt8).map Char.ofUInt8 = b.toList := by
        rw [List.map_map]
        refine (List.map_congr_left fun c hc ↦ ofUInt8_toUInt8 ?_).trans (List.map_id _)
        simpa using List.all_eq_true.mp hall c hc
      rw [encode, hbytes, hchars, String.ofList_toList]

theorem decode?_eq_some_iff {b : Bytes} {s : String} : decode? b = some s ↔ encode s = b :=
  ⟨encode_of_decode?, fun h ↦ h ▸ decode?_encode s⟩

theorem encode_inj {s t : String} : encode s = encode t ↔ s = t := by
  constructor
  · intro h
    exact Option.some.inj (by rw [← decode?_encode s, h, decode?_encode])
  · exact congrArg encode

/-! ## What messages show -/

/-- What may follow the first byte of a character: for each byte that does, the least and the
greatest that it may be. -/
def followers (b : Nat) : List (Nat × Nat) :=
  let any := (0x80, 0xBF)
  if b < 0xC2 then []
  else if b < 0xE0 then [any]
  else if b = 0xE0 then [(0xA0, 0xBF), any]
  else if b = 0xED then [(0x80, 0x9F), any]
  else if b < 0xF0 then [any, any]
  else if b = 0xF0 then [(0x90, 0xBF), any, any]
  else if b < 0xF4 then [any, any, any]
  else if b = 0xF4 then [(0x80, 0x8F), any, any]
  else []

/-- How many of the bytes lie in the ranges, one after the other. -/
def following : List (Nat × Nat) → List Char → Nat
  | (least, greatest) :: ranges, c :: cs =>
    if least ≤ c.toNat ∧ c.toNat ≤ greatest then following ranges cs + 1 else 0
  | _, _ => 0

/-- The characters of the bytes, with a mark of replacement for each that is broken off. -/
def mended : List Char → List Char
  | [] => []
  | c :: cs =>
    let n := following (followers c.toNat) cs
    let first := match decode? (String.ofList (c :: cs.take n)) with
      | some s => s.toList
      | none => ['\uFFFD']
    first ++ mended (cs.drop n)
termination_by cs => cs.length
decreasing_by
  rw [List.length_drop, List.length_cons]
  omega

/-- The text that messages show of bytes. -/
def shown (b : Bytes) : String :=
  match decode? b with
  | some s => s
  | none => String.ofList (mended b.toList)

@[simp] theorem shown_encode (s : String) : shown (encode s) = s := by
  rw [shown, decode?_encode]

end Text

end ModuleReload

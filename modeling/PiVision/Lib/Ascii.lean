import Mathlib.Data.List.Basic

/-!
# Text in bytes

ASCII text stands in UTF-8 and in most other charsets as one byte a character, and decoding
it goes on behind it with whatever bytes follow.
-/

namespace Ascii

/-- The characters of ASCII bytes. -/
def text (bytes : List UInt8) : List Char := bytes.map fun b => Char.ofNat b.toNat

/-- Strict decoding of UTF-8. -/
def decodeUtf8 (bytes : List UInt8) : Option (List Char) :=
  bytes.toByteArray.utf8Decode?.map Array.toList

def encodeUtf8 (chars : List Char) : List UInt8 := chars.flatMap String.utf8EncodeChar

/-- A charset that decodes an ASCII byte to its character, whatever follows it, and that has a
character for everything else. -/
structure Charset where
  decode : List UInt8 → List Char
  ascii : ∀ b bytes, b.toNat < 128 → decode (b :: bytes) = Char.ofNat b.toNat :: decode bytes

/-- One character a byte. -/
def Charset.latin1 : Charset := ⟨text, fun _ _ _ => rfl⟩

@[simp] theorem length_text (bytes : List UInt8) : (text bytes).length = bytes.length :=
  List.length_map _

theorem text_append (xs ys : List UInt8) : text (xs ++ ys) = text xs ++ text ys :=
  List.map_append

/-- The byte strings that decode are the encodings of texts. -/
theorem decodeUtf8_eq_some_iff {bytes : List UInt8} {chars : List Char} :
    decodeUtf8 bytes = some chars ↔ bytes = encodeUtf8 chars := by
  have hencode : (encodeUtf8 chars).toByteArray = chars.utf8Encode := rfl
  constructor
  · intro hdecode
    obtain ⟨array, harray, rfl⟩ := Option.map_eq_some_iff.mp hdecode
    have hvalid : (bytes.toByteArray.utf8Decode?).isSome := harray ▸ rfl
    obtain ⟨m, hm⟩ := ByteArray.isSome_utf8Decode?_iff.mp hvalid
    rw [hm, List.utf8Decode?_utf8Encode] at harray
    obtain rfl := Option.some.inj harray
    have hbytes : bytes.toByteArray = (encodeUtf8 m).toByteArray := hm
    exact List.toByteArray_inj.mp hbytes
  · rintro rfl
    rw [decodeUtf8, hencode, List.utf8Decode?_utf8Encode]
    rfl

theorem encodeUtf8_injective : Function.Injective encodeUtf8 := fun _ _ same =>
  Option.some.inj ((decodeUtf8_eq_some_iff.mpr rfl).symm.trans (decodeUtf8_eq_some_iff.mpr same))

theorem Charset.decode_append (charset : Charset) {bytes : List UInt8}
    (ascii : ∀ b ∈ bytes, b.toNat < 128) (rest : List UInt8) :
    charset.decode (bytes ++ rest) = text bytes ++ charset.decode rest := by
  induction bytes with
  | nil => rfl
  | cons b bytes ih =>
    rw [List.cons_append, charset.ascii b _ (ascii b List.mem_cons_self),
      ih fun x hx => ascii x (List.mem_cons_of_mem _ hx)]
    rfl

theorem toNat_ofNat {n : ℕ} (ascii : n < 128) : (Char.ofNat n).toNat = n := by
  have hvalid : n.isValidChar := Or.inl (by omega)
  rw [Char.ofNat, dif_pos hvalid]
  rfl

/-- An ASCII character is encoded as its byte. -/
theorem utf8EncodeChar_ofNat {b : UInt8} (ascii : b.toNat < 128) :
    String.utf8EncodeChar (Char.ofNat b.toNat) = [b] := by
  have hchar : (Char.ofNat b.toNat).toNat = b.toNat := toNat_ofNat ascii
  have hsize : (Char.ofNat b.toNat).utf8Size = 1 := by
    rw [Char.utf8Size_eq_one_iff, UInt32.le_iff_toNat_le]
    show (Char.ofNat b.toNat).toNat ≤ 127
    omega
  rw [String.utf8EncodeChar_eq_singleton hsize]
  refine congrArg (fun x => [x]) (UInt8.toNat_inj.mp ?_)
  have hval : (Char.ofNat b.toNat).val.toNat = b.toNat := hchar
  rw [UInt32.toNat_toUInt8, hval, Nat.mod_eq_of_lt (by omega)]

theorem decodeUtf8_cons {b : UInt8} (ascii : b.toNat < 128) (bytes : List UInt8) :
    decodeUtf8 (b :: bytes) = (decodeUtf8 bytes).map (Char.ofNat b.toNat :: ·) := by
  have hbytes : (b :: bytes).toByteArray =
      [Char.ofNat b.toNat].utf8Encode ++ bytes.toByteArray := by
    rw [List.utf8Encode_singleton, utf8EncodeChar_ofNat ascii, ← List.toByteArray_append]
    rfl
  rw [decodeUtf8, hbytes, ByteArray.utf8Decode?_utf8Encode_singleton_append, decodeUtf8,
    Option.map_map, Option.map_map]
  congr 1
  funext chars
  simp

theorem decodeUtf8_append {bytes : List UInt8} (ascii : ∀ b ∈ bytes, b.toNat < 128)
    (rest : List UInt8) :
    decodeUtf8 (bytes ++ rest) = (decodeUtf8 rest).map (text bytes ++ ·) := by
  induction bytes with
  | nil => simp [text]
  | cons b bytes ih =>
    rw [List.cons_append, decodeUtf8_cons (ascii b List.mem_cons_self),
      ih fun x hx => ascii x (List.mem_cons_of_mem _ hx), Option.map_map]
    rfl

theorem decodeUtf8_of_ascii {bytes : List UInt8} (ascii : ∀ b ∈ bytes, b.toNat < 128) :
    decodeUtf8 bytes = some (text bytes) := by
  have happend := decodeUtf8_append ascii []
  rw [List.append_nil] at happend
  rw [happend]
  simp [decodeUtf8]

theorem encodeUtf8_text {bytes : List UInt8} (ascii : ∀ b ∈ bytes, b.toNat < 128) :
    encodeUtf8 (text bytes) = bytes :=
  (decodeUtf8_eq_some_iff.mp (decodeUtf8_of_ascii ascii)).symm

end Ascii

import Mathlib.Tactic.Common

/-! # UTF-8 as a byte-list codec

`encode` and `decode` follow `String.getBytes` and `new String(bytes, "UTF-8")`.
Decoding is total: malformed input turns into replacement characters, one for each
malformed stretch. Over encoded text the two are inverse, and text in the ASCII
range takes one byte for each character.
-/
namespace SunshineService.Utf8

abbrev Bytes := List UInt8

def encodeChars (cs : List Char) : Bytes := cs.flatMap String.utf8EncodeChar

def encode (s : String) : Bytes := encodeChars s.toList

def decodeChar? (bs : Bytes) : Option Char := bs.toByteArray.utf8DecodeChar? 0

def isContinuation (b : UInt8) : Bool := b &&& 0xC0 == 0x80

/-- A byte that cannot follow the lead byte of a three or four byte sequence. -/
def badSecond (lead b : UInt8) : Bool :=
  !isContinuation b || (lead == 0xE0 && b < 0xA0) || (lead == 0xF0 && b < 0x90) ||
    (lead == 0xF4 && 0x90 ≤ b)

/-- How many bytes one replacement character stands for. -/
def malformedLength : Bytes → ℕ
  | lead :: second :: rest =>
    if lead < 0xE0 || 0xF5 ≤ lead || badSecond lead second then 1
    else match rest with
      | [] => 2
      | third :: _ => if isContinuation third then 3 else 2
  | _ => 1

/-- Decode at most `fuel` characters, so the length of the input is fuel enough. -/
def decodeChars : ℕ → Bytes → List Char
  | 0, _ => []
  | _ + 1, [] => []
  | fuel + 1, b :: bs =>
    match decodeChar? (b :: bs) with
    | some c => c :: decodeChars fuel ((b :: bs).drop c.utf8Size)
    | none => '\uFFFD' :: decodeChars fuel ((b :: bs).drop (malformedLength (b :: bs)))

def decode (bs : Bytes) : String := String.ofList (decodeChars bs.length bs)

theorem encodeChars_cons (c : Char) (cs : List Char) :
    encodeChars (c :: cs) = String.utf8EncodeChar c ++ encodeChars cs := List.flatMap_cons

theorem decodeChar?_encodeChar (c : Char) (bs : Bytes) :
    decodeChar? (String.utf8EncodeChar c ++ bs) = some c := by
  rw [decodeChar?,List.toByteArray_append]
  exact ByteArray.utf8DecodeChar?_utf8EncodeChar_append

theorem length_le_encodeChars (cs : List Char) : cs.length ≤ (encodeChars cs).length := by
  induction cs with
  | nil => simp
  | cons c cs ih =>
    have hc := c.utf8Size_pos
    rw [encodeChars_cons,List.length_append,String.length_utf8EncodeChar,List.length_cons]
    omega

theorem decodeChars_encodeChars (cs : List Char) (fuel : ℕ) (hfuel : cs.length ≤ fuel) :
    decodeChars fuel (encodeChars cs) = cs := by
  induction cs generalizing fuel with
  | nil => cases fuel <;> rfl
  | cons c cs ih =>
    obtain ⟨fuel,rfl⟩ : ∃ k, fuel = k + 1 := ⟨fuel - 1,by simp only [List.length_cons] at hfuel; omega⟩
    have hd := decodeChar?_encodeChar c (encodeChars cs)
    have hlen := String.length_utf8EncodeChar c
    rw [encodeChars_cons]
    cases hbytes : String.utf8EncodeChar c with
    | nil =>
      have hpos := c.utf8Size_pos
      simp only [hbytes,List.length_nil] at hlen
      omega
    | cons b bs =>
      rw [hbytes] at hd hlen
      rw [List.cons_append] at hd
      rw [List.cons_append,decodeChars,hd]
      have hdrop : (b :: (bs ++ encodeChars cs)).drop c.utf8Size = encodeChars cs := by
        rw [← hlen,← List.cons_append]
        exact List.drop_left
      simp only [hdrop,ih fuel (by simpa using hfuel)]

@[simp] theorem decode_encode (s : String) : decode (encode s) = s := by
  rw [decode,encode,decodeChars_encodeChars _ _ (length_le_encodeChars _),String.ofList_toList]

theorem encode_append (s t : String) : encode (s ++ t) = encode s ++ encode t := by
  simp [encode,encodeChars]

/-! ## Well-formed bytes -/

def Valid (bs : Bytes) : Prop := bs.toByteArray.IsValidUTF8

theorem Valid.exists_encode {bs : Bytes} (h : Valid bs) : ∃ s, encode s = bs := by
  obtain ⟨cs,hcs⟩ := h
  have hdata := congrArg (fun a => a.data.toList) hcs
  simp only [List.utf8Encode,List.data_toByteArray] at hdata
  refine ⟨String.ofList cs,?_⟩
  rw [encode,String.toList_ofList]
  exact hdata.symm

theorem valid_encode (s : String) : Valid (encode s) := ⟨s.toList,rfl⟩

/-- Decoding loses nothing precisely when the bytes are well-formed. -/
theorem valid_iff {bs : Bytes} : Valid bs ↔ encode (decode bs) = bs := by
  constructor
  · intro h
    obtain ⟨s,rfl⟩ := h.exists_encode
    rw [decode_encode]
  · intro h
    rw [← h]
    exact valid_encode _

instance (bs : Bytes) : Decidable (Valid bs) := decidable_of_iff _ valid_iff.symm

/-- A replacement character takes three bytes, and no character takes fewer than one. -/
theorem length_encodeChars_decodeChars_le (fuel : ℕ) (bs : Bytes) :
    (encodeChars (decodeChars fuel bs)).length ≤ 3 * bs.length := by
  induction fuel generalizing bs with
  | zero => simp [decodeChars,encodeChars]
  | succ fuel ih =>
    cases bs with
    | nil => simp [decodeChars,encodeChars]
    | cons b bs =>
      rw [decodeChars]
      cases hc : decodeChar? (b :: bs) with
      | some c =>
        have hrest := ih ((b :: bs).drop c.utf8Size)
        have hpos := c.utf8Size_pos
        have hsize : c.utf8Size ≤ (b :: bs).length := by
          simpa using ByteArray.le_size_of_utf8DecodeChar?_eq_some hc
        simp only [encodeChars_cons,List.length_append,String.length_utf8EncodeChar]
        rw [List.length_drop] at hrest
        omega
      | none =>
        have hrest := ih ((b :: bs).drop (malformedLength (b :: bs)))
        have hpos : 1 ≤ malformedLength (b :: bs) := by
          unfold malformedLength
          split
          · split_ifs
            · exact Nat.le_refl 1
            · split
              · exact Nat.le_succ 1
              · split_ifs <;> decide
          · exact Nat.le_refl 1
        have hsize : '\uFFFD'.utf8Size = 3 := by decide
        simp only [encodeChars_cons,List.length_append,String.length_utf8EncodeChar,hsize]
        rw [List.length_drop,List.length_cons] at hrest
        rw [List.length_cons]
        omega

theorem length_encode_decode_le (bs : Bytes) : (encode (decode bs)).length ≤ 3 * bs.length := by
  rw [encode,decode,String.toList_ofList]
  exact length_encodeChars_decodeChars_le bs.length bs

/-! ## Text in the ASCII range -/

def Ascii (s : String) : Prop := ∀ c ∈ s.toList, c.val ≤ 127

theorem encodeChars_ascii {cs : List Char} (h : ∀ c ∈ cs, c.val ≤ 127) :
    encodeChars cs = cs.map (fun c => c.val.toUInt8) := by
  induction cs with
  | nil => rfl
  | cons c cs ih =>
    have hc := String.utf8EncodeChar_eq_singleton (Char.utf8Size_eq_one_iff.mpr (h c List.mem_cons_self))
    rw [encodeChars_cons,hc,ih (fun d hd => h d (List.mem_cons_of_mem c hd)),List.map_cons,
      List.singleton_append]

theorem Ascii.encode_eq {s : String} (h : Ascii s) :
    encode s = s.toList.map (fun c => c.val.toUInt8) := encodeChars_ascii h

theorem Ascii.length_encode {s : String} (h : Ascii s) : (encode s).length = s.length := by
  rw [h.encode_eq,List.length_map,String.length_toList]

/-- A cut of encoded ASCII text decodes to the same cut of the text. -/
theorem Ascii.decode_take {s : String} (h : Ascii s) (n : ℕ) :
    decode ((encode s).take n) = String.ofList (s.toList.take n) := by
  have htake : ∀ c ∈ s.toList.take n, c.val ≤ 127 := fun c hc => h c (List.mem_of_mem_take hc)
  have hcut : (encode s).take n = encode (String.ofList (s.toList.take n)) := by
    rw [h.encode_eq,encode,String.toList_ofList,encodeChars_ascii htake,List.map_take]
  rw [hcut,decode_encode]

theorem Ascii.byte_le {s : String} (h : Ascii s) {b : UInt8} (hb : b ∈ encode s) : b ≤ 127 := by
  rw [h.encode_eq] at hb
  obtain ⟨c,hc,rfl⟩ := List.mem_map.mp hb
  have hval := UInt32.le_iff_toNat_le.mp (h c hc)
  rw [UInt8.le_iff_toNat_le,UInt32.toNat_toUInt8]
  exact Nat.le_trans (Nat.mod_le _ _) hval

/-- Bytes in the ASCII range are text wherever they are cut. -/
theorem ascii_decode {bs : Bytes} (h : ∀ b ∈ bs, b ≤ 127) :
    Ascii (decode bs) ∧ encode (decode bs) = bs := by
  have hascii : Ascii (String.ofList (bs.map Char.ofUInt8)) := by
    intro c hc
    rw [String.toList_ofList] at hc
    obtain ⟨b,hb,rfl⟩ := List.mem_map.mp hc
    have hle := UInt8.le_iff_toNat_le.mp (h b hb)
    exact UInt32.le_iff_toNat_le.mpr hle
  have hbytes : encode (String.ofList (bs.map Char.ofUInt8)) = bs := by
    rw [hascii.encode_eq,String.toList_ofList,List.map_map]
    exact (List.map_congr_left (fun b _ => UInt8.toUInt8_toUInt32 b)).trans (List.map_id bs)
  rw [← hbytes,decode_encode]
  exact ⟨hascii,rfl⟩

theorem decode_replicate_zero (n : ℕ) :
    decode (List.replicate n 0) = String.ofList (List.replicate n '\x00') := by
  have hzero : List.replicate n (0 : UInt8) = encode (String.ofList (List.replicate n '\x00')) := by
    rw [encode,String.toList_ofList,encodeChars_ascii]
    · rw [List.map_replicate]
      rfl
    · intro c hc
      rw [List.eq_of_mem_replicate hc]
      decide
  rw [hzero,decode_encode]

end SunshineService.Utf8

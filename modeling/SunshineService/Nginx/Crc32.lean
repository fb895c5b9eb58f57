import SunshineService.Foundation.ShiftRegister

/-! # The cyclic redundancy check of the server

There are two loops, one with a table of sixteen words for short texts and one with 256,
and an update that is called once for each piece of a text. All of them are the bit by bit
shift register with the reversed polynomial.
-/
namespace SunshineService.Nginx.Crc32
open ShiftRegister

def table16 : List (BitVec 32) := [
  0x00000000, 0x1db71064, 0x3b6e20c8, 0x26d930ac,
  0x76dc4190, 0x6b6b51f4, 0x4db26158, 0x5005713c,
  0xedb88320, 0xf00f9344, 0xd6d6a3e8, 0xcb61b38c,
  0x9b64c2b0, 0x86d3d2d4, 0xa00ae278, 0xbdbdf21c]

def table256 : List (BitVec 32) := [
  0x00000000, 0x77073096, 0xee0e612c, 0x990951ba,
  0x076dc419, 0x706af48f, 0xe963a535, 0x9e6495a3,
  0x0edb8832, 0x79dcb8a4, 0xe0d5e91e, 0x97d2d988,
  0x09b64c2b, 0x7eb17cbd, 0xe7b82d07, 0x90bf1d91,
  0x1db71064, 0x6ab020f2, 0xf3b97148, 0x84be41de,
  0x1adad47d, 0x6ddde4eb, 0xf4d4b551, 0x83d385c7,
  0x136c9856, 0x646ba8c0, 0xfd62f97a, 0x8a65c9ec,
  0x14015c4f, 0x63066cd9, 0xfa0f3d63, 0x8d080df5,
  0x3b6e20c8, 0x4c69105e, 0xd56041e4, 0xa2677172,
  0x3c03e4d1, 0x4b04d447, 0xd20d85fd, 0xa50ab56b,
  0x35b5a8fa, 0x42b2986c, 0xdbbbc9d6, 0xacbcf940,
  0x32d86ce3, 0x45df5c75, 0xdcd60dcf, 0xabd13d59,
  0x26d930ac, 0x51de003a, 0xc8d75180, 0xbfd06116,
  0x21b4f4b5, 0x56b3c423, 0xcfba9599, 0xb8bda50f,
  0x2802b89e, 0x5f058808, 0xc60cd9b2, 0xb10be924,
  0x2f6f7c87, 0x58684c11, 0xc1611dab, 0xb6662d3d,
  0x76dc4190, 0x01db7106, 0x98d220bc, 0xefd5102a,
  0x71b18589, 0x06b6b51f, 0x9fbfe4a5, 0xe8b8d433,
  0x7807c9a2, 0x0f00f934, 0x9609a88e, 0xe10e9818,
  0x7f6a0dbb, 0x086d3d2d, 0x91646c97, 0xe6635c01,
  0x6b6b51f4, 0x1c6c6162, 0x856530d8, 0xf262004e,
  0x6c0695ed, 0x1b01a57b, 0x8208f4c1, 0xf50fc457,
  0x65b0d9c6, 0x12b7e950, 0x8bbeb8ea, 0xfcb9887c,
  0x62dd1ddf, 0x15da2d49, 0x8cd37cf3, 0xfbd44c65,
  0x4db26158, 0x3ab551ce, 0xa3bc0074, 0xd4bb30e2,
  0x4adfa541, 0x3dd895d7, 0xa4d1c46d, 0xd3d6f4fb,
  0x4369e96a, 0x346ed9fc, 0xad678846, 0xda60b8d0,
  0x44042d73, 0x33031de5, 0xaa0a4c5f, 0xdd0d7cc9,
  0x5005713c, 0x270241aa, 0xbe0b1010, 0xc90c2086,
  0x5768b525, 0x206f85b3, 0xb966d409, 0xce61e49f,
  0x5edef90e, 0x29d9c998, 0xb0d09822, 0xc7d7a8b4,
  0x59b33d17, 0x2eb40d81, 0xb7bd5c3b, 0xc0ba6cad,
  0xedb88320, 0x9abfb3b6, 0x03b6e20c, 0x74b1d29a,
  0xead54739, 0x9dd277af, 0x04db2615, 0x73dc1683,
  0xe3630b12, 0x94643b84, 0x0d6d6a3e, 0x7a6a5aa8,
  0xe40ecf0b, 0x9309ff9d, 0x0a00ae27, 0x7d079eb1,
  0xf00f9344, 0x8708a3d2, 0x1e01f268, 0x6906c2fe,
  0xf762575d, 0x806567cb, 0x196c3671, 0x6e6b06e7,
  0xfed41b76, 0x89d32be0, 0x10da7a5a, 0x67dd4acc,
  0xf9b9df6f, 0x8ebeeff9, 0x17b7be43, 0x60b08ed5,
  0xd6d6a3e8, 0xa1d1937e, 0x38d8c2c4, 0x4fdff252,
  0xd1bb67f1, 0xa6bc5767, 0x3fb506dd, 0x48b2364b,
  0xd80d2bda, 0xaf0a1b4c, 0x36034af6, 0x41047a60,
  0xdf60efc3, 0xa867df55, 0x316e8eef, 0x4669be79,
  0xcb61b38c, 0xbc66831a, 0x256fd2a0, 0x5268e236,
  0xcc0c7795, 0xbb0b4703, 0x220216b9, 0x5505262f,
  0xc5ba3bbe, 0xb2bd0b28, 0x2bb45a92, 0x5cb36a04,
  0xc2d7ffa7, 0xb5d0cf31, 0x2cd99e8b, 0x5bdeae1d,
  0x9b64c2b0, 0xec63f226, 0x756aa39c, 0x026d930a,
  0x9c0906a9, 0xeb0e363f, 0x72076785, 0x05005713,
  0x95bf4a82, 0xe2b87a14, 0x7bb12bae, 0x0cb61b38,
  0x92d28e9b, 0xe5d5be0d, 0x7cdcefb7, 0x0bdbdf21,
  0x86d3d2d4, 0xf1d4e242, 0x68ddb3f8, 0x1fda836e,
  0x81be16cd, 0xf6b9265b, 0x6fb077e1, 0x18b74777,
  0x88085ae6, 0xff0f6a70, 0x66063bca, 0x11010b5c,
  0x8f659eff, 0xf862ae69, 0x616bffd3, 0x166ccf45,
  0xa00ae278, 0xd70dd2ee, 0x4e048354, 0x3903b3c2,
  0xa7672661, 0xd06016f7, 0x4969474d, 0x3e6e77db,
  0xaed16a4a, 0xd9d65adc, 0x40df0b66, 0x37d83bf0,
  0xa9bcae53, 0xdebb9ec5, 0x47b2cf7f, 0x30b5ffe9,
  0xbdbdf21c, 0xcabac28a, 0x53b39330, 0x24b4a3a6,
  0xbad03605, 0xcdd70693, 0x54de5729, 0x23d967bf,
  0xb3667a2e, 0xc4614ab8, 0x5d681b02, 0x2a6f2b94,
  0xb40bbe37, 0xc30c8ea1, 0x5a05df1b, 0x2d02ef8d]

/-- A `u_char` in an expression of words. -/
def word (c : UInt8) : BitVec 32 := c.toBitVec.setWidth 32

def short4 (crc c : BitVec 32) : BitVec 32 :=
  table16.getD ((crc ^^^ c) &&& 0xf).toNat 0 ^^^ crc >>> 4

def shortByte (crc : BitVec 32) (c : UInt8) : BitVec 32 :=
  short4 (short4 crc (word c &&& 0xf)) (word c >>> 4)

def longByte (crc : BitVec 32) (c : UInt8) : BitVec 32 :=
  table256.getD ((crc ^^^ word c) &&& 0xff).toNat 0 ^^^ crc >>> 8

def crc32Init : BitVec 32 := 0xffffffff

def crc32Update (crc : BitVec 32) (p : List UInt8) : BitVec 32 := p.foldl longByte crc

def crc32Final (crc : BitVec 32) : BitVec 32 := crc ^^^ 0xffffffff

def crc32Short (p : List UInt8) : BitVec 32 := p.foldl shortByte 0xffffffff ^^^ 0xffffffff

def crc32Long (p : List UInt8) : BitVec 32 := p.foldl longByte 0xffffffff ^^^ 0xffffffff

example : crc32Long [49, 50, 51, 52, 53, 54, 55, 56, 57] = 0xcbf43926 := by decide +kernel

/-- The polynomial of the check, its bits in reverse order and without the highest. -/
def polynomial : BitVec 32 := 0xedb88320

theorem polynomial_msb : polynomial.msb = true := by decide

theorem table16_get : ∀ i < 2 ^ 4,
    table16[i]? = some (shifts polynomial 4 (BitVec.ofNat 32 i)) := by
  decide +kernel

theorem table256_get : ∀ i < 2 ^ 8,
    table256[i]? = some (shifts polynomial 8 (BitVec.ofNat 32 i)) := by
  decide +kernel

theorem word_injective : Function.Injective word := by
  intro a b hab
  have hbits := congrArg BitVec.toNat hab
  simp only [word,BitVec.toNat_setWidth,UInt8.toNat_toBitVec] at hbits
  have ha := a.toNat_lt
  have hb := b.toNat_lt
  apply UInt8.toNat_inj.mp
  omega

theorem getLsbD_word {c : UInt8} {i : ℕ} (h : 8 ≤ i) : (word c).getLsbD i = false := by
  rw [word,BitVec.getLsbD_setWidth,BitVec.getLsbD_of_ge c.toBitVec i h,Bool.and_false]

theorem word_down (c : UInt8) : word c >>> 8 = 0#32 := by
  apply BitVec.eq_of_getLsbD_eq
  intro i _
  rw [BitVec.getLsbD_ushiftRight,getLsbD_word (by omega),BitVec.getLsbD_zero]

theorem longByte_eq (crc : BitVec 32) (c : UInt8) :
    longByte crc c = shifts polynomial 8 (crc ^^^ word c) :=
  lookup_eq table256_get (word_down c) crc

theorem short4_eq {c : BitVec 32} (hc : c >>> 4 = 0#32) (crc : BitVec 32) :
    short4 crc c = shifts polynomial 4 (crc ^^^ c) :=
  lookup_eq table16_get hc crc

theorem low_down (c : BitVec 32) : (c &&& 0xf) >>> 4 = 0#32 := by
  apply BitVec.eq_of_getLsbD_eq
  intro i _
  have hlow := getLsbD_low 4 (4 + i) c
  have hi : decide (4 + i < 4) = false := by simp
  rw [hi,Bool.and_false] at hlow
  rw [BitVec.getLsbD_ushiftRight,BitVec.getLsbD_zero]
  exact hlow

/-- The two halves of a byte, the lower one first, do what the byte does. -/
theorem shortByte_eq (crc : BitVec 32) (c : UInt8) :
    shortByte crc c = shifts polynomial 8 (crc ^^^ word c) := by
  have hhigh : (word c >>> 4) >>> 4 = 0#32 := by rw [← BitVec.shiftRight_add,word_down]
  have hhalf : shifts polynomial 4 (crc ^^^ word c)
      = shifts polynomial 4 (crc ^^^ (word c &&& 0xf)) ^^^ word c >>> 4 := by
    rw [shifts_xor,shifts_eq 4 (word c),shifts_xor,BitVec.xor_assoc]
    rfl
  rw [shortByte,short4_eq hhigh,short4_eq (low_down _),← hhalf]
  exact (shifts_add 4 4 _).symm

theorem shortByte_eq_longByte : shortByte = longByte := by
  funext crc c
  rw [shortByte_eq,longByte_eq]

theorem short_eq_long : crc32Short = crc32Long := by
  funext p
  rw [crc32Short,crc32Long,shortByte_eq_longByte]

theorem crc32Update_append (crc : BitVec 32) (p q : List UInt8) :
    crc32Update crc (p ++ q) = crc32Update (crc32Update crc p) q := List.foldl_append

theorem crc32Update_flatten (crc : BitVec 32) (pieces : List (List UInt8)) :
    pieces.foldl crc32Update crc = crc32Update crc pieces.flatten := by
  induction pieces generalizing crc with
  | nil => rfl
  | cons p pieces ih => rw [List.foldl_cons,ih,List.flatten_cons,crc32Update_append]

/-- Both loops give what the updates make of the text, however it is cut. -/
theorem checksum_of_pieces (pieces : List (List UInt8)) :
    crc32Final (pieces.foldl crc32Update crc32Init) = crc32Long pieces.flatten
      ∧ crc32Short pieces.flatten = crc32Long pieces.flatten := by
  constructor
  · rw [crc32Update_flatten]
    rfl
  · rw [short_eq_long]

theorem longByte_injective (c : UInt8) : Function.Injective (longByte · c) := by
  intro a b hab
  simp only [longByte_eq] at hab
  exact (BitVec.xor_left_inj (word c)).mp (shifts_injective polynomial_msb 8 hab)

theorem crc32Update_injective (p : List UInt8) : Function.Injective (crc32Update · p) := by
  induction p with
  | nil => exact fun a b hab => hab
  | cons c p ih => exact fun a b hab => longByte_injective c (ih hab)

/-- A text as one word, the first byte lowest. -/
def words : List UInt8 → BitVec 32
  | [] => 0
  | c :: p => word c ^^^ words p <<< 8

theorem getLsbD_words {p : List UInt8} {i : ℕ} (h : 8 * p.length ≤ i) :
    (words p).getLsbD i = false := by
  induction p generalizing i with
  | nil => exact BitVec.getLsbD_zero
  | cons c p ih =>
    rw [List.length_cons] at h
    rw [words,BitVec.getLsbD_xor,getLsbD_word (by omega),BitVec.getLsbD_shiftLeft,ih (by omega),
      Bool.and_false,Bool.xor_false]

theorem shifts_words {p : List UInt8} (h : p.length ≤ 3) :
    shifts polynomial 8 (words p <<< 8) = words p :=
  shifts_shiftLeft fun _ hi => getLsbD_words (by omega)

/-- Up to four bytes enter the register as one word. -/
theorem crc32Update_eq {p : List UInt8} (h : p.length ≤ 4) (crc : BitVec 32) :
    crc32Update crc p = shifts polynomial (8 * p.length) (crc ^^^ words p) := by
  induction p generalizing crc with
  | nil => exact (BitVec.xor_zero).symm
  | cons c p ih =>
    rw [List.length_cons] at h
    have hword : longByte crc c ^^^ words p = shifts polynomial 8 (crc ^^^ words (c :: p)) := by
      calc longByte crc c ^^^ words p
          = shifts polynomial 8 (crc ^^^ word c) ^^^ shifts polynomial 8 (words p <<< 8) := by
            rw [longByte_eq,shifts_words (by omega)]
        _ = shifts polynomial 8 (crc ^^^ words (c :: p)) := by
            rw [← shifts_xor,BitVec.xor_assoc,words]
    calc crc32Update crc (c :: p) = crc32Update (longByte crc c) p := rfl
      _ = shifts polynomial (8 * p.length) (shifts polynomial 8 (crc ^^^ words (c :: p))) := by
        rw [ih (by omega),hword]
      _ = shifts polynomial (8 * (c :: p).length) (crc ^^^ words (c :: p)) := by
        rw [← shifts_add,List.length_cons,Nat.mul_succ]

theorem words_down {p : List UInt8} (h : p.length ≤ 3) (c : UInt8) :
    words (c :: p) >>> 8 = words p := by
  rw [words,BitVec.ushiftRight_xor_distrib,word_down,BitVec.zero_xor]
  exact shiftLeft_shiftRight fun _ hi => getLsbD_words (by omega)

theorem words_injective {p q : List UInt8} (hlen : p.length = q.length) (h : p.length ≤ 4)
    (hpq : words p = words q) : p = q := by
  induction p generalizing q with
  | nil => exact (List.length_eq_zero_iff.mp hlen.symm).symm
  | cons a p ih =>
    obtain _ | ⟨b,q⟩ := q
    · cases hlen
    simp only [List.length_cons,Nat.add_right_cancel_iff] at hlen h
    have hrest : words p = words q := by
      calc words p = words (a :: p) >>> 8 := (words_down (by omega) a).symm
        _ = words (b :: q) >>> 8 := by rw [hpq]
        _ = words q := words_down (by omega) b
    have hbyte : word a = word b := by
      rw [words,words,hrest] at hpq
      exact (BitVec.xor_left_inj _).mp hpq
    rw [word_injective hbyte,ih hlen (by omega) hrest]

/-- Up to four neighbouring bytes cannot change without a change of the checksum. -/
theorem burst_detected_iff (xs ys : List UInt8) {p q : List UInt8} (hlen : p.length = q.length)
    (h : p.length ≤ 4) : crc32Long (xs ++ p ++ ys) = crc32Long (xs ++ q ++ ys) ↔ p = q := by
  constructor
  · intro hsum
    have hall : crc32Update crc32Init (xs ++ p ++ ys) = crc32Update crc32Init (xs ++ q ++ ys) :=
      (BitVec.xor_left_inj _).mp hsum
    simp only [crc32Update_append] at hall
    have hburst : crc32Update (crc32Update crc32Init xs) p
        = crc32Update (crc32Update crc32Init xs) q :=
      crc32Update_injective ys hall
    have hq : q.length ≤ 4 := by omega
    rw [crc32Update_eq h,crc32Update_eq hq,← hlen] at hburst
    exact words_injective hlen h
      ((BitVec.xor_right_inj _).mp (shifts_injective polynomial_msb _ hburst))
  · rintro rfl
    rfl

theorem burst_detected_swap : crc32Long ([1] ++ [2, 3] ++ [4]) = crc32Long ([1] ++ [3, 2] ++ [4])
    ↔ [(2 : UInt8), 3] = [3, 2] :=
  burst_detected_iff [1] [4] rfl (by decide)

end SunshineService.Nginx.Crc32

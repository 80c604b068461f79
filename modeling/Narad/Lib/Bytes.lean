import Mathlib.Data.List.Infix
import Mathlib.Tactic.Ring

/-!
# Byte strings, fixed-width integers, checksums and flat files

Fields of a fixed width, numbers of variable length, a reflected table-driven CRC, and a file as the list of its
bytes under positional reads, positional writes and resizing. Reads past the end are short, and
writes past the end leave a run of zero bytes, as on the operating systems this models.

The CRC is the byte-at-a-time loop over a computed table. Only its streaming law is proved: nothing
here says how many corruptions it detects.
-/

namespace Narad.Lib

open List

/-- A byte string. -/
abbrev Bytes := List UInt8

/-- The low `w` bytes of `n`, most significant first. -/
def bigEndian : ℕ → ℕ → Bytes
  | 0, _ => []
  | w + 1, n => UInt8.ofNat (n / 256 ^ w) :: bigEndian w n

/-- The number whose base-256 digits are `b`, most significant first. -/
def fromBigEndian (b : Bytes) : ℕ :=
  b.foldl (fun acc x => acc * 256 + x.toNat) 0

@[simp] theorem bigEndian_length (w n : ℕ) : (bigEndian w n).length = w := by
  induction w with
  | zero => rfl
  | succ w ih => simp [bigEndian, ih]

theorem foldl_bigEndian (w n acc : ℕ) :
    (bigEndian w n).foldl (fun acc x => acc * 256 + x.toNat) acc = acc * 256 ^ w + n % 256 ^ w := by
  induction w generalizing acc with
  | zero => simp [bigEndian, Nat.mod_one]
  | succ w ih =>
    have hdigit : n % 256 ^ (w + 1) = n % 256 ^ w + 256 ^ w * (n / 256 ^ w % 256) := Nat.mod_pow_succ
    simp only [bigEndian, foldl_cons, ih, hdigit, UInt8.toNat_ofNat', Nat.reducePow]
    ring

/-- A fixed-width field reads back as the number written, reduced to the width. -/
theorem fromBigEndian_bigEndian (w n : ℕ) : fromBigEndian (bigEndian w n) = n % 256 ^ w := by
  simp [fromBigEndian, foldl_bigEndian]

/-- The low `w` bytes of `n`, least significant first. -/
def littleEndian (w n : ℕ) : Bytes :=
  (bigEndian w n).reverse

/-- The number whose base-256 digits are `b`, least significant first. -/
def fromLittleEndian (b : Bytes) : ℕ :=
  fromBigEndian b.reverse

@[simp] theorem littleEndian_length (w n : ℕ) : (littleEndian w n).length = w := by simp [littleEndian]

theorem fromLittleEndian_littleEndian (w n : ℕ) : fromLittleEndian (littleEndian w n) = n % 256 ^ w := by
  rw [fromLittleEndian, littleEndian, reverse_reverse, fromBigEndian_bigEndian]

theorem fromLittleEndian_lt (b : Bytes) : fromLittleEndian b < 256 ^ b.length := by
  induction b with
  | nil => exact Nat.zero_lt_one
  | cons x rest ih =>
    have := x.toNat_lt
    rw [fromLittleEndian, fromBigEndian, reverse_cons, foldl_append, length_cons, pow_succ]
    change fromLittleEndian rest * 256 + x.toNat < _
    omega

/-- The two's-complement reading of a `bits`-wide unsigned number. -/
def signed (bits n : ℕ) : ℤ :=
  if n < 2 ^ (bits - 1) then n else (n : ℤ) - 2 ^ bits

/-- The `bits`-wide unsigned number that a two's-complement value is stored as. -/
def unsigned (bits : ℕ) (z : ℤ) : ℕ :=
  (z % 2 ^ bits).toNat

theorem unsigned_natCast {bits n : ℕ} (h : n < 2 ^ bits) : unsigned bits (n : ℤ) = n := by
  unfold unsigned
  norm_cast
  simp [Nat.mod_eq_of_lt h]

theorem signed_of_lt {bits n : ℕ} (h : n < 2 ^ (bits - 1)) : signed bits n = (n : ℤ) := by
  simp [signed, h]

theorem signed_unsigned {z : ℤ} (hlow : -2 ^ 63 ≤ z) (hhigh : z < 2 ^ 63) : signed 64 (unsigned 64 z) = z := by
  rw [signed, unsigned]
  by_cases hneg : z < 0
  · rw [if_neg (by omega)]
    omega
  · rw [if_pos (by omega)]
    omega

/-- The loop of the variable-length decoder: `i` bytes read so far give `x`, the next one counts from
bit `s` on. -/
def uvarintFrom (i x s : ℕ) : Bytes → ℕ × ℤ
  | [] => (0, 0)
  | b :: rest =>
    if i = 10 then (0, -(i + 1))
    else if b < 0x80 then
      if i = 9 ∧ 1 < b then (0, -(i + 1)) else (x + b.toNat * 2 ^ s, i + 1)
    else uvarintFrom (i + 1) (x + b.toNat % 128 * 2 ^ s) (s + 7) rest

/-- The variable-length number at the start of the bytes and how many of them it takes: none when
the bytes end too early, a negative number when it does not fit 64 bits. -/
def uvarint (buf : Bytes) : ℕ × ℤ :=
  uvarintFrom 0 0 0 buf

/-- The loop of the variable-length encoder: the number's base-128 digits, least first, each but the
last with its top bit set. -/
def appendUvarintLoop : ℕ → ℕ → Bytes
  | 0, _ => []
  | fuel + 1, n =>
    if n < 128 then [UInt8.ofNat n] else UInt8.ofNat (n % 128 + 128) :: appendUvarintLoop fuel (n / 128)

/-- A 64-bit number in variable length, which takes ten bytes at most. -/
def appendUvarint (n : ℕ) : Bytes :=
  appendUvarintLoop 10 n

theorem uvarintFrom_append (fuel : ℕ) {i n x : ℕ} (hi : fuel + i = 9) (hn : n * 128 ^ i < 2 ^ 64) (rest : Bytes) :
    uvarintFrom i x (7 * i) (appendUvarintLoop (fuel + 1) n ++ rest) =
      (x + n * 128 ^ i, (i + (appendUvarintLoop (fuel + 1) n).length : ℤ)) := by
  induction fuel generalizing i n x with
  | zero =>
    obtain rfl : i = 9 := by omega
    obtain rfl | rfl : n = 0 ∨ n = 1 := by omega
    · simp [appendUvarintLoop, uvarintFrom]
    · simp [appendUvarintLoop, uvarintFrom]
  | succ fuel ih =>
    have hpow : 2 ^ (7 * i) = 128 ^ i := pow_mul 2 7 i
    rw [appendUvarintLoop]
    split
    next hsmall =>
      have hbyte : UInt8.ofNat n < 0x80 := by
        rw [UInt8.lt_iff_toNat_lt, UInt8.toNat_ofNat', Nat.mod_eq_of_lt (by omega)]
        exact hsmall
      rw [cons_append, uvarintFrom, if_neg (by omega), if_pos hbyte, if_neg (by omega),
        UInt8.toNat_ofNat', Nat.mod_eq_of_lt (by omega), hpow]
      rfl
    · have hbyte : ¬UInt8.ofNat (n % 128 + 128) < 0x80 := by
        rw [UInt8.lt_iff_toNat_lt, UInt8.toNat_ofNat', Nat.mod_eq_of_lt (by omega)]
        exact Nat.not_lt.mpr (Nat.le_add_left _ _)
      have hdigits : n = n % 128 + 128 * (n / 128) := (Nat.mod_add_div n 128).symm
      have hrest : n / 128 * 128 ^ (i + 1) ≤ n * 128 ^ i := by
        rw [pow_succ, mul_comm (128 ^ i), ← mul_assoc]
        exact Nat.mul_le_mul_right _ (Nat.div_mul_le_self n 128)
      have hdigit : (UInt8.ofNat (n % 128 + 128)).toNat % 128 = n % 128 := by
        rw [UInt8.toNat_ofNat']
        omega
      rw [cons_append, uvarintFrom, if_neg (by omega), if_neg hbyte, hdigit, hpow,
        show 7 * i + 7 = 7 * (i + 1) from rfl, ih (by omega) (by omega)]
      refine Prod.ext ?_ ?_
      · dsimp only
        nth_rewrite 3 [hdigits]
        ring
      · simp only [length_cons]
        push_cast
        ring

theorem uvarint_append {n : ℕ} (hn : n < 2 ^ 64) (rest : Bytes) :
    uvarint (appendUvarint n ++ rest) = (n, ((appendUvarint n).length : ℤ)) := by
  have h := uvarintFrom_append 9 (i := 0) (x := 0) rfl (by simpa using hn) rest
  simpa [uvarint, appendUvarint] using h

theorem appendUvarint_length_pos (n : ℕ) : 0 < (appendUvarint n).length := by
  rw [appendUvarint, appendUvarintLoop]
  split <;> exact Nat.zero_lt_succ _

/-- One bit of the reflected CRC remainder. -/
def crcShift (poly c : UInt32) : UInt32 :=
  if c &&& 1 = 1 then (c >>> 1) ^^^ poly else c >>> 1

/-- The table entry of a byte: eight shifts of it. -/
def crcTable (poly : UInt32) (i : UInt32) : UInt32 :=
  Nat.iterate (crcShift poly) 8 i

/-- One byte of the table-driven loop. -/
def crcByte (poly c : UInt32) (v : UInt8) : UInt32 :=
  crcTable poly ((c &&& 0xff) ^^^ v.toUInt32) ^^^ (c >>> 8)

/-- The checksum of a string that continues one whose checksum is `crc`. -/
def crcUpdate (poly crc : UInt32) (p : Bytes) : UInt32 :=
  ~~~(p.foldl (crcByte poly) (~~~crc))

/-- Checksums stream: a string may be hashed in parts. -/
theorem crcUpdate_append (poly crc : UInt32) (p q : Bytes) :
    crcUpdate poly crc (p ++ q) = crcUpdate poly (crcUpdate poly crc p) q := by
  simp [crcUpdate, foldl_append]

@[simp] theorem crcUpdate_nil (poly crc : UInt32) : crcUpdate poly crc [] = crc := by
  simp [crcUpdate]

variable (file : Bytes)

/-- Up to `n` bytes of the file at `pos`; short when the file ends first. -/
def readAt (pos n : ℕ) : Bytes :=
  (file.drop pos).take n

/-- The file cut, or extended with zero bytes, to `n` bytes. -/
def resize (n : ℕ) : Bytes :=
  file.take n ++ List.replicate (n - file.length) 0

variable (pos : ℕ)

/-- The file after `data` is written at `pos`. -/
def writeAt (data : Bytes) : Bytes :=
  resize file pos ++ (data ++ file.drop (pos + data.length))

/-- The bytes `data` stand in the file at `pos`. -/
def HoldsAt (data : Bytes) : Prop :=
  data <+: file.drop pos

instance (file : Bytes) (pos : ℕ) (data : Bytes) : Decidable (HoldsAt file pos data) :=
  inferInstanceAs (Decidable (data <+: file.drop pos))

/-- Every byte of the file in `[a, b)` that exists is zero. -/
def Blank (a b : ℕ) : Prop :=
  ∀ i x, a ≤ i → i < b → file[i]? = some x → x = 0

@[simp] theorem resize_length (n : ℕ) : (resize file n).length = n := by
  simp [resize]
  omega

theorem writeAt_length (data : Bytes) : (writeAt file pos data).length = max (pos + data.length) file.length := by
  simp [writeAt]
  omega

variable {n : ℕ}

theorem resize_of_le {file : Bytes} (h : n ≤ file.length) : resize file n = file.take n := by
  simp [resize, Nat.sub_eq_zero_of_le h]

theorem readAt_length (pos n : ℕ) : (readAt file pos n).length = min n (file.length - pos) := by
  simp [readAt]

theorem getElem?_readAt (pos n i : ℕ) : (readAt file pos n)[i]? = if i < n then file[pos + i]? else none := by
  simp [readAt, getElem?_take]

theorem readAt_append_append (a b c : Bytes) : readAt (a ++ (b ++ c)) a.length b.length = b := by
  simp [readAt]

namespace HoldsAt

variable {file data : Bytes} {pos : ℕ}

theorem end_le (h : HoldsAt file pos data) (hne : data ≠ []) : pos + data.length ≤ file.length := by
  have hle := List.IsPrefix.length_le h
  have hpos := length_pos_iff.mpr hne
  rw [length_drop] at hle
  omega

theorem iff_getElem? : HoldsAt file pos data ↔ ∀ i, i < data.length → file[pos + i]? = data[i]? := by
  unfold HoldsAt
  rw [prefix_iff_getElem?]
  constructor
  · intro h i hi
    rw [← getElem?_drop, h i hi, getElem?_eq_getElem hi]
  · intro h i hi
    rw [getElem?_drop, h i hi, getElem?_eq_getElem hi]

/-- A read inside the held bytes returns the part of them it names. -/
theorem readAt_add (h : HoldsAt file pos data) {i n : ℕ} (hin : i + n ≤ data.length) :
    readAt file (pos + i) n = (data.drop i).take n := by
  obtain ⟨rest, hrest⟩ := h
  unfold readAt
  rw [← drop_drop, ← hrest, drop_append_of_le_length (by omega), take_append_of_le_length (by simp; omega)]

theorem readAt_zero (h : HoldsAt file pos data) (hn : n ≤ data.length) : readAt file pos n = data.take n := by
  simpa using h.readAt_add (i := 0) (by omega)

/-- Held bytes survive any change of the file at or past their end. -/
theorem of_take_eq {file' : Bytes} (h : HoldsAt file pos data)
    (heq : file'.take n = file.take n) (hn : pos + data.length ≤ n) : HoldsAt file' pos data := by
  rw [iff_getElem?] at h ⊢
  intro i hi
  have hlt : pos + i < n := by omega
  rw [← h i hi, ← getElem?_take_of_lt hlt, heq, getElem?_take_of_lt hlt]

end HoldsAt

theorem holdsAt_writeAt (data : Bytes) : HoldsAt (writeAt file pos data) pos data := by
  have hcut : (resize file pos).drop pos = [] := drop_of_length_le (by simp)
  refine ⟨file.drop (pos + data.length), ?_⟩
  rw [writeAt, drop_append_of_le_length (by simp), hcut, nil_append]

/-- Below `n` the file kept its bytes; where it ended before, zero bytes may have come. -/
def SameBelow (n : ℕ) (file file' : Bytes) : Prop :=
  ∀ i, i < n → file'[i]? = file[i]? ∨ (file[i]? = none ∧ file'[i]? = some 0)

theorem SameBelow.refl (n : ℕ) (file : Bytes) : SameBelow n file file :=
  fun _ _ => .inl rfl

theorem SameBelow.trans {a b c : Bytes} (hab : SameBelow n a b) (hbc : SameBelow n b c) : SameBelow n a c := by
  intro i hi
  rcases hab i hi with h | ⟨h, h'⟩
  · rw [← h]
    exact hbc i hi
  rcases hbc i hi with hc | ⟨hc, -⟩
  · exact .inr ⟨h, hc.trans h'⟩
  · rw [hc] at h'
    cases h'

theorem sameBelow_resize {n pos : ℕ} (h : n ≤ pos) : SameBelow n file (resize file pos) := by
  intro i hi
  by_cases hlt : i < file.length
  · left
    rw [resize, getElem?_append_left (by rw [length_take]; omega), getElem?_take_of_lt (by omega)]
  right
  refine ⟨getElem?_eq_none (by omega), ?_⟩
  rw [resize, getElem?_append_right (by rw [length_take]; omega),
    getElem?_replicate, if_pos (by rw [length_take]; omega)]

theorem sameBelow_writeAt (file data : Bytes) {n pos : ℕ} (h : n ≤ pos) : SameBelow n file (writeAt file pos data) := by
  intro i hi
  have hget : (writeAt file pos data)[i]? = (resize file pos)[i]? := by
    rw [writeAt, getElem?_append_left (by simp; omega)]
  rw [hget]
  exact sameBelow_resize file h i hi

theorem HoldsAt.sameBelow {file file' data : Bytes} {pos n : ℕ} (h : HoldsAt file pos data)
    (hsame : SameBelow n file file') (hle : pos + data.length ≤ n) : HoldsAt file' pos data := by
  rw [iff_getElem?] at h ⊢
  intro i hi
  rw [← h i hi]
  rcases hsame (pos + i) (by omega) with heq | ⟨hnone, -⟩
  · exact heq
  · rw [h i hi, getElem?_eq_getElem hi] at hnone
    cases hnone

theorem HoldsAt.take {file data : Bytes} {pos n : ℕ} (h : HoldsAt file pos data)
    (hle : pos + data.length ≤ n) : HoldsAt (file.take n) pos data :=
  h.of_take_eq (n := n) (by simp) hle

theorem Blank.sameBelow {file file' : Bytes} {a b n : ℕ} (h : Blank file a b)
    (hsame : SameBelow n file file') (hle : b ≤ n) : Blank file' a b := by
  intro i x hi hlt hx
  rcases hsame i (by omega) with heq | ⟨-, hzero⟩
  · exact h i x hi hlt (heq ▸ hx)
  · rw [hzero] at hx
    exact (Option.some.inj hx).symm

theorem blank_of_length_le {file : Bytes} {a b : ℕ} (h : file.length ≤ a) : Blank file a b := by
  intro i x hi _ hx
  rw [getElem?_eq_none (h.trans hi)] at hx
  cases hx

end Narad.Lib

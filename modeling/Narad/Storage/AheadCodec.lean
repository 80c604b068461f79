import Narad.Storage.Frame
import Mathlib.Data.List.Destutter
import Mathlib.Data.List.Sort

/-!
# The slots of `consumer.ahead`

The offsets acked above the frontier, stored as a checksummed slot of deltas in variable length. The
file of two slots, and the number of the slot a record was read from, are left out.
-/

namespace Narad.Storage

open Lib List Option

def consumerAheadSlotSize : ℕ := 4096
def consumerAheadVersion : UInt8 := 1
def consumerAheadHdrLen : ℕ := 4 + 1 + 3 + 8 + 8 + 4 + 4 + 4
def consumerAheadCRCOff : ℕ := consumerAheadHdrLen - 4
def consumerAheadPayload : ℕ := consumerAheadSlotSize - consumerAheadHdrLen
def consumerAheadMagic : Bytes := [0x4e, 0x41, 0x41, 0x48]

structure ConsumerAhead where
  seq : ℕ
  committed : ℤ
  offsets : List ℤ

/-- The checksum of a header and the payload behind it. -/
def aheadCRC (header payload : Bytes) : UInt32 :=
  crcUpdate castagnoli (crcUpdate castagnoli 0 header) payload

/-- The loop over the sorted offsets: the deltas that fit so far and how many they are. -/
def aheadLoop (committed : ℤ) : List ℤ → ℤ → Bytes → ℕ → Bytes × ℕ
  | [], _, payload, count => (payload, count)
  | off :: rest, prev, payload, count =>
    if off ≤ committed then aheadLoop committed rest prev payload count
    else
      let delta := appendUvarint (unsigned 64 (off - prev))
      if consumerAheadPayload < payload.length + delta.length then (payload, count)
      else aheadLoop committed rest off (payload ++ delta) (count + 1)

def aheadHeader (seq : ℕ) (committed : ℤ) (count plen : ℕ) : Bytes :=
  consumerAheadMagic ++ ([consumerAheadVersion, 0, 0, 0] ++ (littleEndian 8 seq ++
    (littleEndian 8 (unsigned 64 committed) ++ (littleEndian 4 count ++ littleEndian 4 plen))))

def aheadSlot (seq : ℕ) (committed : ℤ) (count : ℕ) (payload : Bytes) : Bytes :=
  let header := aheadHeader seq committed count payload.length
  header ++ (littleEndian 4 (aheadCRC header payload).toNat ++
    (payload ++ List.replicate (consumerAheadPayload - payload.length) 0))

def encodeConsumerAhead (seq : ℕ) (committed : ℤ) (offsets : List ℤ) : Bytes :=
  let sorted := (offsets.mergeSort (· ≤ ·)).destutter (· ≠ ·)
  let (payload, count) := aheadLoop committed sorted committed [] 0
  aheadSlot seq committed count payload

/-- The loop over the deltas; offsets wrap at 64 bits. -/
def aheadOffsets : ℕ → ℤ → Bytes → Option (List ℤ)
  | 0, _, _ => some []
  | count + 1, prev, payload =>
    let (delta, n) := uvarint payload
    if n ≤ 0 ∨ delta = 0 ∨ unsigned 64 (2 ^ 63 - 1 - prev) < delta then none
    else
      let off := signed 64 (unsigned 64 (prev + signed 64 delta))
      (aheadOffsets count off (payload.drop n.toNat)).map (off :: ·)

def decodeConsumerAheadSlot (slot : Bytes) : Option ConsumerAhead :=
  if slot.length < consumerAheadHdrLen ∨ readAt slot 0 4 ≠ consumerAheadMagic ∨
      slot[4]? ≠ some consumerAheadVersion then none
  else
    let count := fromLittleEndian (readAt slot 24 4)
    let plen := fromLittleEndian (readAt slot 28 4)
    if slot.length - consumerAheadHdrLen < plen ∨ plen < count then none
    else
      let payload := readAt slot consumerAheadHdrLen plen
      if (aheadCRC (readAt slot 0 consumerAheadCRCOff) payload).toNat ≠
          fromLittleEndian (readAt slot consumerAheadCRCOff 4) then none
      else
        let committed := signed 64 (fromLittleEndian (readAt slot 16 8))
        if committed < -1 then none
        else (aheadOffsets count committed payload).map
          fun offsets => ⟨fromLittleEndian (readAt slot 8 8), committed, offsets⟩

/-- The deltas of offsets that follow `prev`. -/
def deltas (prev : ℤ) : List ℤ → Bytes
  | [] => []
  | off :: rest => appendUvarint (unsigned 64 (off - prev)) ++ deltas off rest

/-- The longest prefix whose deltas fit behind the payload so far. -/
structure Fits (payload : Bytes) (prev : ℤ) (offsets taken : List ℤ) : Prop where
  leads : taken <+: offsets
  fits : (payload ++ deltas prev taken).length ≤ consumerAheadPayload
  longest : ∀ longer, longer <+: offsets → (payload ++ deltas prev longer).length ≤ consumerAheadPayload →
    longer <+: taken

theorem aheadLoop_eq (committed : ℤ) (offsets : List ℤ) (prev : ℤ) (payload : Bytes) (count : ℕ)
    (hfits : payload.length ≤ consumerAheadPayload) : ∃ taken,
      aheadLoop committed offsets prev payload count = (payload ++ deltas prev taken, count + taken.length) ∧
      Fits payload prev (offsets.filter (committed < ·)) taken := by
  induction offsets generalizing prev payload count with
  | nil => exact ⟨[], by simp [aheadLoop, deltas], List.nil_prefix, by simpa [deltas] using hfits, fun _ h _ => h⟩
  | cons off rest ih =>
    rw [aheadLoop]
    split
    next hle =>
      rw [filter_cons_of_neg (by simpa using hle)]
      exact ih prev payload count hfits
    rename_i hlt
    rw [filter_cons_of_pos (by simpa using hlt)]
    dsimp only
    split
    next hfull =>
      refine ⟨[], by simp [deltas], List.nil_prefix, by simpa [deltas] using hfits, fun longer hleads hlong => ?_⟩
      cases longer with
      | nil => exact List.nil_prefix
      | cons off' longer =>
        obtain ⟨rfl, -⟩ := cons_prefix_cons.mp hleads
        simp only [deltas, length_append] at hlong
        omega
    next hroom =>
      obtain ⟨taken, heq, htaken⟩ := ih off (payload ++ _) (count + 1) (length_append ▸ not_lt.mp hroom)
      refine ⟨off :: taken, ?_, cons_prefix_cons.mpr ⟨rfl, htaken.leads⟩, ?_, fun longer hleads hlong => ?_⟩
      · rw [heq, deltas, append_assoc, length_cons, Nat.add_right_comm, Nat.add_assoc]
      · rw [deltas, ← append_assoc]
        exact htaken.fits
      · cases longer with
        | nil => exact List.nil_prefix
        | cons off' longer =>
          obtain ⟨rfl, htail⟩ := cons_prefix_cons.mp hleads
          rw [deltas, ← append_assoc] at hlong
          exact cons_prefix_cons.mpr ⟨rfl, htaken.longest longer htail hlong⟩

/-- The wrap of a delta of `2 ^ 63` after the frontier -1 cancels. -/
theorem next_offset {prev : ℤ} {delta : ℕ} (hprev : -1 ≤ prev) (hmax : prev + delta < 2 ^ 63) :
    signed 64 (unsigned 64 (prev + signed 64 delta)) = prev + delta := by
  by_cases hlt : delta < 2 ^ 63
  · rw [@signed_of_lt 64 _ hlt, signed_unsigned (by omega) hmax]
  · obtain rfl : delta = 2 ^ 63 := by omega
    obtain rfl : prev = -1 := by omega
    rfl

theorem aheadOffsets_deltas {prev : ℤ} {taken : List ℤ} (hprev : -1 ≤ prev) (hasc : (prev :: taken).Pairwise (· < ·))
    (hmax : ∀ o ∈ taken, o < 2 ^ 63) : aheadOffsets taken.length prev (deltas prev taken) = some taken := by
  induction taken generalizing prev with
  | nil => rfl
  | cons off rest ih =>
    obtain ⟨hlt, hrest⟩ := pairwise_cons.mp hasc
    replace hlt := hlt off (.head _)
    have hoff := hmax off (.head _)
    have hdelta : (unsigned 64 (off - prev) : ℤ) = off - prev := by rw [unsigned]; omega
    have hroom : (unsigned 64 (2 ^ 63 - 1 - prev) : ℤ) = 2 ^ 63 - 1 - prev := by rw [unsigned]; omega
    have hlen := appendUvarint_length_pos (unsigned 64 (off - prev))
    have hnext : signed 64 (unsigned 64 (prev + signed 64 (unsigned 64 (off - prev)))) = off := by
      rw [next_offset hprev (by omega), hdelta]
      omega
    rw [length_cons, aheadOffsets, deltas, uvarint_append (by omega)]
    dsimp only
    rw [if_neg (by omega), hnext, Int.toNat_natCast, drop_left, ih (by omega) hrest fun o ho => hmax o (.tail _ ho)]
    rfl

theorem aheadOffsets_ascend {count : ℕ} {prev : ℤ} {payload : Bytes} {offsets : List ℤ} (hprev : -1 ≤ prev)
    (hmax : prev < 2 ^ 63) (h : aheadOffsets count prev payload = some offsets) :
    (prev :: offsets).IsChain (· < ·) ∧ ∀ o ∈ offsets, o < 2 ^ 63 := by
  induction count generalizing prev payload offsets with
  | zero =>
    cases h
    exact ⟨.singleton _, nofun⟩
  | succ count ih =>
    rw [aheadOffsets] at h
    dsimp only at h
    split at h
    · cases h
    next hok =>
      obtain ⟨rest, hrest, rfl⟩ := map_eq_some_iff.mp h
      generalize (uvarint payload).1 = delta at hok hrest
      have hroom : (unsigned 64 (2 ^ 63 - 1 - prev) : ℤ) = 2 ^ 63 - 1 - prev := by rw [unsigned]; omega
      have hnext : signed 64 (unsigned 64 (prev + signed 64 delta)) = prev + delta :=
        next_offset hprev (by omega)
      rw [hnext] at hrest ⊢
      obtain ⟨hasc, hle⟩ := ih (by omega) (by omega) hrest
      refine ⟨isChain_cons_cons.mpr ⟨by omega, hasc⟩, fun o ho => ?_⟩
      rcases mem_cons.mp ho with rfl | ho
      · omega
      · exact hle o ho

theorem length_le_deltas (prev : ℤ) (taken : List ℤ) : taken.length ≤ (deltas prev taken).length := by
  induction taken generalizing prev with
  | nil => exact le_rfl
  | cons off rest ih =>
    have := appendUvarint_length_pos (unsigned 64 (off - prev))
    have := ih off
    rw [deltas, length_append, length_cons]
    omega

theorem decodeConsumerAheadSlot_slot {seq count : ℕ} {committed : ℤ} {payload : Bytes} (hseq : seq < 2 ^ 64)
    (hlow : -1 ≤ committed) (hhigh : committed < 2 ^ 63) (hroom : payload.length ≤ 4060)
    (hcount : count ≤ payload.length) : decodeConsumerAheadSlot (aheadSlot seq committed count payload) =
      (aheadOffsets count committed payload).map (⟨seq, committed, ·⟩) := by
  set header := aheadHeader seq committed count payload.length with hheader
  set slot := aheadSlot seq committed count payload with hslot
  obtain ⟨h0, h4, h8, h16, h24, h28, h32, hcrc, h36, hlen⟩ : readAt slot 0 4 = consumerAheadMagic ∧
      slot[4]? = some consumerAheadVersion ∧ readAt slot 8 8 = littleEndian 8 seq ∧
      readAt slot 16 8 = littleEndian 8 (unsigned 64 committed) ∧ readAt slot 24 4 = littleEndian 4 count ∧
      readAt slot 28 4 = littleEndian 4 payload.length ∧ readAt slot 0 32 = header ∧
      readAt slot 32 4 = littleEndian 4 (aheadCRC header payload).toNat ∧
      readAt slot 36 payload.length = payload ∧ slot.length = 36 + 4060 := by
    refine ⟨?_, ?_, ?_, ?_, ?_, ?_, ?_, ?_, ?_, ?_⟩ <;>
      simp [hslot, hheader, aheadSlot, aheadHeader, readAt, drop_append, take_append,
        drop_of_length_le, take_of_length_le, consumerAheadMagic, consumerAheadPayload,
        consumerAheadSlotSize, consumerAheadHdrLen, hroom]
  have hword : unsigned 64 committed % 256 ^ 8 = unsigned 64 committed := by rw [unsigned]; omega
  simp only [decodeConsumerAheadSlot, consumerAheadCRCOff, consumerAheadHdrLen, h0, h4, h8, h16, h24, h28, h32, hcrc,
    hlen, fromLittleEndian_littleEndian, hword, signed_unsigned (by omega) hhigh]
  rw [if_neg (by simp), Nat.mod_eq_of_lt (a := payload.length) (by omega), Nat.mod_eq_of_lt (a := count) (by omega),
    Nat.mod_eq_of_lt (b := 256 ^ 4) (aheadCRC header payload).toNat_lt, Nat.mod_eq_of_lt (a := seq) (by omega),
    h36, if_neg (by omega), if_neg (by simp), if_neg (by omega)]

/-- An encoded record reads back with the longest prefix of its offsets that fits, and whatever reads back
ascends above its frontier within 64 bits. -/
theorem consumerAhead_codec :
    (∀ (seq : ℕ) (committed : ℤ) (offsets : List ℤ), seq < 2 ^ 64 → -1 ≤ committed → committed < 2 ^ 63 →
      (∀ o ∈ offsets, -2 ^ 63 ≤ o ∧ o < 2 ^ 63) → ∃ taken,
        decodeConsumerAheadSlot (encodeConsumerAhead seq committed offsets) = some ⟨seq, committed, taken⟩ ∧
        Fits [] committed ((offsets.mergeSort (· ≤ ·)).dedup.filter (committed < ·)) taken) ∧
    ∀ (slot : Bytes) (record : ConsumerAhead), decodeConsumerAheadSlot slot = some record →
      (record.committed :: record.offsets).Pairwise (· < ·) ∧ ∀ o ∈ record.offsets, o < 2 ^ 63 := by
  refine ⟨fun seq committed offsets hseq hlow hhigh hmax => ?_, fun slot record h => ?_⟩
  · have hsorted := pairwise_mergeSort' (· ≤ ·) offsets
    obtain ⟨taken, hloop, hfits⟩ := aheadLoop_eq committed (offsets.mergeSort (· ≤ ·)).dedup committed [] 0
      (Nat.zero_le _)
    refine ⟨taken, ?_, hfits⟩
    have hmem : ∀ o ∈ taken, committed < o ∧ o < 2 ^ 63 := by
      intro o ho
      obtain ⟨ho, hlt⟩ : o ∈ offsets ∧ committed < o := by simpa using hfits.leads.subset ho
      exact ⟨hlt, (hmax o ho).2⟩
    have hasc : taken.Pairwise (· < ·) := by
      have hle := hsorted.sublist (dedup_sublist _)
      exact ((hle.and (nodup_dedup _)).imp fun h => lt_of_le_of_ne h.1 h.2).sublist
        (hfits.leads.sublist.trans filter_sublist)
    rw [encodeConsumerAhead, hsorted.destutter_eq_dedup, hloop, Nat.zero_add]
    dsimp only
    rw [decodeConsumerAheadSlot_slot hseq hlow hhigh hfits.fits (length_le_deltas committed taken), nil_append,
      aheadOffsets_deltas hlow (pairwise_cons.mpr ⟨fun o ho => (hmem o ho).1, hasc⟩) fun o ho => (hmem o ho).2]
    rfl
  · simp only [decodeConsumerAheadSlot, ite_none_left_eq_some, map_eq_some_iff] at h
    obtain ⟨-, -, -, hlow, offsets, hoffsets, rfl⟩ := h
    have hword : fromLittleEndian (readAt slot 16 8) < 256 ^ 8 :=
      lt_of_lt_of_le (fromLittleEndian_lt _) (Nat.pow_le_pow_right (by decide) (by simp [readAt]))
    have hhigh : signed 64 (fromLittleEndian (readAt slot 16 8)) < 2 ^ 63 := by
      rw [signed]
      split <;> omega
    obtain ⟨hasc, hle⟩ := aheadOffsets_ascend (not_lt.mp hlow) hhigh hoffsets
    exact ⟨isChain_iff_pairwise.mp hasc, hle⟩

theorem threeAcks_read_back : ∃ taken,
    decodeConsumerAheadSlot (encodeConsumerAhead 1 (-1) [9, 7, 9]) = some ⟨1, -1, taken⟩ ∧
      Fits [] (-1) ((mergeSort [9, 7, 9] (· ≤ ·)).dedup.filter (-1 < ·)) taken :=
  consumerAhead_codec.1 1 (-1) [9, 7, 9] (by decide) (by decide) (by decide) (by decide)

end Narad.Storage

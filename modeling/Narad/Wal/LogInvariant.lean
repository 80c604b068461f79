import Narad.Wal.Log

/-!
# The invariant of the write-ahead log

The staged records are in three places: the sealed segments, the active segment's file, and the bytes
not yet in it, which are those detached by a flush or an inline sync and those in the buffer. A failed
write loses some of the detached bytes; the log then takes no further write.

The rest of the invariant says what each thread may rely on: a failed batch can be withdrawn to its
mark, a flush covers the records of the callers that wait on its batch, a roll finds the active segment
whole and synced, and a compaction deletes only segments below its bound.
-/

namespace Narad.Wal

open Lib List

variable (staged : List Bytes)

/-- Where the records below seq `q` end in a segment with base `a`. -/
def reach (a q : ℕ) : ℕ :=
  (framesOf a (span staged a q)).length

/-- The records below seq `q` are in sealed segments or in the first `synced` bytes of the active one. -/
def Kept (a synced q : ℕ) : Prop :=
  q ≤ a ∨ (q ≤ staged.length ∧ reach staged a q ≤ synced)

/-- The record is the one staged under its seq. -/
def Record.StagedIn (r : Record) : Prop :=
  staged[r.seq]? = some r.payload

section

variable {staged : List Bytes} {a q q' n synced synced' : ℕ} {r : Record}

theorem reach_mono (staged : List Bytes) (a : ℕ) (h : q ≤ q') : reach staged a q ≤ reach staged a q' := by
  have hmin : q - a ≤ q' - a := Nat.sub_le_sub_right h a
  simpa [reach, span, drop_take] using framesOf_length_mono hmin a (staged.drop a)

theorem reach_left (more : List Bytes) (h : q ≤ staged.length) : reach (staged ++ more) a q = reach staged a q := by
  rw [reach, span_left h, reach]

theorem reach_take (h : q ≤ n) : reach (staged.take n) a q = reach staged a q := by
  rw [reach, span_take h, reach]

theorem reach_length (staged : List Bytes) (a : ℕ) :
    reach staged a staged.length = (framesOf a (staged.drop a)).length := by
  rw [reach, span_length_self]

section

variable (h : Kept staged a synced q)
include h

theorem Kept.mono (hle : synced ≤ synced') : Kept staged a synced' q :=
  h.imp id fun h => ⟨h.1, le_trans h.2 hle⟩

theorem Kept.left (more : List Bytes) : Kept (staged ++ more) a synced q :=
  h.imp id fun h => ⟨by simp; omega, by rw [reach_left more h.1]; exact h.2⟩

theorem Kept.take (hq : q ≤ n) : Kept (staged.take n) a synced q :=
  h.imp id fun h => ⟨by simp; omega, by rw [reach_take hq]; exact h.2⟩

theorem Kept.of_le (hle : q' ≤ q) : Kept staged a synced q' :=
  h.imp (le_trans hle) fun h => ⟨le_trans hle h.1, le_trans (reach_mono staged a hle) h.2⟩

theorem Kept.le_length (ha : a ≤ staged.length) : q ≤ staged.length :=
  h.elim (fun h => le_trans h ha) And.left

end

theorem Record.StagedIn.lt (h : r.StagedIn staged) : r.seq < staged.length :=
  (List.getElem?_eq_some_iff.mp h).1

theorem Record.StagedIn.left (h : r.StagedIn staged) (more : List Bytes) : r.StagedIn (staged ++ more) := by
  rw [Record.StagedIn, getElem?_append_left h.lt]
  exact h

theorem Record.StagedIn.take (h : r.StagedIn staged) (hlt : r.seq < n) : r.StagedIn (staged.take n) := by
  rw [Record.StagedIn, getElem?_take_of_lt hlt]
  exact h

/-- Everything staged is kept once the active segment is whole and synced. -/
theorem kept_of_whole (h : reach staged a staged.length ≤ synced) (hq : q ≤ staged.length) : Kept staged a synced q :=
  .inr ⟨hq, le_trans (reach_mono staged a hq) h⟩

end

def Holder.rest : Holder → Bytes
  | .writing rest _ => rest
  | _ => []

/-- An inline write or sync has the file lock. -/
def Holder.holdsFile : Holder → Bool
  | .writing _ _ | .syncing _ => true
  | _ => false

def flightRest : Option Flight → Bytes
  | some ⟨_, _, _, .writing rest⟩ => rest
  | _ => []

/-- The seq of a compaction that has not listed the directory yet. -/
def Compaction.bound : Compaction → ℕ
  | .rotated seq => seq
  | .listing seq _ _ => seq
  | _ => 0

/-- The log can go back to the mark. -/
structure MarkOk (s : Log) (m : Mark) : Prop where
  buffered_le : m.buffered ≤ s.writeBuffer.length
  base_le : s.segmentBase ≤ m.nextSeq
  next_le : m.nextSeq ≤ s.staged.length
  tail : s.writeBuffer.drop m.buffered = framesOf m.nextSeq (s.staged.drop m.nextSeq)
  size : m.segmentSize = reach s.staged s.segmentBase m.nextSeq
  pending : m.pending = none ∨ m.pending = s.pending
  waiting : ∀ w ∈ s.waiting, ∀ r ∈ w.2, r.seq < m.nextSeq
  acked : ∀ r ∈ s.acked, r.seq < m.nextSeq
  read : ∀ q ∈ s.read, q < m.nextSeq
  bases : ∀ b ∈ s.bases, b ≤ m.nextSeq
  compaction : s.compaction.bound ≤ m.nextSeq

structure CallOk (maxRecord : ℕ) (staged : List Bytes) (c : Call) : Prop where
  sizes : ∀ f ∈ c.rest, 0 < f.size ∧ f.size ≤ maxRecord
  taken : ∀ r ∈ c.taken, r.StagedIn staged

variable (s : Log)

def AfterOk : After → Prop
  | .append c => CallOk s.opts.maxRecord s.staged c
  | .compact seq => seq ≤ s.compacted ∧ seq ≤ s.nextSeq

def MarkedOk : After → Prop
  | .append c => MarkOk s c.mark
  | .compact _ => True

/-- The active segment is whole and synced, and no write is under way. -/
structure Ready (s : Log) (act : Segment) (lost : Bytes) : Prop where
  buffer : s.writeBuffer = []
  lost_nil : lost = []
  synced : act.synced = act.file.length
  base_lt : s.segmentBase < s.nextSeq
  flight : s.flightHoldsFile = false
  healthy : s.writeFailed = false

def HolderOk (act : Segment) (fresh : List Segment) (lost : Bytes) : Holder → Prop
  | .free => fresh = []
  | .staging c => fresh = [] ∧ CallOk s.opts.maxRecord s.staged c ∧ MarkOk s c.mark
  | .writing _ k => fresh = [] ∧ s.writeBuffer = [] ∧ s.flightHoldsFile = false ∧ AfterOk s k
  | .syncing k =>
    fresh = [] ∧ s.writeBuffer = [] ∧ s.flightHoldsFile = false ∧ s.writeFailed = false ∧ AfterOk s k
  | .rolling k => fresh = [] ∧ s.writeBuffer = [] ∧ AfterOk s k ∧ MarkedOk s k
  | .created k | .named k => fresh = [⟨s.nextSeq, [], 0⟩] ∧ Ready s act lost ∧ AfterOk s k ∧ MarkedOk s k

/-- The records that wait on the flight's batch end below `limit`. -/
def Covers (batch : Option ℕ) (limit : ℕ) : Prop :=
  ∀ w ∈ s.waiting, batch = some w.1 → ∀ r ∈ w.2, Kept s.staged s.segmentBase limit (r.seq + 1)

def FlightOk (act : Segment) : Flight → Prop
  | ⟨batch, base, stop, .writing rest⟩ =>
    base = s.segmentBase ∧ Covers s batch stop ∧ (s.writeFailed = false → act.file.length + rest.length = stop)
  | ⟨batch, base, stop, .syncing⟩ =>
    base = s.segmentBase ∧ Covers s batch stop ∧ s.writeFailed = false ∧ act.file.length = stop
  | ⟨batch, base, stop, .ended true⟩ =>
    base ≤ s.segmentBase ∧ Covers s batch act.synced ∧ (base = s.segmentBase → stop ≤ act.synced)
  | ⟨_, _, _, .ended false⟩ => s.writeFailed = true

def CompactionOk (pieces : List (Segment × ℕ)) : Compaction → Prop
  | .idle | .rotating => True
  | .rotated seq => seq ≤ s.compacted ∧ seq ≤ s.nextSeq
  | .listing seq active _ =>
    seq ≤ s.compacted ∧ seq ≤ s.nextSeq ∧ (active = s.segmentBase ∨ seq ≤ s.segmentBase)
  | .removing doomed _ _ =>
    (∀ b ∈ doomed, b < s.segmentBase) ∧ ∀ p ∈ pieces, p.1.base ∈ doomed → p.2 ≤ s.compacted

/-- The active segment's file, with the detached bytes `lost` still to come. -/
structure FileOk (s : Log) (act : Segment) (lost : Bytes) : Prop where
  base : act.base = s.segmentBase
  frames : act.file ++ (lost ++ s.writeBuffer) = framesOf s.segmentBase (s.staged.drop s.segmentBase)
  healthy : s.writeFailed = false → lost = flightRest s.flight ++ s.holder.rest
  synced_le : act.synced ≤ act.file.length
  synced_eq : s.writeFailed = false → s.flightHoldsFile = false → s.holder.holdsFile = false →
    act.synced = act.file.length
  durable_le : s.durableSize ≤ act.synced

structure BatchesOk (s : Log) : Prop where
  waiting : ∀ w ∈ s.waiting, w.1 < s.nextBatch ∧ ∀ r ∈ w.2, r.StagedIn s.staged
  pending : ∀ b, s.pending = some b → b < s.nextBatch
  detached : ∀ f, s.flight = some f → ∀ b, f.batch = some b → b < s.nextBatch ∧ s.pending ≠ some b

/-- The invariant but for the holder of the append lock. -/
structure Core (s : Log) (pieces : List (Segment × ℕ)) (act : Segment) (fresh : List Segment)
    (lost : Bytes) : Prop where
  opts : normalizeOptions s.opts = s.opts
  small : s.opts.maxRecord < 2 ^ 32
  disk : s.disk = pieces.map Prod.fst ++ act :: fresh
  layout : Layout s.staged s.compacted s.segmentBase pieces
  next : s.nextSeq = s.staged.length
  base_le : s.segmentBase ≤ s.staged.length
  fit : AllFit s.opts.maxRecord 0 s.staged
  size : s.segmentSize = reach s.staged s.segmentBase s.staged.length
  file : FileOk s act lost
  batches : BatchesOk s
  flight : ∀ f, s.flight = some f → FlightOk s act f
  acked : ∀ r ∈ s.acked, r.StagedIn s.staged ∧ Kept s.staged s.segmentBase act.synced (r.seq + 1)
  read : ∀ q ∈ s.read, Kept s.staged s.segmentBase act.synced (q + 1)
  bases : ∀ b ∈ s.bases, Kept s.staged s.segmentBase act.synced b
  compaction : CompactionOk s pieces s.compaction

structure Inv (s : Log) (pieces : List (Segment × ℕ)) (act : Segment) (fresh : List Segment)
    (lost : Bytes) : Prop extends Core s pieces act fresh lost where
  holder : HolderOk s act fresh lost s.holder

def Log.Ok : Prop :=
  ∃ pieces act fresh lost, Inv s pieces act fresh lost

section

variable {s : Log} {pieces : List (Segment × ℕ)} {act : Segment} {fresh : List Segment} {lost : Bytes}
  {disk : List Segment}

theorem updateSegment_of_ne {base : ℕ} {f : Segment → Segment}
    (h : ∀ g ∈ disk, g.base ≠ base) : updateSegment disk base f = disk := by
  conv_rhs => rw [← map_id disk]
  exact map_congr_left fun g hg => if_neg (h g hg)

theorem removeSegment_of_ne {base : ℕ} (h : ∀ g ∈ disk, g.base ≠ base) : removeSegment disk base = disk :=
  filter_eq_self.mpr fun g hg => decide_eq_true (h g hg)

theorem Core.sealed_lt (h : Core s pieces act fresh lost) : ∀ g ∈ pieces.map Prod.fst, g.base < s.segmentBase := by
  intro g hg
  obtain ⟨p, hp, rfl⟩ := mem_map.mp hg
  exact (h.layout.below p hp).2

/-- Changing the active segment changes only it. -/
theorem Core.update_active (h : Core s pieces act fresh lost) (hfresh : fresh = []) (f : Segment → Segment) :
    updateSegment s.disk s.segmentBase f = pieces.map Prod.fst ++ f act :: fresh := by
  have hsealed := updateSegment_of_ne (f := f) fun g hg => (h.sealed_lt g hg).ne
  rw [updateSegment] at hsealed ⊢
  rw [h.disk, map_append, map_cons, hsealed, if_pos h.file.base, hfresh, map_nil]

variable {g : Segment}

theorem Core.remove_fresh (h : Core s pieces act [g] lost) (hlt : s.segmentBase < g.base) :
    removeSegment s.disk g.base = pieces.map Prod.fst ++ act :: [] := by
  have hsealed := removeSegment_of_ne fun k hk => ((h.sealed_lt k hk).trans hlt).ne
  rw [removeSegment] at hsealed ⊢
  rw [h.disk, filter_append, hsealed,
    filter_cons_of_pos (by simpa using h.file.base ▸ hlt.ne), filter_cons_of_neg (by simp),
    filter_nil]

/-- Removing a sealed segment leaves the others. -/
theorem Core.remove_sealed (h : Core s pieces act fresh lost) (hfresh : ∀ g ∈ fresh, s.segmentBase < g.base)
    {b : ℕ} (hb : b < s.segmentBase) :
    removeSegment s.disk b = (pieces.filter fun p => p.1.base ≠ b).map Prod.fst ++ act :: fresh := by
  have hrest : removeSegment (act :: fresh) b = act :: fresh := by
    refine removeSegment_of_ne fun g hg => ?_
    rcases mem_cons.mp hg with rfl | hg
    · exact h.file.base ▸ hb.ne'
    · exact (hb.trans (hfresh g hg)).ne'
  rw [removeSegment] at hrest ⊢
  rw [h.disk, filter_append, hrest, filter_map]
  rfl

section

variable (h : Inv s pieces act fresh lost)
include h

/-- Only a roll has a fresh segment: an empty one that starts at the next seq. -/
theorem Inv.fresh_eq : fresh = [] ∨ fresh = [⟨s.nextSeq, [], 0⟩] ∧ Ready s act lost := by
  have hholder := h.holder
  cases hh : s.holder with
  | free => rw [hh] at hholder; exact .inl hholder
  | created k | named k => rw [hh] at hholder; exact .inr ⟨hholder.1, hholder.2.1⟩
  | _ => rw [hh] at hholder; exact .inl hholder.1

theorem Inv.fresh_base (hg : g ∈ fresh) : g.base = s.nextSeq := by
  rcases h.fresh_eq with rfl | ⟨rfl, -⟩
  · exact absurd hg not_mem_nil
  · rw [mem_singleton.mp hg]

theorem Inv.fresh_lt : ∀ g ∈ fresh, s.segmentBase < g.base := by
  intro g hg
  rw [h.fresh_base hg]
  rcases h.fresh_eq with rfl | ⟨rfl, hready⟩
  · exact absurd hg not_mem_nil
  · exact hready.base_lt

theorem Inv.disk_sorted : s.disk.Pairwise fun a b => a.base < b.base := by
  rw [h.disk]
  refine Layout.disk_sorted (h.file.base ▸ h.layout) (fun g hg => h.file.base ▸ h.fresh_lt g hg) ?_
  rcases h.fresh_eq with rfl | ⟨rfl, -⟩
  · exact List.Pairwise.nil
  · exact pairwise_singleton _ _

end

end

end Narad.Wal

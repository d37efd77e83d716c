import VirtualMemorySimulation.MemoryManager.Disjointness

/-!
# Requests through the `malloc` macro

The macro hands a 64-bit size to an `int` parameter. Both allocation paths take the
narrowed size for the request: what fits in an `int` is recorded as it was asked
for, and a larger request is served as its residue, for no call ever returns `NULL`.
-/

namespace VirtualMemorySimulation.MemoryManager

open ByteRecords Execution

variable {P : Platform} {m : Memory} {A : Arena} {r : Request}

theorem toInt_bounds (x : ℤ) : -2147483648 ≤ toInt x ∧ toInt x < 2147483648 := by
  unfold toInt
  rw [Int.bmod_def]
  split <;> omega

/-- The request of `malloc(x)` by the thread that is running. -/
def mallocRequest (currTid : UInt32) (x : UInt64) : Request where
  requestId := .threadReq
  currTid := currTid.toNat
  size := toInt x.toNat
  currTid_uint := ⟨by positivity, by exact_mod_cast currTid.toNat_lt⟩
  size_int := toInt_bounds _

@[simp] theorem mallocRequest_size (currTid : UInt32) (x : UInt64) :
    (mallocRequest currTid x).size = toInt x.toNat := by
  simp only [mallocRequest]

def malloc (P : Platform) (currTid : UInt32) (x : UInt64) (fuel : ℕ) (m : Memory) :
    Except Stop (ℤ × Memory) := myAllocate P (mallocRequest currTid x) fuel m

/-- The free block that a block was split from its rest: it follows the bytes counted for the
block, and the block links to it. -/
structure Remainder (m : Memory) (blk : Block) (rest : ℤ) : Prop where
  link : blk.next = rest
  follows : blk.blockAddress + blk.totalSize = rest
  free : (load Block m.bytes rest).state = BlockState.unallocated.code

/-- The block recorded for the pointer has the size asked for, and what it was split from
starts after its header. -/
structure Recorded (m : Memory) (v : ℤ) (x : ℕ) : Prop where
  data : (load Block m.bytes (v - 40)).dataAddress = v
  size : (load Block m.bytes (v - 40)).dataSize = x
  remainder : ∀ rest, Remainder m (load Block m.bytes (v - 40)) rest → v < rest

def SameHeaders (m m' : Memory) : Prop :=
  (∀ items, PageList m items ↔ PageList m' items) ∧
    ∀ pg blocks, BlockList m pg blocks ↔ BlockList m' pg blocks

/-- A returned pointer has a block of the size asked for, and a size that is no `int` is
refused. -/
structure ReadsSize (P : Platform) (m : Memory) (currTid : UInt32) (x : UInt64) : Prop where
  fits : ∀ n v m', malloc P currTid x n m = .ok (v, m') → v ≠ null → Recorded m' v x.toNat
  unfit : 2147483648 ≤ x.toNat → ∃ m', Settles (fun n => malloc P currTid x n m) (.ok (null, m')) ∧
    SameHeaders m m'

section Recording

variable {pre post : Arena} {p : ArenaPage} {bpre bpost : List ArenaBlock} {b : ArenaBlock}

theorem TakenAt.load_taken (ht : TakenAt P r A pre p post bpre b bpost) (h : Represents P m A)
    (hsize : 0 ≤ r.size) :
    ∃ next, load Block (takenMemory P m r.size pre p bpre b bpost).bytes
        (dataAddress P pre bpre - 40) =
      ⟨BlockState.allocated.code, r.size, r.size + 40, dataAddress P pre bpre - 40,
        dataAddress P pre bpre, next⟩ := by
  have hpos := P.physicalMemory_pos
  have htop := P.physicalMemory_top
  have htopEq := P.top_eq
  have hfirst := P.firstPage_eq
  have hle := P.pageSize_le
  obtain rfl := ht.split
  obtain ⟨hlow, hhigh⟩ := h.page_room
  have hp := h.valid p (by simp)
  have htiles := hp.tiles
  have hvalid := hp.blocks
  rw [ht.fit.split] at htiles hvalid
  have hpre := extent_nonneg fun c hc => hvalid c (List.mem_append_left _ hc)
  have hpost := extent_nonneg fun c hc => hvalid c (List.mem_append_right _ (.tail _ hc))
  have htakes := ht.fit.takes.2
  rw [extent_append, extent] at htiles
  obtain ⟨a, ha⟩ : ∃ a, pageEnd P P.firstPage pre = a := ⟨_, rfl⟩
  obtain ⟨x, hx⟩ : ∃ x, a + 64 + extent bpre = x := ⟨_, rfl⟩
  have hdata : dataAddress P pre bpre = x + 40 := by rw [dataAddress, ha, hx]
  have hfits : ∀ next, pointerField.Holds next → Fits (⟨BlockState.allocated.code, r.size,
      r.size + 40, x, x + 40, next⟩ : Block) := fun next hnext =>
    Block.fits BlockState.allocated.code_holds (intField_holds (by omega) (by omega))
      (intField_holds (by omega) (by omega)) (pointerField_holds (by omega) (by omega))
      (pointerField_holds (by omega) (by omega)) hnext
  rw [hdata, add_sub_cancel_right]
  simp only [takenMemory, carved, carveStore, ha, hx]
  split_ifs with hexact hnull
  · refine ⟨blockLink (x + b.totalSize) bpost, ?_⟩
    rw [load_store_of_apart _ _ (by simp; omega)]
    exact load_store _ _ (hfits _ (blockLink_holds (by omega) (by omega) _))
  all_goals
    refine ⟨x + (r.size + 40), ?_⟩
    rw [load_store_of_apart _ _ (by simp; omega), load_store_of_apart _ _ (by simp; omega)]
    exact load_store _ _ (hfits _ (pointerField_holds (by omega) (by omega)))

/-- The size is recorded as it was narrowed, and the rest lies behind the data. -/
theorem TakenAt.recorded (ht : TakenAt P r A pre p post bpre b bpost) (h : Represents P m A)
    (hsize : 1 ≤ r.size) {x : ℕ} (hx : r.size = x) :
    Recorded (takenMemory P m r.size pre p bpre b bpost) (dataAddress P pre bpre) x := by
  obtain ⟨next, hload⟩ := ht.load_taken h (by omega)
  constructor
  · rw [hload]
  · rw [hload, hx]
  · rintro rest ⟨-, hfollows, -⟩
    rw [hload] at hfollows
    simp only at hfollows
    omega

end Recording

section Requests

variable {currTid : UInt32} {x y : UInt64}

/-- The allocator cannot tell a size from its residue. -/
theorem malloc_residue (h : (x.toNat : ℤ) % 4294967296 = (y.toNat : ℤ) % 4294967296) :
    malloc P currTid x = malloc P currTid y := by
  have hsize : toInt x.toNat = toInt y.toNat := by
    unfold toInt
    rw [Int.bmod_def, Int.bmod_def, Nat.cast_ofNat, h]
  unfold malloc mallocRequest
  simp only [hsize]

/-- Requests are read as they are made exactly up to the largest `int`. -/
theorem malloc_readsSize_iff (h : Holds P m A) (hstale : P.staleTmpPrev = null)
    (hnext : P.staleBlockNext = null) (hx : 1 ≤ x.toNat) :
    ReadsSize P m currTid x ↔ x.toNat < 2147483648 := by
  constructor
  · intro hreads
    by_contra hlarge
    obtain ⟨m', hnull, -⟩ := hreads.unfit (not_lt.mp hlarge)
    obtain ⟨n, hn⟩ := hnull.exists_ok
    exact myAllocate_returns_ne_null hn rfl
  · intro hsmall
    have hsize : (mallocRequest currTid x).size = (x.toNat : ℤ) := by
      rw [mallocRequest_size]
      exact toInt_of_range (by omega) (by omega)
    refine ⟨fun n v m' hret _ => ?_, fun hlarge => absurd hsmall (not_lt.mpr hlarge)⟩
    obtain ⟨m₀, A₀, pre, p, post, bpre, b, bpost, hrep, -, -, ht, rfl, rfl⟩ :=
      myAllocate_returns h hstale hnext (by omega) hret
    exact ht.recorded hrep (by omega) hsize

theorem malloc_readsSize_turns : ∃ m, Run (Guarded (Clears .typical) (Allocates .typical))
      Memory.initial turns m ∧
        (ReadsSize .typical m 1 100 ↔ (100 : UInt64).toNat < 2147483648) := by
  obtain ⟨A, hA, -⟩ := map_eq_ok.mp turns_serve
  obtain ⟨m, hrun, hholds⟩ := run_of_serves (P := .typical) rfl rfl hA
  exact ⟨m, hrun, malloc_readsSize_iff hholds rfl rfl (by decide)⟩

/-- Four gigabytes and a hundred bytes are answered with a block of a hundred bytes. -/
theorem malloc_short_block :
    ¬ ReadsSize .typical Memory.initial 0 4294967396 ∧
      (malloc .typical 0 4294967396 4 Memory.initial).map
        (fun res => (res.1, (load Block res.2.bytes (res.1 - 40)).dataSize)) =
          .ok (65672, 100) := by
  refine ⟨fun hreads => ?_, by decide +kernel⟩
  obtain ⟨m', hnull, -⟩ := hreads.unfit (by decide +kernel)
  obtain ⟨n, hn⟩ := hnull.exists_ok
  exact myAllocate_returns_ne_null hn rfl

end Requests

end VirtualMemorySimulation.MemoryManager

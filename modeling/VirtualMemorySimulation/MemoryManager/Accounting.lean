import VirtualMemorySimulation.MemoryManager.PageList
import VirtualMemorySimulation.MemoryManager.PageSearch

/-!
# Accounting for the returned ranges

The returned ranges are the data of the allocated blocks of the arena, in another
order: a call that cuts a block with room for two headers leaves an arena again, with
the data of one allocated block more.
-/

namespace VirtualMemorySimulation.MemoryManager

open ByteRecords Execution

variable {P : Platform}

/-- The ranges of `k` bytes from `x` and `n` bytes from `y` do not overlap. -/
def Apart (x k y n : ℤ) : Prop := x + k ≤ y ∨ y + n ≤ x

theorem Apart.symm {x k y n : ℤ} (h : Apart x k y n) : Apart y n x k := Or.symm h

structure Allocation where
  requestId : RequestId
  tid : ℤ
  address : ℤ
  size : ℤ
  deriving DecidableEq, Repr

/-- What a call that returned `v` was given. -/
def Request.allocation (r : Request) (v : ℤ) : Allocation := ⟨r.requestId, r.ownerTid, v, r.size⟩

/-- The data ranges of the allocated blocks from address `x` on. -/
def blockAllocations (requestId : RequestId) (tid : ℤ) : ℤ → List ArenaBlock → List Allocation
  | _, [] => []
  | x, b :: bs =>
      (if b.state = .allocated then [⟨requestId, tid, x + 40, b.dataSize⟩] else []) ++
        blockAllocations requestId tid (x + b.totalSize) bs

/-- The data ranges of the allocated blocks of all pages. -/
def allocations (P : Platform) : ℤ → Arena → List Allocation
  | _, [] => []
  | a, p :: ps => blockAllocations p.requestId p.tid (a + 64) p.blocks ++
      allocations P (a + P.sysconfPageSize) ps

section Geometry

variable {requestId : RequestId} {tid x a : ℤ} {bs cs : List ArenaBlock} {ps qs : Arena}

theorem blockAllocations_append : blockAllocations requestId tid x (bs ++ cs) =
    blockAllocations requestId tid x bs ++ blockAllocations requestId tid (x + extent bs) cs := by
  induction bs generalizing x with
  | nil => simp [blockAllocations, extent]
  | cons b bs ih => simp [blockAllocations, extent, ih, add_assoc]

theorem allocations_append :
    allocations P a (ps ++ qs) = allocations P a ps ++ allocations P (pageEnd P a ps) qs := by
  induction ps generalizing a with
  | nil => simp [allocations]
  | cons p ps ih => simp [allocations, ih]

theorem blockAllocations_bounds (hv : ∀ b ∈ bs, b.Valid) {c : Allocation}
    (hc : c ∈ blockAllocations requestId tid x bs) :
    c.requestId = requestId ∧ c.tid = tid ∧ x + 40 ≤ c.address ∧
      c.address + c.size ≤ x + extent bs := by
  induction bs generalizing x with
  | nil => simp [blockAllocations] at hc
  | cons b bs ih =>
    have hb := hv b (by simp)
    have hle := hb.header_le
    have hbs : ∀ d ∈ bs, d.Valid := fun d hd => hv d (by simp [hd])
    have hext := extent_nonneg hbs
    rw [blockAllocations, List.mem_append] at hc
    rw [extent]
    rcases hc with hc | hc
    · split_ifs at hc with hs
      · have hdata := hb.data hs
        rw [List.mem_singleton.mp hc]
        exact ⟨rfl, rfl, le_rfl, by simp only; omega⟩
      · simp at hc
    · obtain ⟨h1, h2, h3, h4⟩ := ih hbs hc
      exact ⟨h1, h2, by omega, by omega⟩

theorem blockAllocations_pairwise (hv : ∀ b ∈ bs, b.Valid) :
    (blockAllocations requestId tid x bs).Pairwise
      fun c d => Apart c.address c.size d.address d.size := by
  induction bs generalizing x with
  | nil => exact .nil
  | cons b bs ih =>
    have hb := hv b (by simp)
    have hbs : ∀ d ∈ bs, d.Valid := fun d hd => hv d (by simp [hd])
    rw [blockAllocations]
    refine List.pairwise_append.mpr ⟨?_, ih hbs, fun c hc d hd => ?_⟩
    · split_ifs
      · exact List.pairwise_singleton _ _
      · exact .nil
    · split_ifs at hc with hs
      · have hdata := hb.data hs
        have hd := (blockAllocations_bounds hbs hd).2.2.1
        rw [List.mem_singleton.mp hc]
        exact Or.inl (by simp only; omega)
      · simp at hc

theorem allocations_bounds (hv : ∀ p ∈ ps, p.Valid P) {c : Allocation}
    (hc : c ∈ allocations P a ps) :
    ∃ p ∈ ps, ∃ b, a ≤ b ∧ b + P.sysconfPageSize ≤ pageEnd P a ps ∧
      (b, p.header P b (b + P.sysconfPageSize)) ∈ pageItems P a ps ∧
      c ∈ blockAllocations p.requestId p.tid (b + 64) p.blocks := by
  have hlarge := P.pageSize_large
  induction ps generalizing a with
  | nil => simp [allocations] at hc
  | cons p ps ih =>
    rw [pageEnd_cons]
    rcases List.mem_append.mp hc with hc | hc
    · exact ⟨p, by simp, a, le_rfl, le_pageEnd _ _, by simp [pageItems], hc⟩
    · obtain ⟨q, hq, b, hab, hb, hmem, hcb⟩ := ih (fun q hq => hv q (by simp [hq])) hc
      exact ⟨q, by simp [hq], b, by omega, hb, by simp [pageItems, hmem], hcb⟩

theorem allocations_low (hv : ∀ p ∈ ps, p.Valid P) {c : Allocation}
    (hc : c ∈ allocations P a ps) : a + 104 ≤ c.address ∧ c.address + c.size ≤ pageEnd P a ps := by
  obtain ⟨p, hp, b, hab, hb, _, hcb⟩ := allocations_bounds hv hc
  have htiles := (hv p hp).tiles
  obtain ⟨_, _, hlow, hhigh⟩ := blockAllocations_bounds (hv p hp).blocks hcb
  exact ⟨by omega, by omega⟩

theorem allocations_pairwise (hv : ∀ p ∈ ps, p.Valid P) :
    (allocations P a ps).Pairwise fun c d => Apart c.address c.size d.address d.size := by
  induction ps generalizing a with
  | nil => exact .nil
  | cons p ps ih =>
    have hp := hv p (by simp)
    have hps : ∀ q ∈ ps, q.Valid P := fun q hq => hv q (by simp [hq])
    rw [allocations]
    refine List.pairwise_append.mpr
      ⟨blockAllocations_pairwise hp.blocks, ih hps, fun c hc d hd => Or.inl ?_⟩
    have hc := (blockAllocations_bounds hp.blocks hc).2.2.2
    have hd := (allocations_low hps hd).1
    have htiles := hp.tiles
    omega

theorem allocations_apart_pages (hv : ∀ p ∈ ps, p.Valid P) {pg : ℤ × Page} {c : Allocation}
    (hpg : pg ∈ pageItems P a ps) (hc : c ∈ allocations P a ps) :
    Apart pg.1 64 c.address c.size := by
  have hlarge := P.pageSize_large
  induction ps generalizing a with
  | nil => simp [allocations] at hc
  | cons p ps ih =>
    have hp := hv p (by simp)
    have hps : ∀ q ∈ ps, q.Valid P := fun q hq => hv q (by simp [hq])
    have htiles := hp.tiles
    rcases List.mem_cons.mp hpg with rfl | hpg
    · exact Or.inl (by have := (allocations_low hv hc).1; simp only; omega)
    · rcases List.mem_append.mp hc with hc | hc
      · have hend := (blockAllocations_bounds hp.blocks hc).2.2.2
        have hle := le_of_mem_pageItems hpg
        exact Or.inr (by omega)
      · exact ih hps hpg hc

theorem blockAllocations_apart_blocks (hv : ∀ b ∈ bs, b.Valid) {blk : ℤ × Block} {c : Allocation}
    (hblk : blk ∈ blockItems x bs) (hc : c ∈ blockAllocations requestId tid x bs) :
    Apart blk.1 40 c.address c.size := by
  induction bs generalizing x with
  | nil => simp [blockAllocations] at hc
  | cons b bs ih =>
    have hb := hv b (by simp)
    have hle := hb.header_le
    have hbs : ∀ d ∈ bs, d.Valid := fun d hd => hv d (by simp [hd])
    rcases List.mem_cons.mp hblk with rfl | hblk
    · exact Or.inl (blockAllocations_bounds hv hc).2.2.1
    · rcases List.mem_append.mp hc with hc | hc
      · split_ifs at hc with hs
        · have hdata := hb.data hs
          have hlow := (blockItems_bounds hbs hblk).1
          rw [List.mem_singleton.mp hc]
          exact Or.inr (by simp only; omega)
        · simp at hc
      · exact ih hbs hblk hc

theorem allocations_apart_blocks {m : Store} (h : PagesAt P m a ps) (hv : ∀ p ∈ ps, p.Valid P)
    (ha : 0 < a) {pg : ℤ × Page} (hpg : pg ∈ pageItems P a ps) :
    ∃ blocks, Linked Block.next m pg.2.blockListHead blocks ∧ ∀ blk ∈ blocks,
      a + 64 ≤ blk.1 ∧ ∀ c ∈ allocations P a ps, Apart blk.1 40 c.address c.size := by
  have hlarge := P.pageSize_large
  induction ps generalizing a with
  | nil =>
    rw [List.mem_singleton.mp hpg]
    exact ⟨[], .nil, by simp⟩
  | cons p ps ih =>
    obtain ⟨_, hblocks, hrest⟩ := pagesAt_cons.mp h
    have hp := hv p (by simp)
    have hps : ∀ q ∈ ps, q.Valid P := fun q hq => hv q (by simp [hq])
    have htiles := hp.tiles
    rcases List.mem_cons.mp hpg with rfl | hpg
    · refine ⟨_, hblocks.linked hp.blocks (by omega), fun blk hblk => ?_⟩
      obtain ⟨hlow, hhigh⟩ := blockItems_bounds hp.blocks hblk
      refine ⟨hlow, fun c hc => ?_⟩
      rcases List.mem_append.mp hc with hc | hc
      · exact blockAllocations_apart_blocks hp.blocks hblk hc
      · exact Or.inl (by have := (allocations_low hps hc).1; omega)
    · obtain ⟨blocks, hlinked, happart⟩ := ih hrest hps (by omega) hpg
      refine ⟨blocks, hlinked, fun blk hblk => ?_⟩
      obtain ⟨hlow, hdata⟩ := happart blk hblk
      refine ⟨by omega, fun c hc => ?_⟩
      rcases List.mem_append.mp hc with hc | hc
      · exact Or.inr (by have := (blockAllocations_bounds hp.blocks hc).2.2.2; omega)
      · exact hdata c hc

end Geometry

section Calls

/-- A call of `my_allocate` that returns the pointer of the label. -/
def Allocates (P : Platform) (m : Memory) (call : Request × ℤ) (m' : Memory) : Prop :=
  0 ≤ call.1.size ∧ ∃ n, myAllocate P call.1 n m = .ok (call.2, m')

/-- The block that the call takes has room for the header of the rest as well as its own. -/
def Clears (P : Platform) (m : Memory) (call : Request × ℤ) : Prop :=
  ∀ A, Holds P m A → ∀ b, call.1.taken P A = some b → call.1.size + 80 ≤ b.totalSize

/-- The returned ranges are the data of the arena's allocated blocks. -/
structure Accounts (P : Platform) (A : Arena) (calls : List (Request × ℤ)) : Prop where
  perm : (calls.map fun c => c.1.allocation c.2).Perm (allocations P P.firstPage A)
  library : ∀ p ∈ A, p.requestId = .libraryReq → p.tid = libraryTid

variable {m : Memory} {A : Arena} {calls : List (Request × ℤ)}

theorem TakenAt.cleanFit {r : Request} {pre post : Arena} {p : ArenaPage}
    {bpre bpost : List ArenaBlock} {b : ArenaBlock} (ht : TakenAt P r A pre p post bpre b bpost)
    (h : Represents P m A) (hsize : 0 ≤ r.size) (hroom : r.size + 80 ≤ b.totalSize) :
    CleanFit P m p (pageEnd P P.firstPage pre) (pageEnd P P.firstPage pre + P.sysconfPageSize)
      r.size bpre b bpost := by
  have hpos := P.physicalMemory_pos
  have htop := P.physicalMemory_top
  have htopEq := P.top_eq
  have hfirst := P.firstPage_eq
  have hlarge := P.pageSize_large
  obtain rfl := ht.split
  obtain ⟨hlow, hhigh⟩ := h.page_room
  obtain ⟨hload, hblocks, _⟩ := pagesAt_cons.mp h.pages.drop
  exact ⟨hload, hblocks, h.valid p (by simp), by omega, by omega,
    pointerField_holds (by omega) (by omega), hsize, ht.fit, hroom⟩

/-- With room for both headers the memory holds the arena with the block cut. -/
theorem TakenAt.represents {r : Request} {pre post : Arena} {p : ArenaPage}
    {bpre bpost : List ArenaBlock} {b : ArenaBlock} (ht : TakenAt P r A pre p post bpre b bpost)
    (h : Represents P m A) (hsize : 0 ≤ r.size) (hroom : r.size + 80 ≤ b.totalSize) :
    Represents P (takenMemory P m r.size pre p bpre b bpost)
      (pre ++ carvedPage p r.size bpre b bpost :: post) := by
  have hfit := ht.cleanFit h hsize hroom
  obtain rfl := ht.split
  obtain ⟨hheaders, hblocks⟩ := h.pages.replace h.valid (fun y hy => hfit.carved_outside_page hy)
    hfit.load_carvedPage hfit.blocksAt_carvedPage
  refine ⟨⟨h.initialized, h.pageSize, h.pageListHead, hheaders, fun q hq => ?_⟩, hblocks⟩
  rcases List.mem_append.mp hq with hq | hq
  · exact h.valid q (by simp [hq])
  · rcases List.mem_cons.mp hq with rfl | hq
    · exact hfit.carvedPage_valid
    · exact h.valid q (by simp [hq])

theorem allocations_carved {pre post : Arena} {p : ArenaPage} {size : ℤ}
    {bpre bpost : List ArenaBlock} {b : ArenaBlock} (hfit : FitsAt size p.blocks bpre b bpost) :
    (allocations P P.firstPage (pre ++ carvedPage p size bpre b bpost :: post)).Perm
      (⟨p.requestId, p.tid, dataAddress P pre bpre, size⟩ ::
        allocations P P.firstPage (pre ++ p :: post)) := by
  have hblocks : blockAllocations p.requestId p.tid (pageEnd P P.firstPage pre + 64)
      (carvedPage p size bpre b bpost).blocks =
      blockAllocations p.requestId p.tid (pageEnd P P.firstPage pre + 64) bpre ++
        ⟨p.requestId, p.tid, dataAddress P pre bpre, size⟩ ::
          blockAllocations p.requestId p.tid
            (pageEnd P P.firstPage pre + 64 + extent bpre + b.totalSize) bpost := by
    simp [carvedPage, blockAllocations_append, blockAllocations, dataAddress, add_assoc]
  have hold : blockAllocations p.requestId p.tid (pageEnd P P.firstPage pre + 64) p.blocks =
      blockAllocations p.requestId p.tid (pageEnd P P.firstPage pre + 64) bpre ++
        blockAllocations p.requestId p.tid
          (pageEnd P P.firstPage pre + 64 + extent bpre + b.totalSize) bpost := by
    simp [hfit.split, blockAllocations_append, blockAllocations, hfit.takes.1]
  simp only [allocations_append, allocations]
  rw [hold, show (carvedPage p size bpre b bpost).requestId = p.requestId from rfl,
    show (carvedPage p size bpre b bpost).tid = p.tid from rfl, hblocks]
  simp only [List.append_assoc, List.cons_append]
  rw [← List.append_assoc]
  exact List.perm_middle.trans (by rw [List.append_assoc])

theorem allocations_fresh (o : Owner) :
    allocations P P.firstPage (A ++ [freshPage P o]) = allocations P P.firstPage A := by
  simp [allocations_append, allocations, freshPage, blockAllocations]

/-- The arena with the block cut accounts for the range the call returns. -/
theorem Accounts.taken (hacc : Accounts P A calls) {r : Request} (hr : r.requestId ≠ .unknown)
    {A₀ pre post : Arena} {p : ArenaPage} {bpre bpost : List ArenaBlock} {b : ArenaBlock}
    (hA₀ : A₀ = A ∨ A₀ = A ++ [freshPage P r.owner])
    (ht : TakenAt P r A₀ pre p post bpre b bpost) :
    p.requestId = r.requestId ∧ p.tid = r.ownerTid ∧
      Accounts P (pre ++ carvedPage p r.size bpre b bpost :: post)
        (calls ++ [(r, dataAddress P pre bpre)]) := by
  have hold : allocations P P.firstPage A₀ = allocations P P.firstPage A := by
    rcases hA₀ with rfl | rfl
    · rfl
    · exact allocations_fresh _
  have hlibrary : ∀ q ∈ A₀, q.requestId = .libraryReq → q.tid = libraryTid := by
    rcases hA₀ with rfl | rfl
    · exact hacc.library
    · intro q hq hkind
      rcases List.mem_append.mp hq with hq | hq
      · exact hacc.library q hq hkind
      · rw [List.mem_singleton.mp hq] at hkind ⊢
        exact if_pos hkind
  have howner : p.requestId = r.requestId ∧ p.tid = r.ownerTid := by
    obtain ⟨hkind, htid⟩ := ht.searches.1
    refine ⟨hkind, ?_⟩
    unfold Request.ownerTid
    cases hkindr : r.requestId with
    | unknown => exact absurd hkindr hr
    | libraryReq => exact hlibrary p (by rw [ht.split]; simp) (hkind.trans hkindr)
    | threadReq => exact htid hkindr
  refine ⟨howner.1, howner.2, ?_, ?_⟩
  · rw [List.map_append, List.map_singleton]
    refine (List.perm_append_singleton _ _).trans ?_
    have hcut := @allocations_carved P pre post _ _ _ _ _ ht.fit
    rw [← ht.split, hold, howner.1, howner.2] at hcut
    exact (hacc.perm.cons _).trans hcut.symm
  · intro q hq hkind
    rw [ht.split] at hlibrary
    rcases List.mem_append.mp hq with hq | hq
    · exact hlibrary q (by simp [hq]) hkind
    · rcases List.mem_cons.mp hq with rfl | hq
      · exact hlibrary p (by simp) hkind
      · exact hlibrary q (by simp [hq]) hkind

end Calls

end VirtualMemorySimulation.MemoryManager

import VirtualMemorySimulation.MemoryManager.Headers

/-!
# The allocator of `memory_manager.c`

Pages and blocks are read from and written to the byte array exactly where the
source copies them. Each `while` loop and the recursion of the two allocation
paths spend fuel; the calls a function makes run on the fuel it has left.
-/

namespace VirtualMemorySimulation.MemoryManager

open ByteRecords Execution

variable (P : Platform)

/-- The tid that `assign_page(LIBRARYREQ, -1)` stores: `-1` as a `uint`. -/
def libraryTid : ℤ := 4294967295

/-- The single free block a newly assigned page gets. Its `next` is never set. -/
@[simps] def unallocBlockOf (m : Memory) (startAddress : ℤ) : Block :=
  { state := BlockState.unallocated.code
    dataSize := 0
    totalSize := toInt (m.metadata.pageSize - recordSize Page)
    blockAddress := startAddress + recordSize Page
    dataAddress := startAddress + recordSize Page + recordSize Block
    next := P.staleBlockNext }

/-- The header of a newly assigned page, up to its `next`. -/
@[simps] def assignPageOf (m : Memory) (requestId : RequestId) (tid startAddress next : ℤ) : Page :=
  { state := PageState.assigned.code
    requestId := requestId.code
    tid
    nextOwnerPage := null
    sizeOfAllocated := recordSize Page
    startAddress
    endAddress := startAddress + m.metadata.pageSize - 1
    blockListHead := startAddress + recordSize Page
    next }

/-- An unassigned page, in `init_memory_metadata` and as the rest of a split. -/
@[simps] def unassignPageOf (startAddress endAddress next : ℤ) : Page :=
  { state := PageState.unassigned.code
    requestId := RequestId.unknown.code
    tid := 4294967295
    nextOwnerPage := null
    sizeOfAllocated := recordSize Page
    startAddress
    endAddress
    blockListHead := null
    next }

/-- The page scan of `assign_page`. The first unassigned page is taken whole when
it has exactly one page's bytes and is split otherwise, whatever its size. -/
def assignPageLoop (requestId : RequestId) (tid : ℤ) :
    ℕ → ℤ → ℤ → Memory → Except Stop Memory
  | 0, _, _, _ => .error .outOfFuel
  | fuel + 1, tmpCurr, tmpPrev, m =>
    if tmpCurr = null then .ok m
    else do
      let pg ← loadAt P Page m tmpCurr
      if pg.state = PageState.unassigned.code then
        let unallocBlk := unallocBlockOf P m pg.startAddress
        if pg.endAddress - pg.startAddress + 1 = m.metadata.pageSize then
          let m ← storeAt P m unallocBlk.blockAddress unallocBlk
          let assignPg := assignPageOf m requestId tid pg.startAddress pg.next
          storeAt P m assignPg.startAddress assignPg
        else
          let m ← storeAt P m unallocBlk.blockAddress unallocBlk
          let rest := pg.startAddress + m.metadata.pageSize
          let assignPg := assignPageOf m requestId tid pg.startAddress rest
          let unassignPg := unassignPageOf rest pg.endAddress pg.next
          if tmpPrev = null then
            let m ← storeAt P m assignPg.startAddress assignPg
            storeAt P m unassignPg.startAddress unassignPg
          else
            let prevPg ← loadAt P Page m tmpPrev
            let prevPg := { prevPg with next := assignPg.startAddress }
            let m ← storeAt P m prevPg.startAddress prevPg
            let m ← storeAt P m assignPg.startAddress assignPg
            storeAt P m unassignPg.startAddress unassignPg
      else assignPageLoop requestId tid fuel pg.next tmpCurr m

/-- `assign_page`: `tmp_prev` enters the scan without having been set. -/
def assignPage (requestId : RequestId) (tid : ℤ) (fuel : ℕ) (m : Memory) : Except Stop Memory :=
  assignPageLoop P requestId tid fuel m.metadata.pageListHead P.staleTmpPrev m

def initMemoryMetadata (m : Memory) : Except Stop Memory := do
  let pageSize := toInt P.sysconfPageSize
  let memMeta : MemoryMetadata :=
    { memoryMetadataInit := 0
      pageSize
      numberPages := 8388608 / pageSize
      address := P.physicalMemory
      pageListHead := null }
  let m ← storeAt P m memMeta.address memMeta
  let metadata ← loadAt P MemoryMetadata m memMeta.address
  let pg := unassignPageOf (metadata.address + recordSize MemoryMetadata) (P.top - 1) null
  let m ← storeAt P m pg.startAddress pg
  .ok { m with metadata := { metadata with pageListHead := pg.startAddress }, initialized := true }

/-- The block scan of `allocate_block`. The fit test compares the free block's
total size with the request alone, without the header of the new block. -/
def allocateBlockLoop (size : ℤ) (currentPage : Page) :
    ℕ → ℤ → ℤ → Memory → Except Stop (ℤ × Memory)
  | 0, _, _, _ => .error .outOfFuel
  | fuel + 1, tmpCurr, tmpPrev, m =>
    if tmpCurr = null then .ok (null, m)
    else do
      let blk ← loadAt P Block m tmpCurr
      if blk.state = BlockState.unallocated.code ∧ size ≤ blk.totalSize then
        let allocBlk : Block :=
          { state := BlockState.allocated.code
            dataSize := size
            totalSize := toInt (size + recordSize Block)
            blockAddress := blk.blockAddress
            dataAddress := blk.blockAddress + recordSize Block
            next := blk.next }
        let currentPage :=
          { currentPage with
            sizeOfAllocated := toInt (currentPage.sizeOfAllocated + allocBlk.totalSize) }
        if blk.totalSize = size then
          let m ← storeAt P m allocBlk.blockAddress allocBlk
          let m ← storeAt P m currentPage.startAddress currentPage
          .ok (allocBlk.dataAddress, m)
        else
          let rest := allocBlk.blockAddress + allocBlk.totalSize
          let unallocBlk : Block :=
            { state := BlockState.unallocated.code
              dataSize := 0
              totalSize := toInt (blk.totalSize - allocBlk.totalSize)
              blockAddress := rest
              dataAddress := rest + recordSize Block
              next := blk.next }
          let allocBlk := { allocBlk with next := unallocBlk.blockAddress }
          if tmpPrev = null then
            let m ← storeAt P m allocBlk.blockAddress allocBlk
            let m ← storeAt P m unallocBlk.blockAddress unallocBlk
            let m ← storeAt P m currentPage.startAddress currentPage
            .ok (allocBlk.dataAddress, m)
          else
            let prevBlk ← loadAt P Block m tmpPrev
            let prevBlk := { prevBlk with next := allocBlk.blockAddress }
            let m ← storeAt P m prevBlk.blockAddress prevBlk
            let m ← storeAt P m allocBlk.blockAddress allocBlk
            let m ← storeAt P m unallocBlk.blockAddress unallocBlk
            let m ← storeAt P m currentPage.startAddress currentPage
            .ok (allocBlk.dataAddress, m)
      else allocateBlockLoop size currentPage fuel blk.next tmpCurr m

def allocateBlock (size pageAddress : ℤ) (fuel : ℕ) (m : Memory) : Except Stop (ℤ × Memory) := do
  let currentPage ← loadAt P Page m pageAddress
  allocateBlockLoop P size currentPage fuel currentPage.blockListHead null m

/-- The page scan shared by the two allocation paths: the pages the caller owns
that do not count as full are searched for a block. -/
def searchPages (owns full : Page → Bool) (size : ℤ) :
    ℕ → ℤ → Memory → Except Stop (ℤ × Memory)
  | 0, _, _ => .error .outOfFuel
  | fuel + 1, tmp, m =>
    if tmp = null then .ok (null, m)
    else do
      let pg ← loadAt P Page m tmp
      if owns pg ∧ ¬ full pg then do
        let (blkAddr, m) ← allocateBlock P size pg.startAddress fuel m
        if blkAddr ≠ null then .ok (blkAddr, m)
        else searchPages owns full size fuel pg.next m
      else searchPages owns full size fuel pg.next m

/-- The recursion shared by the two allocation paths: search, and when nothing is
found assign a page and start again. -/
def allocateFrom (owns full : Page → Bool) (requestId : RequestId) (tid size : ℤ) :
    ℕ → Memory → Except Stop (ℤ × Memory)
  | 0, _ => .error .outOfFuel
  | fuel + 1, m => do
    let (blkAddr, m) ← searchPages P owns full size fuel m.metadata.pageListHead m
    if blkAddr ≠ null then .ok (blkAddr, m)
    else do
      let m ← assignPage P requestId tid fuel m
      allocateFrom owns full requestId tid size fuel m

/-- `allocate_for_scheduler`: a page is full when its bytes are used up. -/
def allocateForScheduler (size : ℤ) (fuel : ℕ) (m : Memory) : Except Stop (ℤ × Memory) :=
  allocateFrom P (fun pg => pg.requestId = RequestId.libraryReq.code)
    (fun pg => m.metadata.pageSize ≤ pg.sizeOfAllocated)
    .libraryReq libraryTid size fuel m

/-- `allocate_for_thread`: a page is full when the request itself would fill it. -/
def allocateForThread (currTid size : ℤ) (fuel : ℕ) (m : Memory) : Except Stop (ℤ × Memory) :=
  allocateFrom P (fun pg => pg.requestId = RequestId.threadReq.code ∧ pg.tid = currTid)
    (fun pg => m.metadata.pageSize ≤ toInt (pg.sizeOfAllocated + size))
    .threadReq currTid size fuel m

/-- The arguments of `my_allocate` with the tid that `get_current_tid()` answers. -/
structure Request where
  requestId : RequestId
  currTid : ℤ
  size : ℤ
  currTid_uint : 0 ≤ currTid ∧ currTid < 4294967296
  size_int : -2147483648 ≤ size ∧ size < 2147483648

theorem currTid_zero : 0 ≤ (0 : ℤ) ∧ (0 : ℤ) < 4294967296 := by decide

def myAllocate (r : Request) (fuel : ℕ) (m : Memory) : Except Stop (ℤ × Memory) := do
  let m ← (if m.initialized then .ok m else initMemoryMetadata P m : Except Stop Memory)
  match r.requestId with
  | .libraryReq => allocateForScheduler P r.size fuel m
  | .threadReq => allocateForThread P r.currTid r.size fuel m
  | .unknown => .error .exit

/-- `my_deallocate`: nothing is given back. -/
def myDeallocate (_ptr : ℤ) (_requestId : RequestId) (m : Memory) : Memory := m

section NeverNull

variable {P} {owns full : Page → Bool} {requestId : RequestId} {tid size v : ℤ} {r : Request}
  {m m' : Memory} {n : ℕ}

theorem allocateFrom_ne_null
    (h : allocateFrom P owns full requestId tid size n m = .ok (v, m')) : v ≠ null := by
  induction n generalizing m with
  | zero => cases h
  | succ n ih =>
    obtain ⟨⟨blkAddr, m₁⟩, -, hrest⟩ := bind_eq_ok.mp h
    by_cases hblk : blkAddr ≠ null
    · simp only [if_pos hblk] at hrest
      cases hrest
      exact hblk
    · simp only [if_neg hblk] at hrest
      obtain ⟨m₂, -, hagain⟩ := bind_eq_ok.mp hrest
      exact ih hagain

/-- A call that comes back has not returned `NULL`, whatever its size and the memory. -/
theorem myAllocate_returns_ne_null (h : myAllocate P r n m = .ok (v, m')) : v ≠ null := by
  obtain ⟨m₁, -, hpath⟩ := bind_eq_ok.mp h
  cases hkind : r.requestId with
  | unknown => simp [hkind] at hpath
  | libraryReq =>
    rw [hkind] at hpath
    exact allocateFrom_ne_null hpath
  | threadReq =>
    rw [hkind] at hpath
    exact allocateFrom_ne_null hpath

end NeverNull

end VirtualMemorySimulation.MemoryManager

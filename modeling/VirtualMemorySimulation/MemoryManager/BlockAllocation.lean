import VirtualMemorySimulation.MemoryManager.Arena

/-!
# Allocating blocks

`allocate_block` takes the first free block whose total size is at least the
request. The two headers it then writes are laid out as if the block also had
room for them, so the result is an arena again only when 80 bytes are to spare:
the header of the allocated block and the header of what is left.
-/

namespace VirtualMemorySimulation.MemoryManager

open ByteRecords Execution

variable {P : Platform}

/-- The fit test of the block scan. -/
def ArenaBlock.Takes (size : ℤ) (b : ArenaBlock) : Prop :=
  b.state = .unallocated ∧ size ≤ b.totalSize

instance (size : ℤ) (b : ArenaBlock) : Decidable (b.Takes size) := inferInstanceAs (Decidable (_ ∧ _))

def firstFit (size : ℤ) (bs : List ArenaBlock) : Option ArenaBlock :=
  bs.find? fun b => b.Takes size

/-- The blocks the scan passes, the one it takes, and those after it. -/
structure FitsAt (size : ℤ) (bs pre : List ArenaBlock) (b : ArenaBlock)
    (post : List ArenaBlock) : Prop where
  split : bs = pre ++ b :: post
  takes : b.Takes size
  passed : ∀ c ∈ pre, ¬ c.Takes size

theorem firstFit_none {size : ℤ} {bs : List ArenaBlock} :
    firstFit size bs = none ↔ ∀ b ∈ bs, ¬ b.Takes size := by
  simp [firstFit]

theorem firstFit_some {size : ℤ} {bs : List ArenaBlock} {b : ArenaBlock} :
    firstFit size bs = some b ↔ ∃ pre post, FitsAt size bs pre b post := by
  rw [firstFit, List.find?_eq_some_iff_append]
  constructor
  · rintro ⟨htakes, pre, post, hsplit, hpassed⟩
    exact ⟨pre, post, hsplit, by simpa using htakes, fun c hc => by simpa using hpassed c hc⟩
  · rintro ⟨pre, post, h⟩
    exact ⟨by simpa using h.takes, pre, post, h.split, fun c hc => by simpa using h.passed c hc⟩

section Code

variable (P)

/-- The scan of `allocate_block` up to the copy of the block that it takes. -/
def scanBlocks (size : ℤ) : ℕ → ℤ → ℤ → Memory → Except Stop (Option (ℤ × Block))
  | 0, _, _, _ => .error .outOfFuel
  | fuel + 1, tmpCurr, tmpPrev, m =>
    if tmpCurr = null then .ok none
    else do
      let blk ← loadAt P Block m tmpCurr
      if blk.state = BlockState.unallocated.code ∧ size ≤ blk.totalSize then
        .ok (some (tmpPrev, blk))
      else scanBlocks size fuel blk.next tmpCurr m

/-- What `allocate_block` does with the page and the block that it has copied. -/
def takeBlock (size : ℤ) (currentPage : Page) (tmpPrev : ℤ) (blk : Block) (m : Memory) :
    Except Stop (ℤ × Memory) :=
  let allocBlk : Block :=
    { state := BlockState.allocated.code
      dataSize := size
      totalSize := toInt (size + recordSize Block)
      blockAddress := blk.blockAddress
      dataAddress := blk.blockAddress + recordSize Block
      next := blk.next }
  let currentPage :=
    { currentPage with
      sizeOfAllocated := toInt (currentPage.sizeOfAllocated + allocBlk.totalSize) }
  if blk.totalSize = size then do
    let m ← storeAt P m allocBlk.blockAddress allocBlk
    let m ← storeAt P m currentPage.startAddress currentPage
    .ok (allocBlk.dataAddress, m)
  else do
    let rest := allocBlk.blockAddress + allocBlk.totalSize
    let unallocBlk : Block :=
      { state := BlockState.unallocated.code
        dataSize := 0
        totalSize := toInt (blk.totalSize - allocBlk.totalSize)
        blockAddress := rest
        dataAddress := rest + recordSize Block
        next := blk.next }
    let allocBlk := { allocBlk with next := unallocBlk.blockAddress }
    if tmpPrev = null then
      let m ← storeAt P m allocBlk.blockAddress allocBlk
      let m ← storeAt P m unallocBlk.blockAddress unallocBlk
      let m ← storeAt P m currentPage.startAddress currentPage
      .ok (allocBlk.dataAddress, m)
    else
      let prevBlk ← loadAt P Block m tmpPrev
      let prevBlk := { prevBlk with next := allocBlk.blockAddress }
      let m ← storeAt P m prevBlk.blockAddress prevBlk
      let m ← storeAt P m allocBlk.blockAddress allocBlk
      let m ← storeAt P m unallocBlk.blockAddress unallocBlk
      let m ← storeAt P m currentPage.startAddress currentPage
      .ok (allocBlk.dataAddress, m)

/-- `allocate_block` is its scan and what it does with the block found. -/
theorem allocateBlockLoop_eq (size : ℤ) (currentPage : Page) (n : ℕ) (tmpCurr tmpPrev : ℤ)
    (m : Memory) : allocateBlockLoop P size currentPage n tmpCurr tmpPrev m =
      scanBlocks P size n tmpCurr tmpPrev m >>= fun found =>
        found.elim (.ok (null, m)) fun f => takeBlock P size currentPage f.1 f.2 m := by
  induction n generalizing tmpCurr tmpPrev with
  | zero => rfl
  | succ n ih =>
    rw [allocateBlockLoop, scanBlocks]
    by_cases hnull : tmpCurr = null
    · rw [if_pos hnull, if_pos hnull]
      rfl
    · rw [if_neg hnull, if_neg hnull, bind_assoc]
      refine bind_congr fun blk => ?_
      by_cases hfits : blk.state = BlockState.unallocated.code ∧ size ≤ blk.totalSize
      · rw [if_pos hfits, if_pos hfits]
        rfl
      · rw [if_neg hfits, if_neg hfits]
        exact ih _ _

end Code

/-- The bytes after the block at `x` was taken, as `allocate_block` writes them. -/
def carveStore (pg : Page) (b : ArenaBlock) (size x tmpPrev next : ℤ) (m : Store) : Store :=
  let allocBlk : Block := ⟨BlockState.allocated.code, size, size + 40, x, x + 40, next⟩
  let pg := { pg with sizeOfAllocated := toInt (pg.sizeOfAllocated + (size + 40)) }
  if b.totalSize = size then store (store m x allocBlk) pg.startAddress pg
  else
    let rest := x + (size + 40)
    let unallocBlk : Block :=
      ⟨BlockState.unallocated.code, 0, b.totalSize - (size + 40), rest, rest + 40, next⟩
    let m := if tmpPrev = null then m else store m tmpPrev { load Block m tmpPrev with next := x }
    let m := store (store m x { allocBlk with next := rest }) rest unallocBlk
    store m pg.startAddress pg

/-- What `tmp_prev` names is a block header that says where it is. -/
def NamesBlock (P : Platform) (m : Store) (tmpPrev : ℤ) : Prop :=
  tmpPrev ≠ null → P.Inside tmpPrev (recordSize Block) ∧
    (load Block m tmpPrev).blockAddress = tmpPrev

section Take

variable {m m' : Memory} {pg : Page} {b : ArenaBlock} {blk : Block} {size tmpPrev v : ℤ}

theorem allocateBlockLoop_found (hin : P.Inside blk.blockAddress (recordSize Block))
    (hload : load Block m.bytes blk.blockAddress = blk)
    (hfits : blk.state = BlockState.unallocated.code ∧ size ≤ blk.totalSize) (n : ℕ) :
    allocateBlockLoop P size pg (n + 1) blk.blockAddress tmpPrev m =
      takeBlock P size pg tmpPrev blk m := by
  have hpos := P.physicalMemory_pos
  have hlow := hin.1
  rw [allocateBlockLoop, if_neg (by unfold null; omega), loadAt_ok hin, ok_bind, hload,
    if_pos hfits]
  rfl

theorem takeBlock_carves (htotal : blk.totalSize = b.totalSize) (hle : size ≤ b.totalSize)
    (hsize : 0 ≤ size) (hx : P.physicalMemory ≤ blk.blockAddress)
    (htop : blk.blockAddress + b.totalSize ≤ P.top)
    (hin : P.Inside blk.blockAddress (recordSize Block))
    (hrest : b.totalSize ≠ size → blk.blockAddress + size + 80 ≤ P.top)
    (hpg : P.Inside pg.startAddress (recordSize Page)) (hprev : NamesBlock P m.bytes tmpPrev) :
    takeBlock P size pg tmpPrev blk m = .ok (blk.blockAddress + 40, { m with
      bytes := carveStore pg b size blk.blockAddress tmpPrev blk.next m.bytes }) := by
  have hpos := P.physicalMemory_pos
  have htopEq := P.top_eq
  have halloc : toInt (size + recordSize Block) = size + 40 :=
    toInt_add_header (by omega) (by omega)
  have hless : toInt (b.totalSize - (size + 40)) = b.totalSize - (size + 40) :=
    toInt_of_range (by omega) (by omega)
  unfold takeBlock
  simp only [halloc, htotal, hless]
  by_cases heq : b.totalSize = size
  · rw [if_pos heq, storeAt_ok hin, ok_bind, storeAt_ok hpg, ok_bind]
    simp [carveStore, heq]
  · have hroom := hrest heq
    have hin' : P.Inside (blk.blockAddress + (size + 40)) (recordSize Block) :=
      inside_block.mpr ⟨by omega, by omega⟩
    rw [if_neg heq]
    by_cases hnull : tmpPrev = null
    · rw [if_pos hnull, storeAt_ok hin, ok_bind, storeAt_ok hin', ok_bind, storeAt_ok hpg, ok_bind]
      simp [carveStore, heq, hnull]
    · obtain ⟨hp, hself⟩ := hprev hnull
      rw [if_neg hnull, loadAt_ok hp, ok_bind]
      simp only [hself]
      rw [storeAt_ok hp, ok_bind, storeAt_ok hin, ok_bind, storeAt_ok hin', ok_bind,
        storeAt_ok hpg, ok_bind]
      simp [carveStore, heq, hnull, hself]

theorem takeBlock_overruns (hle : size ≤ blk.totalSize) (hsize : 0 ≤ size)
    (htop : blk.blockAddress + blk.totalSize ≤ P.top)
    (hin : P.Inside blk.blockAddress (recordSize Block)) (hne : blk.totalSize ≠ size)
    (hrest : P.top < blk.blockAddress + size + 80) (hprev : NamesBlock P m.bytes tmpPrev) :
    takeBlock P size pg tmpPrev blk m = .error .outOfBounds := by
  have hlow := hin.1
  have htopEq := P.top_eq
  have halloc : toInt (size + recordSize Block) = size + 40 :=
    toInt_add_header (by omega) (by omega)
  have hout : ¬ P.Inside (blk.blockAddress + (size + 40)) (recordSize Block) :=
    fun h => absurd (inside_block.mp h).2 (by omega)
  unfold takeBlock
  simp only [halloc]
  rw [if_neg hne]
  by_cases hnull : tmpPrev = null
  · rw [if_pos hnull, storeAt_ok hin, ok_bind, storeAt_error hout, error_bind]
  · obtain ⟨hp, hself⟩ := hprev hnull
    rw [if_neg hnull, loadAt_ok hp, ok_bind]
    simp only [hself]
    rw [storeAt_ok hp, ok_bind, storeAt_ok hin, ok_bind, storeAt_error hout, error_bind]

/-- A block that is taken is handed out by its data, whatever the memory, and the metadata
stay. -/
theorem takeBlock_ok (h : takeBlock P size pg tmpPrev blk m = .ok (v, m')) :
    v = blk.blockAddress + 40 ∧ m'.metadata = m.metadata := by
  unfold takeBlock at h
  split_ifs at h with heq hnull
  · obtain ⟨m₁, h₁, h⟩ := bind_eq_ok.mp h
    obtain ⟨m₂, h₂, h⟩ := bind_eq_ok.mp h
    obtain ⟨rfl, rfl⟩ := Prod.mk.inj (Except.ok.inj h)
    exact ⟨rfl, (storeAt_metadata h₂).trans (storeAt_metadata h₁)⟩
  · obtain ⟨m₁, h₁, h⟩ := bind_eq_ok.mp h
    obtain ⟨m₂, h₂, h⟩ := bind_eq_ok.mp h
    obtain ⟨m₃, h₃, h⟩ := bind_eq_ok.mp h
    obtain ⟨rfl, rfl⟩ := Prod.mk.inj (Except.ok.inj h)
    exact ⟨rfl, (storeAt_metadata h₃).trans ((storeAt_metadata h₂).trans (storeAt_metadata h₁))⟩
  · obtain ⟨prevBlk, -, h⟩ := bind_eq_ok.mp h
    obtain ⟨m₁, h₁, h⟩ := bind_eq_ok.mp h
    obtain ⟨m₂, h₂, h⟩ := bind_eq_ok.mp h
    obtain ⟨m₃, h₃, h⟩ := bind_eq_ok.mp h
    obtain ⟨m₄, h₄, h⟩ := bind_eq_ok.mp h
    obtain ⟨rfl, rfl⟩ := Prod.mk.inj (Except.ok.inj h)
    exact ⟨rfl, (storeAt_metadata h₄).trans ((storeAt_metadata h₃).trans
      ((storeAt_metadata h₂).trans (storeAt_metadata h₁)))⟩

end Take

section Scan

/-- The block before the end of a list, which `tmp_prev` names when the scan gets there. -/
def lastBlock : ℤ → ℤ → List ArenaBlock → ℤ
  | _, tmpPrev, [] => tmpPrev
  | a, _, b :: bs => lastBlock (a + b.totalSize) a bs

theorem lastBlock_bounds (a tmpPrev : ℤ) {bs : List ArenaBlock} (hne : bs ≠ [])
    (hvalid : ∀ b ∈ bs, b.Valid) :
    a ≤ lastBlock a tmpPrev bs ∧ lastBlock a tmpPrev bs + 40 ≤ a + extent bs := by
  induction bs generalizing a tmpPrev with
  | nil => exact absurd rfl hne
  | cons b bs ih =>
    have hb := (hvalid b (by simp)).header_le
    simp only [lastBlock, extent]
    cases bs with
    | nil => simp only [lastBlock, extent]; omega
    | cons c cs =>
      have := ih (a + b.totalSize) a (by simp) fun d hd => hvalid d (by simp at hd ⊢; tauto)
      omega

theorem BlocksAt.last {m : Store} {a : ℤ} (tmpPrev : ℤ) {pre post : List ArenaBlock}
    {b : ArenaBlock} (h : BlocksAt m a (pre ++ b :: post)) (hne : pre ≠ []) :
    ∃ c ∈ pre, load Block m (lastBlock a tmpPrev pre) =
      c.header (lastBlock a tmpPrev pre) (a + extent pre) := by
  induction pre generalizing a tmpPrev with
  | nil => exact absurd rfl hne
  | cons c cs ih =>
    simp only [lastBlock, extent, ← add_assoc]
    cases cs with
    | nil => exact ⟨c, by simp, by simpa [lastBlock, extent] using h.1⟩
    | cons d ds =>
      obtain ⟨e, he, hload⟩ := ih a h.2 (by simp)
      exact ⟨e, by simp [he], hload⟩

theorem BlocksAt.namesBlock {m : Store} {a : ℤ} {pre post : List ArenaBlock} {b : ArenaBlock}
    (h : BlocksAt m a (pre ++ b :: post)) (hvalid : ∀ c ∈ pre, c.Valid)
    (ha : P.physicalMemory ≤ a) (htop : a + extent pre ≤ P.top) :
    NamesBlock P m (lastBlock a null pre) := by
  intro hne
  have hpre : pre ≠ [] := by
    rintro rfl
    exact hne rfl
  obtain ⟨c, -, hload⟩ := h.last null hpre
  have hbounds := lastBlock_bounds a null hpre hvalid
  exact ⟨inside_block.mpr ⟨by omega, by omega⟩, by rw [hload]; rfl⟩

variable {m : Memory} {size a next : ℤ} {p : ArenaPage}

theorem scanBlocks_scan {tmpPrev : ℤ} (pre post : List ArenaBlock)
    {found : Except Stop (Option (ℤ × Block))} (h : BlocksAt m.bytes a (pre ++ post))
    (hvalid : ∀ b ∈ pre ++ post, b.Valid) (ha : P.physicalMemory ≤ a)
    (htop : a + extent (pre ++ post) ≤ P.top) (hpassed : ∀ c ∈ pre, ¬ c.Takes size)
    (hend : Settles (fun n => scanBlocks P size n (blockLink (a + extent pre) post)
      (lastBlock a tmpPrev pre) m) found) :
    Settles (fun n => scanBlocks P size n (blockLink a (pre ++ post)) tmpPrev m) found := by
  have hpos := P.physicalMemory_pos
  induction pre generalizing a tmpPrev with
  | nil =>
    rw [extent, add_zero] at hend
    exact hend
  | cons b pre ih =>
    have hb := (hvalid b (by simp)).header_le
    have hrest : ∀ c ∈ pre ++ post, c.Valid := fun c hc => hvalid c (by simp at hc ⊢; tauto)
    have hext := extent_nonneg hrest
    simp only [List.cons_append, extent] at htop
    have hload : loadAt P Block m a =
        .ok (b.header a (blockLink (a + b.totalSize) (pre ++ post))) := by
      rw [loadAt_ok (inside_block.mpr ⟨ha, by omega⟩)]
      exact congrArg Except.ok h.1
    simp only [extent, ← add_assoc] at hend
    refine Settles.succ rfl (fun n => ?_) (ih h.2 hrest (by omega) (by omega)
      (fun c hc => hpassed c (by simp [hc])) hend)
    have hnot : ¬ (b.state.code = BlockState.unallocated.code ∧ size ≤ b.totalSize) := by
      rintro ⟨hstate, hsize⟩
      exact hpassed b (by simp) ⟨BlockState.code_injective hstate, hsize⟩
    rw [List.cons_append, blockLink_cons, scanBlocks, if_neg (by unfold null; omega), hload,
      ok_bind, ArenaBlock.header_state, ArenaBlock.header_totalSize, if_neg hnot]
    rfl

theorem scanBlocks_none (hblocks : BlocksAt m.bytes (a + 64) p.blocks)
    (hp : p.Valid P) (ha : P.physicalMemory ≤ a) (htop : a + P.sysconfPageSize ≤ P.top)
    (hnone : firstFit size p.blocks = none) :
    Settles (fun n => scanBlocks P size n (blockLink (a + 64) p.blocks) null m) (.ok none) := by
  have htiles := hp.tiles
  have hscan := @scanBlocks_scan P m size (a + 64) null p.blocks [] (.ok none)
  simp only [List.append_nil] at hscan
  refine hscan hblocks hp.blocks (by omega) (by omega) (firstFit_none.mp hnone) ?_
  refine Settles.succ rfl (fun n => ?_) (Settles.const _)
  rw [scanBlocks, blockLink_nil, if_pos rfl]

theorem scanBlocks_found {bpre bpost : List ArenaBlock}
    {b : ArenaBlock} (hblocks : BlocksAt m.bytes (a + 64) p.blocks) (hp : p.Valid P)
    (ha : P.physicalMemory ≤ a) (htop : a + P.sysconfPageSize ≤ P.top)
    (hfit : FitsAt size p.blocks bpre b bpost) :
    Settles (fun n => scanBlocks P size n (blockLink (a + 64) p.blocks) null m)
      (.ok (some (lastBlock (a + 64) null bpre, b.header (a + 64 + extent bpre)
        (blockLink (a + 64 + extent bpre + b.totalSize) bpost)))) := by
  have hpos := P.physicalMemory_pos
  have htiles := hp.tiles
  have hvalid := hp.blocks
  obtain ⟨hsplit, htakes, hpassed⟩ := hfit
  rw [hsplit] at hblocks htiles hvalid ⊢
  have hbounds := extent_nonneg fun c hc => hvalid c (List.mem_append_left _ hc)
  have hb := (hvalid b (by simp)).header_le
  have hext := extent_nonneg fun c hc => hvalid c (List.mem_append_right _ (.tail _ hc))
  refine scanBlocks_scan bpre (b :: bpost) hblocks hvalid (by omega) (by omega) hpassed ?_
  rw [extent_append, extent] at htiles
  have hload : loadAt P Block m (a + 64 + extent bpre) = .ok (b.header (a + 64 + extent bpre)
      (blockLink (a + 64 + extent bpre + b.totalSize) bpost)) := by
    rw [loadAt_ok (inside_block.mpr ⟨by omega, by omega⟩)]
    exact congrArg Except.ok hblocks.drop.1
  refine Settles.succ rfl (fun n => ?_) (Settles.const _)
  rw [blockLink_cons, scanBlocks, if_neg (by unfold null; omega), hload, ok_bind]
  exact if_pos ⟨congrArg BlockState.code htakes.1, htakes.2⟩


/-- The memory after `b` was taken from the page at `a`. -/
def carved (P : Platform) (m : Memory) (p : ArenaPage) (a next size : ℤ) (pre : List ArenaBlock)
    (b : ArenaBlock) (post : List ArenaBlock) : Memory :=
  { m with
    bytes := carveStore (p.header P a next) b size (a + 64 + extent pre)
      (lastBlock (a + 64) null pre) (blockLink (a + 64 + extent pre + b.totalSize) post) m.bytes }

theorem allocateBlock_eq (hload : load Page m.bytes a = p.header P a next)
    (hin : P.Inside a (recordSize Page)) (n : ℕ) : allocateBlock P size a n m =
      scanBlocks P size n (blockLink (a + 64) p.blocks) null m >>= fun found =>
        found.elim (.ok (null, m)) fun f => takeBlock P size (p.header P a next) f.1 f.2 m := by
  rw [allocateBlock, loadAt_ok hin, ok_bind, hload, ArenaPage.header_blockListHead,
    allocateBlockLoop_eq]

theorem allocateBlock_none (hload : load Page m.bytes a = p.header P a next)
    (hblocks : BlocksAt m.bytes (a + 64) p.blocks) (hvalid : p.Valid P)
    (ha : P.physicalMemory ≤ a) (htop : a + P.sysconfPageSize ≤ P.top)
    (hnone : firstFit size p.blocks = none) :
    Settles (fun n => allocateBlock P size a n m) (.ok (null, m)) := by
  have hlarge := P.pageSize_large
  have hin : P.Inside a (recordSize Page) := inside_page.mpr ⟨ha, by omega⟩
  exact ((scanBlocks_none hblocks hvalid ha htop hnone).bind (Settles.const _)).congr
    (allocateBlock_eq hload hin)

/-- The first fitting block is taken, with its data right after its header. -/
theorem allocateBlock_take (hload : load Page m.bytes a = p.header P a next)
    (hblocks : BlocksAt m.bytes (a + 64) p.blocks) (hvalid : p.Valid P)
    (ha : P.physicalMemory ≤ a) (htop : a + P.sysconfPageSize + 80 ≤ P.top) (hsize : 0 ≤ size)
    {pre post : List ArenaBlock} {b : ArenaBlock} (hfit : FitsAt size p.blocks pre b post) :
    Settles (fun n => allocateBlock P size a n m)
      (.ok (a + 64 + extent pre + 40, carved P m p a next size pre b post)) := by
  have hlarge := P.pageSize_large
  have hin : P.Inside a (recordSize Page) := inside_page.mpr ⟨ha, by omega⟩
  have hscan := scanBlocks_found hblocks hvalid ha (by omega) hfit
  have htiles := hvalid.tiles
  have hvalids := hvalid.blocks
  rw [hfit.split] at hblocks htiles hvalids
  have hpre := extent_nonneg fun c hc => hvalids c (List.mem_append_left _ hc)
  have hpost := extent_nonneg fun c hc => hvalids c (List.mem_append_right _ (.tail _ hc))
  have hb := (hvalids b (by simp)).header_le
  rw [extent_append, extent] at htiles
  have hprev : NamesBlock P m.bytes (lastBlock (a + 64) null pre) :=
    hblocks.namesBlock (fun c hc => hvalids c (List.mem_append_left _ hc)) (by omega) (by omega)
  have hle := hfit.takes.2
  have hblk : P.Inside (a + 64 + extent pre) (recordSize Block) :=
    inside_block.mpr ⟨by omega, by omega⟩
  refine (hscan.bind ((Settles.const _).congr fun n => ?_)).congr (allocateBlock_eq hload hin)
  exact takeBlock_carves rfl hle hsize hblk.1 (by simp; omega) hblk (fun _ => by simp; omega) hin
    hprev

end Scan

section Carve

/-- A block list with one block cut in two, when only the header before it may have
been rewritten. -/
theorem BlocksAt.splice {m m' : Store} {a : ℤ} (tmpPrev : ℤ) {pre post post' : List ArenaBlock}
    {b b' : ArenaBlock} (h : BlocksAt m a (pre ++ b :: post)) (hvalid : ∀ c ∈ pre, c.Valid)
    (hbytes : ∀ y, a ≤ y → y < a + extent pre →
      y < lastBlock a tmpPrev pre ∨ lastBlock a tmpPrev pre + 40 ≤ y → m' y = m y)
    (hlast : pre ≠ [] →
      load Block m' (lastBlock a tmpPrev pre) = load Block m (lastBlock a tmpPrev pre))
    (hnew : BlocksAt m' (a + extent pre) (b' :: post')) : BlocksAt m' a (pre ++ b' :: post') := by
  induction pre generalizing a tmpPrev with
  | nil => simpa [extent] using hnew
  | cons c cs ih =>
    have hc := (hvalid c (by simp)).header_le
    have hcs : ∀ d ∈ cs, d.Valid := fun d hd => hvalid d (by simp [hd])
    have hext := extent_nonneg hcs
    simp only [lastBlock, extent, ← add_assoc] at hbytes hlast hnew
    refine ⟨?_, ih a h.2 hcs (fun y hy => hbytes y (by omega)) (fun _ => hlast (by simp)) hnew⟩
    have hlink : ∀ (d : ArenaBlock) (ds : List ArenaBlock),
        blockLink (a + c.totalSize) (cs ++ d :: ds) = a + c.totalSize := fun d ds => by
      cases cs <;> rfl
    have hload := h.1
    change load Block m a = c.header a (blockLink (a + c.totalSize) (cs ++ b :: post)) at hload
    change load Block m' a = c.header a (blockLink (a + c.totalSize) (cs ++ b' :: post'))
    rw [hlink] at hload ⊢
    rw [← hload]
    by_cases hne : cs = []
    · subst hne
      exact hlast (by simp)
    · have hle := lastBlock_bounds (a + c.totalSize) a hne hcs
      refine load_congr fun y hy hy' => ?_
      rw [recordSize_block] at hy'
      exact hbytes y hy (by omega) (by omega)

/-- A first fit with room for both headers, in a page whose header and blocks are in place. -/
structure CleanFit (P : Platform) (m : Memory) (p : ArenaPage) (a next size : ℤ)
    (pre : List ArenaBlock) (b : ArenaBlock) (post : List ArenaBlock) : Prop where
  pageHeader : load Page m.bytes a = p.header P a next
  blocks : BlocksAt m.bytes (a + 64) p.blocks
  valid : p.Valid P
  low : P.physicalMemory ≤ a
  top : a + P.sysconfPageSize ≤ P.top
  next_holds : pointerField.Holds next
  size_nonneg : 0 ≤ size
  fit : FitsAt size p.blocks pre b post
  room : size + 80 ≤ b.totalSize

/-- The page after the block was cut: the allocated block, then the rest of it. -/
def carvedPage (p : ArenaPage) (size : ℤ) (pre : List ArenaBlock) (b : ArenaBlock)
    (post : List ArenaBlock) : ArenaPage :=
  { p with
    blocks := pre ++ ⟨.allocated, size, size + 40⟩ ::
      ⟨.unallocated, 0, b.totalSize - (size + 40)⟩ :: post }

theorem FitsAt.sizeOfAllocated_carvedPage {p : ArenaPage} {size : ℤ} {pre post : List ArenaBlock}
    {b : ArenaBlock} (h : FitsAt size p.blocks pre b post) :
    (carvedPage p size pre b post).sizeOfAllocated = p.sizeOfAllocated + (size + 40) := by
  simp only [ArenaPage.sizeOfAllocated, carvedPage, h.split, allocatedExtent_append,
    allocatedExtent, h.takes.1, reduceCtorEq, if_false, if_true]
  ring

namespace CleanFit

variable {m : Memory} {p : ArenaPage} {a next size : ℤ} {pre post : List ArenaBlock}
  {b : ArenaBlock} (h : CleanFit P m p a next size pre b post)

include h

theorem valid_blocks : ∀ c ∈ pre ++ b :: post, c.Valid := h.fit.split ▸ h.valid.blocks

theorem extents : 0 ≤ extent pre ∧ 0 ≤ extent post ∧
    64 + (extent pre + (b.totalSize + extent post)) = P.sysconfPageSize := by
  have htiles := h.valid.tiles
  rw [h.fit.split, extent_append, extent] at htiles
  exact ⟨extent_nonneg fun c hc => h.valid_blocks c (List.mem_append_left _ hc),
    extent_nonneg fun c hc => h.valid_blocks c (List.mem_append_right _ (.tail _ hc)), htiles⟩

theorem carvedPage_valid : (carvedPage p size pre b post).Valid P := by
  have hroom := h.room
  have hsize := h.size_nonneg
  obtain ⟨_, _, htiles⟩ := h.extents
  refine ⟨h.valid.tid_uint, ?_, ?_⟩
  · simp only [carvedPage, extent_append, extent]
    omega
  · intro c hc
    simp only [carvedPage, List.mem_append, List.mem_cons] at hc
    rcases hc with hc | rfl | rfl | hc
    · exact h.valid_blocks c (List.mem_append_left _ hc)
    · exact ⟨by simp only; omega, by simp, by simp⟩
    · exact ⟨by simp only; omega, by simp, by simp⟩
    · exact h.valid_blocks c (List.mem_append_right _ (.tail _ hc))

theorem carvedPage_header :
    { p.header P a next with
      sizeOfAllocated := toInt ((p.header P a next).sizeOfAllocated + (size + 40)) } =
      (carvedPage p size pre b post).header P a next := by
  have hle := P.pageSize_le
  have hvalid := h.carvedPage_valid
  have hsum := h.fit.sizeOfAllocated_carvedPage
  have hupper := allocatedExtent_le hvalid.blocks
  have hlower := allocatedExtent_nonneg hvalid.blocks
  have htiles := hvalid.tiles
  have hlink : blockLink (a + 64) p.blocks = a + 64 := by
    rw [h.fit.split]
    cases pre <;> rfl
  have hlink' : blockLink (a + 64) (carvedPage p size pre b post).blocks = a + 64 := by
    unfold carvedPage
    cases pre <;> rfl
  have hint : toInt (p.sizeOfAllocated + (size + 40)) =
      (carvedPage p size pre b post).sizeOfAllocated := by
    rw [← hsum]
    unfold ArenaPage.sizeOfAllocated
    exact toInt_of_range (by omega) (by omega)
  simp only [ArenaPage.header, hlink, hlink', hint]
  rfl

theorem load_prev (hne : pre ≠ []) :
    ∃ c, Fits c ∧ load Block m.bytes (lastBlock (a + 64) null pre) = c ∧
      c.next = a + 64 + extent pre := by
  have hpos := P.physicalMemory_pos
  have htop := P.physicalMemory_top
  have htopEq := P.top_eq
  have hroom := h.room
  have hsize := h.size_nonneg
  have hlow := h.low
  have hhigh := h.top
  obtain ⟨hpre, hpost, htiles⟩ := h.extents
  have hblocks := h.blocks
  rw [h.fit.split] at hblocks
  obtain ⟨c, hc, hload⟩ := hblocks.last null hne
  have hcvalid := h.valid_blocks c (List.mem_append_left _ hc)
  have hbounds := lastBlock_bounds (a + 64) null hne
    fun d hd => h.valid_blocks d (List.mem_append_left _ hd)
  have hle := totalSize_le_extent (fun d hd => h.valid_blocks d (List.mem_append_left _ hd)) hc
  refine ⟨_, ?_, hload, rfl⟩
  exact ArenaBlock.header_fits hcvalid (by omega) (by omega) (by omega)
    (pointerField_holds (by omega) (by omega))

theorem carved_bytes : (carved P m p a next size pre b post).bytes =
    store (store (store
      (if lastBlock (a + 64) null pre = null then m.bytes else
        store m.bytes (lastBlock (a + 64) null pre)
          { load Block m.bytes (lastBlock (a + 64) null pre) with next := a + 64 + extent pre })
      (a + 64 + extent pre) ((⟨.allocated, size, size + 40⟩ : ArenaBlock).header
        (a + 64 + extent pre) (a + 64 + extent pre + (size + 40))))
      (a + 64 + extent pre + (size + 40))
        ((⟨.unallocated, 0, b.totalSize - (size + 40)⟩ : ArenaBlock).header
          (a + 64 + extent pre + (size + 40))
          (blockLink (a + 64 + extent pre + b.totalSize) post)))
      a ((carvedPage p size pre b post).header P a next) := by
  have hroom := h.room
  simp only [carved, carveStore, h.carvedPage_header]
  rw [if_neg (by omega)]
  rfl

theorem last_cases : pre = [] ∧ lastBlock (a + 64) null pre = null ∨
    pre ≠ [] ∧ lastBlock (a + 64) null pre ≠ null ∧ a + 64 ≤ lastBlock (a + 64) null pre ∧
      lastBlock (a + 64) null pre + 40 ≤ a + 64 + extent pre := by
  have hpos := P.physicalMemory_pos
  have hlow := h.low
  by_cases hne : pre = []
  · subst hne
    exact Or.inl ⟨rfl, rfl⟩
  · have hbounds := lastBlock_bounds (a + 64) null hne
      fun d hd => h.valid_blocks d (List.mem_append_left _ hd)
    exact Or.inr ⟨hne, by unfold null at *; omega, hbounds⟩

/-- Only the headers of the page and of the blocks around the cut are written. -/
theorem carved_outside {y : ℤ} (hpage : y < a ∨ a + 64 ≤ y)
    (hcut : y < a + 64 + extent pre ∨ a + 64 + extent pre + b.totalSize ≤ y)
    (hlast : pre ≠ [] → y < lastBlock (a + 64) null pre ∨ lastBlock (a + 64) null pre + 40 ≤ y) :
    (carved P m p a next size pre b post).bytes y = m.bytes y := by
  have hroom := h.room
  have hsize := h.size_nonneg
  rw [h.carved_bytes, store_outside _ _ _ (by simp; omega), store_outside _ _ _ (by simp; omega),
    store_outside _ _ _ (by simp; omega)]
  split_ifs with hnull
  · rfl
  · have hne : pre ≠ [] := by
      rintro rfl
      exact hnull rfl
    exact store_outside _ _ _ (by simpa using hlast hne)

theorem carved_outside_page {y : ℤ} (hy : y < a ∨ a + P.sysconfPageSize ≤ y) :
    (carved P m p a next size pre b post).bytes y = m.bytes y := by
  have hroom := h.room
  have hsize := h.size_nonneg
  obtain ⟨hpre, hpost, htiles⟩ := h.extents
  refine h.carved_outside (by omega) (by omega) fun hne => ?_
  rcases h.last_cases with ⟨hnil, _⟩ | ⟨_, _, hlast⟩
  · exact absurd hnil hne
  · omega

theorem load_carvedPage : load Page (carved P m p a next size pre b post).bytes a =
    (carvedPage p size pre b post).header P a next := by
  have htop := h.top
  have hlarge := P.pageSize_large
  rw [h.carved_bytes]
  exact load_store _ _ (ArenaPage.header_fits h.carvedPage_valid h.low (by omega) h.next_holds)

theorem blocksAt_carvedPage : BlocksAt (carved P m p a next size pre b post).bytes (a + 64)
    (carvedPage p size pre b post).blocks := by
  have hpos := P.physicalMemory_pos
  have htop := P.physicalMemory_top
  have htopEq := P.top_eq
  have hlow := h.low
  have hhigh := h.top
  have hroom := h.room
  have hsize := h.size_nonneg
  obtain ⟨hpre, hpost, htiles⟩ := h.extents
  have hblocks := h.blocks
  rw [h.fit.split] at hblocks
  have hvalid : ∀ c ∈ pre, c.Valid := fun c hc => h.valid_blocks c (List.mem_append_left _ hc)
  have hrest : ArenaBlock.Valid ⟨.unallocated, 0, b.totalSize - (size + 40)⟩ :=
    ⟨by simp only; omega, by simp, by simp⟩
  have halloc : ArenaBlock.Valid ⟨.allocated, size, size + 40⟩ :=
    ⟨by simp only; omega, by simp, by simp⟩
  refine hblocks.splice null hvalid (fun y hy hy' hlast => ?_) (fun hne => ?_)
    ⟨?_, ?_, ?_⟩
  · exact h.carved_outside (by omega) (by omega) fun _ => hlast
  · obtain ⟨c, hfits, hload, hnext⟩ := h.load_prev hne
    rcases h.last_cases with ⟨hnil, _⟩ | ⟨_, hnull, hlast⟩
    · exact absurd hnil hne
    · rw [h.carved_bytes, load_store_of_apart _ _ (by simp; omega),
        load_store_of_apart _ _ (by simp; omega), load_store_of_apart _ _ (by simp; omega),
        if_neg hnull, hload, ← hnext]
      exact load_store _ _ hfits
  · rw [h.carved_bytes, load_store_of_apart _ _ (by simp; omega),
      load_store_of_apart _ _ (by simp; omega)]
    exact load_store _ _ (ArenaBlock.header_fits halloc (by omega) (by omega) (by simp only; omega)
      (pointerField_holds (by omega) (by omega)))
  · rw [h.carved_bytes, load_store_of_apart _ _ (by simp; omega)]
    have hlink : a + 64 + extent pre + (size + 40) + (b.totalSize - (size + 40)) =
      a + 64 + extent pre + b.totalSize := by ring
    simp only [hlink]
    exact load_store _ _ (ArenaBlock.header_fits hrest (by omega) (by omega) (by simp only; omega)
      (blockLink_holds (by omega) (by omega) _))
  · have htail := hblocks.drop.2
    simp only [show a + 64 + extent pre + (size + 40) + (b.totalSize - (size + 40)) =
      a + 64 + extent pre + b.totalSize by ring]
    refine htail.congr (fun c hc => h.valid_blocks c (List.mem_append_right _ (.tail _ hc)))
      fun y hy hy' => (h.carved_outside (by omega) (by omega) fun hne => ?_).symm
    rcases h.last_cases with ⟨hnil, _⟩ | ⟨_, _, hlast⟩
    · exact absurd hnil hne
    · omega

end CleanFit

end Carve

end VirtualMemorySimulation.MemoryManager

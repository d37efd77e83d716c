import VirtualMemorySimulation.MemoryManager.BlockAllocation

/-!
# `allocate_block` on any well-formed page

The pages here are taken as they lie in the byte array: whoever filled them, the
block headers tile the page, are linked in that order, and the page accounts for
its allocated blocks. Nothing is assumed of the other fields.
-/

namespace VirtualMemorySimulation.MemoryManager

open ByteRecords Execution

variable {P : Platform}

def blocksLink (a : ℤ) (bs : List Block) : ℤ := if bs = [] then null else a

/-- The block headers lie back to back from `a` to `e` and are linked in that order. -/
def Tiles (m : Store) : ℤ → ℤ → List Block → Prop
  | a, e, [] => a = e
  | a, e, b :: bs =>
      load Block m a = b ∧ b.blockAddress = a ∧ 40 ≤ b.totalSize ∧
        b.next = blocksLink (a + b.totalSize) bs ∧ Tiles m (a + b.totalSize) e bs

def allocatedTotal : List Block → ℤ
  | [] => 0
  | b :: bs => (if b.state = BlockState.allocated.code then b.totalSize else 0) + allocatedTotal bs

/-- A page whose blocks tile it behind its header, with its accounting. -/
structure TiledPage (P : Platform) (m : Store) (pg : Page) (bs : List Block) : Prop where
  header : load Page m pg.startAddress = pg
  head : pg.blockListHead = blocksLink (pg.startAddress + 64) bs
  tiles : Tiles m (pg.startAddress + 64) (pg.endAddress + 1) bs
  accounting : pg.sizeOfAllocated = 64 + allocatedTotal bs
  low : P.physicalMemory ≤ pg.startAddress
  high : pg.endAddress + 1 ≤ P.top

/-- The fit test of the block scan. -/
def Block.Takes (size : ℤ) (b : Block) : Prop :=
  b.state = BlockState.unallocated.code ∧ size ≤ b.totalSize

instance (size : ℤ) (b : Block) : Decidable (b.Takes size) :=
  inferInstanceAs (Decidable (_ ∧ _))

def Block.HasRoom (size : ℤ) (b : Block) : Prop :=
  b.state = BlockState.unallocated.code ∧ size + 40 ≤ b.totalSize

instance (size : ℤ) (b : Block) : Decidable (b.HasRoom size) :=
  inferInstanceAs (Decidable (_ ∧ _))

/-- The block that the scan stops at. -/
def firstTaken (size : ℤ) (bs : List Block) : Option Block := bs.find? fun b => b.Takes size

section Tiling

variable {m m' : Store} {a e : ℤ} {b : Block} {bs pre post : List Block}

theorem Tiles.le (h : Tiles m a e bs) : a ≤ e := by
  induction bs generalizing a with
  | nil => exact le_of_eq h
  | cons b bs ih =>
    obtain ⟨-, -, hle, -, h⟩ := h
    have := ih h
    omega

theorem blocksLink_append (a : ℤ) (hne : post ≠ []) : blocksLink a (pre ++ post) = a :=
  if_neg (by simp [hne])

theorem Tiles.drop (h : Tiles m a e (pre ++ b :: post)) :
    a ≤ b.blockAddress ∧ Tiles m b.blockAddress e (b :: post) := by
  induction pre generalizing a with
  | nil =>
    obtain rfl : b.blockAddress = a := h.2.1
    exact ⟨le_rfl, h⟩
  | cons c pre ih =>
    obtain ⟨-, -, hle, -, h⟩ := h
    obtain ⟨hlow, hrest⟩ := ih h
    exact ⟨by omega, hrest⟩

theorem Tiles.mem_bounds (h : Tiles m a e bs) (hb : b ∈ bs) :
    load Block m b.blockAddress = b ∧ 40 ≤ b.totalSize ∧ a ≤ b.blockAddress ∧
      b.blockAddress + b.totalSize ≤ e := by
  obtain ⟨pre, post, rfl⟩ := List.append_of_mem hb
  obtain ⟨hlow, hload, -, hle, -, hrest⟩ := h.drop
  exact ⟨hload, hle, hlow, hrest.le⟩

theorem Tiles.before (h : Tiles m a e (pre ++ b :: post)) {c : Block} (hc : c ∈ pre) :
    c.blockAddress + c.totalSize ≤ b.blockAddress := by
  induction pre generalizing a with
  | nil => cases hc
  | cons d pre ih =>
    obtain ⟨-, hself, -, -, h⟩ := h
    rcases List.mem_cons.mp hc with rfl | hc
    · rw [hself]
      exact h.drop.1
    · exact ih h hc

theorem Tiles.after (h : Tiles m a e (pre ++ b :: post)) {c : Block} (hc : c ∈ post) :
    b.blockAddress + b.totalSize ≤ c.blockAddress := by
  obtain ⟨-, -, -, -, -, hrest⟩ := h.drop
  exact (hrest.mem_bounds hc).2.2.1

theorem Tiles.eq_of_overlap (h : Tiles m a e (pre ++ b :: post)) {c : Block}
    (hc : c ∈ pre ++ b :: post) (hlow : c.blockAddress ≤ b.blockAddress)
    (hhigh : b.blockAddress < c.blockAddress + c.totalSize) : c = b := by
  have hb := h.mem_bounds (b := b) (by simp)
  rcases List.mem_append.mp hc with hc | hc
  · have := h.before hc
    omega
  · rcases List.mem_cons.mp hc with rfl | hc
    · rfl
    · have := h.after hc
      omega

theorem Tiles.congr (h : Tiles m a e bs)
    (hload : ∀ b ∈ bs, load Block m' b.blockAddress = load Block m b.blockAddress) :
    Tiles m' a e bs := by
  induction bs generalizing a with
  | nil => exact h
  | cons b bs ih =>
    obtain ⟨hb, hself, hle, hnext, hrest⟩ := h
    refine ⟨?_, hself, hle, hnext, ih hrest fun c hc => hload c (by simp [hc])⟩
    have hsame := hload b (by simp)
    rwa [hself, hb] at hsame

/-- A tiling is determined by the headers in memory. -/
theorem Tiles.shared (h : Tiles m a e (pre ++ b :: post)) {e' : ℤ} {bs : List Block}
    (hbs : Tiles m' a e' bs) (he : e ≤ e') (hload : ∀ c ∈ pre, load Block m' c.blockAddress = c) :
    ∃ rest, bs = pre ++ rest ∧ Tiles m' b.blockAddress e' rest := by
  induction pre generalizing a bs with
  | nil =>
    obtain rfl : b.blockAddress = a := h.2.1
    exact ⟨bs, rfl, hbs⟩
  | cons c pre ih =>
    obtain ⟨-, hself, hle, -, hrest⟩ := h
    have hend := hrest.le
    cases bs with
    | nil =>
      have heq : a = e' := hbs
      omega
    | cons d bs =>
      obtain ⟨hd, -, -, -, hbs⟩ := hbs
      have hc := hload c (by simp)
      rw [hself, hd] at hc
      obtain rfl : d = c := hc
      obtain ⟨rest, rfl, hrest'⟩ := ih hrest hbs fun c hc => hload c (by simp [hc])
      exact ⟨rest, rfl, hrest'⟩

theorem allocatedTotal_append (pre post : List Block) :
    allocatedTotal (pre ++ post) = allocatedTotal pre + allocatedTotal post := by
  induction pre with
  | nil => simp [allocatedTotal]
  | cons b pre ih => simp [allocatedTotal, ih, add_assoc]

theorem Tiles.allocatedTotal_le (h : Tiles m a e bs) :
    0 ≤ allocatedTotal bs ∧ a + allocatedTotal bs ≤ e := by
  induction bs generalizing a with
  | nil =>
    have heq : a = e := h
    simp [allocatedTotal, heq]
  | cons b bs ih =>
    obtain ⟨-, -, hle, -, h⟩ := h
    have := ih h
    simp only [allocatedTotal]
    split_ifs <;> omega

theorem Tiles.allocatedTotal_add_free_le (h : Tiles m a e bs) (hb : b ∈ bs)
    (hfree : b.state = BlockState.unallocated.code) :
    a + allocatedTotal bs + b.totalSize ≤ e := by
  induction bs generalizing a with
  | nil => cases hb
  | cons c bs ih =>
    obtain ⟨-, -, hle, -, h⟩ := h
    have hsum := h.allocatedTotal_le
    simp only [allocatedTotal]
    rcases List.mem_cons.mp hb with rfl | hb
    · rw [hfree, if_neg (by decide)]
      omega
    · have := ih h hb
      split_ifs <;> omega

end Tiling

theorem firstTaken_none {size : ℤ} {bs : List Block} :
    firstTaken size bs = none ↔ ∀ b ∈ bs, ¬ b.Takes size := by
  simp [firstTaken]

theorem firstTaken_some {size : ℤ} {bs : List Block} {b : Block} :
    firstTaken size bs = some b ↔
      b.Takes size ∧ ∃ pre post, bs = pre ++ b :: post ∧ ∀ c ∈ pre, ¬ c.Takes size := by
  rw [firstTaken, List.find?_eq_some_iff_append]
  simp

section Scan

variable {m : Memory} {size : ℤ}

/-- What `tmp_prev` names after the scan has passed some blocks. -/
def prevOf (tmpPrev : ℤ) (pre : List Block) : ℤ := pre.foldl (fun _ b => b.blockAddress) tmpPrev

theorem allocateBlockLoop_passes (pg : Page) (a e tmpPrev : ℤ) (pre post : List Block)
    {r : Except Stop (ℤ × Memory)} (h : Tiles m.bytes a e (pre ++ post)) (ha : P.physicalMemory ≤ a)
    (he : e ≤ P.top) (hpassed : ∀ c ∈ pre, ¬ c.Takes size) (hprev : NamesBlock P m.bytes tmpPrev)
    (hend : ∀ a', Tiles m.bytes a' e post → NamesBlock P m.bytes (prevOf tmpPrev pre) →
      Settles (fun n => allocateBlockLoop P size pg n (blocksLink a' post) (prevOf tmpPrev pre) m)
        r) :
    Settles (fun n => allocateBlockLoop P size pg n (blocksLink a (pre ++ post)) tmpPrev m) r := by
  have hpos := P.physicalMemory_pos
  induction pre generalizing a tmpPrev with
  | nil => exact hend a h hprev
  | cons b pre ih =>
    obtain ⟨hload, hself, hle, hnext, hrest⟩ := h
    have hbound := hrest.le
    have hin : P.Inside a (recordSize Block) := inside_block.mpr ⟨ha, by omega⟩
    refine Settles.succ rfl (fun n => ?_) (ih (a + b.totalSize) b.blockAddress hrest (by omega)
      (fun c hc => hpassed c (by simp [hc])) (fun _ => ?_) hend)
    · have hnot : ¬ (b.state = BlockState.unallocated.code ∧ size ≤ b.totalSize) :=
        hpassed b (by simp)
      rw [show blocksLink a (b :: pre ++ post) = a from rfl, allocateBlockLoop,
        if_neg (by unfold null; omega), loadAt_ok hin, ok_bind, hload, if_neg hnot, hself, hnext]
      rfl
    · rw [hself]
      exact ⟨hin, by rw [hload, hself]⟩

/-- The bytes after the block `b` was taken. -/
def takeStore (pg : Page) (b : Block) (size tmpPrev : ℤ) (m : Store) : Store :=
  carveStore pg ⟨.unallocated, b.dataSize, b.totalSize⟩ size b.blockAddress tmpPrev b.next m

/-- The second header that a split writes lies in the array. -/
def HeaderFits (P : Platform) (b : Block) (size : ℤ) : Prop :=
  b.totalSize ≠ size → b.blockAddress + size + 80 ≤ P.top

theorem allocateBlockLoop_takes {pg : Page} {b : Block} {tmpPrev : ℤ}
    (hload : load Block m.bytes b.blockAddress = b) (htakes : b.Takes size) (hsize : 0 ≤ size)
    (hle : 40 ≤ b.totalSize) (hx : P.physicalMemory ≤ b.blockAddress)
    (htop : b.blockAddress + b.totalSize ≤ P.top)
    (hpg : P.Inside pg.startAddress (recordSize Page)) (hprev : NamesBlock P m.bytes tmpPrev) :
    (HeaderFits P b size → Settles (fun n => allocateBlockLoop P size pg n b.blockAddress tmpPrev m)
      (.ok (b.blockAddress + 40, { m with bytes := takeStore pg b size tmpPrev m.bytes }))) ∧
    (¬ HeaderFits P b size →
      Settles (fun n => allocateBlockLoop P size pg n b.blockAddress tmpPrev m)
        (.error .outOfBounds)) := by
  obtain ⟨hfree, hfit⟩ := htakes
  have hin : P.Inside b.blockAddress (recordSize Block) := inside_block.mpr ⟨hx, by omega⟩
  have hstep : ∀ n, allocateBlockLoop P size pg (n + 1) b.blockAddress tmpPrev m =
      takeBlock P size pg tmpPrev b m := allocateBlockLoop_found hin hload ⟨hfree, hfit⟩
  constructor
  · intro hheader
    refine Settles.succ rfl (fun n => (hstep n).trans ?_) (Settles.const _)
    exact takeBlock_carves (b := ⟨.unallocated, b.dataSize, b.totalSize⟩) rfl hfit hsize hx htop
      hin hheader hpg hprev
  · intro hheader
    obtain ⟨hne, hroom⟩ : b.totalSize ≠ size ∧ P.top < b.blockAddress + size + 80 := by
      simpa [HeaderFits] using hheader
    refine Settles.succ rfl (fun n => (hstep n).trans ?_) (Settles.const _)
    exact takeBlock_overruns hfit hsize htop hin hne hroom hprev

variable {pg : Page} {bs : List Block}

theorem TiledPage.inside (h : TiledPage P m.bytes pg bs) :
    P.Inside pg.startAddress (recordSize Page) := by
  have hle := h.tiles.le
  have hhigh := h.high
  exact inside_page.mpr ⟨h.low, by omega⟩

theorem allocateBlock_enters (h : TiledPage P m.bytes pg bs) (n : ℕ) :
    allocateBlock P size pg.startAddress n m =
      allocateBlockLoop P size pg n (blocksLink (pg.startAddress + 64) bs) null m := by
  rw [allocateBlock, loadAt_ok h.inside, ok_bind, h.header, h.head]

/-- No block is taken: `NULL` and the memory as it was. -/
theorem allocateBlock_takes_none (h : TiledPage P m.bytes pg bs)
    (hnone : firstTaken size bs = none) :
    Settles (fun n => allocateBlock P size pg.startAddress n m) (.ok (null, m)) := by
  have hlow := h.low
  apply Settles.congr (allocateBlock_enters h)
  have hscan := allocateBlockLoop_passes (P := P) (r := .ok (null, m)) pg (pg.startAddress + 64)
    (pg.endAddress + 1) null bs [] (by simpa using h.tiles) (by omega) h.high
    (firstTaken_none.mp hnone) (fun hne => absurd rfl hne)
    fun a' _ _ => Settles.succ rfl (fun n => by rw [allocateBlockLoop, blocksLink, if_pos rfl,
      if_pos rfl]) (Settles.const _)
  simpa using hscan

/-- The first block that fits is taken, or the second header leaves the array. -/
theorem allocateBlock_takes {pre post : List Block} {b : Block}
    (h : TiledPage P m.bytes pg (pre ++ b :: post)) (htakes : b.Takes size)
    (hpassed : ∀ c ∈ pre, ¬ c.Takes size) (hsize : 0 ≤ size) :
    (HeaderFits P b size → Settles (fun n => allocateBlock P size pg.startAddress n m)
      (.ok (b.blockAddress + 40,
        { m with bytes := takeStore pg b size (prevOf null pre) m.bytes }))) ∧
    (¬ HeaderFits P b size → Settles (fun n => allocateBlock P size pg.startAddress n m)
      (.error .outOfBounds)) := by
  have hlow := h.low
  have hhigh := h.high
  obtain ⟨hload, hle, hstart, hend⟩ := h.tiles.mem_bounds (b := b) (by simp)
  have hscan : ∀ r : Except Stop (ℤ × Memory),
      (NamesBlock P m.bytes (prevOf null pre) →
        Settles (fun n => allocateBlockLoop P size pg n b.blockAddress (prevOf null pre) m) r) →
      Settles (fun n => allocateBlock P size pg.startAddress n m) r := by
    intro r hr
    refine Settles.congr (allocateBlock_enters h) (allocateBlockLoop_passes pg _ _ null pre (b :: post)
      h.tiles (by omega) hhigh hpassed (fun hne => absurd rfl hne) fun a' htiles hprev => ?_)
    obtain rfl : b.blockAddress = a' := htiles.2.1
    exact hr hprev
  constructor
  · intro hfits
    exact hscan _ fun hprev => (allocateBlockLoop_takes hload htakes hsize hle (by omega)
      (by omega) h.inside hprev).1 hfits
  · intro hfits
    exact hscan _ fun hprev => (allocateBlockLoop_takes hload htakes hsize hle (by omega)
      (by omega) h.inside hprev).2 hfits

end Scan

section Split

@[simps] def allocatedPart (b : Block) (size : ℤ) : Block :=
  ⟨BlockState.allocated.code, size, size + 40, b.blockAddress, b.blockAddress + 40,
    b.blockAddress + (size + 40)⟩

@[simps] def freePart (b : Block) (size : ℤ) : Block :=
  ⟨BlockState.unallocated.code, 0, b.totalSize - (size + 40), b.blockAddress + (size + 40),
    b.blockAddress + (size + 40) + 40, b.next⟩

@[simps] def chargedPage (pg : Page) (size : ℤ) : Page :=
  { pg with sizeOfAllocated := pg.sizeOfAllocated + (size + 40) }

/-- A free block is split that has room for the request and its header, and what is left
begins before the last 40 bytes of the array. -/
structure Splits (P : Platform) (m : Store) (pg : Page) (pre : List Block) (b : Block)
    (post : List Block) (size : ℤ) : Prop where
  page : TiledPage P m pg (pre ++ b :: post)
  free : b.state = BlockState.unallocated.code
  size_nonneg : 0 ≤ size
  room : size + 40 ≤ b.totalSize
  header : b.blockAddress + size + 80 ≤ P.top

namespace Splits

variable {m : Store} {pg : Page} {pre post : List Block} {b : Block} {size : ℤ}
  (h : Splits P m pg pre b post size)

include h

theorem bounds : load Block m b.blockAddress = b ∧ 40 ≤ b.totalSize ∧
    pg.startAddress + 64 ≤ b.blockAddress ∧ b.blockAddress + b.totalSize ≤ pg.endAddress + 1 :=
  h.page.tiles.mem_bounds (by simp)

theorem charge_bounds : -2147483648 ≤ pg.sizeOfAllocated + (size + 40) ∧
    pg.sizeOfAllocated + (size + 40) < 2147483648 := by
  have htop := P.top_eq
  have hlow := h.page.low
  have hhigh := h.page.high
  have hsize := h.size_nonneg
  have hroom := h.room
  have hsum := h.page.tiles.allocatedTotal_le
  have hfree := h.page.tiles.allocatedTotal_add_free_le (b := b) (by simp) h.free
  have haccount := h.page.accounting
  omega

theorem charged : toInt (pg.sizeOfAllocated + (size + 40)) = pg.sizeOfAllocated + (size + 40) :=
  toInt_of_range h.charge_bounds.1 h.charge_bounds.2

theorem prev_cases : pre = [] ∧ prevOf null pre = null ∨ ∃ init c, pre = init ++ [c] ∧
    prevOf null pre = c.blockAddress ∧ c.next = b.blockAddress ∧
      c.blockAddress + c.totalSize = b.blockAddress := by
  rcases List.eq_nil_or_concat pre with rfl | ⟨init, c, rfl⟩
  · exact Or.inl ⟨rfl, rfl⟩
  · have htiles := h.page.tiles
    rw [List.concat_eq_append, List.append_assoc, List.singleton_append] at htiles
    obtain ⟨-, -, -, -, hnext, hrest⟩ := htiles.drop
    have hself : b.blockAddress = c.blockAddress + c.totalSize := hrest.2.1
    refine Or.inr ⟨init, c, List.concat_eq_append, by simp [prevOf], ?_, hself.symm⟩
    rw [hnext, hself]
    rfl

/-- The bytes after the split, write by write. -/
theorem takeStore_eq (hne : b.totalSize ≠ size) : takeStore pg b size (prevOf null pre) m =
    store (store (store
      (if prevOf null pre = null then m
        else store m (prevOf null pre) (load Block m (prevOf null pre)))
      b.blockAddress (allocatedPart b size)) (b.blockAddress + (size + 40)) (freePart b size))
      pg.startAddress (chargedPage pg size) := by
  have hprev : ¬ prevOf null pre = null → { load Block m (prevOf null pre) with
      next := b.blockAddress } = load Block m (prevOf null pre) := by
    intro hnull
    rcases h.prev_cases with ⟨-, hnil⟩ | ⟨init, c, rfl, hc, hnext, -⟩
    · exact absurd hnil hnull
    · have hload := (h.page.tiles.mem_bounds (b := c) (by simp)).1
      rw [hc, hload, ← hnext]
  simp only [takeStore, carveStore, h.charged]
  rw [if_neg hne]
  by_cases hnull : prevOf null pre = null
  · simp only [if_pos hnull]
    rfl
  · simp only [if_neg hnull, hprev hnull]
    rfl

theorem rewritten : ∃ m₀ : Store,
    (if prevOf null pre = null then m
      else store m (prevOf null pre) (load Block m (prevOf null pre))) = m₀ ∧
    (∀ c ∈ pre, load Block m₀ c.blockAddress = c) ∧
    ∀ y, (∀ c ∈ pre, y < c.blockAddress ∨ c.blockAddress + 40 ≤ y) → m₀ y = m y := by
  have hmem : ∀ c ∈ pre, load Block m c.blockAddress = c := fun c hc =>
    (h.page.tiles.mem_bounds (b := c) (by simp [hc])).1
  have hpos := P.physicalMemory_pos
  have hlow := h.page.low
  rcases h.prev_cases with ⟨rfl, hnull⟩ | ⟨init, c, rfl, hprev, -, -⟩
  · exact ⟨m, if_pos hnull, by simp, fun _ _ => rfl⟩
  · have hc := h.page.tiles.mem_bounds (b := c) (by simp)
    refine ⟨_, if_neg (by rw [hprev]; unfold null; omega), fun d hd => ?_, fun y hy => ?_⟩
    · rw [hprev, hc.1]
      rcases List.mem_append.mp hd with hd | hd
      · have htiles := h.page.tiles
        rw [List.append_assoc, List.singleton_append] at htiles
        have hbefore := htiles.before hd
        have hd' := htiles.mem_bounds (b := d) (by simp [hd])
        rw [load_store_of_apart _ _ (by simp; omega)]
        exact hd'.1
      · rw [List.mem_singleton.mp hd]
        exact load_store _ _ (hc.1 ▸ load_block_fits m c.blockAddress)
    · rw [hprev]
      exact store_outside _ _ _ (by simpa using hy c (by simp))

theorem parts_fit : Fits (allocatedPart b size) ∧ Fits (freePart b size) := by
  have hpos := P.physicalMemory_pos
  have htop := P.physicalMemory_top
  have htopEq := P.top_eq
  have hlow := h.page.low
  have hhigh := h.page.high
  have hsize := h.size_nonneg
  have hroom := h.room
  have hheader := h.header
  obtain ⟨hload, hle, hstart, hend⟩ := h.bounds
  have hpointer : ∀ v, P.physicalMemory ≤ v → v ≤ P.top → pointerField.Holds v :=
    fun v hv hv' => pointerField_holds (by omega) (by omega)
  have hnext : pointerField.Holds b.next := by
    rw [← hload]
    exact take_decode_holds ..
  exact ⟨Block.fits (BlockState.code_holds _) (intField_holds (by omega) (by omega))
      (intField_holds (by omega) (by omega)) (hpointer _ (by omega) (by omega))
      (hpointer _ (by omega) (by omega)) (hpointer _ (by omega) (by omega)),
    Block.fits (BlockState.code_holds _) (intField_holds (by omega) (by omega))
      (intField_holds (by omega) (by omega)) (hpointer _ (by omega) (by omega))
      (hpointer _ (by omega) (by omega)) hnext⟩

theorem chargedPage_fits : Fits (chargedPage pg size) := by
  have hfits : Fits pg := h.page.header ▸ load_page_fits m pg.startAddress
  exact Page.fits_sizeOfAllocated hfits (intField_holds h.charge_bounds.1 h.charge_bounds.2)

theorem loads (hne : b.totalSize ≠ size) :
    (∀ c ∈ pre, load Block (takeStore pg b size (prevOf null pre) m) c.blockAddress = c) ∧
    load Block (takeStore pg b size (prevOf null pre) m) b.blockAddress = allocatedPart b size ∧
    load Block (takeStore pg b size (prevOf null pre) m) (b.blockAddress + (size + 40)) =
      freePart b size ∧
    load Page (takeStore pg b size (prevOf null pre) m) pg.startAddress = chargedPage pg size := by
  have hsize := h.size_nonneg
  have hroom := h.room
  obtain ⟨-, hle, hstart, hend⟩ := h.bounds
  obtain ⟨hfits, hfits'⟩ := h.parts_fit
  obtain ⟨m₀, hm₀, hpre, -⟩ := h.rewritten
  rw [h.takeStore_eq hne, hm₀]
  refine ⟨fun c hc => ?_, ?_, ?_, load_store _ _ h.chargedPage_fits⟩
  · have hbefore := h.page.tiles.before hc
    have hc' := h.page.tiles.mem_bounds (b := c) (by simp [hc])
    rw [load_store_of_apart _ _ (by simp; omega), load_store_of_apart _ _ (by simp; omega),
      load_store_of_apart _ _ (by simp; omega)]
    exact hpre c hc
  · rw [load_store_of_apart _ _ (by simp; omega), load_store_of_apart _ _ (by simp; omega)]
    exact load_store _ _ hfits
  · rw [load_store_of_apart _ _ (by simp; omega)]
    exact load_store _ _ hfits'

theorem outside (hne : b.totalSize ≠ size) {y : ℤ}
    (hpage : y < pg.startAddress ∨ pg.startAddress + 64 ≤ y)
    (hpart : y < b.blockAddress ∨ b.blockAddress + 40 ≤ y)
    (hrest : y < b.blockAddress + (size + 40) ∨ b.blockAddress + (size + 40) + 40 ≤ y)
    (hpre : ∀ c ∈ pre, y < c.blockAddress ∨ c.blockAddress + 40 ≤ y) :
    takeStore pg b size (prevOf null pre) m y = m y := by
  obtain ⟨m₀, hm₀, -, hout⟩ := h.rewritten
  rw [h.takeStore_eq hne, hm₀, store_outside _ _ _ (by simpa using hpage),
    store_outside _ _ _ (by simpa using hrest), store_outside _ _ _ (by simpa using hpart)]
  exact hout y hpre

end Splits

end Split

section Outcome

/-- What a call that returns `v` has done to a page. -/
structure Carves (P : Platform) (m m' : Memory) (pg pg' : Page) (bs bs' : List Block)
    (size v : ℤ) : Prop where
  page : TiledPage P m'.bytes pg' bs'
  start : pg'.startAddress = pg.startAddress
  stop : pg'.endAddress = pg.endAddress
  block : ∃ c ∈ bs', c.state = BlockState.allocated.code ∧ c.dataSize = size ∧ c.dataAddress = v ∧
    ∃ b ∈ bs, b.state = BlockState.unallocated.code ∧ b.blockAddress ≤ c.blockAddress ∧
      c.blockAddress + 40 ≤ v ∧ v + size ≤ b.blockAddress + b.totalSize
  kept : ∀ c ∈ bs, c.state = BlockState.allocated.code → c ∈ bs' ∧
    ∀ y, c.blockAddress + 40 ≤ y → y < c.blockAddress + c.totalSize → m'.bytes y = m.bytes y
  outside : ∀ y, y < pg.startAddress ∨ pg.endAddress < y → m'.bytes y = m.bytes y
  metadata : m'.metadata = m.metadata
  initialized : m'.initialized = m.initialized

/-- The call returns `NULL` and changes nothing when no free block has room for the request
and its header, and carves a block for it otherwise. -/
def AllocatesBlock (P : Platform) (m : Memory) (pg : Page) (bs : List Block) (size : ℤ) : Prop :=
  ∃ v m', Settles (fun n => allocateBlock P size pg.startAddress n m) (.ok (v, m')) ∧
    ((∀ b ∈ bs, ¬ b.HasRoom size) → v = null ∧ m' = m) ∧
    ((∃ b ∈ bs, b.HasRoom size) → ∃ pg' bs', Carves P m m' pg pg' bs bs' size v)

variable {m : Memory} {pg : Page} {bs pre post : List Block} {b : Block} {size : ℤ}

theorem Block.HasRoom.takes (h : b.HasRoom size) : b.Takes size := ⟨h.1, by have := h.2; omega⟩

/-- A tiling with other blocks from the address of one of its blocks on. -/
theorem Tiles.replace {m m' : Store} {a e : ℤ} {b' : Block} {post' : List Block}
    (h : Tiles m a e (pre ++ b :: post)) (hload : ∀ c ∈ pre, load Block m' c.blockAddress = c)
    (hnew : Tiles m' b.blockAddress e (b' :: post')) : Tiles m' a e (pre ++ b' :: post') := by
  induction pre generalizing a with
  | nil =>
    obtain rfl : b.blockAddress = a := h.2.1
    exact hnew
  | cons c pre ih =>
    obtain ⟨-, hself, hle, hnext, hrest⟩ := h
    have hc := hload c (by simp)
    rw [hself] at hc
    refine ⟨hc, hself, hle, ?_, ih hrest fun d hd => hload d (by simp [hd])⟩
    rw [hnext]
    exact (blocksLink_append _ (by simp)).trans (blocksLink_append _ (by simp)).symm

theorem Splits.carves (h : Splits P m.bytes pg pre b post size) (hspare : size + 80 ≤ b.totalSize) :
    Carves P m { m with bytes := takeStore pg b size (prevOf null pre) m.bytes } pg
      (chargedPage pg size) (pre ++ b :: post)
      (pre ++ allocatedPart b size :: freePart b size :: post) size (b.blockAddress + 40) := by
  have hsize := h.size_nonneg
  have hne : b.totalSize ≠ size := by omega
  have htiles := h.page.tiles
  obtain ⟨-, hle, hstart, hend⟩ := h.bounds
  obtain ⟨hpre, hpart, hfree, hpage⟩ := h.loads hne
  obtain ⟨-, -, -, -, hnext, hrest⟩ := htiles.drop
  have hpost : ∀ c ∈ post, load Block (takeStore pg b size (prevOf null pre) m.bytes)
      c.blockAddress = load Block m.bytes c.blockAddress := by
    intro c hc
    have hafter := htiles.after hc
    refine load_congr fun y hy hy' => h.outside hne (by omega) (by omega) (by omega) fun d hd => ?_
    have hbefore := htiles.before hd
    have hd' := htiles.mem_bounds (b := d) (by simp [hd])
    omega
  have hparts : Tiles (takeStore pg b size (prevOf null pre) m.bytes) b.blockAddress
      (pg.endAddress + 1) (allocatedPart b size :: freePart b size :: post) := by
    refine ⟨hpart, rfl, by simp only [allocatedPart_totalSize]; omega, rfl, hfree, rfl,
      by simp only [freePart_totalSize]; omega, ?_, ?_⟩
    · simp only [freePart_next, allocatedPart_totalSize, freePart_totalSize, hnext]
      congr 1
      ring
    · have hsum : b.blockAddress + (allocatedPart b size).totalSize + (freePart b size).totalSize =
          b.blockAddress + b.totalSize := by
        simp only [allocatedPart_totalSize, freePart_totalSize]
        ring
      rw [hsum]
      exact hrest.congr hpost
  refine ⟨⟨hpage, ?_, htiles.replace hpre hparts, ?_, h.page.low, h.page.high⟩, rfl, rfl, ?_, ?_,
    fun y hy => ?_, rfl, rfl⟩
  · rw [chargedPage_blockListHead, h.page.head]
    exact (blocksLink_append _ (by simp)).trans (blocksLink_append _ (by simp)).symm
  · have haccount := h.page.accounting
    simp only [allocatedTotal_append, allocatedTotal, h.free, allocatedPart_state,
      allocatedPart_totalSize, freePart_state, chargedPage_sizeOfAllocated, if_true] at haccount ⊢
    rw [if_neg (by decide)] at haccount ⊢
    omega
  · refine ⟨allocatedPart b size, by simp, rfl, rfl, rfl, b, by simp, h.free, le_rfl, le_rfl, ?_⟩
    omega
  · intro c hc halloc
    have hcb : c ≠ b := by
      rintro rfl
      exact absurd (h.free.symm.trans halloc) (by decide)
    have hmem : c ∈ pre ∨ c ∈ post := by simpa [hcb] using hc
    refine ⟨by rcases hmem with hc | hc <;> simp [hc], fun y hy hy' => ?_⟩
    have hc' := htiles.mem_bounds hc
    refine h.outside hne (by omega) ?_ ?_ fun d hd => ?_
    · rcases hmem with hc | hc
      · have := htiles.before hc
        omega
      · have := htiles.after hc
        omega
    · rcases hmem with hc | hc
      · have := htiles.before hc
        omega
      · have := htiles.after hc
        omega
    · have hd' := htiles.mem_bounds (b := d) (by simp [hd])
      have hbefore := htiles.before hd
      by_cases heq : d = c
      · subst heq
        omega
      · obtain ⟨before, after, hsplit⟩ := List.append_of_mem hc
        rw [hsplit] at htiles
        have hdmem : d ∈ before ++ c :: after := hsplit ▸ by simp [hd]
        rcases List.mem_append.mp hdmem with hdb | hda
        · have := htiles.before hdb
          omega
        · rcases List.mem_cons.mp hda with rfl | hda
          · exact absurd rfl heq
          · have := htiles.after hda
            omega
  · refine h.outside hne (by omega) (by omega) (by omega) fun d hd => ?_
    have hd' := htiles.mem_bounds (b := d) (by simp [hd])
    omega

/-- A block with less than 80 bytes to spare is split into parts that do not tile it. -/
theorem Splits.not_carved {m' : Memory} {v : ℤ} (h : Splits P m.bytes pg pre b post size)
    (hm' : m'.bytes = takeStore pg b size (prevOf null pre) m.bytes)
    (hcarves : ∃ pg' bs', Carves P m m' pg pg' (pre ++ b :: post) bs' size v) :
    size + 80 ≤ b.totalSize := by
  have hsize := h.size_nonneg
  have hroom := h.room
  have hpos := P.physicalMemory_pos
  have hlow := h.page.low
  obtain ⟨pg', bs', hcarves⟩ := hcarves
  obtain ⟨-, -, hstart, hend⟩ := h.bounds
  obtain ⟨hpre, hpart, hfree, -⟩ := h.loads (by omega)
  have htiles := hcarves.page.tiles
  rw [hcarves.start, hcarves.stop] at htiles
  rw [← hm'] at hpre hpart hfree
  obtain ⟨rest, -, hrest⟩ := h.page.tiles.shared htiles le_rfl hpre
  cases rest with
  | nil =>
    have heq : b.blockAddress = pg.endAddress + 1 := hrest
    omega
  | cons d rest =>
    obtain ⟨hd, -, -, hnext, hrest⟩ := hrest
    obtain rfl : d = allocatedPart b size := hd.symm.trans hpart
    cases rest with
    | nil =>
      have heq : b.blockAddress + (size + 40) = null := hnext
      unfold null at heq
      omega
    | cons f rest =>
      obtain ⟨hf, -, hle, -, -⟩ := hrest
      obtain rfl : f = freePart b size := hf.symm.trans hfree
      simp only [freePart_totalSize] at hle
      omega

/-- What a call that took `b` returns is a block carved from `b`. -/
theorem Carves.room {m' : Memory} {pg' : Page} {bs' : List Block}
    (h : TiledPage P m.bytes pg (pre ++ b :: post)) (hsize : 1 ≤ size)
    (hcarves : Carves P m m' pg pg' (pre ++ b :: post) bs' size (b.blockAddress + 40)) :
    size + 40 ≤ b.totalSize := by
  obtain ⟨c, -, -, -, -, b', hb', -, hlow, hheader, hhigh⟩ := hcarves.block
  obtain rfl : b' = b := h.tiles.eq_of_overlap hb' (by omega) (by omega)
  omega

/-- On a page whose blocks tile it, `allocate_block` does what it should exactly when
the free block it takes has room for the request and two headers. -/
theorem allocateBlock_tiled (h : TiledPage P m.bytes pg bs) (hsize : 1 ≤ size) :
    AllocatesBlock P m pg bs size ↔
      ∀ b, firstTaken size bs = some b → size + 80 ≤ b.totalSize := by
  have hpos := P.physicalMemory_pos
  have hlow := h.low
  have hhigh := h.high
  constructor
  · rintro ⟨v, m', hsettles, hnone, hsome⟩ b hb
    obtain ⟨htakes, pre, post, rfl, hpassed⟩ := firstTaken_some.mp hb
    obtain ⟨-, -, hstart, -⟩ := h.tiles.mem_bounds (b := b) (by simp)
    obtain ⟨hok, herror⟩ := allocateBlock_takes h htakes hpassed (by omega)
    have hheader : HeaderFits P b size := by
      by_contra hnot
      cases hsettles.unique (herror hnot)
    have hvalue := hsettles.unique (hok hheader)
    simp only [Except.ok.injEq, Prod.mk.injEq] at hvalue
    obtain ⟨rfl, rfl⟩ := hvalue
    by_cases hroom : ∃ c ∈ pre ++ b :: post, c.HasRoom size
    · obtain ⟨pg', bs', hcarves⟩ := hsome hroom
      have hbig := hcarves.room h hsize
      exact Splits.not_carved ⟨h, htakes.1, by omega, hbig, hheader (by omega)⟩ rfl
        ⟨pg', bs', hcarves⟩
    · have hnull := (hnone (by simpa using hroom)).1
      unfold null at hnull
      omega
  · intro hspare
    cases hfirst : firstTaken size bs with
    | none =>
      have hnot := firstTaken_none.mp hfirst
      refine ⟨null, m, allocateBlock_takes_none h hfirst, fun _ => ⟨rfl, rfl⟩, ?_⟩
      rintro ⟨b, hb, hroom⟩
      exact absurd hroom.takes (hnot b hb)
    | some b =>
      obtain ⟨htakes, pre, post, rfl, hpassed⟩ := firstTaken_some.mp hfirst
      have hbig := hspare b hfirst
      obtain ⟨-, -, hstart, hend⟩ := h.tiles.mem_bounds (b := b) (by simp)
      have hsplits : Splits P m.bytes pg pre b post size :=
        ⟨h, htakes.1, by omega, by omega, by omega⟩
      refine ⟨_, _, (allocateBlock_takes h htakes hpassed (by omega)).1 fun _ => hsplits.header,
        fun hnot => ?_, fun _ => ⟨_, _, hsplits.carves hbig⟩⟩
      exact absurd ⟨htakes.1, by omega⟩ (hnot b (by simp))

def sampleBlock : Block := ⟨BlockState.unallocated.code, 0, 4032, 65632, 65672, null⟩

/-- A 4096-byte page that was just assigned to the scheduler. -/
def samplePage : Page :=
  ⟨PageState.assigned.code, RequestId.libraryReq.code, 4294967295, null, 64, 65568, 69663, 65632,
    null⟩

def sampleMemory : Memory :=
  { Memory.initial with
    bytes := store (store Memory.initial.bytes 65568 samplePage) 65632 sampleBlock }

theorem sampleMemory_tiled : TiledPage .typical sampleMemory.bytes samplePage [sampleBlock] where
  header := by decide +kernel
  head := rfl
  tiles := ⟨by decide +kernel, rfl, by decide, rfl, rfl⟩
  accounting := rfl
  low := by decide
  high := by decide

theorem allocateBlock_tiled_fresh : AllocatesBlock .typical sampleMemory samplePage [sampleBlock] 100 ↔
    ∀ b, firstTaken 100 [sampleBlock] = some b → (100 : ℤ) + 80 ≤ b.totalSize :=
  allocateBlock_tiled sampleMemory_tiled (by decide)

/-- A request for all the bytes behind the page header is granted without room for a header. -/
theorem allocateBlock_exact : TiledPage .typical sampleMemory.bytes samplePage [sampleBlock] ∧
    ¬ AllocatesBlock .typical sampleMemory samplePage [sampleBlock] 4032 := by
  refine ⟨sampleMemory_tiled, ?_⟩
  rintro ⟨v, m', hsettles, hnone, -⟩
  have hpage : TiledPage .typical sampleMemory.bytes samplePage ([] ++ sampleBlock :: []) :=
    sampleMemory_tiled
  have htakes := (allocateBlock_takes hpage (by decide : sampleBlock.Takes 4032) (by simp)
    (by decide)).1 fun hne => absurd rfl hne
  have hvalue := hsettles.unique htakes
  have hnull := (hnone (by decide)).1
  simp only [Except.ok.injEq, Prod.mk.injEq, hnull] at hvalue
  exact absurd hvalue.1 (by decide)

end Outcome

end VirtualMemorySimulation.MemoryManager

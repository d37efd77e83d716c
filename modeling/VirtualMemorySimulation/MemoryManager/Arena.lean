import VirtualMemorySimulation.MemoryManager.Allocator

/-!
# Arenas and the memories that represent them

An arena is a list of owned pages, each a list of blocks; addresses, links and
the accounting field are derived. `Represents` says that the byte array holds
the headers of an arena: pages back to back from the first page, blocks back to
back inside each page, and one unassigned page for the remaining bytes.
-/

namespace VirtualMemorySimulation.MemoryManager

open ByteRecords Execution

structure ArenaBlock where
  state : BlockState
  dataSize : ℤ
  totalSize : ℤ
  deriving DecidableEq, Repr

structure ArenaPage where
  requestId : RequestId
  tid : ℤ
  blocks : List ArenaBlock
  deriving DecidableEq, Repr

abbrev Arena := List ArenaPage

def extent : List ArenaBlock → ℤ
  | [] => 0
  | b :: bs => b.totalSize + extent bs

def allocatedExtent : List ArenaBlock → ℤ
  | [] => 0
  | b :: bs => (if b.state = .allocated then b.totalSize else 0) + allocatedExtent bs

namespace ArenaBlock

/-- A block covers its header, and an allocated one exactly its header and its data. -/
structure Valid (b : ArenaBlock) : Prop where
  header_le : 40 ≤ b.totalSize
  data : b.state = .allocated → b.dataSize + 40 = b.totalSize
  free : b.state = .unallocated → b.dataSize = 0

@[simps] def header (b : ArenaBlock) (a next : ℤ) : Block :=
  { state := b.state.code, dataSize := b.dataSize, totalSize := b.totalSize
    blockAddress := a, dataAddress := a + 40, next }

end ArenaBlock

namespace ArenaPage

def sizeOfAllocated (p : ArenaPage) : ℤ := 64 + allocatedExtent p.blocks

end ArenaPage

/-- The link to a list of blocks at `a`: `NULL` when there are none. -/
def blockLink (a : ℤ) (bs : List ArenaBlock) : ℤ := if bs = [] then null else a

@[simp] theorem blockLink_nil (a : ℤ) : blockLink a [] = null := rfl

@[simp] theorem blockLink_cons (a : ℤ) (b : ArenaBlock) (bs : List ArenaBlock) :
    blockLink a (b :: bs) = a := rfl

/-- The blocks lie back to back from `a` and are linked in that order. -/
def BlocksAt (m : Store) : ℤ → List ArenaBlock → Prop
  | _, [] => True
  | a, b :: bs =>
      load Block m a = b.header a (blockLink (a + b.totalSize) bs) ∧
        BlocksAt m (a + b.totalSize) bs

variable (P : Platform)

namespace ArenaPage

/-- Sound owners and blocks that tile the page after its header. -/
structure Valid (p : ArenaPage) : Prop where
  tid_uint : 0 ≤ p.tid ∧ p.tid < 4294967296
  tiles : 64 + extent p.blocks = P.sysconfPageSize
  blocks : ∀ b ∈ p.blocks, b.Valid

@[simps] def header (p : ArenaPage) (a next : ℤ) : Page :=
  { state := PageState.assigned.code
    requestId := p.requestId.code
    tid := p.tid
    nextOwnerPage := null
    sizeOfAllocated := p.sizeOfAllocated
    startAddress := a
    endAddress := a + P.sysconfPageSize - 1
    blockListHead := blockLink (a + 64) p.blocks
    next }

end ArenaPage

/-- The page headers lie back to back from `a`; an unassigned page covers the rest. -/
def HeadersAt (m : Store) : ℤ → Arena → Prop
  | a, [] => load Page m a = unassignPageOf a (P.top - 1) null ∧ a + 64 ≤ P.top
  | a, p :: ps =>
      load Page m a = p.header P a (a + P.sysconfPageSize) ∧
        HeadersAt m (a + P.sysconfPageSize) ps

def OwnedBlocksAt (m : Store) : ℤ → Arena → Prop
  | _, [] => True
  | a, p :: ps => BlocksAt m (a + 64) p.blocks ∧ OwnedBlocksAt m (a + P.sysconfPageSize) ps

/-- The page headers with the blocks of every owned page. -/
def PagesAt (m : Store) (a : ℤ) (ps : Arena) : Prop :=
  HeadersAt P m a ps ∧ OwnedBlocksAt P m a ps

/-- The memory is initialised and its page list is that of the arena. -/
structure ListsPages (m : Memory) (A : Arena) : Prop where
  initialized : m.initialized = true
  pageSize : m.metadata.pageSize = P.sysconfPageSize
  pageListHead : m.metadata.pageListHead = P.firstPage
  headers : HeadersAt P m.bytes P.firstPage A
  valid : ∀ p ∈ A, p.Valid P

/-- The memory holds the arena, page list and block lists. -/
structure Represents (m : Memory) (A : Arena) : Prop extends ListsPages P m A where
  ownedBlocks : OwnedBlocksAt P m.bytes P.firstPage A

variable {P}

section Extents

theorem extent_nonneg {bs : List ArenaBlock} (h : ∀ b ∈ bs, b.Valid) : 0 ≤ extent bs := by
  induction bs with
  | nil => exact le_rfl
  | cons b bs ih =>
    have hb := (h b (by simp)).header_le
    have := ih fun c hc => h c (by simp [hc])
    simp only [extent]
    omega

theorem allocatedExtent_nonneg {bs : List ArenaBlock} (h : ∀ b ∈ bs, b.Valid) :
    0 ≤ allocatedExtent bs := by
  induction bs with
  | nil => exact le_rfl
  | cons b bs ih =>
    have hb := (h b (by simp)).header_le
    have := ih fun c hc => h c (by simp [hc])
    simp only [allocatedExtent]
    split_ifs <;> omega

theorem allocatedExtent_le {bs : List ArenaBlock} (h : ∀ b ∈ bs, b.Valid) :
    allocatedExtent bs ≤ extent bs := by
  induction bs with
  | nil => exact le_rfl
  | cons b bs ih =>
    have hb := (h b (by simp)).header_le
    have := ih fun c hc => h c (by simp [hc])
    simp only [allocatedExtent, extent]
    split_ifs <;> omega

theorem allocatedExtent_add_free_le {bs : List ArenaBlock} (h : ∀ b ∈ bs, b.Valid)
    {b : ArenaBlock} (hb : b ∈ bs) (hfree : b.state = .unallocated) :
    allocatedExtent bs + b.totalSize ≤ extent bs := by
  induction bs with
  | nil => simp at hb
  | cons c cs ih =>
    have hc := (h c (by simp)).header_le
    have hcs : ∀ d ∈ cs, d.Valid := fun d hd => h d (by simp [hd])
    simp only [allocatedExtent, extent]
    rcases List.mem_cons.mp hb with rfl | hb
    · have := allocatedExtent_le hcs
      rw [hfree]
      simp only [reduceCtorEq, if_false]
      omega
    · have := ih hcs hb
      split_ifs <;> omega

theorem totalSize_le_extent {bs : List ArenaBlock} (h : ∀ b ∈ bs, b.Valid) {b : ArenaBlock}
    (hb : b ∈ bs) : b.totalSize ≤ extent bs := by
  induction bs with
  | nil => simp at hb
  | cons c cs ih =>
    have hc := (h c (by simp)).header_le
    have hcs : ∀ d ∈ cs, d.Valid := fun d hd => h d (by simp [hd])
    have hext := extent_nonneg hcs
    simp only [extent]
    rcases List.mem_cons.mp hb with rfl | hb
    · omega
    · have := ih hcs hb
      omega

theorem extent_append (bs cs : List ArenaBlock) : extent (bs ++ cs) = extent bs + extent cs := by
  induction bs with
  | nil => simp [extent]
  | cons b bs ih =>
    simp only [List.cons_append, extent, ih]
    ring

theorem allocatedExtent_append (bs cs : List ArenaBlock) :
    allocatedExtent (bs ++ cs) = allocatedExtent bs + allocatedExtent cs := by
  induction bs with
  | nil => simp [allocatedExtent]
  | cons b bs ih =>
    simp only [List.cons_append, allocatedExtent, ih]
    ring

theorem BlocksAt.drop {m : Store} {a : ℤ} {bs cs : List ArenaBlock}
    (h : BlocksAt m a (bs ++ cs)) : BlocksAt m (a + extent bs) cs := by
  induction bs generalizing a with
  | nil => simpa [extent] using h
  | cons b bs ih =>
    rw [extent, ← add_assoc]
    exact ih h.2

end Extents

theorem Represents.pages {m : Memory} {A : Arena} (h : Represents P m A) :
    PagesAt P m.bytes P.firstPage A := ⟨h.headers, h.ownedBlocks⟩

section Frames

/-- A block list only depends on the bytes of its own extent. -/
theorem BlocksAt.congr {m m' : Store} {a : ℤ} {bs : List ArenaBlock}
    (h : BlocksAt m a bs) (hv : ∀ b ∈ bs, b.Valid)
    (hm : ∀ x, a ≤ x → x < a + extent bs → m x = m' x) : BlocksAt m' a bs := by
  induction bs generalizing a with
  | nil => trivial
  | cons b bs ih =>
    have hb := (hv b (by simp)).header_le
    have hbs : ∀ c ∈ bs, c.Valid := fun c hc => hv c (by simp [hc])
    have hext := extent_nonneg hbs
    simp only [extent] at hm
    refine ⟨?_, ih h.2 hbs fun x hx hx' => hm x (by omega) (by omega)⟩
    rw [← h.1]
    apply load_congr
    intro x hx hx'
    rw [recordSize_block] at hx'
    exact (hm x hx (by omega)).symm

theorem pagesAt_cons {m : Store} {a : ℤ} {p : ArenaPage} {ps : Arena} :
    PagesAt P m a (p :: ps) ↔
      load Page m a = p.header P a (a + P.sysconfPageSize) ∧ BlocksAt m (a + 64) p.blocks ∧
        PagesAt P m (a + P.sysconfPageSize) ps := by
  simp only [PagesAt, HeadersAt, OwnedBlocksAt]
  tauto

theorem PagesAt.congr {m m' : Store} {a : ℤ} {ps : Arena} (h : PagesAt P m a ps)
    (hv : ∀ p ∈ ps, p.Valid P) (hm : ∀ x, a ≤ x → m x = m' x) : PagesAt P m' a ps := by
  have hps := P.pageSize_large
  induction ps generalizing a with
  | nil =>
    refine ⟨⟨?_, h.1.2⟩, trivial⟩
    rw [← h.1.1]
    exact load_congr fun x hx _ => (hm x hx).symm
  | cons p ps ih =>
    obtain ⟨hhead, hblocks, hrest⟩ := pagesAt_cons.mp h
    refine pagesAt_cons.mpr
      ⟨?_, ?_, ih hrest (fun q hq => hv q (by simp [hq])) fun x hx => hm x (by omega)⟩
    · rw [← hhead]
      exact load_congr fun x hx _ => (hm x hx).symm
    · exact hblocks.congr (hv p (by simp)).blocks fun x hx _ => hm x (by omega)

def pageEnd (P : Platform) (a : ℤ) (ps : Arena) : ℤ := a + ps.length * P.sysconfPageSize

@[simp] theorem pageEnd_nil (a : ℤ) : pageEnd P a [] = a := by simp [pageEnd]

@[simp] theorem pageEnd_cons (a : ℤ) (p : ArenaPage) (ps : Arena) :
    pageEnd P a (p :: ps) = pageEnd P (a + P.sysconfPageSize) ps := by
  simp only [pageEnd, List.length_cons]
  push_cast
  ring

theorem le_pageEnd (a : ℤ) (ps : Arena) : a ≤ pageEnd P a ps := by
  have := P.pageSize_large
  have : 0 ≤ (ps.length : ℤ) * P.sysconfPageSize := by positivity
  simp only [pageEnd]
  omega

theorem pageEnd_append (a : ℤ) (ps qs : Arena) :
    pageEnd P a (ps ++ qs) = pageEnd P (pageEnd P a ps) qs := by
  simp only [pageEnd, List.length_append]
  push_cast
  ring

theorem PagesAt.drop {m : Store} {a : ℤ} {ps qs : Arena} (h : PagesAt P m a (ps ++ qs)) :
    PagesAt P m (pageEnd P a ps) qs := by
  induction ps generalizing a with
  | nil => simpa using h
  | cons p ps ih =>
    rw [pageEnd_cons]
    exact ih (pagesAt_cons.mp h).2.2

theorem HeadersAt.rest {m : Store} {a : ℤ} {ps : Arena} (h : HeadersAt P m a ps) :
    load Page m (pageEnd P a ps) = unassignPageOf (pageEnd P a ps) (P.top - 1) null ∧
      pageEnd P a ps + 64 ≤ P.top := by
  induction ps generalizing a with
  | nil =>
    rw [pageEnd_nil]
    exact h
  | cons p ps ih =>
    rw [pageEnd_cons]
    exact ih h.2

/-- The addresses and headers that a block list goes through. -/
def blockItems : ℤ → List ArenaBlock → List (ℤ × Block)
  | _, [] => []
  | x, b :: bs => (x, b.header x (blockLink (x + b.totalSize) bs)) :: blockItems (x + b.totalSize) bs

theorem BlocksAt.linked {m : Store} {x : ℤ} {bs : List ArenaBlock} (h : BlocksAt m x bs)
    (hv : ∀ b ∈ bs, b.Valid) (hx : 0 < x) :
    Linked Block.next m (blockLink x bs) (blockItems x bs) := by
  induction bs generalizing x with
  | nil => exact .nil
  | cons b bs ih =>
    have hb := (hv b (by simp)).header_le
    exact .cons hx.ne' h.1 (ih h.2 (fun c hc => hv c (by simp [hc])) (by omega))

theorem blockItems_bounds {x : ℤ} {bs : List ArenaBlock} (hv : ∀ b ∈ bs, b.Valid)
    {blk : ℤ × Block} (h : blk ∈ blockItems x bs) : x ≤ blk.1 ∧ blk.1 + 40 ≤ x + extent bs := by
  induction bs generalizing x with
  | nil => simp [blockItems] at h
  | cons b bs ih =>
    have hb := (hv b (by simp)).header_le
    have hbs : ∀ c ∈ bs, c.Valid := fun c hc => hv c (by simp [hc])
    have hext := extent_nonneg hbs
    rw [extent]
    rcases List.mem_cons.mp h with rfl | h
    · exact ⟨le_rfl, by simp only; omega⟩
    · have := ih hbs h
      omega

theorem HeadersAt.last {m : Store} {a t : ℤ} {ps : Arena} (h : HeadersAt P m a ps)
    (hne : ps ≠ []) (ht : t + P.sysconfPageSize = pageEnd P a ps) :
    a ≤ t ∧ ∃ p ∈ ps, load Page m t = p.header P t (pageEnd P a ps) := by
  have hlarge := P.pageSize_large
  induction ps generalizing a with
  | nil => exact absurd rfl hne
  | cons p ps ih =>
    rw [pageEnd_cons] at ht ⊢
    cases ps with
    | nil =>
      rw [pageEnd_nil] at ht ⊢
      obtain rfl : t = a := by omega
      exact ⟨le_rfl, p, by simp, h.1⟩
    | cons q qs =>
      obtain ⟨hle, r, hr, hload⟩ := ih h.2 (by simp) ht
      exact ⟨by omega, r, by simp [hr], hload⟩

/-- The addresses and headers that the page list goes through. -/
def pageItems (P : Platform) : ℤ → Arena → List (ℤ × Page)
  | a, [] => [(a, unassignPageOf a (P.top - 1) null)]
  | a, p :: ps =>
      (a, p.header P a (a + P.sysconfPageSize)) :: pageItems P (a + P.sysconfPageSize) ps

theorem HeadersAt.linked {m : Store} {a : ℤ} {ps : Arena} (h : HeadersAt P m a ps)
    (ha : 0 < a) : Linked Page.next m a (pageItems P a ps) := by
  have hlarge := P.pageSize_large
  induction ps generalizing a with
  | nil => exact .cons ha.ne' h.1 .nil
  | cons p ps ih => exact .cons ha.ne' h.1 (@ih (a + P.sysconfPageSize) h.2 (by omega))

theorem le_of_mem_pageItems {a : ℤ} {ps : Arena} {pg : ℤ × Page} (h : pg ∈ pageItems P a ps) :
    a ≤ pg.1 := by
  have hlarge := P.pageSize_large
  induction ps generalizing a with
  | nil => rw [List.mem_singleton.mp h]
  | cons p ps ih =>
    rcases List.mem_cons.mp h with rfl | h
    · exact le_rfl
    · have := ih h
      omega

theorem PagesAt.replace {m m' : Store} {a : ℤ} {pre post : Arena} {p q : ArenaPage}
    (h : PagesAt P m a (pre ++ p :: post)) (hv : ∀ r ∈ pre ++ p :: post, r.Valid P)
    (hbytes : ∀ y, y < pageEnd P a pre ∨ pageEnd P a pre + P.sysconfPageSize ≤ y → m' y = m y)
    (hload : load Page m' (pageEnd P a pre) =
      q.header P (pageEnd P a pre) (pageEnd P a pre + P.sysconfPageSize))
    (hblocks : BlocksAt m' (pageEnd P a pre + 64) q.blocks) :
    PagesAt P m' a (pre ++ q :: post) := by
  have hlarge := P.pageSize_large
  induction pre generalizing a with
  | nil =>
    simp only [pageEnd_nil] at hbytes hload hblocks
    refine pagesAt_cons.mpr ⟨hload, hblocks, ?_⟩
    exact (pagesAt_cons.mp h).2.2.congr (fun r hr => hv r (by simp [hr]))
      fun y hy => (hbytes y (by omega)).symm
  | cons r rs ih =>
    rw [List.cons_append] at h
    obtain ⟨hhead, hown, hrest⟩ := pagesAt_cons.mp h
    have hr := hv r (by simp)
    have htiles := hr.tiles
    have hle := le_pageEnd (P := P) (a + P.sysconfPageSize) rs
    rw [pageEnd_cons] at hbytes hload hblocks
    refine pagesAt_cons.mpr ⟨?_, ?_, ih hrest (fun t ht => hv t (by simp at ht ⊢; tauto)) hbytes
      hload hblocks⟩
    · rw [← hhead]
      refine load_congr fun y hy hy' => ?_
      rw [recordSize_page] at hy'
      exact hbytes y (by omega)
    · exact hown.congr hr.blocks fun y hy hy' => (hbytes y (by omega)).symm

end Frames

section Geometry

theorem Platform.firstPage_eq : P.firstPage = P.physicalMemory + 32 := rfl

theorem Platform.top_eq : P.top = P.physicalMemory + 8388608 := rfl

/-- The 32 metadata bytes leave the last page short by exactly 32 bytes: whatever
number of whole pages has been assigned, at least 96 bytes are left over. -/
theorem rest_large (ps : Arena) (h : pageEnd P P.firstPage ps ≤ P.top) :
    pageEnd P P.firstPage ps + (P.sysconfPageSize - 32) ≤ P.top := by
  unfold pageEnd at h ⊢
  obtain ⟨k, hk⟩ := P.pageSize_dvd
  have hps := P.pageSize_large
  rw [P.firstPage_eq, P.top_eq, hk] at h ⊢
  have hlt : (ps.length : ℤ) < k := by
    by_contra hle
    have := mul_le_mul_of_nonneg_left (not_lt.mp hle) (by omega : 0 ≤ P.sysconfPageSize)
    linarith
  have := mul_le_mul_of_nonneg_left (Int.add_one_le_iff.mpr hlt) (by omega : 0 ≤ P.sysconfPageSize)
  linarith

theorem room_of_page {ps : Arena} (h : pageEnd P P.firstPage ps + P.sysconfPageSize ≤ P.top) :
    pageEnd P P.firstPage ps + P.sysconfPageSize + 64 ≤ P.top := by
  have hlarge := P.pageSize_large
  have hend : pageEnd P P.firstPage (ps ++ [⟨.unknown, 0, []⟩]) =
      pageEnd P P.firstPage ps + P.sysconfPageSize := by
    rw [pageEnd_append, pageEnd_cons, pageEnd_nil]
  have hrest := rest_large (P := P) (ps ++ [⟨.unknown, 0, []⟩]) (by rw [hend]; exact h)
  rw [hend] at hrest
  omega

/-- What is left is never exactly one page. -/
theorem rest_ne_page (ps : Arena) : P.top - pageEnd P P.firstPage ps ≠ P.sysconfPageSize := by
  intro h
  obtain ⟨k, hk⟩ := P.pageSize_dvd
  have hps := P.pageSize_large
  have hdvd : P.sysconfPageSize ∣ 32 := by
    refine ⟨k - ps.length - 1, ?_⟩
    unfold pageEnd at h
    rw [P.firstPage_eq, P.top_eq] at h
    linarith
  have := Int.le_of_dvd (by decide) hdvd
  omega

end Geometry

section Headers

theorem blockLink_holds {a : ℤ} (h : 0 ≤ a) (h' : a < 18446744073709551616)
    (bs : List ArenaBlock) : pointerField.Holds (blockLink a bs) := by
  unfold blockLink null
  split_ifs
  · exact pointerField_holds le_rfl (by decide)
  · exact pointerField_holds h h'

theorem ArenaBlock.header_fits {b : ArenaBlock} (hb : b.Valid) {a next : ℤ} (ha : 0 ≤ a)
    (ha' : a + 40 < 18446744073709551616) (ht : b.totalSize < 2147483648)
    (hn : pointerField.Holds next) : Fits (b.header a next) := by
  have hle := hb.header_le
  have hdata : -2147483648 ≤ b.dataSize ∧ b.dataSize < 2147483648 := by
    cases hs : b.state with
    | unallocated => rw [hb.free hs]; decide
    | allocated => have := hb.data hs; omega
  unfold ArenaBlock.header
  exact Block.fits b.state.code_holds (intField_holds hdata.1 hdata.2)
    (intField_holds (by omega) ht) (pointerField_holds ha (by omega))
    (pointerField_holds (by omega) ha') hn

theorem ArenaPage.header_fits {p : ArenaPage} (hp : p.Valid P) {a next : ℤ}
    (ha : P.physicalMemory ≤ a) (ha' : a ≤ P.top) (hn : pointerField.Holds next) :
    Fits (p.header P a next) := by
  have hpos := P.physicalMemory_pos
  have htop := P.physicalMemory_top
  have hle := P.pageSize_le
  have hlarge := P.pageSize_large
  have hext := allocatedExtent_le hp.blocks
  have hext' := allocatedExtent_nonneg hp.blocks
  have htiles := hp.tiles
  rw [P.top_eq] at ha'
  unfold ArenaPage.header ArenaPage.sizeOfAllocated
  exact Page.fits PageState.assigned.code_holds p.requestId.code_holds
    (uintField_holds hp.tid_uint.1 hp.tid_uint.2) null_holds
    (intField_holds (by omega) (by omega)) (pointerField_holds (by omega) (by omega))
    (pointerField_holds (by omega) (by omega)) (blockLink_holds (by omega) (by omega) _) hn

theorem unassignPageOf_fits {a next : ℤ} (ha : P.physicalMemory ≤ a) (ha' : a ≤ P.top)
    (hn : pointerField.Holds next) : Fits (unassignPageOf a (P.top - 1) next) := by
  have hpos := P.physicalMemory_pos
  have htop := P.physicalMemory_top
  have ht := P.top_eq
  unfold unassignPageOf
  exact Page.fits PageState.unassigned.code_holds RequestId.unknown.code_holds
    (uintField_holds (by decide) (by decide)) null_holds
    (intField_holds (by decide) (by decide)) (pointerField_holds (by omega) (by omega))
    (pointerField_holds (by omega) (by omega)) null_holds hn

end Headers

end VirtualMemorySimulation.MemoryManager

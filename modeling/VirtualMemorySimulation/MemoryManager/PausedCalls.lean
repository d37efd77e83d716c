import VirtualMemorySimulation.MemoryManager.Clients
import VirtualMemorySimulation.MemoryManager.PageChoice

/-!
# Calls that a signal stops

`my_allocate` does not block the signal of the scheduler. A call that is stopped after
it has copied a header out of the array goes on with that copy later, on the memory
that the calls of the other threads have left. Here a call is cut at the two copies
after which it writes: of the page that `assign_page` splits, and of the block that
`allocate_block` takes.
-/

namespace VirtualMemorySimulation.MemoryManager

open ByteRecords Execution

section Code

variable (P : Platform)

/-- With what a stopped call goes on. -/
inductive Copy where
  | block (currentPage : Page) (tmpPrev : ℤ) (blk : Block)
  | unassigned (tmpPrev : ℤ) (pg : Page)
  deriving DecidableEq, Repr

/-- The page scan of the allocation paths up to the copy of the block that is taken. -/
def searchCopy (owns full : Page → Bool) (size : ℤ) : ℕ → ℤ → Memory → Except Stop (Option Copy)
  | 0, _, _ => .error .outOfFuel
  | fuel + 1, tmp, m =>
    if tmp = null then .ok none
    else do
      let pg ← loadAt P Page m tmp
      if owns pg ∧ ¬ full pg then do
        let currentPage ← loadAt P Page m pg.startAddress
        let found ← scanBlocks P size fuel currentPage.blockListHead null m
        match found with
        | some (tmpPrev, blk) => .ok (some (.block currentPage tmpPrev blk))
        | none => searchCopy owns full size fuel pg.next m
      else searchCopy owns full size fuel pg.next m

namespace Request

def path (r : Request) : Path := if r.requestId = .libraryReq then .scheduler else .thread r.currTid

/-- `my_allocate` up to the copy after which it writes. -/
def pause (r : Request) (fuel : ℕ) (m : Memory) : Except Stop (Memory × Option Copy) := do
  let m ← (if m.initialized then .ok m else initMemoryMetadata P m : Except Stop Memory)
  if r.requestId = .unknown then .error .exit
  else do
    let found ← searchCopy P r.path.owns (r.path.full m.metadata.pageSize r.size) r.size fuel
      m.metadata.pageListHead m
    match found with
    | some copy => .ok (m, some copy)
    | none => do
      let found ← scanPages P fuel m.metadata.pageListHead P.staleTmpPrev m
      .ok (m, found.map fun f => .unassigned f.1 f.2)

/-- The rest of `my_allocate`, from the copy on. -/
def resume (r : Request) (fuel : ℕ) (m : Memory) : Copy → Except Stop (ℤ × Memory)
  | .block currentPage tmpPrev blk => takeBlock P r.size currentPage tmpPrev blk m
  | .unassigned tmpPrev pg => do
    let m ← splitPage P r.path.requestId r.path.tid tmpPrev pg m
    r.path.allocate P r.size fuel m

end Request

/-- The page header that has been copied is no longer the one in the array. -/
def Copy.Stale (m : Memory) : Copy → Prop
  | .block currentPage _ _ => load Page m.bytes currentPage.startAddress ≠ currentPage
  | .unassigned _ pg => load Page m.bytes pg.startAddress ≠ pg

end Code

section Found

variable {P : Platform} {m : Memory} {r : Request} {A : Arena}

/-- With what a call goes on that takes block `b` of page `p`. -/
def blockCopy (P : Platform) (pre : Arena) (p : ArenaPage) (bpre : List ArenaBlock)
    (b : ArenaBlock) (bpost : List ArenaBlock) : Copy :=
  let a := pageEnd P P.firstPage pre
  .block (p.header P a (a + P.sysconfPageSize)) (lastBlock (a + 64) null bpre)
    (b.header (a + 64 + extent bpre) (blockLink (a + 64 + extent bpre + b.totalSize) bpost))

/-- With what a call goes on that finds no block. -/
def unassignedCopy (P : Platform) (A : Arena) : Copy :=
  .unassigned (lastPage P P.firstPage P.staleTmpPrev A)
    (unassignPageOf (pageEnd P P.firstPage A) (P.top - 1) null)

section Search

variable {owns full : Page → Bool}

theorem searchCopy_searched {size a next : ℤ} {p : ArenaPage} (n : ℕ)
    (hin : P.Inside a (recordSize Page)) (hload : load Page m.bytes a = p.header P a next)
    (hsearch : owns (p.header P a next) = true ∧ ¬ full (p.header P a next) = true) :
    searchCopy P owns full size (n + 1) a m =
      scanBlocks P size n (blockLink (a + 64) p.blocks) null m >>= fun found =>
        match found with
        | some (tmpPrev, blk) => .ok (some (.block (p.header P a next) tmpPrev blk))
        | none => searchCopy P owns full size n next m := by
  have hpos := P.physicalMemory_pos
  have hlow := hin.1
  rw [searchCopy, if_neg (by unfold null; omega), loadAt_ok hin, ok_bind, hload, if_pos hsearch,
    ArenaPage.header_startAddress, loadAt_ok hin, ok_bind, hload]
  rfl

theorem searchCopy_scan (hs : SearchesFor P r owns full) (a : ℤ) (pre post : Arena)
    {found : Except Stop (Option Copy)} (h : PagesAt P m.bytes a (pre ++ post))
    (hvalid : ∀ p ∈ pre ++ post, p.Valid P) (ha : P.physicalMemory ≤ a)
    (hpassed : ∀ p ∈ pre, r.pageFit P p = none)
    (hend : Settles (fun n => searchCopy P owns full r.size n (pageEnd P a pre) m) found) :
    Settles (fun n => searchCopy P owns full r.size n a m) found := by
  have hlarge := P.pageSize_large
  have hpos := P.physicalMemory_pos
  induction pre generalizing a with
  | nil => simpa using hend
  | cons p pre ih =>
    rw [List.cons_append] at h
    obtain ⟨hload, hblocks, hrest⟩ := pagesAt_cons.mp h
    have hle := le_pageEnd (P := P) (a + P.sysconfPageSize) (pre ++ post)
    have hroom := hrest.1.rest.2
    have hp := hvalid p (by simp)
    have hin : P.Inside a (recordSize Page) := inside_page.mpr ⟨ha, by omega⟩
    rw [pageEnd_cons] at hend
    have htail := ih (a + P.sysconfPageSize) hrest (fun q hq => hvalid q (by simp at hq ⊢; tauto))
      (by omega) (fun q hq => hpassed q (by simp [hq])) hend
    have hnone := hpassed p (by simp)
    by_cases hsearch : r.Searches P p
    · rw [Request.pageFit, if_pos hsearch] at hnone
      exact Settles.succ rfl (fun n => searchCopy_searched n hin hload
        ((hs.page p a _ hp).mpr hsearch))
        ((scanBlocks_none hblocks hp ha (by omega) hnone).bind htail)
    · refine Settles.succ rfl (fun n => ?_) htail
      rw [searchCopy, if_neg (by unfold null; omega), loadAt_ok hin, ok_bind, hload,
        if_neg (mt (hs.page p a _ hp).mp hsearch)]
      rfl

end Search

section Pause

theorem Request.path_requestId (hr : r.requestId ≠ .unknown) :
    r.path.requestId = r.requestId := by
  cases hkind : r.requestId with
  | unknown => exact absurd hkind hr
  | _ => simp [Request.path, hkind, Path.requestId]

theorem Request.path_tid (r : Request) : r.path.tid = r.ownerTid := by
  unfold Request.path Request.ownerTid
  split_ifs <;> rfl

theorem Request.path_searchesFor (hr : r.requestId ≠ .unknown)
    (hsize : m.metadata.pageSize = P.sysconfPageSize) :
    SearchesFor P r r.path.owns (r.path.full m.metadata.pageSize r.size) := by
  cases hkind : r.requestId with
  | unknown => exact absurd hkind hr
  | libraryReq =>
    rw [Request.path, if_pos hkind]
    exact searchesFor_scheduler hkind hsize
  | threadReq =>
    rw [Request.path, if_neg (by simp [hkind])]
    exact searchesFor_thread hkind hsize

theorem Request.path_allocate (hr : r.requestId ≠ .unknown) (n : ℕ) :
    r.path.allocate P r.size n m = allocateFrom P r.path.owns
      (r.path.full m.metadata.pageSize r.size) r.requestId r.ownerTid r.size n m := by
  rw [Path.allocate_eq, r.path_tid, Request.path_requestId hr]

theorem Request.path_myAllocate (h : Represents P m A) (hr : r.requestId ≠ .unknown) (n : ℕ) :
    myAllocate P r n m = r.path.allocate P r.size n m := by
  rw [myAllocate, h.initialized, if_pos rfl, ok_bind]
  cases hkind : r.requestId with
  | unknown => exact absurd hkind hr
  | libraryReq =>
    rw [Request.path, if_pos hkind]
    rfl
  | threadReq =>
    rw [Request.path, if_neg (by simp [hkind])]
    rfl

theorem pause_holds (h : Holds P m A) :
    ∃ m', Represents P m' A ∧ ∀ n, r.pause P n m = r.pause P n m' := by
  rcases h with ⟨hfalse, rfl⟩ | hrep
  · obtain ⟨m', hm', hrep⟩ := initMemoryMetadata_represents (P := P) m
    refine ⟨m', hrep, fun n => ?_⟩
    rw [Request.pause, Request.pause, hrep.initialized, hfalse, hm']
    rfl
  · exact ⟨m, hrep, fun n => rfl⟩

theorem pause_eq (h : Represents P m A) (hr : r.requestId ≠ .unknown) (n : ℕ) :
    r.pause P n m = searchCopy P r.path.owns (r.path.full m.metadata.pageSize r.size) r.size n
      P.firstPage m >>= fun found =>
        match found with
        | some copy => .ok (m, some copy)
        | none => scanPages P n P.firstPage P.staleTmpPrev m >>= fun found =>
            .ok (m, found.map fun f => .unassigned f.1 f.2) := by
  rw [Request.pause, h.initialized, if_pos rfl, ok_bind, if_neg hr, h.pageListHead]

/-- A call that finds a block is stopped with that block. -/
theorem pause_taken (h : Represents P m A) (hr : r.requestId ≠ .unknown) {pre post : Arena}
    {p : ArenaPage} {bpre bpost : List ArenaBlock} {b : ArenaBlock}
    (ht : TakenAt P r A pre p post bpre b bpost) :
    Settles (fun n => r.pause P n m) (.ok (m, some (blockCopy P pre p bpre b bpost))) := by
  have hlarge := P.pageSize_large
  have hfirst := P.firstPage_eq
  have hs := Request.path_searchesFor (P := P) hr h.pageSize
  obtain rfl := ht.split
  obtain ⟨hlow, hroom⟩ := h.page_room
  obtain ⟨hload, hblocks, -⟩ := pagesAt_cons.mp h.pages.drop
  have hp := h.valid p (by simp)
  have hin : P.Inside (pageEnd P P.firstPage pre) (recordSize Page) :=
    inside_page.mpr ⟨by omega, by omega⟩
  have hfound : Settles (fun n => searchCopy P r.path.owns (r.path.full m.metadata.pageSize r.size)
      r.size n P.firstPage m) (.ok (some (blockCopy P pre p bpre b bpost))) := by
    refine searchCopy_scan hs P.firstPage pre (p :: post) h.pages h.valid (by omega) ht.passed ?_
    refine Settles.succ rfl (fun n => searchCopy_searched n hin hload
      ((hs.page p _ _ hp).mpr ht.searches)) ((scanBlocks_found hblocks hp (by omega) (by omega)
        ht.fit).bind (Settles.const _))
  exact (hfound.bind (Settles.const _)).congr (pause_eq h hr)

/-- A call that finds none is stopped with the unassigned page. -/
theorem pause_unassigned (h : Represents P m A) (hr : r.requestId ≠ .unknown)
    (hnone : r.arenaFit P A = none) :
    Settles (fun n => r.pause P n m) (.ok (m, some (unassignedCopy P A))) := by
  have hpos := P.physicalMemory_pos
  have hfirst := P.firstPage_eq
  have hle := le_pageEnd (P := P) P.firstPage A
  have hrest := h.headers.rest
  have hs := Request.path_searchesFor (P := P) hr h.pageSize
  have hin : P.Inside (pageEnd P P.firstPage A) (recordSize Page) :=
    inside_page.mpr ⟨by omega, hrest.2⟩
  have hfound : Settles (fun n => searchCopy P r.path.owns (r.path.full m.metadata.pageSize r.size)
      r.size n P.firstPage m) (.ok none) := by
    refine searchCopy_scan hs P.firstPage A [] (by simpa using h.pages) (by simpa using h.valid)
      (by omega) (List.findSome?_eq_none_iff.mp hnone) ?_
    have hnull : Settles (fun n => searchCopy P r.path.owns
        (r.path.full m.metadata.pageSize r.size) r.size n null m) (.ok none) :=
      Settles.succ rfl (fun n => by rw [searchCopy, if_pos rfl]) (Settles.const _)
    refine Settles.succ rfl (fun n => ?_) hnull
    rw [searchCopy, if_neg (by unfold null; omega), loadAt_ok hin, ok_bind, hrest.1,
      if_neg fun hsearch => hs.unassigned _ hsearch.1]
    rfl
  refine (hfound.bind ?_).congr (pause_eq h hr)
  exact (scanPages_unassigned _ h.headers (by omega)).bind (Settles.const _)

/-- Where a call can be stopped in a memory that holds an arena. -/
theorem pause_cases (h : Represents P m A) {n : ℕ} {m₁ : Memory} {copy : Copy}
    (hpause : r.pause P n m = .ok (m₁, some copy)) : r.requestId ≠ .unknown ∧ m₁ = m ∧
      ((∃ pre p post bpre b bpost, TakenAt P r A pre p post bpre b bpost ∧
          copy = blockCopy P pre p bpre b bpost) ∨
        r.arenaFit P A = none ∧ copy = unassignedCopy P A) := by
  have hr : r.requestId ≠ .unknown := by
    intro hkind
    rw [Request.pause, h.initialized, if_pos rfl, ok_bind, if_pos hkind] at hpause
    cases hpause
  cases hfit : r.arenaFit P A with
  | some b =>
    obtain ⟨pre, p, post, bpre, bpost, ht⟩ := arenaFit_some.mp hfit
    have hsame := (pause_taken h hr ht).eq_of_ok hpause
    obtain ⟨rfl, hcopy⟩ := Prod.mk.inj (Except.ok.inj hsame)
    exact ⟨hr, rfl, Or.inl ⟨_, _, _, _, _, _, ht, (Option.some.inj hcopy).symm⟩⟩
  | none =>
    have hsame := (pause_unassigned h hr hfit).eq_of_ok hpause
    obtain ⟨rfl, hcopy⟩ := Prod.mk.inj (Except.ok.inj hsame)
    exact ⟨hr, rfl, Or.inr ⟨rfl, (Option.some.inj hcopy).symm⟩⟩

end Pause

section Resume

variable {m' : Memory} {v : ℤ} {k : ℕ}

/-- A call that goes on with a block that it would still find ends as one made now. -/
theorem resume_block (h : Represents P m A) (hr : r.requestId ≠ .unknown) {pre post : Arena}
    {p : ArenaPage} {bpre bpost : List ArenaBlock} {b : ArenaBlock}
    (ht : TakenAt P r A pre p post bpre b bpost)
    (hok : r.resume P k m (blockCopy P pre p bpre b bpost) = .ok (v, m')) :
    Settles (fun n => myAllocate P r n m) (.ok (v, m')) := by
  have hlarge := P.pageSize_large
  have hfirst := P.firstPage_eq
  have hs := Request.path_searchesFor (P := P) hr h.pageSize
  have hv : v = dataAddress P pre bpre := (takeBlock_ok hok).1
  have hne : v ≠ null := by
    rw [hv]
    exact (ht.dataAddress_pos h).ne'
  obtain rfl := ht.split
  obtain ⟨hlow, hroom⟩ := h.page_room
  obtain ⟨hload, hblocks, -⟩ := pagesAt_cons.mp h.pages.drop
  have hp := h.valid p (by simp)
  have hin : P.Inside (pageEnd P P.firstPage pre) (recordSize Page) :=
    inside_page.mpr ⟨by omega, by omega⟩
  have hblock : Settles (fun n => allocateBlock P r.size (pageEnd P P.firstPage pre) n m)
      (.ok (v, m')) := by
    refine ((scanBlocks_found hblocks hp (by omega) (by omega) ht.fit).bind ?_).congr
      (allocateBlock_eq hload hin)
    rw [← hok]
    exact Settles.const _
  have hsearch : Settles (fun n => searchPages P r.path.owns
      (r.path.full m.metadata.pageSize r.size) r.size n P.firstPage m) (.ok (v, m')) := by
    refine searchPages_scan hs P.firstPage pre (p :: post) h.pages h.valid (by omega) ht.passed ?_
    refine Settles.succ rfl (fun n => searchPages_searched n hin hload
      ((hs.page p _ _ hp).mpr ht.searches)) (hblock.bind ?_)
    exact (Settles.const _).congr fun n => if_pos hne
  have hallocate : Settles (fun n => allocateFrom P r.path.owns
      (r.path.full m.metadata.pageSize r.size) r.requestId r.ownerTid r.size n m)
      (.ok (v, m')) := by
    refine Settles.succ rfl (allocateFrom_succ h.pageListHead) (hsearch.bind ?_)
    exact (Settles.const _).congr fun n => if_pos hne
  exact hallocate.congr fun n => (Request.path_myAllocate h hr n).trans (Request.path_allocate hr n)

/-- A call that goes on with the unassigned page, and would still find no block, ends as one
made now. -/
theorem resume_unassigned (h : Represents P m A) (hr : r.requestId ≠ .unknown)
    (hnone : r.arenaFit P A = none)
    (hok : r.resume P k m (unassignedCopy P A) = .ok (v, m')) :
    Settles (fun n => myAllocate P r n m) (.ok (v, m')) := by
  obtain ⟨m₁, hsplit, hok⟩ := bind_eq_ok.mp hok
  have hs := Request.path_searchesFor (P := P) hr h.pageSize
  have hsearch : Settles (r.path.search P r.size m) (.ok (null, m)) := by
    have hscan := searchPages_none hs h hnone
    rwa [← h.pageListHead] at hscan
  have hassign := h.toListsPages.assignPage_splits r.path.requestId r.path.tid
  rw [hsplit] at hassign
  rw [Path.allocate_eq] at hok
  have hrest := Path.allocate_settles.mpr (Path.Scans.first.found rfl hok)
  have hscans : r.path.Scans P r.size m m₁ := Path.Scans.first.again hsearch hassign
  refine (hscans.allocate (hrest.congr fun n => ?_)).congr (Request.path_myAllocate h hr)
  rw [Path.allocate_eq, splitPage_metadata hsplit]

theorem splitPage_room {requestId : RequestId} {tid tmpPrev : ℤ} {A : Arena}
    (hps : m.metadata.pageSize = P.sysconfPageSize)
    (h : splitPage P requestId tid tmpPrev
      (unassignPageOf (pageEnd P P.firstPage A) (P.top - 1) null) m = .ok m') :
    pageEnd P P.firstPage A + P.sysconfPageSize + 64 ≤ P.top := by
  have hstore : ∀ {m₀ m₁ : Memory} {pg : Page}, storeAt P m₀
      (pageEnd P P.firstPage A + P.sysconfPageSize) pg = .ok m₁ →
        pageEnd P P.firstPage A + P.sysconfPageSize + 64 ≤ P.top := by
    intro m₀ m₁ pg hok
    by_contra hroom
    rw [storeAt_error fun hin => hroom (inside_page.mp hin).2] at hok
    cases hok
  have hne := rest_ne_page (P := P) A
  unfold splitPage at h
  simp only [unassignPageOf_startAddress, unassignPageOf_endAddress, hps] at h
  rw [if_neg (by omega)] at h
  obtain ⟨m₁, hblock, h⟩ := bind_eq_ok.mp h
  rw [storeAt_metadata hblock, hps] at h
  split_ifs at h with hnull
  · obtain ⟨m₂, -, h⟩ := bind_eq_ok.mp h
    exact hstore h
  · obtain ⟨prevPg, -, h⟩ := bind_eq_ok.mp h
    obtain ⟨m₂, -, h⟩ := bind_eq_ok.mp h
    obtain ⟨m₃, -, h⟩ := bind_eq_ok.mp h
    exact hstore h

end Resume

end Found

end VirtualMemorySimulation.MemoryManager

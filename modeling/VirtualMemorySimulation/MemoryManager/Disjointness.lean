import VirtualMemorySimulation.MemoryManager.ArenaAllocator

/-!
# Disjointness of the returned ranges

Over a run of `my_allocate` calls, the returned ranges are the data of the
allocated blocks of the arena, in another order. They are then apart from each
other and from every header, provided each call takes a block with room for its
two headers: the fit test of `allocate_block` does not ask for that room.
-/

namespace VirtualMemorySimulation.MemoryManager

open ByteRecords Execution

variable {P : Platform}

section Runs

/-- The block list of a page: each address with the header stored there. -/
def BlockList (m : Memory) (pg : Page) (blocks : List (ℤ × Block)) : Prop :=
  Linked Block.next m.bytes pg.blockListHead blocks

/-- The returned ranges are apart from each other and from every header. -/
structure AllocationsApart (P : Platform) (m : Memory) (items : List (ℤ × Page))
    (calls : List (Request × ℤ)) : Prop where
  list : PageList m items
  inside : ∀ c ∈ calls, P.Inside c.2 c.1.size
  owned : ∀ c ∈ calls, ∃ pg ∈ items, pg.2.requestId = c.1.requestId.code ∧
    pg.2.tid = c.1.ownerTid ∧ pg.2.startAddress ≤ c.2 ∧ c.2 + c.1.size ≤ pg.2.endAddress + 1
  apart : calls.Pairwise fun c d => Apart c.2 c.1.size d.2 d.1.size
  pageHeaders : ∀ pg ∈ items, ∀ c ∈ calls, Apart pg.1 (recordSize Page) c.2 c.1.size
  blockHeaders : ∀ pg ∈ items, ∃ blocks, BlockList m pg.2 blocks ∧
    ∀ blk ∈ blocks, ∀ c ∈ calls, Apart blk.1 (recordSize Block) c.2 c.1.size
  metadata : ∀ c ∈ calls,
    Apart P.physicalMemory (recordSize MemoryMetadata) c.2 c.1.size

variable {m : Memory} {A : Arena} {calls : List (Request × ℤ)}

theorem Accounts.apart (h : Accounts P A calls) (hm : Represents P m A) :
    AllocationsApart P m (pageItems P P.firstPage A) calls := by
  have hpos := P.physicalMemory_pos
  have hfirst := P.firstPage_eq
  have hrest := hm.headers.rest.2
  have hmem : ∀ c ∈ calls, c.1.allocation c.2 ∈ allocations P P.firstPage A := fun c hc =>
    h.perm.mem_iff.mp (List.mem_map_of_mem hc)
  have hlow : ∀ c ∈ calls, P.firstPage + 104 ≤ c.2 ∧ c.2 + c.1.size ≤ pageEnd P P.firstPage A :=
    fun c hc => allocations_low hm.valid (hmem c hc)
  refine ⟨hm.inside.list, fun c hc => ?_, fun c hc => ?_, ?_, fun pg hpg c hc => ?_,
    fun pg hpg => ?_, fun c hc => ?_⟩
  · have := hlow c hc
    exact ⟨by omega, by omega⟩
  · obtain ⟨p, hp, b, _, _, hitem, hcb⟩ := allocations_bounds hm.valid (hmem c hc)
    have htiles := (hm.valid p hp).tiles
    obtain ⟨hkind, htid, hstart, hend⟩ := blockAllocations_bounds (hm.valid p hp).blocks hcb
    simp only [Request.allocation] at hkind htid hstart hend
    exact ⟨_, hitem, by simp [hkind], by simp [htid], by simp; omega, by simp; omega⟩
  · have hpair := (h.perm.pairwise_iff fun {c d} (hcd : Apart c.address c.size d.address d.size) =>
      hcd.symm).mpr (allocations_pairwise hm.valid)
    exact List.pairwise_map.mp hpair
  · exact allocations_apart_pages hm.valid hpg (hmem c hc)
  · obtain ⟨blocks, hlist, hapart⟩ :=
      allocations_apart_blocks hm.pages hm.valid (by omega) hpg
    exact ⟨blocks, hlist, fun blk hblk c hc => (hapart blk hblk).2 _ (hmem c hc)⟩
  · exact Or.inl (by have := (hlow c hc).1; simp; omega)

theorem Accounts.step (hacc : Accounts P A calls) (h : Holds P m A)
    (hstale : P.staleTmpPrev = null) (hnext : P.staleBlockNext = null) {call : Request × ℤ}
    {m' : Memory} (hclears : Clears P m call) (hstep : Allocates P m call m') :
    ∃ A', Represents P m' A' ∧ Accounts P A' (calls ++ [call]) := by
  obtain ⟨r, v⟩ := call
  obtain ⟨hsize, n, hret⟩ := hstep
  have hnonneg : 0 ≤ r.size := hsize
  obtain ⟨m₀, A₀, pre, p, post, bpre, b, bpost, hrep, hA₀, htaken, ht, rfl, rfl⟩ :=
    myAllocate_returns h hstale hnext hnonneg hret
  have hroom := hclears A h b htaken
  exact ⟨_, ht.represents hrep hnonneg hroom,
    (hacc.taken (myAllocate_known hret) hA₀ ht).2.2⟩

/-- A run of such calls keeps an arena that accounts for all of them. -/
theorem accounts_of_run (hstale : P.staleTmpPrev = null) (hnext : P.staleBlockNext = null)
    (hrun : Run (Guarded (Clears P) (Allocates P)) Memory.initial calls m) :
    (m = Memory.initial ∧ calls = []) ∨ ∃ A, Represents P m A ∧ Accounts P A calls := by
  refine hrun.invariant (I := fun calls m =>
    (m = Memory.initial ∧ calls = []) ∨ ∃ A, Represents P m A ∧ Accounts P A calls)
    (Or.inl ⟨rfl, rfl⟩) fun done s call s' hI hstep => Or.inr ?_
  rcases hI with ⟨rfl, rfl⟩ | ⟨A, hrep, hacc⟩
  · have hnil : Accounts P [] [] := ⟨.nil, by simp⟩
    exact hnil.step (Or.inl ⟨rfl, rfl⟩) hstale hnext hstep.1 hstep.2
  · exact hacc.step (Or.inr hrep) hstale hnext hstep.1 hstep.2

/-- In every run whose calls take blocks with room for two headers, the returned ranges
are apart from each other and from every header. -/
theorem allocations_apart (hstale : P.staleTmpPrev = null) (hnext : P.staleBlockNext = null)
    (hrun : Run (Guarded (Clears P) (Allocates P)) Memory.initial calls m) :
    ∃ items, AllocationsApart P m items calls := by
  rcases accounts_of_run hstale hnext hrun with ⟨rfl, rfl⟩ | ⟨A, hrep, hacc⟩
  · exact ⟨[], .nil, by simp, by simp, .nil, by simp, by simp, by simp⟩
  · exact ⟨_, hacc.apart hrep⟩

def smallRequest : Request := ⟨.libraryReq, 0, 100, currTid_zero, by decide⟩

theorem currTid_one : 0 ≤ (1 : ℤ) ∧ (1 : ℤ) < 4294967296 := by decide

def nodeRequest : Request := ⟨.threadReq, 1, 24, currTid_one, by decide⟩

theorem currTid_two : 0 ≤ (2 : ℤ) ∧ (2 : ℤ) < 4294967296 := by decide

/-- A request of thread 2 that leaves little of a page. -/
def bufferRequest : Request := ⟨.threadReq, 2, 3000, currTid_two, by decide⟩

/-- The scheduler and two threads take turns; thread 2 fills a page and gets another one. -/
def turns : List (Request × ℤ) :=
  [(smallRequest, 65672), (nodeRequest, 69768), (bufferRequest, 73864), (smallRequest, 65812),
    (bufferRequest, 77960), (nodeRequest, 69832)]

theorem turns_serve : (runAll (serveCall .typical) turns []).map List.length = .ok 4 := by
  decide +kernel

theorem allocations_apart_turns : ∃ m items,
    Run (Guarded (Clears .typical) (Allocates .typical)) Memory.initial turns m ∧
      AllocationsApart .typical m items turns := by
  obtain ⟨A, hA, -⟩ := map_eq_ok.mp turns_serve
  obtain ⟨m, hrun, -⟩ := run_of_serves (P := .typical) rfl rfl hA
  obtain ⟨items, hapart⟩ := allocations_apart rfl rfl hrun
  exact ⟨m, items, hrun, hapart⟩

/-- The first scheduler request of the bytes that a 4096-byte page has after its header. -/
def exactFit : Request := ⟨.libraryReq, 0, 4032, currTid_zero, by decide⟩

/-- The whole free block counts as the data: the returned range runs into the next page's
header. -/
theorem exactFit_overlaps : ∃ m, Run (Allocates .typical) Memory.initial [(exactFit, 65672)] m ∧
    ¬ ∃ items, AllocationsApart .typical m items [(exactFit, 65672)] := by
  have hcall : (myAllocate .typical exactFit 4 Memory.initial).toOption.map
      (fun res => (res.1, res.2.metadata.pageListHead, (load Page res.2.bytes 65568).next)) =
      some (65672, 65568, 69664) := by
    decide +kernel
  cases hres : myAllocate .typical exactFit 4 Memory.initial with
  | error e => simp [hres, Except.toOption] at hcall
  | ok res =>
    obtain ⟨v, m⟩ := res
    simp only [hres, Except.toOption, Option.map_some, Option.some.injEq, Prod.mk.injEq] at hcall
    obtain ⟨rfl, hhead, hlink⟩ := hcall
    refine ⟨m, .single ⟨by decide, 4, hres⟩, ?_⟩
    rintro ⟨items, h⟩
    have hlist := h.list
    rw [PageList, hhead] at hlist
    obtain ⟨rest, rfl, hrest⟩ := hlist.exists_cons (by decide)
    rw [hlink] at hrest
    obtain ⟨rest', rfl, _⟩ := hrest.exists_cons (by decide)
    have hover := h.pageHeaders (69664, load Page m.bytes 69664) (by simp) (exactFit, 65672) (by simp)
    exact absurd hover (by simp [Apart, exactFit])

end Runs

end VirtualMemorySimulation.MemoryManager

import VirtualMemorySimulation.Storage.ControlBlocks

/-!
# What the process gets from its pages

The results on the whole: control blocks are ranges apart, what a thread gets from
`malloc` lies on pages that carry its tid, and pages too small for a stack leave the
process with its main thread alone.
-/

namespace VirtualMemorySimulation.Storage

open Execution LinkedQueue MemoryManager Scheduler SeparateBlocks

section Statement

variable {σ : Type}

def Process.ranges (x : Process σ Service) (use : Use) : List SeparateBlocks.Block :=
  ((x.uses.zip x.service.served).filter fun c => c.1 = use).map fun c => ⟨c.2.2, c.2.1.size⟩

/-- The header of a page for this use. -/
def Use.Marks (pg : Page) : Use → Prop
  | .library _ => pg.requestId = RequestId.libraryReq.code
  | .thread tid => pg.requestId = RequestId.threadReq.code ∧ pg.tid = tid

end Statement

section Served

variable {P : Platform} {sv : Service} {l : MemoryManager.Ledger} {c : MemoryManager.Request × ℤ}

/-- What is served lies in a page behind two headers. -/
theorem served_size_le (h : Tracks P sv l) (hc : c ∈ sv.served) :
    c.1.size + 104 ≤ P.sysconfPageSize := by
  rcases h.represents with ⟨hnil, -⟩ | hrep
  · rw [hnil] at hc
    exact absurd hc List.not_mem_nil
  · obtain ⟨p, hp, b, -, -, -, hcb⟩ := allocations_bounds hrep.valid (h.allocation_mem hc)
    have htiles := (hrep.valid p hp).tiles
    obtain ⟨-, -, hlow, hhigh⟩ := blockAllocations_bounds (hrep.valid p hp).blocks hcb
    simp only [Request.allocation] at hlow hhigh
    omega

theorem served_size_nonneg {actions : List (Action MemoryManager.Call UInt8)}
    (h : Run (manager P).Step .initial actions sv) : ∀ c ∈ sv.served, 0 ≤ c.1.size := by
  refine h.invariant (I := fun _ sv => ∀ c ∈ sv.served, 0 ≤ c.1.size)
    (fun c hc => absurd hc List.not_mem_nil) ?_
  rintro _ sv _ _ hsv (⟨_, hallocates⟩ | _) c hc
  · rcases List.mem_append.mp hc with hc | hc
    · exact hsv c hc
    · obtain rfl := List.mem_singleton.mp hc
      exact hallocates.1
  · exact hsv c hc
  · exact hsv c hc

theorem length_served_lt (h : Tracks P sv l) (hsize : ∀ c ∈ sv.served, 0 ≤ c.1.size) :
    sv.served.length < 4294967296 := by
  obtain ⟨hvalid, hpages⟩ := h.holds.pages_le
  have hlarge := P.pageSize_large
  have hcount : sv.served.length =
      (allocations P P.firstPage l.arena).countP fun c => (0 : ℤ) ≤ c.size := by
    rw [← h.accounts.perm.countP_eq, List.countP_map, ← h.served, eq_comm]
    exact List.countP_eq_length.mpr fun c hc => decide_eq_true (hsize c hc)
  have hle := countP_allocations_le (P := P) (a := P.firstPage) (n := 0) hvalid le_rfl
  have hblocks : (P.sysconfPageSize - 64) / (0 + 40) ≤ P.sysconfPageSize :=
    Int.ediv_le_of_le_mul (by omega) (by omega)
  have htotal : (l.arena.length : ℤ) * ((P.sysconfPageSize - 64) / (0 + 40)) ≤
      l.arena.length * P.sysconfPageSize := mul_le_mul_of_nonneg_left hblocks (by positivity)
  unfold physicalSize at hpages
  omega

end Served

section Ledgers

variable {P : Platform} {B : Layout} {storage : TcbPtr → Tcb} {ds : List Deed}

/-- A process with the ledger in the place of the memory. -/
abbrev LedgerProcess := Process TcbLinks MemoryManager.Ledger

def LedgerStep (P : Platform) (B : Layout) : LedgerProcess → Deed → LedgerProcess → Prop :=
  Step B fun l action l' => l.exec P action = .ok l'

theorem exec_ledger (P : Platform) (B : Layout) (fuel : ℕ) (x : LedgerProcess) (d : Deed)
    (y : LedgerProcess) (h : exec B fuel (fun action l => l.exec P action) d x = .ok y) :
    LedgerStep P B x d y := exec_step x d y h

/-- The same process but for the memory, which the ledger tracks. -/
structure Mirrors (P : Platform) (y : LedgerProcess) (x : Process TcbLinks Service) :
    Prop where
  library : y.library = x.library
  uses : y.uses = x.uses
  tracks : Tracks P x.service y.service

theorem Mirrors.initial (P : Platform) (storage : TcbPtr → Tcb) :
    Mirrors P (.initial noLinks storage .initial) (.initial noLinks storage .initial) :=
  ⟨rfl, rfl, .initial⟩

theorem Mirrors.step {y y' : LedgerProcess} {x : Process TcbLinks Service} {d : Deed}
    (h : Mirrors P y x) (hstale : P.staleTmpPrev = null) (hnext : P.staleBlockNext = null)
    (hs : LedgerStep P B y d y') :
    ∃ x', Step B (manager P).Step x d x' ∧ Mirrors P y' x' := by
  obtain ⟨fuel, actions, hactions, hrun, hserved, huses⟩ := hs
  obtain ⟨sv', hserved', htracks⟩ := hserved.simulation (R := fun l sv => Tracks P sv l)
    (fun l action l' sv h (hexec : l.exec P action = .ok l') => h.follow hstale hnext hexec)
    h.tracks
  rw [h.library] at hactions hrun huses
  rw [h.uses] at huses
  exact ⟨⟨y'.library, sv', y'.uses⟩, ⟨fuel, actions, hactions, hrun, hserved', huses⟩,
    rfl, rfl, htracks⟩

/-- What a process does with the ledger it does with the memory manager. -/
theorem run_of_ledgers {y : LedgerProcess} (hstale : P.staleTmpPrev = null)
    (hnext : P.staleBlockNext = null)
    (h : Run (LedgerStep P B) (.initial noLinks storage .initial) ds y) :
    ∃ x, Run (Step B (manager P).Step) (.initial noLinks storage .initial) ds x ∧ Mirrors P y x :=
  h.simulation (fun _ _ _ _ hmirrors hs => hmirrors.step hstale hnext hs) (.initial P storage)

def largePages : Platform :=
  { Platform.typical with
    sysconfPageSize := 65536
    pageSize_large := by decide
    pageSize_dvd := ⟨128, by decide⟩ }

/-- A control block with a `ucontext_t` of 968 bytes. -/
def usualLayout : Layout := ⟨1056, 8192, by decide, by decide, by decide, by decide⟩

/-- Main creates a thread and calls `malloc`, as the thread does when its turn comes. -/
def twoThreads : List Deed :=
  [.event (.event (.call (.create true true ⟨1, 0⟩))), .malloc 100,
    .event (.event (.tick ⟨1, 0⟩ ⟨1, 0⟩)), .event (.event .next), .malloc 24,
    .write 11 0 7, .free 0]

def usedByTwoThreads : List (Use × ℤ) :=
  [(.library .scheduler, 65672), (.library .levels, 65752), (.library .timeSlices, 65864),
    (.library .controlBlock, 65916), (.library .returnValue, 67012),
    (.library .controlBlock, 67060), (.library .returnValue, 68156), (.library .stack, 68204),
    (.library .signalStack, 76436), (.thread 0, 131208), (.library .tmpReturn, 84668),
    (.thread 1, 196744)]

theorem twoThreads_run : ∃ x : Process TcbLinks Service,
    Run (Step usualLayout (manager largePages).Step)
        (.initial noLinks (fun _ => zeroedTcb) .initial) twoThreads x ∧
      x.library.frontier = 2 ∧
        x.uses.zip (x.service.served.map Prod.snd) = usedByTwoThreads := by
  obtain ⟨y, hy, hends⟩ := Run.of_runAll (exec_ledger largePages usualLayout 5) twoThreads
    (.initial noLinks (fun _ => zeroedTcb) .initial)
    (fun y => (y.library.frontier, y.uses.zip (y.service.served.map Prod.snd)))
    (b := (2, usedByTwoThreads)) (by decide +kernel)
  obtain ⟨x, hx, hmirrors⟩ := run_of_ledgers rfl rfl hy
  obtain ⟨hfrontier, hzip⟩ := Prod.mk.inj hends
  rw [hmirrors.library] at hfrontier
  rw [hmirrors.uses, ← hmirrors.tracks.served] at hzip
  exact ⟨x, hx, hfrontier, hzip⟩

end Ledgers

section Runs

variable {P : Platform} {B : Layout} {x : Process TcbLinks Service} {t : State TcbLists}
  {storage : TcbPtr → Tcb} {ds : List Deed}

theorem Sound.tracks (h : Sound P B x t) (hstale : P.staleTmpPrev = null)
    (hnext : P.staleBlockNext = null) : ∃ l, Tracks P x.service l := by
  obtain ⟨actions, hrun⟩ := h.reached
  obtain ⟨l, -, htracks⟩ := tracks_of_run hstale hnext hrun
  exact ⟨l, htracks⟩

theorem Sound.of_zip (h : Sound P B x t) {use : Use} {c : MemoryManager.Request × ℤ}
    (hc : (use, c) ∈ x.uses.zip x.service.served) : use.Of B c.1 := by
  have hzip := List.forall₂_iff_zip.mp h.listed
  refine hzip.2 ?_
  rw [List.zip_map_right]
  exact List.mem_map.mpr ⟨_, hc, rfl⟩

theorem Sound.length_ranges (h : Sound P B x t) (use : Use) :
    (x.ranges use).length = x.uses.count use := by
  have hlength : x.uses.length = x.service.served.length := by
    simpa using h.listed.length_eq
  unfold Process.ranges
  rw [List.length_map, ← List.countP_eq_length_filter, List.count_eq_countP]
  conv_rhs => rw [← List.map_fst_zip hlength.le, List.countP_map]
  exact List.countP_congr fun c _ => by simp

/-- In every run each control block that the library numbers has a range of its own, and so has the
stack of each thread; all ranges are apart from each other and from every header. -/
theorem control_blocks_stored (hstale : P.staleTmpPrev = null) (hnext : P.staleBlockNext = null)
    (h : Run (Step B (manager P).Step) (.initial noLinks storage .initial) ds x) :
    ((x.ranges (.library .controlBlock)).length = x.library.frontier ∧
        ∀ b ∈ x.ranges (.library .controlBlock), b.size = B.tcbSize) ∧
      ((x.ranges (.library .stack)).length = x.library.handles.length ∧
        ∀ b ∈ x.ranges (.library .stack), b.size = 8192) ∧
      (∀ p ∈ x.library.threads, p < x.library.frontier) ∧
      ∃ items, AllocationsApart P x.service.memory items x.service.served := by
  obtain ⟨t, ht⟩ := run_sound h
  obtain ⟨l, htracks⟩ := ht.tracks hstale hnext
  obtain ⟨L, -, hlibrary⟩ := ht.refines
  have hsize : ∀ item, ∀ b ∈ x.ranges (.library item), b.size = item.size B := by
    intro item b hb
    obtain ⟨⟨use, c⟩, hc, rfl⟩ := List.mem_map.mp hb
    obtain ⟨hmem, huse⟩ := List.mem_filter.mp hc
    obtain rfl : use = .library item := of_decide_eq_true huse
    have hrequest : c.1 = item.request B := ht.of_zip hmem
    exact congrArg Request.size hrequest
  refine ⟨⟨?_, hsize .controlBlock⟩, ⟨?_, hsize .stack⟩, ?_, htracks.apart⟩
  · rw [ht.length_ranges, ht.blocks, hlibrary]
    rfl
  · rw [ht.length_ranges, ht.handles, hlibrary]
    rfl
  · rw [hlibrary]
    exact ht.regular.placed.allocated

/-- Main and the thread that it has created. -/
theorem control_blocks_stored_twoThreads : ∃ x : Process TcbLinks Service,
    Run (Step usualLayout (manager largePages).Step)
        (.initial noLinks (fun _ => zeroedTcb) .initial) twoThreads x ∧
      (x.ranges (.library .controlBlock)).length = 2 := by
  obtain ⟨x, hx, hfrontier, -⟩ := twoThreads_run
  obtain ⟨⟨hlength, -⟩, -⟩ := control_blocks_stored rfl rfl hx
  exact ⟨x, hx, hlength.trans hfrontier⟩

/-- What a thread gets from `malloc` lies in a page that carries its tid, what the library
allocates in pages of the library, and no two threads have the same tid. -/
theorem ranges_on_own_pages (hstale : P.staleTmpPrev = null) (hnext : P.staleBlockNext = null)
    (h : Run (Step B (manager P).Step) (.initial noLinks storage .initial) ds x) :
    (∃ items, PageList x.service.memory items ∧
      ∀ use c, (use, c) ∈ x.uses.zip x.service.served → ∃ pg ∈ items, use.Marks pg.2 ∧
        pg.2.startAddress ≤ c.2 ∧ c.2 + c.1.size ≤ pg.2.endAddress + 1) ∧
    ∀ p ∈ x.library.threads, ∀ r ∈ x.library.threads,
      (x.library.tcbs p).tid = (x.library.tcbs r).tid → p = r := by
  obtain ⟨t, ht⟩ := run_sound h
  obtain ⟨l, htracks⟩ := ht.tracks hstale hnext
  obtain ⟨L, -, hlibrary⟩ := ht.refines
  obtain ⟨items, hapart⟩ := htracks.apart
  constructor
  · refine ⟨items, hapart.list, fun use c hc => ?_⟩
    obtain ⟨pg, hpg, hkind, htid, hstart, hend⟩ := hapart.owned c (List.of_mem_zip hc).2
    refine ⟨pg, hpg, ?_, hstart, hend⟩
    have hof := ht.of_zip hc
    cases use with
    | library item =>
      have hrequest : c.1 = item.request B := hof
      rw [hrequest] at hkind
      exact hkind
    | thread tid =>
      obtain ⟨hthread, hcurrent⟩ : c.1.requestId = .threadReq ∧
        c.1.currTid = (UInt32.ofNat tid).toNat := hof
      -- the tid is an `unsigned int`: there is no room for so many control blocks
      have hlt : tid < 4294967296 := by
        obtain ⟨actions, hreached⟩ := ht.reached
        have hserved := length_served_lt htracks (served_size_nonneg hreached)
        have hle := ht.tids tid (List.of_mem_zip hc).1
        have hblocks : t.frontier ≤ x.service.served.length := by
          rw [← ht.blocks, ← List.length_map (f := Prod.fst), ← ht.listed.length_eq]
          exact List.count_le_length
        exact ((hle.trans ht.tid_le).trans hblocks).trans_lt hserved
      have howner : c.1.ownerTid = tid := by
        rw [Request.ownerTid, hthread, if_neg (by decide), hcurrent, UInt32.toNat_ofNat',
          Nat.mod_eq_of_lt hlt]
      exact ⟨by rw [hkind, hthread], by rw [htid, howner]⟩
  · rw [hlibrary]
    exact ht.numbered.injective

/-- What thread 1 has got is on a page of thread 1. -/
theorem ranges_on_own_pages_twoThreads : ∃ (x : Process TcbLinks Service) (items : List (ℤ × Page)),
    Run (Step usualLayout (manager largePages).Step)
        (.initial noLinks (fun _ => zeroedTcb) .initial) twoThreads x ∧
      PageList x.service.memory items ∧ ∃ pg ∈ items, (Use.thread 1).Marks pg.2 ∧
        pg.2.startAddress ≤ 196744 := by
  obtain ⟨x, hx, -, hzip⟩ := twoThreads_run
  obtain ⟨⟨items, hlist, hpages⟩, -⟩ := ranges_on_own_pages rfl rfl hx
  have hmem : (Use.thread 1, (196744 : ℤ)) ∈ x.uses.zip (x.service.served.map Prod.snd) := by
    rw [hzip]
    decide
  rw [List.zip_map_right] at hmem
  obtain ⟨⟨use, c⟩, hc, heq⟩ := List.mem_map.mp hmem
  obtain ⟨rfl, haddress⟩ := Prod.mk.inj heq
  obtain ⟨pg, hpg, hmarks, hstart, -⟩ := hpages _ _ hc
  exact ⟨x, items, hx, hlist, pg, hpg, hmarks, hstart.trans haddress.le⟩

/-- On pages of at most 8192 bytes no stack is ever served: no call of `my_pthread_create` has
returned a thread, and only the main thread is there. -/
theorem no_thread_on_small_pages (hstale : P.staleTmpPrev = null) (hnext : P.staleBlockNext = null)
    (h : Run (Step B (manager P).Step) (.initial noLinks storage .initial) ds x)
    (hsmall : P.sysconfPageSize ≤ 8192) :
    x.library.handles = [] ∧ ∀ p ∈ x.library.threads, (x.library.tcbs p).tid = 0 := by
  obtain ⟨t, ht⟩ := run_sound h
  obtain ⟨l, htracks⟩ := ht.tracks hstale hnext
  obtain ⟨L, -, hlibrary⟩ := ht.refines
  have hnone : t.handles = [] := by
    rw [← List.length_eq_zero_iff, ← ht.handles, ← ht.length_ranges, List.length_eq_zero_iff,
      List.eq_nil_iff_forall_not_mem]
    intro b hb
    obtain ⟨⟨use, c⟩, hc, rfl⟩ := List.mem_map.mp hb
    obtain ⟨hmem, huse⟩ := List.mem_filter.mp hc
    obtain rfl : use = .library .stack := of_decide_eq_true huse
    have hrequest : c.1 = Item.stack.request B := ht.of_zip hmem
    have hle := served_size_le htracks (List.of_mem_zip hmem).2
    have hstack : c.1.size = 8192 := congrArg Request.size hrequest
    omega
  rw [hlibrary]
  refine ⟨hnone, fun p hp => ?_⟩
  by_contra htid
  have hhanded := ht.numbered.handed p hp htid
  rw [hnone] at hhanded
  exact List.not_mem_nil hhanded

/-- Main is taken in, as `getcontext` fails for the thread only. -/
def mainOnly : List Deed := [.event (.event (.call (.create true false ⟨1, 0⟩))), .malloc 100]

theorem no_thread_on_small_pages_mainOnly : ∃ x : Process TcbLinks Service,
    Run (Step usualLayout (manager .typical).Step)
        (.initial noLinks (fun _ => zeroedTcb) .initial) mainOnly x ∧
      x.library.threads = [0] ∧ x.library.handles = [] := by
  obtain ⟨y, hy, hthreads⟩ := Run.of_runAll (exec_ledger .typical usualLayout 5) mainOnly
    (.initial noLinks (fun _ => zeroedTcb) .initial) (fun y => y.library.threads) (b := [0])
    (by decide +kernel)
  obtain ⟨x, hx, hmirrors⟩ := run_of_ledgers rfl rfl hy
  rw [hmirrors.library] at hthreads
  exact ⟨x, hx, hthreads, (no_thread_on_small_pages rfl rfl hx (by decide)).1⟩

end Runs

end VirtualMemorySimulation.Storage

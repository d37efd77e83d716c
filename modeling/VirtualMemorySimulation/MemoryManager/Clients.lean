import VirtualMemorySimulation.Foundations.SeparateBlocks
import VirtualMemorySimulation.MemoryManager.Disjointness

/-!
# The memory manager and its clients

The scheduler and the threads call `my_allocate` and `my_deallocate` in any
order, and write into the ranges they were given. The headers of the manager lie
between these ranges in the same array.

The data of an allocated block is written by its client alone: a call rewrites
headers around the block it cuts and around the page it assigns, and a client's
write reaches no header. So the ranges are separate blocks, and each byte reads
back as it was last written.
-/

namespace VirtualMemorySimulation.MemoryManager

open ByteRecords Execution SeparateBlocks

variable {P : Platform}

def Allocation.Has (c : Allocation) (y : ℤ) : Prop := c.address ≤ y ∧ y < c.address + c.size

section Writes

variable {m m' : Store} {x a : ℤ} {requestId : RequestId} {tid : ℤ} {bs : List ArenaBlock}
  {ps : Arena} {c : Allocation}

theorem BlocksAt.write_data (h : BlocksAt m x bs) (hv : ∀ b ∈ bs, b.Valid)
    (hc : c ∈ blockAllocations requestId tid x bs) (hm : ∀ y, ¬ c.Has y → m' y = m y) :
    BlocksAt m' x bs := by
  induction bs generalizing x with
  | nil => trivial
  | cons b bs ih =>
    have hle := (hv b (by simp)).header_le
    have hbs : ∀ d ∈ bs, d.Valid := fun d hd => hv d (by simp [hd])
    have hlow := (blockAllocations_bounds hv hc).2.2.1
    refine ⟨?_, ?_⟩
    · rw [← h.1]
      refine load_congr fun y _ hy => hm y ?_
      rw [recordSize_block] at hy
      unfold Allocation.Has
      omega
    · rcases List.mem_append.mp hc with hc | hc
      · split_ifs at hc with hs
        · have hdata := (hv b (by simp)).data hs
          obtain rfl := List.mem_singleton.mp hc
          refine h.2.congr hbs fun y hy _ => (hm y ?_).symm
          unfold Allocation.Has
          simp only
          omega
        · simp at hc
      · exact ih h.2 hbs hc

theorem PagesAt.write_data (h : PagesAt P m a ps) (hv : ∀ p ∈ ps, p.Valid P)
    (hc : c ∈ allocations P a ps) (hm : ∀ y, ¬ c.Has y → m' y = m y) : PagesAt P m' a ps := by
  have hlarge := P.pageSize_large
  induction ps generalizing a with
  | nil => simp [allocations] at hc
  | cons p ps ih =>
    obtain ⟨hhead, hblocks, hrest⟩ := pagesAt_cons.mp h
    have hp := hv p (by simp)
    have hps : ∀ q ∈ ps, q.Valid P := fun q hq => hv q (by simp [hq])
    have htiles := hp.tiles
    have hlow := (allocations_low hv hc).1
    have hhead' : load Page m' a = p.header P a (a + P.sysconfPageSize) := by
      rw [← hhead]
      refine load_congr fun y _ hy => hm y ?_
      rw [recordSize_page] at hy
      unfold Allocation.Has
      omega
    apply pagesAt_cons.mpr
    rcases List.mem_append.mp hc with hc | hc
    · have hhigh := (blockAllocations_bounds hp.blocks hc).2.2.2
      refine ⟨hhead', hblocks.write_data hp.blocks hc hm, hrest.congr hps fun y hy => (hm y ?_).symm⟩
      unfold Allocation.Has
      omega
    · have hlow' := (allocations_low hps hc).1
      refine ⟨hhead', hblocks.congr hp.blocks fun y _ hy => (hm y ?_).symm, ih hrest hps hc⟩
      unfold Allocation.Has
      omega

/-- A client's write into its own range leaves the arena as it is. -/
theorem Represents.write_data {m : Memory} {A : Arena} (h : Represents P m A)
    (hc : c ∈ allocations P P.firstPage A) {y : ℤ} (hy : c.Has y) (v : UInt8) :
    Represents P { m with bytes := Function.update m.bytes y v } A := by
  have hsame : ∀ z, ¬ c.Has z → Function.update m.bytes y v z = m.bytes z := by
    intro z hz
    apply Function.update_of_ne
    rintro rfl
    exact hz hy
  obtain ⟨hheaders, hblocks⟩ := h.pages.write_data h.valid hc hsame
  exact ⟨⟨h.initialized, h.pageSize, h.pageListHead, hheaders, h.valid⟩, hblocks⟩

end Writes

section Calls

theorem lastBlock_mem (a tmpPrev : ℤ) {bs : List ArenaBlock} (h : bs ≠ []) :
    ∃ blk, (lastBlock a tmpPrev bs, blk) ∈ blockItems a bs := by
  induction bs generalizing a tmpPrev with
  | nil => exact absurd rfl h
  | cons b bs ih =>
    cases bs with
    | nil => exact ⟨_, List.mem_singleton_self _⟩
    | cons c cs =>
      obtain ⟨blk, hblk⟩ := ih (a + b.totalSize) a (by simp)
      exact ⟨blk, List.mem_cons_of_mem _ hblk⟩

theorem lastPage_mem (a tmpPrev : ℤ) {ps : Arena} (h : ps ≠ []) :
    ∃ pg, (lastPage P a tmpPrev ps, pg) ∈ pageItems P a ps := by
  induction ps generalizing a tmpPrev with
  | nil => exact absurd rfl h
  | cons p ps ih =>
    cases ps with
    | nil => exact ⟨_, List.mem_cons_self⟩
    | cons q qs =>
      obtain ⟨pg, hpg⟩ := ih (a + P.sysconfPageSize) a (by simp)
      exact ⟨pg, List.mem_cons_of_mem _ hpg⟩

variable {m : Memory} {A : Arena} {c : Allocation} {y : ℤ}

theorem Represents.assigned_data (h : Represents P m A) (o : Owner)
    (hc : c ∈ allocations P P.firstPage A) (hy : c.Has y) :
    (MemoryManager.assigned P m o A).bytes y = m.bytes y := by
  obtain ⟨hlow, hhigh⟩ := hy
  have hend := (allocations_low h.valid hc).2
  have hA : A ≠ [] := by
    rintro rfl
    simp [allocations] at hc
  obtain ⟨pg, hpg⟩ := lastPage_mem (P := P) P.firstPage P.staleTmpPrev hA
  have hapart := allocations_apart_pages h.valid hpg hc
  refine assigned_before (by omega) ?_
  rcases hapart with hapart | hapart
  · exact Or.inr (le_trans hapart hlow)
  · exact Or.inl (lt_of_lt_of_le hhigh hapart)

theorem TakenAt.taken_data {r : Request} {pre post : Arena} {p : ArenaPage}
    {bpre bpost : List ArenaBlock} {b : ArenaBlock} (ht : TakenAt P r A pre p post bpre b bpost)
    (h : Represents P m A) (hsize : 0 ≤ r.size) (hroom : r.size + 80 ≤ b.totalSize)
    (hc : c ∈ allocations P P.firstPage A) (hy : c.Has y) :
    (takenMemory P m r.size pre p bpre b bpost).bytes y = m.bytes y := by
  have hfit := ht.cleanFit h hsize hroom
  obtain ⟨hpre, hpost, htiles⟩ := hfit.extents
  obtain ⟨hlow, hhigh⟩ := hy
  obtain rfl := ht.split
  have hvpre : ∀ q ∈ pre, q.Valid P := fun q hq => h.valid q (by simp [hq])
  have hvpost : ∀ q ∈ post, q.Valid P := fun q hq => h.valid q (by simp [hq])
  have hbpre : ∀ d ∈ bpre, d.Valid := fun d hd => hfit.valid_blocks d (by simp [hd])
  have hbpost : ∀ d ∈ bpost, d.Valid := fun d hd => hfit.valid_blocks d (by simp [hd])
  simp only [allocations_append, allocations, List.mem_append, ht.fit.split,
    blockAllocations_append, blockAllocations, ht.fit.takes.1, reduceCtorEq, if_false,
    List.not_mem_nil, false_or] at hc
  rcases hc with hc | (hc | hc) | hc
  · have hend := (allocations_low hvpre hc).2
    exact hfit.carved_outside_page (by omega)
  · have hbounds := blockAllocations_bounds hbpre hc
    refine hfit.carved_outside (by omega) (by omega) fun hne => ?_
    obtain ⟨blk, hblk⟩ := lastBlock_mem (pageEnd P P.firstPage pre + 64) null hne
    have hapart := blockAllocations_apart_blocks hbpre hblk hc
    simp only [Apart] at hapart
    omega
  · have hbounds := blockAllocations_bounds hbpost hc
    refine hfit.carved_outside (by omega) (by omega) fun hne => ?_
    have hlast := lastBlock_bounds (pageEnd P P.firstPage pre + 64) null hne hbpre
    omega
  · have hstart := (allocations_low hvpost hc).1
    exact hfit.carved_outside_page (by omega)

/-- A call that returns leaves the data of all allocations as it is. -/
theorem Allocates.data (hm : Holds P m A) (hstale : P.staleTmpPrev = null)
    (hnext : P.staleBlockNext = null) {call : Request × ℤ} {m' : Memory}
    (hclears : Clears P m call) (hstep : Allocates P m call m')
    (hc : c ∈ allocations P P.firstPage A) (hy : c.Has y) : m'.bytes y = m.bytes y := by
  obtain ⟨r, v⟩ := call
  obtain ⟨hsize, n, hret⟩ := hstep
  have hnonneg : 0 ≤ r.size := hsize
  have h : Represents P m A := by
    rcases hm with ⟨-, rfl⟩ | h
    · simp [allocations] at hc
    · exact h
  obtain ⟨m₁, owns, full, -, hsame, hs, hpath⟩ := myAllocate_path hm (myAllocate_known hret)
  obtain rfl := hsame h.initialized
  rw [hpath] at hret
  obtain ⟨m₀, A₀, pre, p, post, bpre, b, bpost, hrep, hstart, htaken, ht, rfl, rfl⟩ :=
    allocateFrom_returns hs h hstale hnext hnonneg hret
  have hroom := hclears A hm b htaken
  rcases hstart with ⟨rfl, rfl⟩ | ⟨rfl, rfl⟩
  · exact ht.taken_data hrep hnonneg hroom hc hy
  · have hc' : c ∈ allocations P P.firstPage (A ++ [freshPage P r.owner]) := by
      rwa [allocations_fresh]
    exact (ht.taken_data hrep hnonneg hroom hc' hy).trans (h.assigned_data r.owner hc hy)

end Calls

inductive Call where
  | allocate (r : Request)
  | deallocate (ptr : ℤ) (requestId : RequestId)

/-- The memory with the calls of `my_allocate` that have returned, and their pointers. -/
structure Service where
  memory : Memory
  served : List (Request × ℤ)

namespace Service

def initial : Service := ⟨.initial, []⟩

/-- A call that returns. The block that `my_allocate` takes has room for two headers. -/
inductive Calls (P : Platform) (s : Service) : Call → Service → Prop
  | allocate {r : Request} {v : ℤ} {m' : Memory} : Clears P s.memory (r, v) →
      Allocates P s.memory (r, v) m' → Calls P s (.allocate r) ⟨m', s.served ++ [(r, v)]⟩
  | deallocate {ptr : ℤ} {requestId : RequestId} :
      Calls P s (.deallocate ptr requestId) { s with memory := myDeallocate ptr requestId s.memory }

end Service

/-- The memory manager as an allocator of the bytes of `PHYSICAL_MEMORY`. -/
@[simps] def manager (P : Platform) : Allocator Service Call UInt8 where
  cells s := s.memory.bytes
  blocks s := s.served.map fun c => ⟨c.2, c.1.size⟩
  poke s a v := { s with memory := { s.memory with bytes := Function.update s.memory.bytes a v } }
  call := Service.Calls P

/-- What clients have been given, and the arena behind it. -/
structure Ledger where
  served : List (Request × ℤ)
  arena : Arena

namespace Ledger

def initial : Ledger := ⟨[], []⟩

/-- An action of a client as the arena allocator sees it. -/
def exec (P : Platform) : Action Call UInt8 → Ledger → Except Stop Ledger
  | .call (.allocate r), t =>
    if r.requestId ≠ .unknown ∧ 0 ≤ r.size ∧ r.Clear P t.arena then
      match r.serve P t.arena with
      | some (place, arena) => .ok ⟨t.served ++ [(r, place.address P)], arena⟩
      | none => .error .outOfBounds
    else .error .notEnabled
  | .call (.deallocate _ _), t => .ok t
  | .write k i _, t =>
    match t.served[k]? with
    | some c => if 0 ≤ i ∧ i < c.1.size then .ok t else .error .notEnabled
    | none => .error .notEnabled

theorem exec_cases {t t' : Ledger} {action : Action Call UInt8} (h : t.exec P action = .ok t') :
    t' = t ∨ ∃ r place A', (r.requestId ≠ .unknown ∧ 0 ≤ r.size ∧ r.Clear P t.arena) ∧
      r.serve P t.arena = some (place, A') ∧ t' = ⟨t.served ++ [(r, place.address P)], A'⟩ := by
  cases action with
  | call call =>
    cases call with
    | allocate r =>
      simp only [exec] at h
      split_ifs at h with hcall
      cases hserve : r.serve P t.arena with
      | none => simp [hserve] at h
      | some given =>
        simp only [hserve] at h
        exact Or.inr ⟨r, given.1, given.2, hcall, hserve, (Except.ok.inj h).symm⟩
    | deallocate ptr requestId => exact Or.inl (Except.ok.inj h).symm
  | write k i v =>
    cases hc : t.served[k]? with
    | none => simp [exec, hc] at h
    | some c =>
      simp only [exec, hc] at h
      split_ifs at h
      exact Or.inl (Except.ok.inj h).symm

end Ledger

/-- The memory holds the arena, and the arena accounts for what has been served. -/
structure Tracks (P : Platform) (s : Service) (t : Ledger) : Prop where
  served : s.served = t.served
  holds : Holds P s.memory t.arena
  accounts : Accounts P t.arena t.served
  untouched : s.memory.initialized = false → s.memory.metadata.pageListHead = null

namespace Tracks

variable {s s' : Service} {t t' : Ledger} {action : Action Call UInt8}

theorem initial : Tracks P .initial .initial :=
  ⟨rfl, Or.inl ⟨rfl, rfl⟩, ⟨.nil, by simp [Ledger.initial]⟩, fun _ => rfl⟩

theorem represents (h : Tracks P s t) :
    s.served = [] ∧ PageList s.memory [] ∨ Represents P s.memory t.arena := by
  rcases h.holds with ⟨hfalse, harena⟩ | hrep
  · left
    have hperm := h.accounts.perm
    rw [harena] at hperm
    refine ⟨h.served.trans (List.map_eq_nil_iff.mp (List.perm_nil.mp hperm)), ?_⟩
    rw [PageList, h.untouched hfalse]
    exact .nil
  · exact Or.inr hrep

theorem allocation_mem (h : Tracks P s t) {c : Request × ℤ} (hc : c ∈ s.served) :
    c.1.allocation c.2 ∈ allocations P P.firstPage t.arena :=
  h.accounts.perm.mem_iff.mp (List.mem_map_of_mem (h.served ▸ hc))

theorem apart (h : Tracks P s t) : ∃ items, AllocationsApart P s.memory items s.served := by
  rcases h.represents with ⟨hnil, hlist⟩ | hrep
  · rw [hnil]
    exact ⟨[], hlist, by simp, by simp, .nil, by simp, by simp, by simp⟩
  · rw [h.served]
    exact ⟨_, h.accounts.apart hrep⟩

theorem allocate (h : Tracks P s t) (hstale : P.staleTmpPrev = null)
    (hnext : P.staleBlockNext = null) {r : Request} {v : ℤ} {m' : Memory}
    (hclears : Clears P s.memory (r, v)) (hstep : Allocates P s.memory (r, v) m') :
    ∃ t', t.exec P (.call (.allocate r)) = .ok t' ∧ Tracks P ⟨m', s.served ++ [(r, v)]⟩ t' := by
  obtain ⟨place, A', hserve, rfl, hrep⟩ := hstep.serve h.holds hstale hnext hclears
  have hr : r.requestId ≠ .unknown := by
    obtain ⟨-, n, hret⟩ := hstep
    exact myAllocate_known hret
  obtain ⟨A₀, pre, p, post, bpre, b, bpost, hA₀, ht, rfl, rfl⟩ := serve_some hserve
  refine ⟨⟨_, _⟩, ?_, congrArg (· ++ _) h.served, Or.inr hrep, ?_, fun hfalse => ?_⟩
  · simp only [Ledger.exec]
    rw [if_pos ⟨hr, hstep.1, (clears_iff h.holds r _).mp hclears⟩, hserve]
  · rw [← dataAddress_eq]
    exact (h.accounts.taken hr (hA₀.imp id And.left) ht).2.2
  · exact absurd hrep.initialized (by simp only at hfalse; simp [hfalse])

theorem write (h : Tracks P s t) {k : ℕ} {b : SeparateBlocks.Block} {i : ℤ} (v : UInt8)
    (hb : ((manager P).blocks s)[k]? = some b) (hi : 0 ≤ i ∧ i < b.size) :
    t.exec P (.write k i v) = .ok t ∧ Tracks P ((manager P).poke s (b.address + i) v) t := by
  rw [manager_blocks, List.getElem?_map] at hb
  obtain ⟨c, hc, rfl⟩ := Option.map_eq_some_iff.mp hb
  simp only at hi
  have hmem := h.allocation_mem (List.mem_of_getElem? hc)
  have hrep : Represents P s.memory t.arena := by
    rcases h.represents with ⟨hnil, -⟩ | hrep
    · simp [hnil] at hc
    · exact hrep
  constructor
  · simp only [Ledger.exec, ← h.served, hc]
    exact if_pos hi
  · refine ⟨h.served, Or.inr (hrep.write_data hmem ?_ v), h.accounts, fun hfalse => ?_⟩
    · simp only [Allocation.Has, Request.allocation]
      omega
    · exact absurd (hrep.initialized.symm.trans hfalse) (by decide)

/-- Every step of the manager is one of the ledger. -/
theorem step (h : Tracks P s t) (hstale : P.staleTmpPrev = null) (hnext : P.staleBlockNext = null)
    (hstep : (manager P).Step s action s') : ∃ t', t.exec P action = .ok t' ∧ Tracks P s' t' := by
  cases hstep with
  | call hcall =>
    cases hcall with
    | allocate hclears hallocates => exact h.allocate hstale hnext hclears hallocates
    | deallocate => exact ⟨t, rfl, h⟩
  | write hb hi => exact ⟨t, h.write _ hb hi⟩

/-- Every step of the ledger is one of the manager. -/
theorem follow (h : Tracks P s t) (hstale : P.staleTmpPrev = null)
    (hnext : P.staleBlockNext = null) (hexec : t.exec P action = .ok t') :
    ∃ s', (manager P).Step s action s' ∧ Tracks P s' t' := by
  cases action with
  | call call =>
    cases call with
    | allocate r =>
      simp only [Ledger.exec] at hexec
      split_ifs at hexec with hcall
      obtain ⟨hr, hsize, hclear⟩ := hcall
      have hends := myAllocate_ends h.holds hstale hnext hr hsize hclear
      generalize hserve : r.serve P t.arena = served at hends hexec
      cases hends with
      | @serves place A' m' hsettles hrep =>
        obtain ⟨n, hn⟩ := hsettles.exists_ok
        have hclears := (clears_iff h.holds r (place.address P)).mpr hclear
        have hallocates : Allocates P s.memory (r, place.address P) m' := ⟨hsize, n, hn⟩
        obtain ⟨t'', hexec', htracks⟩ := h.allocate hstale hnext hclears hallocates
        simp only [Ledger.exec] at hexec'
        rw [if_pos ⟨hr, hsize, hclear⟩, hserve] at hexec'
        obtain rfl := Except.ok.inj (hexec'.symm.trans hexec)
        exact ⟨_, .call (.allocate hclears hallocates), htracks⟩
      | overruns => cases hexec
    | deallocate ptr requestId =>
      obtain rfl := Except.ok.inj hexec
      exact ⟨_, .call .deallocate, h⟩
  | write k i v =>
    cases hc : t.served[k]? with
    | none => simp [Ledger.exec, hc] at hexec
    | some c =>
      simp only [Ledger.exec, hc] at hexec
      split_ifs at hexec with hi
      obtain rfl := Except.ok.inj hexec
      have hb : ((manager P).blocks s)[k]? = some ⟨c.2, c.1.size⟩ := by
        rw [manager_blocks, h.served, List.getElem?_map, hc]
        rfl
      exact ⟨_, .write hb hi, (h.write v hb hi).2⟩

end Tracks

section Runs

variable {s : Service} {t : Ledger} {actions : List (Action Call UInt8)}

theorem tracks_of_run (hstale : P.staleTmpPrev = null) (hnext : P.staleBlockNext = null)
    (hrun : Run (manager P).Step .initial actions s) :
    ∃ t, runAll (Ledger.exec P) actions .initial = .ok t ∧ Tracks P s t := by
  apply hrun.invariant (I := fun actions s =>
    ∃ t, runAll (Ledger.exec P) actions .initial = .ok t ∧ Tracks P s t)
  · exact ⟨_, rfl, .initial⟩
  · rintro done s action s' ⟨t, ht, htracks⟩ hstep
    obtain ⟨t', hexec, htracks'⟩ := htracks.step hstale hnext hstep
    refine ⟨t', ?_, htracks'⟩
    rw [runAll_append, ht, ok_bind]
    simp [runAll, hexec]

theorem run_of_ledger (hstale : P.staleTmpPrev = null) (hnext : P.staleBlockNext = null)
    (ht : runAll (Ledger.exec P) actions .initial = .ok t) :
    ∃ s, Run (manager P).Step .initial actions s ∧ Tracks P s t := by
  obtain ⟨t', hrun, rfl⟩ := Run.of_runAll
    (fun t action t' (h : t.exec P action = .ok t') => h) actions Ledger.initial id (by rw [ht]; rfl)
  exact hrun.simulation (R := fun t s => Tracks P s t)
    (fun t action t' s h (hexec : t.exec P action = .ok t') => h.follow hstale hnext hexec)
    Tracks.initial

/-- Clients of the memory manager get what clients of the arena allocator get, and each
next call of theirs ends as the arena says. -/
theorem manager_refines_arena (hstale : P.staleTmpPrev = null) (hnext : P.staleBlockNext = null)
    (actions : List (Action Call UInt8)) :
    (∀ s, Run (manager P).Step .initial actions s →
      ∃ A, runAll (Ledger.exec P) actions .initial = .ok ⟨s.served, A⟩ ∧
        ∀ r : Request, r.requestId ≠ .unknown → 0 ≤ r.size → r.Clear P A →
          Ends P s.memory r (r.serve P A)) ∧
    ∀ t, runAll (Ledger.exec P) actions .initial = .ok t →
      ∃ s, Run (manager P).Step .initial actions s ∧ s.served = t.served := by
  constructor
  · intro s hrun
    obtain ⟨⟨served, A⟩, ht, htracks⟩ := tracks_of_run hstale hnext hrun
    obtain rfl := htracks.served
    exact ⟨A, ht, fun r hr hsize hclear => myAllocate_ends htracks.holds hstale hnext hr hsize hclear⟩
  · intro t ht
    obtain ⟨s, hrun, htracks⟩ := run_of_ledger hstale hnext ht
    exact ⟨s, hrun, htracks.served⟩

/-- The scheduler and a thread share the array: each writes after the other has allocated,
and the thread goes on after the scheduler has freed its range. -/
def sharedArray : List (Action Call UInt8) :=
  [.call (.allocate smallRequest), .write 0 0 7, .call (.allocate nodeRequest), .write 1 23 9,
    .write 0 0 8, .call (.deallocate 65672 .libraryReq), .call (.allocate smallRequest),
    .call (.allocate nodeRequest)]

theorem sharedArray_ledger :
    (runAll (Ledger.exec .typical) sharedArray .initial).map (fun t => t.served.map Prod.snd) =
      .ok [65672, 69768, 65812, 69832] := by
  decide +kernel

theorem manager_refines_arena_shared : ∃ s, Run (manager .typical).Step .initial sharedArray s ∧
    s.served.map Prod.snd = [65672, 69768, 65812, 69832] := by
  obtain ⟨t, ht, hserved⟩ := map_eq_ok.mp sharedArray_ledger
  obtain ⟨s, hrun, hsame⟩ := (manager_refines_arena (P := .typical) rfl rfl sharedArray).2 t ht
  exact ⟨s, hrun, hsame ▸ hserved⟩

/-- The manager leaves the data of its clients alone, and they leave its headers alone. -/
theorem manager_keeps (hstale : P.staleTmpPrev = null) (hnext : P.staleBlockNext = null) :
    (manager P).Keeps fun s => ∃ t, Tracks P s t := by
  constructor
  · rintro s ⟨t, h⟩
    obtain ⟨items, hapart⟩ := h.apart
    rw [manager_blocks, List.pairwise_map]
    refine hapart.apart.imp fun {c d} hcd a hc hd => ?_
    simp only [SeparateBlocks.Block.Has, Apart] at hc hd hcd
    omega
  · exact fun _ _ _ => rfl
  · exact fun _ _ _ => rfl
  · rintro s b a v ⟨t, h⟩ hb ha
    obtain ⟨k, hk⟩ := List.getElem?_of_mem hb
    have hwrite := (h.write (i := a - b.address) v hk
      (by unfold SeparateBlocks.Block.Has at ha; omega)).2
    rw [add_sub_cancel] at hwrite
    exact ⟨t, hwrite⟩
  · rintro s call s' ⟨t, h⟩ hcall
    obtain ⟨t', -, h'⟩ := h.step hstale hnext (.call hcall)
    refine ⟨⟨t', h'⟩, ?_⟩
    cases hcall with
    | @allocate r v m' hclears hallocates =>
      refine ⟨by simp, fun b hb a ha => ?_⟩
      obtain ⟨c, hc, rfl⟩ := List.mem_map.mp hb
      exact hallocates.data h.holds hstale hnext hclears (h.allocation_mem hc) ha
    | deallocate => exact ⟨List.prefix_rfl, fun _ _ _ _ => rfl⟩

/-- After every run of calls and writes of any clients, each byte of a range that was handed
out is what was last written there, and the ranges are apart from all headers. -/
theorem clients_read_own_writes (hstale : P.staleTmpPrev = null) (hnext : P.staleBlockNext = null)
    (hrun : Run (manager P).Step .initial actions s) :
    Shows s.memory.bytes ((manager P).blocks s) (contents actions) ∧
      ∃ items, AllocationsApart P s.memory items s.served := by
  obtain ⟨⟨t, htracks⟩, hshows⟩ := (manager_keeps hstale hnext).run ⟨_, .initial⟩ hrun
  exact ⟨hshows, htracks.apart⟩

theorem clients_read_own_writes_shared : ∃ s, Run (manager .typical).Step .initial sharedArray s ∧
    s.memory.bytes 65672 = 8 ∧ s.memory.bytes 69791 = 9 := by
  obtain ⟨t, ht, hserved⟩ := map_eq_ok.mp sharedArray_ledger
  obtain ⟨s, hrun, htracks⟩ := run_of_ledger (P := .typical) rfl rfl ht
  have hshows := (clients_read_own_writes rfl rfl hrun).1
  have hcell : ∀ k i v a, contents sharedArray k i = some v →
      ([65672, 69768, 65812, 69832] : List ℤ)[k]? = some a → s.memory.bytes (a + i) = v := by
    intro k i v a hv ha
    obtain ⟨b, hb, -, hcell⟩ := hshows k i v hv
    rw [manager_blocks, List.getElem?_map] at hb
    obtain ⟨c, hc, rfl⟩ := Option.map_eq_some_iff.mp hb
    rw [← hserved, ← htracks.served, List.getElem?_map, hc] at ha
    obtain rfl := Option.some.inj ha
    exact hcell
  exact ⟨s, hrun, hcell 0 0 8 65672 (by decide +kernel) rfl,
    hcell 1 23 9 69768 (by decide +kernel) rfl⟩

end Runs

end VirtualMemorySimulation.MemoryManager

import VirtualMemorySimulation.MemoryManager.Disjointness

/-!
# Alignment of the returned pointers

A returned pointer lies behind the headers and the data of the blocks before its own.
The headers and the pages keep multiples of eight, and the requests are not rounded:
one size that is no multiple of eight shifts everything behind it in its page.
-/

namespace VirtualMemorySimulation.MemoryManager

open ByteRecords Execution

variable {P : Platform} {m : Memory} {A : Arena} {r : Request}

/-- The array starts at an address that is suitable for every object. -/
def Platform.Aligned (P : Platform) : Prop := 16 ∣ P.physicalMemory

instance (P : Platform) : Decidable P.Aligned := inferInstanceAs (Decidable (_ ∣ _))

/-- Every block of the arena covers a multiple of eight bytes. -/
def AlignedBlocks (A : Arena) : Prop := ∀ p ∈ A, ∀ b ∈ p.blocks, 8 ∣ b.totalSize

/-- The call takes a block with room for both headers, and its size is a multiple of eight. -/
def AlignedCall (P : Platform) (m : Memory) (call : Request × ℤ) : Prop :=
  Clears P m call ∧ 8 ∣ call.1.size

theorem Platform.eight_dvd_pageSize (P : Platform) : 8 ∣ P.sysconfPageSize := by
  have hlarge := P.pageSize_large
  have hdvd := P.pageSize_dvd
  lift P.sysconfPageSize to ℕ using (by omega) with size
  have hpower : size ∣ 2 ^ 23 := by exact_mod_cast hdvd
  obtain ⟨k, -, rfl⟩ := (Nat.dvd_prime_pow Nat.prime_two).mp hpower
  have hk : 3 ≤ k := by
    by_contra hk
    have hle : 2 ^ k ≤ 2 ^ 2 := Nat.pow_le_pow_right (by decide) (by omega)
    have : 128 ≤ 2 ^ k := by exact_mod_cast hlarge
    omega
  exact_mod_cast pow_dvd_pow 2 hk

section Addresses

theorem dvd_extent {bs : List ArenaBlock} (h : ∀ b ∈ bs, 8 ∣ b.totalSize) : 8 ∣ extent bs := by
  induction bs with
  | nil => exact dvd_zero 8
  | cons b bs ih =>
    rw [extent]
    apply dvd_add
    · exact h b (by simp)
    · exact ih fun c hc => h c (by simp [hc])

theorem dvd_pageEnd {a : ℤ} (ha : 8 ∣ a) (ps : Arena) : 8 ∣ pageEnd P a ps := by
  unfold pageEnd
  apply dvd_add ha
  exact P.eight_dvd_pageSize.mul_left _

/-- A pointer is aligned exactly when the blocks before its own cover a multiple of eight. -/
theorem dvd_dataAddress_iff (hP : P.Aligned) (pre : Arena) (bpre : List ArenaBlock) :
    8 ∣ dataAddress P pre bpre ↔ 8 ∣ extent bpre := by
  have hfirst : 8 ∣ P.firstPage := by
    have := P.firstPage_eq
    unfold Platform.Aligned at hP
    omega
  have hpage := dvd_pageEnd (P := P) hfirst pre
  unfold dataAddress
  omega

theorem alignedBlocks_fresh {o : Owner} (h : AlignedBlocks A) :
    AlignedBlocks (A ++ [freshPage P o]) := by
  have hsize := P.eight_dvd_pageSize
  intro p hp b hb
  rcases List.mem_append.mp hp with hp | hp
  · exact h p hp b hb
  · rw [List.mem_singleton.mp hp] at hb
    rw [List.mem_singleton.mp hb]
    simp only
    omega

theorem alignedBlocks_carved {pre post : Arena} {p : ArenaPage} {size : ℤ}
    {bpre bpost : List ArenaBlock} {b : ArenaBlock} (h : AlignedBlocks (pre ++ p :: post))
    (hfit : FitsAt size p.blocks bpre b bpost) (hsize : 8 ∣ size) :
    AlignedBlocks (pre ++ carvedPage p size bpre b bpost :: post) := by
  have hp := h p (by simp)
  rw [hfit.split] at hp
  intro q hq c hc
  rcases List.mem_append.mp hq with hq | hq
  · exact h q (by simp [hq]) c hc
  rcases List.mem_cons.mp hq with rfl | hq
  · have hb := hp b (by simp)
    simp only [carvedPage, List.mem_append, List.mem_cons] at hc
    rcases hc with hc | rfl | rfl | hc
    · exact hp c (by simp [hc])
    · simp only
      omega
    · simp only
      omega
    · exact hp c (by simp [hc])
  · exact h q (by simp [hq]) c hc

end Addresses

section Runs

variable {calls : List (Request × ℤ)}

/-- On an arena of aligned blocks a call returns an aligned pointer, whatever its size. -/
theorem AlignedBlocks.returns (h : AlignedBlocks A) (hA : Holds P m A) (hP : P.Aligned)
    (hstale : P.staleTmpPrev = null) (hnext : P.staleBlockNext = null) {call : Request × ℤ}
    {m' : Memory} (hstep : Allocates P m call m') :
    8 ∣ call.2 ∧ (AlignedCall P m call → ∃ A', Represents P m' A' ∧ AlignedBlocks A') := by
  obtain ⟨r, v⟩ := call
  obtain ⟨hsize, n, hret⟩ := hstep
  have hnonneg : 0 ≤ r.size := hsize
  obtain ⟨m₀, A₀, pre, p, post, bpre, b, bpost, hrep, hA₀, htaken, ht, rfl, rfl⟩ :=
    myAllocate_returns hA hstale hnext hnonneg hret
  have haligned : AlignedBlocks A₀ := by
    rcases hA₀ with rfl | rfl
    · exact h
    · exact alignedBlocks_fresh h
  constructor
  · apply (dvd_dataAddress_iff hP pre bpre).mpr
    apply dvd_extent
    intro c hc
    apply haligned p (by rw [ht.split]; simp)
    rw [ht.fit.split]
    exact List.mem_append_left _ hc
  · rintro ⟨hclears, hdvd⟩
    refine ⟨_, ht.represents hrep hnonneg (hclears A hA b htaken), ?_⟩
    rw [ht.split] at haligned
    exact alignedBlocks_carved haligned ht.fit hdvd

theorem alignedBlocks_of_run (hP : P.Aligned) (hstale : P.staleTmpPrev = null)
    (hnext : P.staleBlockNext = null)
    (hrun : Run (Guarded (AlignedCall P) (Allocates P)) Memory.initial calls m) :
    (∃ A, Holds P m A ∧ AlignedBlocks A) ∧ ∀ c ∈ calls, 8 ∣ c.2 := by
  refine hrun.invariant (I := fun calls m =>
    (∃ A, Holds P m A ∧ AlignedBlocks A) ∧ ∀ c ∈ calls, 8 ∣ c.2) ⟨⟨[], Or.inl ⟨rfl, rfl⟩, ?_⟩, ?_⟩ ?_
  · simp [AlignedBlocks]
  · simp
  · rintro done s call s' ⟨⟨A, hA, haligned⟩, hdone⟩ ⟨hcall, hstep⟩
    obtain ⟨hptr, hkeeps⟩ := haligned.returns hA hP hstale hnext hstep
    obtain ⟨A', hrep, haligned'⟩ := hkeeps hcall
    refine ⟨⟨A', Or.inr hrep, haligned'⟩, fun c hc => ?_⟩
    rcases List.mem_append.mp hc with hc | hc
    · exact hdone c hc
    · rw [List.mem_singleton.mp hc]
      exact hptr

/-- As long as the requests so far were for multiples of eight bytes and ran over no header,
every pointer returned is aligned, and so is the next one whatever its size. -/
theorem pointers_aligned (hP : P.Aligned) (hstale : P.staleTmpPrev = null)
    (hnext : P.staleBlockNext = null)
    (hrun : Run (Guarded (AlignedCall P) (Allocates P)) Memory.initial calls m) :
    (∀ c ∈ calls, 8 ∣ c.2) ∧ ∀ call m', Allocates P m call m' → 8 ∣ call.2 := by
  obtain ⟨⟨A, hA, haligned⟩, hcalls⟩ := alignedBlocks_of_run hP hstale hnext hrun
  refine ⟨hcalls, fun call m' hstep => ?_⟩
  exact (haligned.returns hA hP hstale hnext hstep).1

/-- The cell that `my_pthread_create` requests for a return value. -/
def cellRequest : Request := ⟨.libraryReq, 0, 8, currTid_zero, by decide⟩

/-- The table of three slices that `init_scheduler` requests. -/
def sliceTableRequest : Request := ⟨.libraryReq, 0, 12, currTid_zero, by decide⟩

/-- Cells, nodes and buffers of three owners, all of multiples of eight bytes. -/
def alignedTurns : List (Request × ℤ) :=
  [(cellRequest, 65672), (nodeRequest, 69768), (bufferRequest, 73864), (cellRequest, 65720),
    (bufferRequest, 77960), (nodeRequest, 69832)]

theorem alignedTurns_serve :
    (runAll (serveCall .typical) alignedTurns []).map List.length = .ok 4 := by
  decide +kernel

theorem pointers_aligned_turns : ∃ m,
    Run (Guarded (AlignedCall .typical) (Allocates .typical)) Memory.initial alignedTurns m ∧
      (∀ c ∈ alignedTurns, 8 ∣ c.2) ∧ ∀ call m', Allocates .typical m call m' → 8 ∣ call.2 := by
  obtain ⟨A, hA, -⟩ := map_eq_ok.mp alignedTurns_serve
  obtain ⟨m, hrun, -⟩ := run_of_serves (P := .typical) rfl rfl hA
  have hsizes : ∀ call ∈ alignedTurns, 8 ∣ call.1.size := by decide
  have hguarded := hrun.guard hsizes
  exact ⟨m, hguarded, pointers_aligned (by decide) rfl rfl hguarded⟩

/-- After the table of slices the cell of a thread is not aligned. -/
theorem cell_misaligned : Platform.Aligned .typical ∧
    ∃ m, Run (Allocates .typical) Memory.initial [(sliceTableRequest, 65672), (cellRequest, 65724)]
      m ∧ ¬ (8 : ℤ) ∣ 65724 := by
  have hcalls : (myAllocate .typical sliceTableRequest 4 Memory.initial >>= fun res =>
      (myAllocate .typical cellRequest 4 res.2).map fun res' => (res.1, res'.1)) =
        .ok (65672, 65724) := by
    decide +kernel
  obtain ⟨⟨v, m₁⟩, hfirst, hsecond⟩ := bind_eq_ok.mp hcalls
  obtain ⟨⟨v', m₂⟩, hsecond, hv⟩ := map_eq_ok.mp hsecond
  obtain ⟨rfl, rfl⟩ := Prod.mk.inj hv
  refine ⟨by decide, m₂, ?_, by decide⟩
  exact (Run.single ⟨by decide, 4, hfirst⟩).append (.single ⟨by decide, 4, hsecond⟩)

end Runs

end VirtualMemorySimulation.MemoryManager

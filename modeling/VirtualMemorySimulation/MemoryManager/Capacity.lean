import VirtualMemorySimulation.MemoryManager.PrivatePages
import VirtualMemorySimulation.MemoryManager.Return

/-!
# How many requests of a size are ever served

A block lies inside one page, and no page is given back, so the page size bounds how many
requests of some size can ever be served. Where not even one such block fits in a page,
each of them ends with a write outside the array: so it is with the 8192 bytes that
`my_pthread_create` asks for as a stack, as long as pages are no larger than these.
-/

namespace VirtualMemorySimulation.MemoryManager

open ByteRecords Execution SeparateBlocks

variable {P : Platform} {A : Arena} {p : ArenaPage} {bs : List ArenaBlock} {r : Request} {n : ℤ}

section Counting

variable {requestId : RequestId} {tid x a : ℤ}

theorem countP_blockAllocations_mul_le (hv : ∀ b ∈ bs, b.Valid) :
    ((blockAllocations requestId tid x bs).countP fun c => n ≤ c.size : ℤ) * (n + 40) ≤
      allocatedExtent bs := by
  induction bs generalizing x with
  | nil => simp [blockAllocations, allocatedExtent]
  | cons b bs ih =>
    have hb := hv b (by simp)
    have hbs := ih (x := x + b.totalSize) fun c hc => hv c (by simp [hc])
    have hheader := hb.header_le
    rw [blockAllocations, allocatedExtent, List.countP_append]
    push_cast
    rw [add_mul]
    split_ifs with hs
    · have hdata := hb.data hs
      by_cases hsize : n ≤ b.dataSize
      · simp only [hsize, decide_true, List.countP_singleton, if_true, Nat.cast_one, one_mul]
        omega
      · simp only [hsize, decide_false, List.countP_singleton, Bool.false_eq_true, if_false,
          Nat.cast_zero, zero_mul]
        omega
    · simp only [List.countP_nil, Nat.cast_zero, zero_mul]
      omega

theorem countP_allocations_le (hv : ∀ p ∈ A, p.Valid P) (hn : 0 ≤ n) :
    ((allocations P a A).countP fun c => n ≤ c.size : ℤ) ≤
      A.length * ((P.sysconfPageSize - 64) / (n + 40)) := by
  induction A generalizing a with
  | nil => simp [allocations]
  | cons p ps ih =>
    have hps := ih (a := a + P.sysconfPageSize) fun q hq => hv q (by simp [hq])
    have hp := hv p (by simp)
    have htiles := hp.tiles
    have hpage : ((blockAllocations p.requestId p.tid (a + 64) p.blocks).countP
        fun c => n ≤ c.size : ℤ) ≤ (P.sysconfPageSize - 64) / (n + 40) := by
      apply Int.le_ediv_of_mul_le (by omega)
      have hblocks : ((blockAllocations p.requestId p.tid (a + 64) p.blocks).countP
          fun c => n ≤ c.size : ℤ) * (n + 40) ≤ allocatedExtent p.blocks :=
        countP_blockAllocations_mul_le hp.blocks
      have hused := allocatedExtent_le hp.blocks
      omega
    rw [allocations, List.countP_append, List.length_cons]
    push_cast
    rw [add_mul, one_mul]
    omega

end Counting

/-- No page has a block for a request larger than what a page holds. -/
theorem pageFit_oversized (hp : p.Valid P) (hsize : P.sysconfPageSize < r.size + 64) :
    r.pageFit P p = none := by
  unfold Request.pageFit
  split_ifs
  · rw [firstFit_none]
    rintro b hb htakes
    have hle := totalSize_le_extent hp.blocks hb
    have htiles := hp.tiles
    have hroom := htakes.2
    omega
  · rfl

theorem not_serves_oversized (hv : ∀ p ∈ A, p.Valid P) (hsize : P.sysconfPageSize < r.size + 64) :
    ¬ Serves P A r := by
  rintro (harena | ⟨-, hfresh⟩)
  · have hnone : r.arenaFit P A = none :=
      List.findSome?_eq_none_iff.mpr fun p hp => pageFit_oversized (hv p hp) hsize
    rw [hnone] at harena
    cases harena
  · rw [pageFit_oversized (freshPage_valid _) hsize] at hfresh
    cases hfresh

theorem Holds.pages_le {m : Memory} (h : Holds P m A) : (∀ p ∈ A, p.Valid P) ∧
    (A.length : ℤ) * P.sysconfPageSize ≤ physicalSize - 96 := by
  rcases h with ⟨-, rfl⟩ | hrep
  · refine ⟨by simp, ?_⟩
    rw [List.length_nil, Nat.cast_zero, zero_mul]
    decide
  · have hrest := hrep.headers.rest.2
    have hfirst := P.firstPage_eq
    have htop := P.top_eq
    unfold pageEnd at hrest
    refine ⟨hrep.valid, ?_⟩
    unfold physicalSize
    omega

section Runs

variable {s : Service} {actions : List (Action Call UInt8)}

/-- In every run of clients: each page that there can be serves only so many requests of `n` or
more bytes, and where that is none, each such request ends outside the array. -/
theorem served_of_size_bounded (hstale : P.staleTmpPrev = null) (hnext : P.staleBlockNext = null)
    (hrun : Run (manager P).Step .initial actions s) (hn : 0 ≤ n) :
    (s.served.countP fun c => n ≤ c.1.size : ℤ) ≤
        (physicalSize - 96) / P.sysconfPageSize * ((P.sysconfPageSize - 64) / (n + 40)) ∧
      (P.sysconfPageSize < n + 64 → ∀ r : Request, r.requestId ≠ .unknown → n ≤ r.size →
        Settles (fun fuel => myAllocate P r fuel s.memory) (.error .outOfBounds)) := by
  obtain ⟨t, -, htracks⟩ := tracks_of_run hstale hnext hrun
  obtain ⟨hvalid, hpages⟩ := htracks.holds.pages_le
  have hcount : s.served.countP (fun c => n ≤ c.1.size) =
      (allocations P P.firstPage t.arena).countP fun c => n ≤ c.size := by
    rw [htracks.served, ← htracks.accounts.perm.countP_eq, List.countP_map]
    rfl
  constructor
  · rw [hcount]
    refine (countP_allocations_le hvalid hn).trans ?_
    have hlarge := P.pageSize_large
    have hlength : (t.arena.length : ℤ) ≤ (physicalSize - 96) / P.sysconfPageSize :=
      Int.le_ediv_of_mul_le (by omega) hpages
    exact mul_le_mul_of_nonneg_right hlength (Int.ediv_nonneg (by omega) (by omega))
  · intro hpage r hr hsize
    exact myAllocate_overruns htracks.holds hstale hnext hr (not_serves_oversized hvalid (by omega))

/-- Whatever is allocated on 4096-byte pages, no stack for a thread is ever among it. -/
theorem served_of_size_bounded_stack : ∃ s, Run (manager .typical).Step .initial sharedArray s ∧
    s.served.countP (fun c => (8192 : ℤ) ≤ c.1.size) = 0 ∧
    Settles (fun fuel => myAllocate .typical stackRequest fuel s.memory) (.error .outOfBounds) := by
  obtain ⟨t, ht⟩ : ∃ t, runAll (Ledger.exec .typical) sharedArray .initial = .ok t := by
    have hok : (runAll (Ledger.exec .typical) sharedArray .initial).map
        (fun t => servedBytes t.served) = .ok 408 := by
      decide +kernel
    obtain ⟨t, ht, -⟩ := map_eq_ok.mp hok
    exact ⟨t, ht⟩
  obtain ⟨s, hrun, -⟩ := run_of_ledger (P := .typical) rfl rfl ht
  obtain ⟨hbound, hover⟩ := served_of_size_bounded rfl rfl hrun (n := 8192) (by decide)
  have hnone : (physicalSize - 96) / Platform.typical.sysconfPageSize *
      ((Platform.typical.sysconfPageSize - 64) / (8192 + 40)) = 0 := by decide
  rw [hnone] at hbound
  exact ⟨s, hrun, by omega, hover (by decide) stackRequest (by decide) (by decide)⟩

end Runs

end VirtualMemorySimulation.MemoryManager

import VirtualMemorySimulation.MemoryManager.Disjointness

/-!
# How `my_allocate` ends

The recursion of the allocation paths has no exit for a request that cannot be
served: a call either takes a block or keeps assigning pages until it writes
outside the array. It comes back as its comments promise exactly when the
request fits in a page the caller owns or in a free one; `NULL` is never
returned.
-/

namespace VirtualMemorySimulation.MemoryManager

open ByteRecords Execution

variable {P : Platform} {m : Memory} {A : Arena} {r : Request}

/-- A free block of the page holds the request and the header of its block. -/
def HasRoom (size : ℤ) (p : ArenaPage) : Prop :=
  ∃ b ∈ p.blocks, b.state = .unallocated ∧ size + 40 ≤ b.totalSize

/-- The request fits in a page that its owner has, or in a whole unassigned one. -/
def FitsPage (P : Platform) (A : Arena) (r : Request) : Prop :=
  (∃ p ∈ A, r.Owns p ∧ HasRoom r.size p) ∨
    pageEnd P P.firstPage A + P.sysconfPageSize ≤ P.top ∧ r.size + 104 ≤ P.sysconfPageSize

/-- What the call should do: return a pointer to a request that fits, and otherwise
`NULL` with the page list as it was. -/
structure ComesBack (P : Platform) (m : Memory) (A : Arena) (r : Request) : Prop where
  fits : FitsPage P A r → ∃ v m', Settles (fun n => myAllocate P r n m) (.ok (v, m')) ∧ v ≠ null
  unfit : ¬ FitsPage P A r → ∃ m', Settles (fun n => myAllocate P r n m) (.ok (null, m')) ∧
    ∀ items, PageList m items ↔ PageList m' items

/-- A page of the arena or a page still to be assigned has a block that the call takes. -/
def Serves (P : Platform) (A : Arena) (r : Request) : Prop :=
  (r.arenaFit P A).isSome ∨ pageEnd P P.firstPage A + P.sysconfPageSize + 64 ≤ P.top ∧
    (r.pageFit P (freshPage P r.owner)).isSome

/-- A call that is served returns a pointer. -/
theorem myAllocate_serves (h : Holds P m A) (hstale : P.staleTmpPrev = null)
    (hnext : P.staleBlockNext = null) (hr : r.requestId ≠ .unknown) (hsize : 0 ≤ r.size)
    (hserves : Serves P A r) :
    ∃ v m', Settles (fun n => myAllocate P r n m) (.ok (v, m')) ∧ v ≠ null := by
  obtain ⟨m₀, owns, full, hrep, -, hs, hpath⟩ := myAllocate_path h hr
  cases hfit : r.arenaFit P A with
  | some b =>
    obtain ⟨pre, p, post, bpre, bpost, ht⟩ := arenaFit_some.mp hfit
    exact ⟨_, _, (allocateFrom_taken hs hrep ht hsize).congr hpath, (ht.dataAddress_pos hrep).ne'⟩
  | none =>
    obtain ⟨hroom, hfresh⟩ := hserves.resolve_left (by simp [hfit])
    obtain ⟨b, hb⟩ := Option.isSome_iff_exists.mp hfresh
    have hrep' := hrep.assigned (o := r.owner) hstale hnext hroom
    have htaken : r.taken P A = some b := by rw [Request.taken, hfit, Option.none_or, hb]
    obtain ⟨pre, p, post, bpre, bpost, ht⟩ := arenaFit_some.mp ((arenaFit_fresh r A).trans htaken)
    exact ⟨_, _, (allocateFrom_assign hs hrep hstale hfit hroom
      (allocateFrom_taken hs hrep' ht hsize)).congr hpath, (ht.dataAddress_pos hrep').ne'⟩

/-- A call that is not served writes outside the array. -/
theorem myAllocate_overruns (h : Holds P m A) (hstale : P.staleTmpPrev = null)
    (hnext : P.staleBlockNext = null) (hr : r.requestId ≠ .unknown) (hserves : ¬ Serves P A r) :
    Settles (fun n => myAllocate P r n m) (.error .outOfBounds) := by
  obtain ⟨m₀, owns, full, hrep, -, hs, hpath⟩ := myAllocate_path h hr
  obtain ⟨harena, hfresh⟩ := not_or.mp hserves
  have harena : r.arenaFit P A = none := by simpa using harena
  by_cases hroom : pageEnd P P.firstPage A + P.sysconfPageSize + 64 ≤ P.top
  · have hfresh : r.pageFit P (freshPage P r.owner) = none := by
      simpa using fun hsome => hfresh ⟨hroom, hsome⟩
    have htaken : r.taken P A = none := by rw [Request.taken, harena, hfresh]; rfl
    exact (allocateFrom_exhaust hs hrep hstale hnext htaken).congr hpath
  · exact (allocateFrom_overrun hs hrep hstale harena (not_le.mp hroom)).congr hpath

theorem HasRoom.pageFit {p : ArenaPage} (hp : p.Valid P) (hown : r.Owns p) (hsize : 0 ≤ r.size)
    (h : HasRoom r.size p) : (r.pageFit P p).isSome := by
  obtain ⟨b, hb, hfree, hroom⟩ := h
  have hle := P.pageSize_le
  have htiles := hp.tiles
  have hused := allocatedExtent_add_free_le hp.blocks hb hfree
  have hnonneg := allocatedExtent_nonneg hp.blocks
  have hnotFull : ¬ r.FullFor P p := by
    unfold Request.FullFor ArenaPage.sizeOfAllocated
    split_ifs
    · omega
    · rw [toInt_of_range (by omega) (by omega)]
      omega
  rw [Request.pageFit, if_pos ⟨hown, hnotFull⟩, firstFit, List.find?_isSome]
  exact ⟨b, hb, by simp only [ArenaBlock.Takes, hfree, true_and, decide_eq_true_eq]; omega⟩

theorem FitsPage.serves (hvalid : ∀ p ∈ A, p.Valid P) (hsize : 0 ≤ r.size)
    (h : FitsPage P A r) : Serves P A r := by
  rcases h with ⟨p, hp, hown, hroom⟩ | ⟨hpage, hfresh⟩
  · left
    rw [Request.arenaFit, List.findSome?_isSome_iff]
    exact ⟨p, hp, hroom.pageFit (hvalid p hp) hown hsize⟩
  · refine Or.inr ⟨room_of_page hpage, HasRoom.pageFit (freshPage_valid _) ⟨rfl, fun hkind => ?_⟩
      hsize ⟨_, List.mem_singleton_self _, rfl, by simp only; omega⟩⟩
    exact if_neg (by simp [hkind])

/-- The call does what it should exactly when the request fits. -/
theorem comesBack_iff_fits (h : Holds P m A) (hvalid : ∀ p ∈ A, p.Valid P)
    (hstale : P.staleTmpPrev = null) (hnext : P.staleBlockNext = null)
    (hr : r.requestId ≠ .unknown) (hsize : 0 ≤ r.size) :
    ComesBack P m A r ↔ FitsPage P A r := by
  constructor
  · intro hback
    by_contra hunfit
    obtain ⟨m', hnull, _⟩ := hback.unfit hunfit
    obtain ⟨n, hn⟩ := hnull.exists_ok
    exact myAllocate_returns_ne_null hn rfl
  · intro hfits
    exact ⟨fun _ => myAllocate_serves h hstale hnext hr hsize (hfits.serves hvalid hsize),
      fun hunfit => absurd hfits hunfit⟩

theorem reachable_arena {calls : List (Request × ℤ)} (hstale : P.staleTmpPrev = null)
    (hnext : P.staleBlockNext = null)
    (hrun : Run (Guarded (Clears P) (Allocates P)) Memory.initial calls m) :
    ∃ A, Holds P m A ∧ ∀ p ∈ A, p.Valid P := by
  rcases accounts_of_run hstale hnext hrun with ⟨rfl, _⟩ | ⟨A, hrep, _⟩
  · exact ⟨[], Or.inl ⟨rfl, rfl⟩, by simp⟩
  · exact ⟨A, Or.inr hrep, hrep.valid⟩

/-- In every state that clean calls lead to, a call of either kind comes back as it
should exactly when the request fits. -/
theorem comes_back_iff {calls : List (Request × ℤ)} (hstale : P.staleTmpPrev = null)
    (hnext : P.staleBlockNext = null)
    (hrun : Run (Guarded (Clears P) (Allocates P)) Memory.initial calls m) :
    ∃ A, Holds P m A ∧ ∀ r : Request, r.requestId ≠ .unknown → 0 ≤ r.size →
      (ComesBack P m A r ↔ FitsPage P A r) := by
  obtain ⟨A, hA, hvalid⟩ := reachable_arena hstale hnext hrun
  exact ⟨A, hA, fun r hr hsize => comesBack_iff_fits hA hvalid hstale hnext hr hsize⟩

theorem comes_back_turns : ∃ m, Run (Guarded (Clears .typical) (Allocates .typical)) Memory.initial
      turns m ∧ ∃ A, Holds .typical m A ∧
        (ComesBack .typical m A bufferRequest ↔ FitsPage .typical A bufferRequest) := by
  obtain ⟨A, hA, -⟩ := map_eq_ok.mp turns_serve
  obtain ⟨m, hrun, -⟩ := run_of_serves (P := .typical) rfl rfl hA
  obtain ⟨A', hA', hiff⟩ := comes_back_iff rfl rfl hrun
  exact ⟨m, hrun, A', hA', hiff bufferRequest (by decide) (by decide)⟩

def stackRequest : Request := ⟨.libraryReq, 0, 8192, currTid_zero, by decide⟩

/-- On a fresh arena the stack request uses up every page and leaves the array. -/
theorem stackRequest_overruns : ¬ ComesBack .typical Memory.initial [] stackRequest ∧
    Settles (fun n => myAllocate .typical stackRequest n Memory.initial) (.error .outOfBounds) := by
  have hserves : ¬ Serves .typical [] stackRequest := by
    rintro (harena | ⟨_, hfresh⟩)
    · exact absurd harena (by decide)
    · exact absurd hfresh (by decide)
  have hunfit : ¬ FitsPage .typical [] stackRequest := by
    rintro (⟨p, hp, _⟩ | ⟨_, hroom⟩)
    · simp at hp
    · exact absurd hroom (by decide)
  have hover := myAllocate_overruns (P := .typical) (m := Memory.initial)
    (Or.inl ⟨rfl, rfl⟩) rfl rfl (by decide) hserves
  refine ⟨fun hback => ?_, hover⟩
  obtain ⟨m', hnull, _⟩ := hback.unfit hunfit
  obtain ⟨n, hn⟩ := hnull.exists_ok
  exact hover.not_ok n _ hn

end VirtualMemorySimulation.MemoryManager

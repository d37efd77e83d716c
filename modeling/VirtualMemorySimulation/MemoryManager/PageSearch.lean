import VirtualMemorySimulation.MemoryManager.BlockAllocation
import VirtualMemorySimulation.MemoryManager.PageAssignment

/-!
# Searching pages and allocating

Both allocation paths search the pages of their owner that do not count as full,
take the first block that fits, and otherwise assign a page and start again.
The recursion stops when a page of the arena or a fresh page has a block to
take, and leaves the array when neither ever does.
-/

namespace VirtualMemorySimulation.MemoryManager

open ByteRecords Execution

variable {P : Platform}

namespace Request

def ownerTid (r : Request) : ℤ := if r.requestId = .libraryReq then libraryTid else r.currTid

def owner (r : Request) : Owner :=
  { requestId := r.requestId
    tid := r.ownerTid
    tid_uint := by
      unfold ownerTid
      split_ifs
      · decide
      · exact r.currTid_uint }

/-- The page belongs to the caller; scheduler pages are told by their kind alone. -/
def Owns (r : Request) (p : ArenaPage) : Prop :=
  p.requestId = r.requestId ∧ (r.requestId = .threadReq → p.tid = r.currTid)

/-- The fullness test of the request's allocation path. -/
def FullFor (r : Request) (P : Platform) (p : ArenaPage) : Prop :=
  if r.requestId = .libraryReq then P.sysconfPageSize ≤ p.sizeOfAllocated
  else P.sysconfPageSize ≤ toInt (p.sizeOfAllocated + r.size)

def Searches (r : Request) (P : Platform) (p : ArenaPage) : Prop := r.Owns p ∧ ¬ r.FullFor P p

instance (r : Request) (p : ArenaPage) : Decidable (r.Owns p) := inferInstanceAs (Decidable (_ ∧ _))

instance (r : Request) (p : ArenaPage) : Decidable (r.FullFor P p) :=
  inferInstanceAs (Decidable (ite _ _ _))

instance (r : Request) (p : ArenaPage) : Decidable (r.Searches P p) :=
  inferInstanceAs (Decidable (_ ∧ _))

/-- The block that the request takes from a page. -/
def pageFit (r : Request) (P : Platform) (p : ArenaPage) : Option ArenaBlock :=
  if r.Searches P p then firstFit r.size p.blocks else none

/-- The block that the request takes from the pages already assigned. -/
def arenaFit (r : Request) (P : Platform) (A : Arena) : Option ArenaBlock :=
  A.findSome? (r.pageFit P)

/-- The block that the request takes, from the arena or else from a fresh page. -/
def taken (r : Request) (P : Platform) (A : Arena) : Option ArenaBlock :=
  (r.arenaFit P A).or (r.pageFit P (freshPage P r.owner))

end Request

theorem pageFit_some {r : Request} {p : ArenaPage} {b : ArenaBlock}
    (h : r.pageFit P p = some b) :
    r.Searches P p ∧ ∃ pre post, FitsAt r.size p.blocks pre b post := by
  unfold Request.pageFit at h
  split_ifs at h with hs
  exact ⟨hs, firstFit_some.mp h⟩

/-- The pages that the search passes, the one it allocates from, and the block there. -/
structure TakenAt (P : Platform) (r : Request) (A pre : Arena) (p : ArenaPage) (post : Arena)
    (bpre : List ArenaBlock) (b : ArenaBlock) (bpost : List ArenaBlock) : Prop where
  split : A = pre ++ p :: post
  passed : ∀ q ∈ pre, r.pageFit P q = none
  searches : r.Searches P p
  fit : FitsAt r.size p.blocks bpre b bpost

theorem arenaFit_some {r : Request} {A : Arena} {b : ArenaBlock} :
    r.arenaFit P A = some b ↔
      ∃ pre p post bpre bpost, TakenAt P r A pre p post bpre b bpost := by
  rw [Request.arenaFit, List.findSome?_eq_some_iff]
  constructor
  · rintro ⟨pre, p, post, hsplit, hfit, hpassed⟩
    obtain ⟨hsearches, bpre, bpost, hblock⟩ := pageFit_some hfit
    exact ⟨pre, p, post, bpre, bpost, hsplit, hpassed, hsearches, hblock⟩
  · rintro ⟨pre, p, post, bpre, bpost, h⟩
    refine ⟨pre, p, post, h.split, ?_, h.passed⟩
    rw [Request.pageFit, if_pos h.searches]
    exact firstFit_some.mpr ⟨bpre, bpost, h.fit⟩

theorem arenaFit_fresh (r : Request) (A : Arena) :
    r.arenaFit P (A ++ [freshPage P r.owner]) = r.taken P A := by
  simp [Request.arenaFit, Request.taken, List.findSome?_append]

/-- How the tests on stored page headers read on arena pages. -/
structure SearchesFor (P : Platform) (r : Request) (owns full : Page → Bool) : Prop where
  page : ∀ (p : ArenaPage) (a next : ℤ), p.Valid P →
    ((owns (p.header P a next) = true ∧ ¬ full (p.header P a next) = true) ↔ r.Searches P p)
  unassigned : ∀ a, ¬ owns (unassignPageOf a (P.top - 1) null) = true

section Search

variable {m : Memory} {r : Request} {owns full : Page → Bool}

theorem searchPages_searched {size : ℤ} {p : ArenaPage} {a next : ℤ} (n : ℕ)
    (hin : P.Inside a (recordSize Page)) (hload : load Page m.bytes a = p.header P a next)
    (hsearch : owns (p.header P a next) = true ∧ ¬ full (p.header P a next) = true) :
    searchPages P owns full size (n + 1) a m = allocateBlock P size a n m >>= fun res =>
      if res.1 ≠ null then .ok res else searchPages P owns full size n next res.2 := by
  have hpos := P.physicalMemory_pos
  have hlow := hin.1
  rw [searchPages, if_neg (by unfold null; omega), loadAt_ok hin, ok_bind, hload, if_pos hsearch]
  rfl

theorem searchPages_scan (hs : SearchesFor P r owns full) (a : ℤ) (pre post : Arena)
    {res : Except Stop (ℤ × Memory)} (h : PagesAt P m.bytes a (pre ++ post))
    (hvalid : ∀ p ∈ pre ++ post, p.Valid P) (ha : P.physicalMemory ≤ a)
    (hpassed : ∀ p ∈ pre, r.pageFit P p = none)
    (hend : Settles (fun n => searchPages P owns full r.size n (pageEnd P a pre) m) res) :
    Settles (fun n => searchPages P owns full r.size n a m) res := by
  have hlarge := P.pageSize_large
  have hpos := P.physicalMemory_pos
  induction pre generalizing a with
  | nil => simpa using hend
  | cons p pre ih =>
    rw [List.cons_append] at h
    obtain ⟨hload, hblocks, hrest⟩ := pagesAt_cons.mp h
    have hle := le_pageEnd (P := P) (a + P.sysconfPageSize) (pre ++ post)
    have hroom := hrest.1.rest.2
    have hp := hvalid p (by simp)
    have hin : P.Inside a (recordSize Page) := inside_page.mpr ⟨ha, by omega⟩
    rw [pageEnd_cons] at hend
    have htail := ih (a + P.sysconfPageSize) hrest (fun q hq => hvalid q (by simp at hq ⊢; tauto))
      (by omega) (fun q hq => hpassed q (by simp [hq])) hend
    have hnone := hpassed p (by simp)
    by_cases hsearch : r.Searches P p
    · rw [Request.pageFit, if_pos hsearch] at hnone
      refine Settles.succ rfl (fun n => searchPages_searched n hin hload
          ((hs.page p a _ hp).mpr hsearch))
        ((allocateBlock_none hload hblocks hp ha (by omega) hnone).bind ?_)
      simpa only [ne_eq, not_true_eq_false, if_false] using htail
    · refine Settles.succ rfl (fun n => ?_) htail
      rw [searchPages, if_neg (by unfold null; omega), loadAt_ok hin, ok_bind, hload,
        if_neg (mt (hs.page p a _ hp).mp hsearch)]
      rfl

theorem searchPages_none {A : Arena} (hs : SearchesFor P r owns full) (h : Represents P m A)
    (hnone : r.arenaFit P A = none) :
    Settles (fun n => searchPages P owns full r.size n P.firstPage m) (.ok (null, m)) := by
  have hpos := P.physicalMemory_pos
  have hfirst := P.firstPage_eq
  have hle := le_pageEnd (P := P) P.firstPage A
  have hrest := h.headers.rest
  refine searchPages_scan hs P.firstPage A [] (by simpa using h.pages) (by simpa using h.valid)
    (by omega) (List.findSome?_eq_none_iff.mp hnone) ?_
  have hin : P.Inside (pageEnd P P.firstPage A) (recordSize Page) :=
    inside_page.mpr ⟨by omega, by omega⟩
  have hnull : Settles (fun n => searchPages P owns full r.size n null m) (.ok (null, m)) :=
    Settles.succ rfl (fun n => by rw [searchPages, if_pos rfl]) (Settles.const _)
  refine Settles.succ rfl (fun n => ?_) hnull
  rw [searchPages, if_neg (by unfold null; omega), loadAt_ok hin, ok_bind, hrest.1,
    if_neg fun hsearch => hs.unassigned _ hsearch.1]
  rfl

def dataAddress (P : Platform) (pre : Arena) (bpre : List ArenaBlock) : ℤ :=
  pageEnd P P.firstPage pre + 64 + extent bpre + 40

def takenMemory (P : Platform) (m : Memory) (size : ℤ) (pre : Arena) (p : ArenaPage)
    (bpre : List ArenaBlock) (b : ArenaBlock) (bpost : List ArenaBlock) : Memory :=
  carved P m p (pageEnd P P.firstPage pre) (pageEnd P P.firstPage pre + P.sysconfPageSize) size
    bpre b bpost

variable {A pre post : Arena} {p : ArenaPage} {bpre bpost : List ArenaBlock} {b : ArenaBlock}

theorem TakenAt.dataAddress_pos (ht : TakenAt P r A pre p post bpre b bpost)
    (h : Represents P m A) : 0 < dataAddress P pre bpre := by
  have hpos := P.physicalMemory_pos
  have hfirst := P.firstPage_eq
  have hle := le_pageEnd (P := P) P.firstPage pre
  have hp := (h.valid p (by rw [ht.split]; simp)).blocks
  rw [ht.fit.split] at hp
  have hpre := extent_nonneg fun c hc => hp c (List.mem_append_left _ hc)
  unfold dataAddress
  omega

theorem Represents.page_room (h : Represents P m (pre ++ p :: post)) :
    P.firstPage ≤ pageEnd P P.firstPage pre ∧
      pageEnd P P.firstPage pre + P.sysconfPageSize + 96 ≤ P.top := by
  have hlarge := P.pageSize_large
  have hle := le_pageEnd (P := P) (pageEnd P P.firstPage pre + P.sysconfPageSize) post
  have hrest := rest_large (P := P) (pre ++ p :: post) (by have := h.headers.rest.2; omega)
  rw [pageEnd_append, pageEnd_cons] at hrest
  exact ⟨le_pageEnd _ _, by omega⟩

theorem searchPages_taken (hs : SearchesFor P r owns full) (h : Represents P m A)
    (ht : TakenAt P r A pre p post bpre b bpost) (hsize : 0 ≤ r.size) :
    Settles (fun n => searchPages P owns full r.size n P.firstPage m)
      (.ok (dataAddress P pre bpre, takenMemory P m r.size pre p bpre b bpost)) := by
  have hlarge := P.pageSize_large
  have hfirst := P.firstPage_eq
  have hne := ht.dataAddress_pos h
  obtain rfl := ht.split
  obtain ⟨hlow, hroom⟩ := h.page_room
  obtain ⟨hload, hblocks, _⟩ := pagesAt_cons.mp h.pages.drop
  have hp := h.valid p (by simp)
  have hin : P.Inside (pageEnd P P.firstPage pre) (recordSize Page) :=
    inside_page.mpr ⟨by omega, by omega⟩
  apply searchPages_scan hs P.firstPage pre (p :: post) h.pages h.valid (by omega) ht.passed
  refine Settles.succ rfl (fun n => searchPages_searched n hin hload
    ((hs.page p _ _ hp).mpr ht.searches))
    ((allocateBlock_take hload hblocks hp hin.1 (by omega) hsize ht.fit).bind ?_)
  exact (Settles.const _).congr fun n => if_pos hne.ne'

end Search

section Allocate

variable {m : Memory} {r : Request} {owns full : Page → Bool} {A : Arena}

/-- One round of the recursion: what the search found, or a page more and again. -/
theorem allocateFrom_succ (hhead : m.metadata.pageListHead = P.firstPage) (n : ℕ) :
    allocateFrom P owns full r.requestId r.ownerTid r.size (n + 1) m =
      searchPages P owns full r.size n P.firstPage m >>= fun res =>
        if res.1 ≠ null then .ok res else
          assignPage P r.requestId r.ownerTid n res.2 >>= fun m' =>
            allocateFrom P owns full r.requestId r.ownerTid r.size n m' := by
  rw [allocateFrom, hhead]

theorem allocateFrom_taken (hs : SearchesFor P r owns full) (h : Represents P m A)
    {pre post : Arena} {p : ArenaPage} {bpre bpost : List ArenaBlock} {b : ArenaBlock}
    (ht : TakenAt P r A pre p post bpre b bpost) (hsize : 0 ≤ r.size) :
    Settles (fun n => allocateFrom P owns full r.requestId r.ownerTid r.size n m)
      (.ok (dataAddress P pre bpre, takenMemory P m r.size pre p bpre b bpost)) := by
  refine Settles.succ rfl (allocateFrom_succ h.pageListHead)
    ((searchPages_taken hs h ht hsize).bind ?_)
  exact (Settles.const _).congr fun n => if_pos (ht.dataAddress_pos h).ne'

theorem allocateFrom_assign (hs : SearchesFor P r owns full) (h : Represents P m A)
    (hstale : P.staleTmpPrev = null) (hnone : r.arenaFit P A = none)
    (hroom : pageEnd P P.firstPage A + P.sysconfPageSize + 64 ≤ P.top)
    {res : Except Stop (ℤ × Memory)}
    (hnext : Settles (fun n => allocateFrom P owns full r.requestId r.ownerTid r.size n
      (assigned P m r.owner A)) res) :
    Settles (fun n => allocateFrom P owns full r.requestId r.ownerTid r.size n m) res := by
  refine Settles.succ rfl (allocateFrom_succ h.pageListHead) ((searchPages_none hs h hnone).bind ?_)
  simp only [ne_eq, not_true_eq_false, if_false]
  exact (h.toListsPages.assignPage (o := r.owner) hstale hroom).bind hnext

theorem allocateFrom_overrun (hs : SearchesFor P r owns full) (h : Represents P m A)
    (hstale : P.staleTmpPrev = null) (hnone : r.arenaFit P A = none)
    (hroom : P.top < pageEnd P P.firstPage A + P.sysconfPageSize + 64) :
    Settles (fun n => allocateFrom P owns full r.requestId r.ownerTid r.size n m)
      (.error .outOfBounds) := by
  refine Settles.succ rfl (allocateFrom_succ h.pageListHead) ((searchPages_none hs h hnone).bind ?_)
  simp only [ne_eq, not_true_eq_false, if_false]
  exact (h.toListsPages.assignPage_overrun (o := r.owner) hstale hroom).bind_error

/-- A request that not even a fresh page serves uses up the arena and leaves the array. -/
theorem allocateFrom_exhaust (hs : SearchesFor P r owns full) (h : Represents P m A)
    (hstale : P.staleTmpPrev = null) (hnext : P.staleBlockNext = null)
    (hnone : r.taken P A = none) :
    Settles (fun n => allocateFrom P owns full r.requestId r.ownerTid r.size n m)
      (.error .outOfBounds) := by
  have hlarge := P.pageSize_large
  -- each round shrinks the unassigned rest by a page
  induction hk : (P.top - pageEnd P P.firstPage A).toNat using Nat.strong_induction_on
    generalizing m A with
  | _ k ih =>
    have hA : r.arenaFit P A = none := (Option.or_eq_none_iff.mp hnone).1
    by_cases hroom : pageEnd P P.firstPage A + P.sysconfPageSize + 64 ≤ P.top
    · have hrep := h.assigned (o := r.owner) hstale hnext hroom
      refine allocateFrom_assign hs h hstale hA hroom (ih _ ?_ hrep ?_ rfl)
      · rw [pageEnd_append, pageEnd_cons, pageEnd_nil]
        omega
      · rw [Request.taken, arenaFit_fresh, hnone, Option.none_or]
        exact (Option.or_eq_none_iff.mp hnone).2
    · exact allocateFrom_overrun hs h hstale hA (not_le.mp hroom)

end Allocate

section Paths

variable {m : Memory} {r : Request} {A : Arena}

theorem searchesFor_scheduler (hr : r.requestId = .libraryReq)
    (hsize : m.metadata.pageSize = P.sysconfPageSize) :
    SearchesFor P r (fun pg => pg.requestId = RequestId.libraryReq.code)
      (fun pg => m.metadata.pageSize ≤ pg.sizeOfAllocated) := by
  constructor
  · intro p a next _
    simp [Request.Searches, Request.Owns, Request.FullFor, hr, hsize,
      RequestId.code_injective.eq_iff]
  · intro a
    simp [RequestId.code]

theorem searchesFor_thread (hr : r.requestId = .threadReq)
    (hsize : m.metadata.pageSize = P.sysconfPageSize) :
    SearchesFor P r
      (fun pg => pg.requestId = RequestId.threadReq.code ∧ pg.tid = r.currTid)
      (fun pg => m.metadata.pageSize ≤ toInt (pg.sizeOfAllocated + r.size)) := by
  constructor
  · intro p a next _
    simp [Request.Searches, Request.Owns, Request.FullFor, hr, hsize,
      RequestId.code_injective.eq_iff]
  · intro a
    simp [RequestId.code]

/-- The arena that `my_allocate` starts from: empty when it still has to initialise. -/
def Holds (P : Platform) (m : Memory) (A : Arena) : Prop :=
  m.initialized = false ∧ A = [] ∨ Represents P m A

/-- `my_allocate` is the allocation path of its kind, on an initialised arena. -/
theorem myAllocate_path (h : Holds P m A) (hr : r.requestId ≠ .unknown) :
    ∃ m' owns full, Represents P m' A ∧ (m.initialized = true → m' = m) ∧
      SearchesFor P r owns full ∧ ∀ n, myAllocate P r n m =
        allocateFrom P owns full r.requestId r.ownerTid r.size n m' := by
  obtain ⟨m', hinit, hrep, hsame⟩ : ∃ m',
      (if m.initialized then .ok m else initMemoryMetadata P m) = Except.ok m' ∧
        Represents P m' A ∧ (m.initialized = true → m' = m) := by
    rcases h with ⟨hfalse, rfl⟩ | hrep
    · obtain ⟨m', hm', hrep⟩ := initMemoryMetadata_represents (P := P) m
      exact ⟨m', by rw [hfalse]; exact hm', hrep, by simp [hfalse]⟩
    · exact ⟨m, by rw [hrep.initialized]; rfl, hrep, fun _ => rfl⟩
  cases hkind : r.requestId with
  | unknown => exact absurd hkind hr
  | libraryReq =>
    refine ⟨m', _, _, hrep, hsame, searchesFor_scheduler hkind hrep.pageSize, fun n => ?_⟩
    rw [myAllocate, hinit, ok_bind, hkind, Request.ownerTid, if_pos hkind]
    rfl
  | threadReq =>
    refine ⟨m', _, _, hrep, hsame, searchesFor_thread hkind hrep.pageSize, fun n => ?_⟩
    rw [myAllocate, hinit, ok_bind, hkind, Request.ownerTid, if_neg (by simp [hkind])]
    rfl

end Paths

section Outcomes

variable {m : Memory} {r : Request} {A : Arena}

theorem myAllocate_known {n : ℕ} {res : ℤ × Memory} (hret : myAllocate P r n m = .ok res) :
    r.requestId ≠ .unknown := by
  intro hr
  unfold myAllocate at hret
  rw [hr] at hret
  cases hinit : (if m.initialized then .ok m else initMemoryMetadata P m : Except Stop Memory) <;>
    rw [hinit] at hret <;> cases hret

theorem allocateFrom_returns {owns full : Page → Bool} (hs : SearchesFor P r owns full)
    (h : Represents P m A) (hstale : P.staleTmpPrev = null) (hnext : P.staleBlockNext = null)
    (hsize : 0 ≤ r.size) {n : ℕ} {v : ℤ} {m' : Memory}
    (hret : allocateFrom P owns full r.requestId r.ownerTid r.size n m = .ok (v, m')) :
    ∃ m₀ A₀ pre p post bpre b bpost, Represents P m₀ A₀ ∧
      (m₀ = m ∧ A₀ = A ∨ m₀ = assigned P m r.owner A ∧ A₀ = A ++ [freshPage P r.owner]) ∧
      r.taken P A = some b ∧ TakenAt P r A₀ pre p post bpre b bpost ∧
      v = dataAddress P pre bpre ∧ m' = takenMemory P m₀ r.size pre p bpre b bpost := by
  cases hfit : r.arenaFit P A with
  | some b =>
    obtain ⟨pre, p, post, bpre, bpost, ht⟩ := arenaFit_some.mp hfit
    cases (allocateFrom_taken hs h ht hsize).eq_of_ok hret
    exact ⟨m, A, pre, p, post, bpre, b, bpost, h, Or.inl ⟨rfl, rfl⟩, by simp [Request.taken, hfit],
      ht, rfl, rfl⟩
  | none =>
    by_cases hroom : pageEnd P P.firstPage A + P.sysconfPageSize + 64 ≤ P.top
    · have hrep' := h.assigned (o := r.owner) hstale hnext hroom
      cases htaken : r.taken P A with
      | none => cases (allocateFrom_exhaust hs h hstale hnext htaken).eq_of_ok hret
      | some b =>
        obtain ⟨pre, p, post, bpre, bpost, ht⟩ := arenaFit_some.mp ((arenaFit_fresh r A).trans htaken)
        cases (allocateFrom_assign hs h hstale hfit hroom
          (allocateFrom_taken hs hrep' ht hsize)).eq_of_ok hret
        exact ⟨_, _, pre, p, post, bpre, b, bpost, hrep', Or.inr ⟨rfl, rfl⟩, rfl, ht, rfl, rfl⟩
    · cases (allocateFrom_overrun hs h hstale hfit (not_le.mp hroom)).eq_of_ok hret

/-- A call that comes back took a block: one of the arena, or the one of a fresh page. -/
theorem myAllocate_returns (h : Holds P m A) (hstale : P.staleTmpPrev = null)
    (hnext : P.staleBlockNext = null) (hsize : 0 ≤ r.size) {n : ℕ} {v : ℤ} {m' : Memory}
    (hret : myAllocate P r n m = .ok (v, m')) :
    ∃ m₀ A₀ pre p post bpre b bpost, Represents P m₀ A₀ ∧
      (A₀ = A ∨ A₀ = A ++ [freshPage P r.owner]) ∧ r.taken P A = some b ∧
      TakenAt P r A₀ pre p post bpre b bpost ∧ v = dataAddress P pre bpre ∧
      m' = takenMemory P m₀ r.size pre p bpre b bpost := by
  obtain ⟨m₁, owns, full, hrep, -, hs, hpath⟩ := myAllocate_path h (myAllocate_known hret)
  rw [hpath] at hret
  obtain ⟨m₀, A₀, pre, p, post, bpre, b, bpost, hrep₀, hA₀, htaken⟩ :=
    allocateFrom_returns hs hrep hstale hnext hsize hret
  exact ⟨m₀, A₀, pre, p, post, bpre, b, bpost, hrep₀, hA₀.imp And.right And.right, htaken⟩

end Outcomes

end VirtualMemorySimulation.MemoryManager

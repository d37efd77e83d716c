import VirtualMemorySimulation.MemoryManager.Clients
import VirtualMemorySimulation.MemoryManager.PageChain

/-!
# Which page a request is served from

Both allocation paths walk the whole page list before they assign a page, but
each skips the pages that its own test calls full. On a list whose pages account
for their blocks, neither test hides a free block with room for the request. A call
scans once more after each page that it assigns.
-/

namespace VirtualMemorySimulation.MemoryManager

open ByteRecords Execution

variable {P : Platform}

/-- The two allocation paths, with the tid that `get_current_tid()` answers. -/
inductive Path where
  | scheduler
  | thread (currTid : ℤ)

namespace Path

def owns : Path → Page → Bool
  | .scheduler, pg => pg.requestId = RequestId.libraryReq.code
  | .thread currTid, pg => pg.requestId = RequestId.threadReq.code ∧ pg.tid = currTid

def full (pageSize size : ℤ) : Path → Page → Bool
  | .scheduler, pg => pageSize ≤ pg.sizeOfAllocated
  | .thread _, pg => pageSize ≤ toInt (pg.sizeOfAllocated + size)

/-- What the path passes to `assign_page`. -/
def requestId : Path → RequestId
  | .scheduler => .libraryReq
  | .thread _ => .threadReq

def tid : Path → ℤ
  | .scheduler => libraryTid
  | .thread currTid => currTid

/-- `allocate_for_scheduler` or `allocate_for_thread`. -/
def allocate (P : Platform) (size : ℤ) (fuel : ℕ) (m : Memory) : Path → Except Stop (ℤ × Memory)
  | .scheduler => allocateForScheduler P size fuel m
  | .thread currTid => allocateForThread P currTid size fuel m

def search (P : Platform) (size : ℤ) (m : Memory) (path : Path) (fuel : ℕ) :
    Except Stop (ℤ × Memory) :=
  searchPages P path.owns (path.full m.metadata.pageSize size) size fuel m.metadata.pageListHead m

/-- The memories that a call made on `m` scans: `m`, and each one that `assign_page` leaves
after a scan that has found nothing. -/
inductive Scans (P : Platform) (size : ℤ) (path : Path) (m : Memory) : Memory → Prop
  | first : Scans P size path m m
  | again {m₁ m₂ m₃ : Memory} : Scans P size path m m₁ →
      Settles (path.search P size m₁) (.ok (null, m₂)) →
      Settles (fun n => assignPage P path.requestId path.tid n m₂) (.ok m₃) → Scans P size path m m₃

end Path

/-- No free block of the page has room for the request. -/
def Exhausted (size : ℤ) (page : Page × List Block) : Prop := ∀ b ∈ page.2, ¬ b.HasRoom size

/-- The first block that fits in the first page of the owner that is not exhausted. -/
structure ChosenAt (path : Path) (size : ℤ) (pages pre : List (Page × List Block)) (pg : Page)
    (bpre : List Block) (b : Block) (bpost : List Block) (post : List (Page × List Block)) :
    Prop where
  split : pages = pre ++ (pg, bpre ++ b :: bpost) :: post
  passed : ∀ page ∈ pre, path.owns page.1 → Exhausted size page
  owned : path.owns pg
  takes : b.Takes size

/-- What a scan does that passes only pages of other owners and exhausted ones. The header
of what is left of the block may lie outside the array. -/
inductive Chooses (P : Platform) (path : Path) (size : ℤ) (m : Memory)
    (pages : List (Page × List Block)) : Except Stop (ℤ × Memory) → Prop
  | none : (∀ page ∈ pages, path.owns page.1 → Exhausted size page) →
      Chooses P path size m pages (.ok (null, m))
  | taken {pre post : List (Page × List Block)} {pg : Page} {bpre bpost : List Block} {b : Block} :
      ChosenAt path size pages pre pg bpre b bpost post → HeaderFits P b size →
      P.physicalMemory ≤ b.blockAddress →
      Chooses P path size m pages
        (.ok (b.blockAddress + 40,
          { m with bytes := takeStore pg b size (prevOf null bpre) m.bytes }))
  | overrun {pre post : List (Page × List Block)} {pg : Page} {bpre bpost : List Block}
      {b : Block} :
      ChosenAt path size pages pre pg bpre b bpost post → ¬ HeaderFits P b size →
      Chooses P path size m pages (.error .outOfBounds)

section Scan

variable {path : Path} {m : Memory} {size : ℤ} {pg : Page} {bs : List Block}
  {pages : List (Page × List Block)}

theorem Path.owns_known (h : path.owns pg = true) : pg.requestId ≠ RequestId.unknown.code := by
  intro heq
  cases path with
  | scheduler => exact absurd (heq.symm.trans (of_decide_eq_true h)) (by decide)
  | thread currTid => exact absurd (heq.symm.trans (of_decide_eq_true h).1) (by decide)

theorem Path.full_exhausted (h : path.full m.metadata.pageSize size pg = true) (hsize : 0 ≤ size)
    (hpage : TiledPage P m.bytes pg bs)
    (hend : pg.endAddress + 1 = pg.startAddress + m.metadata.pageSize) :
    Exhausted size (pg, bs) := by
  intro b hb hroom
  have htop := P.top_eq
  have hlow := hpage.low
  have hhigh := hpage.high
  have haccount := hpage.accounting
  have hsum := hpage.tiles.allocatedTotal_le
  have hfree := hpage.tiles.allocatedTotal_add_free_le hb hroom.1
  have hfits := hroom.2
  cases path with
  | scheduler =>
    have hfull : m.metadata.pageSize ≤ pg.sizeOfAllocated := of_decide_eq_true h
    omega
  | thread currTid =>
    have hfull : m.metadata.pageSize ≤ toInt (pg.sizeOfAllocated + size) := of_decide_eq_true h
    rw [toInt_of_range (by omega) (by omega)] at hfull
    omega

theorem ChosenAt.cons {pre post : List (Page × List Block)} {pg' : Page} {bpre bpost : List Block}
    {b : Block} (h : ChosenAt path size pages pre pg' bpre b bpost post)
    (hpassed : path.owns pg → Exhausted size (pg, bs)) :
    ChosenAt path size ((pg, bs) :: pages) ((pg, bs) :: pre) pg' bpre b bpost post where
  split := by rw [h.split, List.cons_append]
  passed := List.forall_mem_cons.mpr ⟨hpassed, h.passed⟩
  owned := h.owned
  takes := h.takes

theorem Chooses.cons {r : Except Stop (ℤ × Memory)} (h : Chooses P path size m pages r)
    (hpassed : path.owns pg → Exhausted size (pg, bs)) :
    Chooses P path size m ((pg, bs) :: pages) r := by
  cases h with
  | none hall => exact .none (List.forall_mem_cons.mpr ⟨hpassed, hall⟩)
  | taken hchosen hheader hlow => exact .taken (hchosen.cons hpassed) hheader hlow
  | overrun hchosen hheader => exact .overrun (hchosen.cons hpassed) hheader

/-- The scan of a page list comes to an end, and chooses the first page it may. -/
theorem searchPages_chooses {full : Page → Bool} (hsize : 0 ≤ size)
    (hfull : full = path.full m.metadata.pageSize size) {a : ℤ} (h : PageChain P m a pages) :
    ∃ r, Settles (fun n => searchPages P path.owns full size n a m) r ∧
      Chooses P path size m pages r := by
  have hpos := P.physicalMemory_pos
  induction pages generalizing a with
  | nil =>
    obtain rfl : a = null := h
    exact ⟨_, Settles.succ rfl (fun n => by rw [searchPages, if_pos rfl]) (Settles.const _),
      .none (by simp)⟩
  | cons page pages ih =>
    obtain ⟨pg, bs⟩ := page
    obtain ⟨hin, hload, rfl, htiled, hrest⟩ := h
    obtain ⟨r, hr, hchooses⟩ := ih hrest
    have hne : pg.startAddress ≠ null := by
      have := hin.1
      unfold null
      omega
    have hstep : ∀ n, searchPages P path.owns full size (n + 1) pg.startAddress m = _ := fun n => by
      rw [searchPages, if_neg hne, loadAt_ok hin, ok_bind, hload]
    by_cases hsearch : path.owns pg ∧ ¬ full pg
    · obtain ⟨hpage, -⟩ := htiled (Path.owns_known hsearch.1)
      simp only [if_pos hsearch] at hstep
      cases hfirst : firstTaken size bs with
      | none =>
        have hnot := firstTaken_none.mp hfirst
        refine ⟨r, Settles.succ rfl hstep ((allocateBlock_takes_none hpage hfirst).bind ?_),
          hchooses.cons fun _ b hb hroom => hnot b hb hroom.takes⟩
        simpa only [ne_eq, not_true_eq_false, if_false] using hr
      | some b =>
        obtain ⟨htakes, bpre, bpost, rfl, hpassed⟩ := firstTaken_some.mp hfirst
        obtain ⟨hok, herror⟩ := allocateBlock_takes hpage htakes hpassed hsize
        have hlow := hpage.low
        have hblock := (hpage.tiles.mem_bounds (b := b) (by simp)).2.2.1
        have hchosen : ChosenAt path size ((pg, bpre ++ b :: bpost) :: pages) [] pg bpre b bpost
            pages := ⟨rfl, by simp, hsearch.1, htakes⟩
        by_cases hheader : HeaderFits P b size
        · refine ⟨_, Settles.succ rfl hstep ((hok hheader).bind ?_),
            .taken hchosen hheader (by omega)⟩
          exact (Settles.const _).congr fun n => if_pos (by unfold null; omega)
        · exact ⟨_, Settles.succ rfl hstep (herror hheader).bind_error, .overrun hchosen hheader⟩
    · simp only [if_neg hsearch] at hstep
      refine ⟨r, Settles.succ rfl hstep hr, hchooses.cons fun howns => ?_⟩
      obtain ⟨hpage, hend⟩ := htiled (Path.owns_known howns)
      have hfull' : full pg = true := by simpa [howns] using hsearch
      rw [hfull] at hfull'
      exact Path.full_exhausted hfull' hsize hpage hend

theorem Chooses.exhausted {r : Except Stop (ℤ × Memory)} {m' : Memory}
    (h : Chooses P path size m pages r) (hr : r = .ok (null, m')) :
    m' = m ∧ ∀ page ∈ pages, path.owns page.1 → Exhausted size page := by
  have hpos := P.physicalMemory_pos
  cases h with
  | none hall => exact ⟨(congrArg Prod.snd (Except.ok.inj hr)).symm, hall⟩
  | taken _ _ hlow =>
    have hnull := congrArg Prod.fst (Except.ok.inj hr)
    simp only [null] at hnull
    omega
  | overrun => cases hr

end Scan

/-- The scans of a call. Each one of a list whose pages are tiled comes to an end and chooses
the first page it may, so that a page is assigned only when no page of the owner has a free
block with room; what the call returns is what one of its scans has found; and `assign_page`
leaves the page list as the next scan needs it. -/
structure FirstFit (P : Platform) (m : Memory) (pages : List (Page × List Block)) (size : ℤ)
    (path : Path) : Prop where
  scans : ∀ m₁ pages₁, path.Scans P size m m₁ →
    PageChain P m₁ m₁.metadata.pageListHead pages₁ →
    ∃ r, Settles (path.search P size m₁) r ∧ Chooses P path size m₁ pages₁ r
  assigns : ∀ m₁ pages₁ m₂, path.Scans P size m m₁ →
    PageChain P m₁ m₁.metadata.pageListHead pages₁ →
    Settles (path.search P size m₁) (.ok (null, m₂)) →
    m₂ = m₁ ∧ ∀ page ∈ pages₁, path.owns page.1 → Exhausted size page
  serves : ∀ v m', Settles (fun n => path.allocate P size n m) (.ok (v, m')) ↔ v ≠ null ∧
    ∃ m₁, path.Scans P size m m₁ ∧ Settles (path.search P size m₁) (.ok (v, m'))
  keeps : PagesApart P m pages → P.staleTmpPrev = null → P.staleBlockNext = null →
    0 ≤ path.tid ∧ path.tid < 4294967296 → ∀ m₁, path.Scans P size m m₁ →
    ∃ pages₁, PageChain P m₁ m₁.metadata.pageListHead pages₁ ∧ PagesApart P m₁ pages₁

section Calls

variable {m m' : Memory} {size v : ℤ} {path : Path} {pages : List (Page × List Block)}

theorem allocateBlock_metadata {pageAddress : ℤ} {n : ℕ}
    (h : allocateBlock P size pageAddress n m = .ok (v, m')) : m'.metadata = m.metadata := by
  obtain ⟨pg, -, h⟩ := bind_eq_ok.mp h
  rw [allocateBlockLoop_eq] at h
  obtain ⟨found, -, h⟩ := bind_eq_ok.mp h
  cases found with
  | none =>
    obtain ⟨-, rfl⟩ := Prod.mk.inj (Except.ok.inj h)
    rfl
  | some found => exact (takeBlock_ok h).2

theorem searchPages_metadata {owns full : Page → Bool} {n : ℕ} {a : ℤ}
    (h : searchPages P owns full size n a m = .ok (v, m')) : m'.metadata = m.metadata := by
  induction n generalizing a m with
  | zero => cases h
  | succ n ih =>
    unfold searchPages at h
    split_ifs at h
    · obtain ⟨-, rfl⟩ := Prod.mk.inj (Except.ok.inj h)
      rfl
    · obtain ⟨pg, -, h⟩ := bind_eq_ok.mp h
      split_ifs at h
      · obtain ⟨⟨w, m₁⟩, hblock, h⟩ := bind_eq_ok.mp h
        have hsame := allocateBlock_metadata hblock
        simp only at h
        split_ifs at h
        · obtain ⟨-, rfl⟩ := Prod.mk.inj (Except.ok.inj h)
          exact hsame
        · exact (ih h).trans hsame
      · exact ih h

theorem scanPages_extends (n : ℕ) (a tmpPrev : ℤ) :
    Extends (scanPages P n a tmpPrev m) (scanPages P (n + 1) a tmpPrev m) := by
  induction n generalizing a tmpPrev with
  | zero => exact Or.inl rfl
  | succ n ih =>
    rw [scanPages, scanPages]
    split_ifs
    · exact .refl _
    · refine (Extends.refl _).bind fun pg => ?_
      split_ifs
      · exact .refl _
      · exact ih _ _

theorem assignPage_extends (requestId : RequestId) (tid : ℤ) (n : ℕ) :
    Extends (assignPage P requestId tid n m) (assignPage P requestId tid (n + 1) m) := by
  rw [assignPage, assignPage, assignPageLoop_eq, assignPageLoop_eq]
  exact (scanPages_extends n _ _).bind fun found => .refl _

theorem scanBlocks_extends (n : ℕ) (a tmpPrev : ℤ) :
    Extends (scanBlocks P size n a tmpPrev m) (scanBlocks P size (n + 1) a tmpPrev m) := by
  induction n generalizing a tmpPrev with
  | zero => exact Or.inl rfl
  | succ n ih =>
    rw [scanBlocks, scanBlocks]
    split_ifs
    · exact .refl _
    · refine (Extends.refl _).bind fun blk => ?_
      split_ifs
      · exact .refl _
      · exact ih _ _

theorem searchPages_extends (owns full : Page → Bool) (n : ℕ) (a : ℤ) :
    Extends (searchPages P owns full size n a m) (searchPages P owns full size (n + 1) a m) := by
  induction n generalizing a m with
  | zero => exact Or.inl rfl
  | succ n ih =>
    rw [searchPages, searchPages]
    split_ifs
    · exact .refl _
    · refine (Extends.refl _).bind fun pg => ?_
      split_ifs
      · refine Extends.bind ((Extends.refl _).bind fun currentPage => ?_) fun found => ?_
        · rw [allocateBlockLoop_eq, allocateBlockLoop_eq]
          exact (scanBlocks_extends n _ _).bind fun found => .refl _
        · simp only
          split_ifs
          · exact .refl _
          · exact ih _
      · exact ih _

theorem Path.Scans.found {n : ℕ} {m₁ : Memory} (h : path.Scans P size m m₁)
    (hsize : m₁.metadata.pageSize = m.metadata.pageSize)
    (hret : allocateFrom P path.owns (path.full m.metadata.pageSize size) path.requestId path.tid
      size n m₁ = .ok (v, m')) :
    v ≠ null ∧ ∃ m₂, path.Scans P size m m₂ ∧ Settles (path.search P size m₂) (.ok (v, m')) := by
  induction n generalizing m₁ with
  | zero => cases hret
  | succ n ih =>
    obtain ⟨⟨w, m₂⟩, hsearch, hret⟩ := bind_eq_ok.mp hret
    rw [← hsize] at hsearch
    have hsettles : Settles (path.search P size m₁) (.ok (w, m₂)) :=
      .of_extends (fun n => searchPages_extends _ _ n _) hsearch
    by_cases hfound : w ≠ null
    · simp only [if_pos hfound] at hret
      obtain ⟨rfl, rfl⟩ := Prod.mk.inj (Except.ok.inj hret)
      exact ⟨hfound, m₁, h, hsettles⟩
    · simp only [if_neg hfound] at hret
      obtain rfl := not_not.mp hfound
      obtain ⟨m₃, hassign, hret⟩ := bind_eq_ok.mp hret
      refine ih (h.again hsettles (.of_extends (assignPage_extends _ _) hassign)) ?_ hret
      rw [assignPage_metadata hassign, searchPages_metadata hsearch, hsize]

theorem Path.Scans.pageSize {m₁ : Memory} (h : path.Scans P size m m₁) :
    m₁.metadata.pageSize = m.metadata.pageSize := by
  induction h with
  | first => rfl
  | again _ hsearch hassign ih =>
    obtain ⟨n, hn⟩ := hsearch.exists_ok
    obtain ⟨k, hk⟩ := hassign.exists_ok
    rw [assignPage_metadata hk, searchPages_metadata hn, ih]

theorem Path.Scans.search {m₁ : Memory} {res : Except Stop (ℤ × Memory)}
    (h : path.Scans P size m m₁) (hsearch : Settles (path.search P size m₁) res) :
    Settles (fun n => searchPages P path.owns (path.full m.metadata.pageSize size) size n
      m₁.metadata.pageListHead m₁) res := by
  rw [← h.pageSize]
  exact hsearch

theorem Path.allocate_eq (path : Path) (n : ℕ) (m : Memory) : path.allocate P size n m =
    allocateFrom P path.owns (path.full m.metadata.pageSize size) path.requestId path.tid size n
      m := by
  cases path <;> rfl

theorem Path.Scans.allocate {m₁ : Memory} {r : Except Stop (ℤ × Memory)}
    (h : path.Scans P size m m₁)
    (hr : Settles (fun n => allocateFrom P path.owns (path.full m.metadata.pageSize size)
      path.requestId path.tid size n m₁) r) :
    Settles (fun n => path.allocate P size n m) r := by
  induction h with
  | first => exact hr.congr fun n => Path.allocate_eq ..
  | again hscans hsearch hassign ih =>
    refine ih (Settles.succ rfl (fun n => rfl) ((hscans.search hsearch).bind ?_))
    simp only [ne_eq, not_true_eq_false, if_false]
    exact hassign.bind hr

/-- A call comes back with what one of its scans has found. -/
theorem Path.allocate_settles : Settles (fun n => path.allocate P size n m) (.ok (v, m')) ↔
    v ≠ null ∧ ∃ m₁, path.Scans P size m m₁ ∧ Settles (path.search P size m₁) (.ok (v, m')) := by
  constructor
  · intro h
    obtain ⟨n, hn⟩ := h.exists_ok
    rw [Path.allocate_eq] at hn
    exact Path.Scans.first.found rfl hn
  · rintro ⟨hv, m₁, hscans, hsearch⟩
    refine hscans.allocate (Settles.succ rfl (fun n => rfl) ((hscans.search hsearch).bind ?_))
    exact (Settles.const _).congr fun n => if_pos hv

/-- Each scan of a call finds a list of the kind that the call was made on. -/
theorem Path.Scans.chain (h : PageChain P m m.metadata.pageListHead pages)
    (hapart : PagesApart P m pages) (hsize : 0 ≤ size) (hstale : P.staleTmpPrev = null)
    (hnext : P.staleBlockNext = null) (htid : 0 ≤ path.tid ∧ path.tid < 4294967296) {m₁ : Memory}
    (hscans : path.Scans P size m m₁) :
    ∃ pages₁, PageChain P m₁ m₁.metadata.pageListHead pages₁ ∧ PagesApart P m₁ pages₁ := by
  induction hscans with
  | first => exact ⟨pages, h, hapart⟩
  | again hscans hsearch hassign ih =>
    obtain ⟨pages₁, hchain, hpages⟩ := ih
    obtain ⟨r, hr, hchooses⟩ := searchPages_chooses (P := P) hsize rfl hchain
    obtain ⟨rfl, -⟩ := hchooses.exhausted (hr.unique hsearch)
    obtain ⟨n, hn⟩ := hassign.exists_ok
    exact assignPage_chain (o := ⟨path.requestId, path.tid, htid⟩) hchain hpages hstale hnext hn

/-- On either path a page is assigned only when no page of the owner has a free block with
room for the request, and the block that is turned into the result lies in a page of the
owner such that no earlier one has such a block. -/
theorem page_choice (h : PageChain P m m.metadata.pageListHead pages) (hsize : 0 ≤ size)
    (path : Path) : FirstFit P m pages size path where
  scans _ _ _ hchain := searchPages_chooses hsize rfl hchain
  assigns m₁ pages₁ m₂ _ hchain hsearch := by
    obtain ⟨r, hr, hchooses⟩ := searchPages_chooses (P := P) hsize rfl hchain
    exact hchooses.exhausted (hr.unique hsearch)
  serves _ _ := Path.allocate_settles
  keeps hapart hstale hnext htid m₁ := Path.Scans.chain h hapart hsize hstale hnext htid

def largeRequest : Request := ⟨.libraryReq, 0, 3000, currTid_zero, bufferRequest.size_int⟩

/-- Two pages of the scheduler, with one of thread 1 between them. -/
def threePages : List (SeparateBlocks.Action Call UInt8) :=
  [.call (.allocate largeRequest), .call (.allocate nodeRequest), .call (.allocate largeRequest),
    .call (.allocate smallRequest)]

/-- The first page of the scheduler has no room for 900 bytes more, its second one has. -/
def threePagesArena : Arena :=
  [⟨.libraryReq, libraryTid, [⟨.allocated, 3000, 3040⟩, ⟨.allocated, 100, 140⟩,
      ⟨.unallocated, 0, 852⟩]⟩,
    ⟨.threadReq, 1, [⟨.allocated, 24, 64⟩, ⟨.unallocated, 0, 3968⟩]⟩,
    ⟨.libraryReq, libraryTid, [⟨.allocated, 3000, 3040⟩, ⟨.unallocated, 0, 992⟩]⟩]

theorem threePages_ledger :
    (runAll (Ledger.exec .typical) threePages .initial).map Ledger.arena = .ok threePagesArena := by
  decide +kernel

/-- The scheduler owns the first and the third page, and the first one is exhausted. -/
theorem page_choice_thirdPage : ∃ s, Run (manager .typical).Step .initial threePages s ∧
    FirstFit .typical s.memory (storedPages .typical 65568 threePagesArena) 900 .scheduler ∧
    (storedPages .typical 65568 threePagesArena).map
        (fun page => (Path.scheduler.owns page.1, decide (∀ b ∈ page.2, ¬ b.HasRoom 900))) =
      [(true, true), (false, false), (true, false), (false, true)] := by
  obtain ⟨t, ht, harena⟩ := map_eq_ok.mp threePages_ledger
  obtain ⟨s, hrun, htracks⟩ := run_of_ledger (P := .typical) rfl rfl ht
  have hrep : Represents .typical s.memory threePagesArena := by
    rcases htracks.holds with ⟨-, hnil⟩ | hrep
    · rw [harena] at hnil
      cases hnil
    · rwa [harena] at hrep
  exact ⟨s, hrun, page_choice hrep.chain.1 (by decide) .scheduler, by decide +kernel⟩

end Calls

end VirtualMemorySimulation.MemoryManager

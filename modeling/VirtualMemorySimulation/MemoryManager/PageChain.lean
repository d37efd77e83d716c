import VirtualMemorySimulation.MemoryManager.PageAssignment
import VirtualMemorySimulation.MemoryManager.TiledPage

/-!
# Page lists of any shape

The pages of these lists lie anywhere in the array, in any order and with any owners. What
an owned page holds is tiled by its blocks. `assign_page` turns the unassigned page of such
a list into an owned one and leaves a list of the same kind.
-/

namespace VirtualMemorySimulation.MemoryManager

open ByteRecords Execution

variable {P : Platform}

/-- The page list from `a`, with the blocks of its pages. A page that has an owner is
tiled by its blocks over one page's bytes. -/
def PageChain (P : Platform) (m : Memory) : ℤ → List (Page × List Block) → Prop
  | a, [] => a = null
  | a, (pg, bs) :: pages =>
      P.Inside a (recordSize Page) ∧ load Page m.bytes a = pg ∧ pg.startAddress = a ∧
        (pg.requestId ≠ RequestId.unknown.code → TiledPage P m.bytes pg bs ∧
          pg.endAddress + 1 = pg.startAddress + m.metadata.pageSize) ∧
        PageChain P m pg.next pages

def Page.Apart (p q : Page) : Prop :=
  p.endAddress < q.startAddress ∨ q.endAddress < p.startAddress

/-- The pages lie apart, and what is unassigned reaches to the end of the array. -/
structure PagesApart (P : Platform) (m : Memory) (pages : List (Page × List Block)) : Prop where
  pageSize : m.metadata.pageSize = P.sysconfPageSize
  apart : pages.Pairwise fun p q => p.1.Apart q.1
  header : ∀ page ∈ pages, page.1.startAddress + 64 ≤ page.1.endAddress + 1
  unassigned : ∀ page ∈ pages, page.1.state = PageState.unassigned.code →
    page.1.endAddress + 1 = P.top

section Chains

variable {m m' : Memory} {a : ℤ} {pg : Page} {bs : List Block}
  {pages pre post rest rest' new : List (Page × List Block)}

theorem TiledPage.congr {b b' : Store} (h : TiledPage P b pg bs)
    (hheader : load Page b' pg.startAddress = pg)
    (hbytes : ∀ y, pg.startAddress + 64 ≤ y → y ≤ pg.endAddress → b' y = b y) :
    TiledPage P b' pg bs := by
  refine ⟨hheader, h.head, h.tiles.congr fun c hc => ?_, h.accounting, h.low, h.high⟩
  have hbounds := h.tiles.mem_bounds hc
  refine load_congr fun y hy hy' => hbytes y (by omega) ?_
  rw [recordSize_block] at hy'
  omega

/-- The page is in another memory as it was. -/
def Kept (m m' : Memory) (page : Page × List Block) : Prop :=
  load Page m'.bytes page.1.startAddress = page.1 ∧
    ∀ y, page.1.startAddress + 64 ≤ y → y ≤ page.1.endAddress → m'.bytes y = m.bytes y

theorem PageChain.keep (h : PageChain P m a (pre ++ rest)) (hmeta : m'.metadata = m.metadata)
    (hkept : ∀ page ∈ pre, Kept m m' page)
    (hrest : ∀ b, PageChain P m b rest → PageChain P m' b rest') :
    PageChain P m' a (pre ++ rest') := by
  induction pre generalizing a with
  | nil => exact hrest a h
  | cons page pre ih =>
    obtain ⟨pg, bs⟩ := page
    obtain ⟨hin, hload, rfl, htiled, htail⟩ := h
    obtain ⟨hheader, hbytes⟩ := hkept (pg, bs) (by simp)
    refine ⟨hin, hheader, rfl, fun howned => ?_, ih htail fun q hq => hkept q (by simp [hq])⟩
    obtain ⟨hpage, hend⟩ := htiled howned
    exact ⟨hpage.congr hheader hbytes, by rw [hmeta]; exact hend⟩

theorem PageChain.replace (h : PageChain P m a (pre ++ (pg, bs) :: post))
    (hmeta : m'.metadata = m.metadata) (hkept : ∀ page ∈ pre ++ post, Kept m m' page)
    (hnew : PageChain P m' pg.next post → PageChain P m' pg.startAddress (new ++ post)) :
    PageChain P m' a (pre ++ (new ++ post)) := by
  refine h.keep hmeta (fun page hpage => hkept page (List.mem_append_left _ hpage)) fun b hb => ?_
  obtain ⟨-, -, rfl, -, htail⟩ := hb
  rw [← List.append_nil post] at htail
  have hpost : PageChain P m' pg.next (post ++ []) :=
    htail.keep hmeta (fun page hpage => hkept page (List.mem_append_right _ hpage)) fun b hb => hb
  rw [List.append_nil] at hpost
  exact hnew hpost

theorem PageChain.mem (h : PageChain P m a pages) {page : Page × List Block}
    (hpage : page ∈ pages) :
    P.Inside page.1.startAddress (recordSize Page) ∧
      load Page m.bytes page.1.startAddress = page.1 := by
  induction pages generalizing a with
  | nil => cases hpage
  | cons head pages ih =>
    obtain ⟨hin, hload, hstart, -, htail⟩ := h
    rcases List.mem_cons.mp hpage with rfl | hpage
    · rw [← hstart] at hin hload
      exact ⟨hin, hload⟩
    · exact ih htail hpage

/-- What `tmp_prev` names after the scan has passed some pages. -/
def pagePrev (tmpPrev : ℤ) (pre : List (Page × List Block)) : ℤ :=
  pre.foldl (fun _ page => page.1.startAddress) tmpPrev

/-- The page that `tmp_prev` names links to the one that the scan has reached. -/
theorem PageChain.prev (h : PageChain P m a (pre ++ (pg, bs) :: post))
    (hne : pagePrev null pre ≠ null) :
    ∃ page ∈ pre, page.1.startAddress = pagePrev null pre ∧ page.1.next = pg.startAddress := by
  rcases List.eq_nil_or_concat pre with rfl | ⟨init, page, rfl⟩
  · exact absurd rfl hne
  · refine ⟨page, by simp, by simp [pagePrev], ?_⟩
    clear hne
    induction init generalizing a with
    | nil =>
      obtain ⟨-, -, -, -, -, -, hstart, -⟩ := h
      exact hstart.symm
    | cons q init ih =>
      obtain ⟨-, -, -, -, htail⟩ := h
      exact ih htail

theorem scanPages_chain {n : ℕ} {tmpPrev prev : ℤ} (h : PageChain P m a pages)
    (hscan : scanPages P n a tmpPrev m = .ok (some (prev, pg))) :
    ∃ pre bs post, pages = pre ++ (pg, bs) :: post ∧ pg.state = PageState.unassigned.code ∧
      prev = pagePrev tmpPrev pre := by
  have hpos := P.physicalMemory_pos
  induction pages generalizing a tmpPrev n with
  | nil =>
    obtain rfl : a = null := h
    cases n with
    | zero => cases hscan
    | succ n =>
      rw [scanPages, if_pos rfl] at hscan
      cases hscan
  | cons page pages ih =>
    obtain ⟨q, bs⟩ := page
    obtain ⟨hin, hload, rfl, -, htail⟩ := h
    cases n with
    | zero => cases hscan
    | succ n =>
      have hlow := hin.1
      rw [scanPages, if_neg (by unfold null; omega), loadAt_ok hin, ok_bind, hload] at hscan
      split_ifs at hscan with hstate
      · obtain ⟨rfl, rfl⟩ := Prod.mk.inj (Option.some.inj (Except.ok.inj hscan))
        exact ⟨[], bs, pages, rfl, hstate, rfl⟩
      · obtain ⟨pre, bs', post, rfl, hfound, hprev⟩ := ih htail hscan
        exact ⟨(q, bs) :: pre, bs', post, rfl, hfound, hprev⟩

end Chains

section Split

variable {m m' : Memory} {o : Owner} {pg : Page} {bs : List Block} {s tmpPrev : ℤ}
  {pre post new : List (Page × List Block)}

theorem assignPageOf_fits (hps : m.metadata.pageSize = P.sysconfPageSize)
    (hs : P.physicalMemory ≤ s) (hend : s + P.sysconfPageSize ≤ P.top) {next : ℤ}
    (hn : pointerField.Holds next) : Fits (assignPageOf m o.requestId o.tid s next) := by
  have hlarge := P.pageSize_large
  rw [assignPageOf_eq_header hps]
  exact ArenaPage.header_fits (freshPage_valid o) hs (by omega) hn

theorem tiledPage_assigned {b : Store} (hps : m.metadata.pageSize = P.sysconfPageSize)
    (hnext : P.staleBlockNext = null) (hs : P.physicalMemory ≤ s)
    (hend : s + P.sysconfPageSize ≤ P.top) {next : ℤ}
    (hheader : load Page b s = assignPageOf m o.requestId o.tid s next)
    (hblock : load Block b (s + 64) = unallocBlockOf P m s) :
    TiledPage P b (assignPageOf m o.requestId o.tid s next) [unallocBlockOf P m s] := by
  have hlarge := P.pageSize_large
  have hle := P.pageSize_le
  have htotal : (unallocBlockOf P m s).totalSize = P.sysconfPageSize - 64 := by
    rw [unallocBlockOf_totalSize, hps, recordSize_page]
    exact toInt_of_range (by omega) (by omega)
  refine ⟨hheader, rfl, ⟨hblock, rfl, by omega, hnext, ?_⟩, rfl, hs, ?_⟩
  · have hstop : s + 64 + (unallocBlockOf P m s).totalSize = s + m.metadata.pageSize - 1 + 1 := by
      omega
    exact hstop
  · rw [assignPageOf_endAddress, hps]
    omega

/-- The bytes that a split has written before the headers of the two pages. -/
def linkedStore (P : Platform) (m : Memory) (s tmpPrev : ℤ) : Store :=
  let b := store m.bytes (s + 64) (unallocBlockOf P m s)
  if tmpPrev = null then b else store b tmpPrev { load Page b tmpPrev with next := s }

/-- What `assign_page` does with an unassigned page, whatever its size. -/
theorem splitPage_cases (hprev : tmpPrev ≠ null → tmpPrev + 64 ≤ pg.startAddress ∧
      (load Page m.bytes tmpPrev).startAddress = tmpPrev)
    (h : splitPage P o.requestId o.tid tmpPrev pg m = .ok m') :
    pg.endAddress - pg.startAddress + 1 = m.metadata.pageSize ∧
        m' = { m with
          bytes := store (store m.bytes (pg.startAddress + 64) (unallocBlockOf P m pg.startAddress))
            pg.startAddress (assignPageOf m o.requestId o.tid pg.startAddress pg.next) } ∨
      P.Inside (pg.startAddress + m.metadata.pageSize) (recordSize Page) ∧
        m' = { m with
          bytes := store (store (linkedStore P m pg.startAddress tmpPrev) pg.startAddress
              (assignPageOf m o.requestId o.tid pg.startAddress
                (pg.startAddress + m.metadata.pageSize)))
            (pg.startAddress + m.metadata.pageSize)
            (unassignPageOf (pg.startAddress + m.metadata.pageSize) pg.endAddress pg.next) } := by
  unfold splitPage at h
  split_ifs at h with heq hnull
  · obtain ⟨m₁, hblock, h⟩ := bind_eq_ok.mp h
    obtain ⟨-, rfl⟩ := storeAt_eq_ok.mp hblock
    obtain ⟨-, rfl⟩ := storeAt_eq_ok.mp h
    exact Or.inl ⟨heq, rfl⟩
  · obtain ⟨m₁, hblock, h⟩ := bind_eq_ok.mp h
    obtain ⟨-, rfl⟩ := storeAt_eq_ok.mp hblock
    obtain ⟨m₂, hpage, h⟩ := bind_eq_ok.mp h
    obtain ⟨-, rfl⟩ := storeAt_eq_ok.mp hpage
    obtain ⟨hin, rfl⟩ := storeAt_eq_ok.mp h
    refine Or.inr ⟨hin, ?_⟩
    simp only [linkedStore, if_pos hnull]
    rfl
  · obtain ⟨m₁, hblock, h⟩ := bind_eq_ok.mp h
    obtain ⟨-, rfl⟩ := storeAt_eq_ok.mp hblock
    obtain ⟨prevPg, hload, h⟩ := bind_eq_ok.mp h
    obtain ⟨m₂, hlink, h⟩ := bind_eq_ok.mp h
    obtain ⟨m₃, hpage, h⟩ := bind_eq_ok.mp h
    obtain ⟨-, rfl⟩ := storeAt_eq_ok.mp hlink
    obtain ⟨-, rfl⟩ := storeAt_eq_ok.mp hpage
    obtain ⟨hin, rfl⟩ := storeAt_eq_ok.mp h
    obtain ⟨-, rfl⟩ := loadAt_eq_ok.mp hload
    obtain ⟨hlow, hstart⟩ := hprev hnull
    have hself : (load Page (store m.bytes (pg.startAddress + 64)
        (unallocBlockOf P m pg.startAddress)) tmpPrev).startAddress = tmpPrev := by
      rw [load_store_of_apart _ _ (by simp; omega), hstart]
    refine Or.inr ⟨hin, ?_⟩
    simp only [linkedStore, if_neg hnull, unallocBlockOf_blockAddress, recordSize_page,
      Nat.cast_ofNat, hself]
    rfl

theorem linkedStore_outside {y : ℤ} (hblock : y < s + 64 ∨ s + 104 ≤ y)
    (hprev : tmpPrev ≠ null → y < tmpPrev ∨ tmpPrev + 64 ≤ y) :
    linkedStore P m s tmpPrev y = m.bytes y := by
  unfold linkedStore
  split_ifs with hnull
  · exact store_outside _ _ _ (by simp; omega)
  · rw [store_outside _ _ _ (by simpa using hprev hnull)]
    exact store_outside _ _ _ (by simp; omega)

theorem linkedStore_block (hfits : Fits (unallocBlockOf P m s))
    (hprev : tmpPrev ≠ null → tmpPrev + 64 ≤ s) :
    load Block (linkedStore P m s tmpPrev) (s + 64) = unallocBlockOf P m s := by
  unfold linkedStore
  split_ifs with hnull
  · exact load_store _ _ hfits
  · rw [load_store_of_apart _ _ (by have := hprev hnull; simp; omega)]
    exact load_store _ _ hfits

theorem linkedStore_prev {q : Page} (hlow : q.startAddress + 64 ≤ s)
    (hload : load Page m.bytes q.startAddress = q) (hlink : q.next = s) :
    load Page (linkedStore P m s q.startAddress) q.startAddress = q := by
  have hsame : load Page (store m.bytes (s + 64) (unallocBlockOf P m s)) q.startAddress = q := by
    rw [load_store_of_apart _ _ (by simp; omega), hload]
  simp only [linkedStore, hsame]
  split_ifs with hnull
  · exact hsame
  · subst hlink
    exact load_store _ _ (hload ▸ load_page_fits _ _)

theorem Page.Apart.symm {p q : Page} (h : p.Apart q) : q.Apart p := Or.symm h

instance : Std.Symm fun p q : Page × List Block => p.1.Apart q.1 := ⟨fun _ _ => Page.Apart.symm⟩

theorem PagesApart.before (hapart : PagesApart P m (pre ++ (pg, bs) :: post)) {a : ℤ}
    (h : PageChain P m a (pre ++ (pg, bs) :: post)) (hstate : pg.state = PageState.unassigned.code)
    {page : Page × List Block} (hpage : page ∈ pre ++ post) :
    page.1.endAddress < pg.startAddress := by
  have hmem : page ∈ pre ++ (pg, bs) :: post := by
    rcases List.mem_append.mp hpage with hpage | hpage <;> simp [hpage]
  have hroom := (inside_page.mp (h.mem hmem).1).2
  have htop := hapart.unassigned (pg, bs) (by simp) hstate
  obtain ⟨-, hrest, hpre⟩ := List.pairwise_append.mp hapart.apart
  rcases List.mem_append.mp hpage with hpage | hpage
  · rcases hpre page hpage (pg, bs) (by simp) with hlow | hhigh
    · exact hlow
    · simp only at htop hhigh
      omega
  · rcases (List.pairwise_cons.mp hrest).1 page hpage with hhigh | hlow
    · simp only at htop hhigh
      omega
    · exact hlow

theorem PagesApart.kept (hapart : PagesApart P m (pre ++ (pg, bs) :: post)) {a : ℤ}
    (h : PageChain P m a (pre ++ (pg, bs) :: post)) (hstate : pg.state = PageState.unassigned.code)
    (hprev : tmpPrev ≠ null → ∃ q ∈ pre, q.1.startAddress = tmpPrev ∧ q.1.next = pg.startAddress)
    (hbytes : ∀ y, y < pg.startAddress →
      m'.bytes y = linkedStore P m pg.startAddress tmpPrev y)
    {page : Page × List Block} (hpage : page ∈ pre ++ post) : Kept m m' page := by
  have hmem : ∀ {x}, x ∈ pre ++ post → x ∈ pre ++ (pg, bs) :: post := by
    intro x hx
    rcases List.mem_append.mp hx with hx | hx <;> simp [hx]
  have hlow := hapart.before h hstate hpage
  have hheader := hapart.header page (hmem hpage)
  obtain ⟨-, hload⟩ := h.mem (hmem hpage)
  by_cases hnull : tmpPrev = null
  · have hsame : ∀ y, y < pg.startAddress → m'.bytes y = m.bytes y := fun y hy => by
      rw [hbytes y hy, linkedStore_outside (Or.inl (by omega)) fun hne => absurd hnull hne]
    refine ⟨(load_congr fun y _ hy => hsame y ?_).trans hload, fun y _ hy => hsame y (by omega)⟩
    rw [recordSize_page] at hy
    omega
  · obtain ⟨q, hq, rfl, hlink⟩ := hprev hnull
    have hqlow := hapart.before h hstate (List.mem_append_left post hq)
    have hqheader := hapart.header q (hmem (List.mem_append_left post hq))
    obtain ⟨-, hqload⟩ := h.mem (hmem (List.mem_append_left post hq))
    by_cases hsame : page = q
    · subst hsame
      refine ⟨?_, fun y hy hy' => ?_⟩
      · have hkept := linkedStore_prev (P := P) (by omega) hqload hlink
        refine (load_congr fun y _ hy => hbytes y ?_).trans hkept
        rw [recordSize_page] at hy
        omega
      · rw [hbytes y (by omega), linkedStore_outside (Or.inl (by omega)) fun _ => Or.inr hy]
    · have hdisjoint : page.1.Apart q.1 := hapart.apart.forall (hmem hpage)
        (hmem (List.mem_append_left post hq)) hsame
      have hsame : ∀ y, page.1.startAddress ≤ y → y ≤ page.1.endAddress →
          m'.bytes y = m.bytes y := fun y hy hy' => by
        rw [hbytes y (by omega), linkedStore_outside (Or.inl (by omega)) fun _ => ?_]
        rcases hdisjoint with hd | hd
        · exact Or.inl (by omega)
        · exact Or.inr (by omega)
      refine ⟨(load_congr fun y hy hy' => hsame y hy ?_).trans hload,
        fun y hy hy' => hsame y (by omega) hy'⟩
      rw [recordSize_page] at hy'
      omega

theorem PagesApart.replace (hapart : PagesApart P m (pre ++ (pg, bs) :: post))
    (hmeta : m'.metadata = m.metadata)
    (hin : ∀ page ∈ new, pg.startAddress ≤ page.1.startAddress ∧ page.1.endAddress ≤ pg.endAddress)
    (hnew : new.Pairwise fun p q => p.1.Apart q.1)
    (hheader : ∀ page ∈ new, page.1.startAddress + 64 ≤ page.1.endAddress + 1)
    (hunassigned : ∀ page ∈ new, page.1.state = PageState.unassigned.code →
      page.1.endAddress + 1 = P.top) : PagesApart P m' (pre ++ (new ++ post)) := by
  obtain ⟨hpre, hrest, hcross⟩ := List.pairwise_append.mp hapart.apart
  obtain ⟨hpg, hpost⟩ := List.pairwise_cons.mp hrest
  have hwithin : ∀ {p : Page} {page : Page × List Block}, page ∈ new → p.Apart pg →
      p.Apart page.1 := by
    intro p page hpage hd
    obtain ⟨hlow, hhigh⟩ := hin page hpage
    rcases hd with hd | hd
    · exact Or.inl (by omega)
    · exact Or.inr (by omega)
  have hold : ∀ {page}, page ∈ pre ++ (new ++ post) → page ∈ new ∨
      page ∈ pre ++ (pg, bs) :: post := by
    intro page hpage
    simp only [List.mem_append, List.mem_cons] at hpage ⊢
    tauto
  refine ⟨by rw [hmeta]; exact hapart.pageSize, ?_, fun page hpage => ?_, fun page hpage => ?_⟩
  · refine List.pairwise_append.mpr ⟨hpre, List.pairwise_append.mpr ⟨hnew, hpost, ?_⟩, ?_⟩
    · exact fun p hp q hq => (hwithin hp (hpg q hq).symm).symm
    · intro p hp q hq
      rcases List.mem_append.mp hq with hq | hq
      · exact hwithin hq (hcross p hp (pg, bs) (by simp))
      · exact hcross p hp q (by simp [hq])
  · exact (hold hpage).elim (hheader page) (hapart.header page)
  · exact (hold hpage).elim (hunassigned page) (hapart.unassigned page)

section Unassigned

variable {a : ℤ} (h : PageChain P m a (pre ++ (pg, bs) :: post))
  (hapart : PagesApart P m (pre ++ (pg, bs) :: post))
  (hstate : pg.state = PageState.unassigned.code) (hnext : P.staleBlockNext = null)

include h hapart hstate hnext

theorem PageChain.whole (heq : pg.endAddress - pg.startAddress + 1 = m.metadata.pageSize)
    (hm' : m' = { m with
      bytes := store (store m.bytes (pg.startAddress + 64) (unallocBlockOf P m pg.startAddress))
        pg.startAddress (assignPageOf m o.requestId o.tid pg.startAddress pg.next) }) :
    ∃ pages', PageChain P m' a pages' ∧ PagesApart P m' pages' := by
  have hlarge := P.pageSize_large
  have hps := hapart.pageSize
  obtain ⟨hin, hload⟩ := h.mem List.mem_append_cons_self
  have htop : pg.endAddress + 1 = P.top := hapart.unassigned (pg, bs) (by simp) hstate
  have hlow : P.physicalMemory ≤ pg.startAddress := hin.1
  have hend : pg.startAddress + P.sysconfPageSize ≤ P.top := by omega
  have hlink : pointerField.Holds pg.next := by
    rw [← show load Page m.bytes pg.startAddress = pg from hload]
    exact take_decode_holds ..
  subst hm'
  refine ⟨pre ++ ([(assignPageOf m o.requestId o.tid pg.startAddress pg.next,
    [unallocBlockOf P m pg.startAddress])] ++ post), ?_, ?_⟩
  · refine h.replace rfl (fun page hpage => hapart.kept h hstate
      (fun hne : null ≠ null => absurd rfl hne) (fun y hy => store_outside _ _ _ (Or.inl hy)) hpage)
      fun hpost => ?_
    have hheader : load Page (store (store m.bytes (pg.startAddress + 64)
        (unallocBlockOf P m pg.startAddress)) pg.startAddress
        (assignPageOf m o.requestId o.tid pg.startAddress pg.next)) pg.startAddress =
        assignPageOf m o.requestId o.tid pg.startAddress pg.next :=
      load_store _ _ (assignPageOf_fits hps hlow hend hlink)
    refine ⟨hin, hheader, rfl, fun _ => ⟨tiledPage_assigned hps hnext hlow hend hheader ?_,
      sub_add_cancel _ _⟩, hpost⟩
    rw [load_store_of_apart _ _ (by simp)]
    exact load_store _ _ (unallocBlockOf_fits hps hnext hlow hend)
  · refine hapart.replace rfl ?_ (List.pairwise_singleton _ _) ?_ ?_
    · simp
      omega
    · simp
      omega
    · simp [PageState.code]

theorem PageChain.split (hprev : ∀ q ∈ pre, q.1.startAddress + 64 ≤ pg.startAddress)
    (hinside : P.Inside (pg.startAddress + m.metadata.pageSize) (recordSize Page))
    (hm' : m' = { m with
      bytes := store (store (linkedStore P m pg.startAddress (pagePrev null pre)) pg.startAddress
          (assignPageOf m o.requestId o.tid pg.startAddress
            (pg.startAddress + m.metadata.pageSize)))
        (pg.startAddress + m.metadata.pageSize)
        (unassignPageOf (pg.startAddress + m.metadata.pageSize) pg.endAddress pg.next) }) :
    ∃ pages', PageChain P m' a pages' ∧ PagesApart P m' pages' := by
  have hlarge := P.pageSize_large
  have hpos := P.physicalMemory_pos
  have htop := P.physicalMemory_top
  have htopEq := P.top_eq
  have hps := hapart.pageSize
  obtain ⟨hin, hload⟩ := h.mem List.mem_append_cons_self
  have hstop : pg.endAddress + 1 = P.top := hapart.unassigned (pg, bs) (by simp) hstate
  have hlow : P.physicalMemory ≤ pg.startAddress := hin.1
  obtain ⟨-, hroom⟩ := inside_page.mp hinside
  have hend : pg.startAddress + P.sysconfPageSize ≤ P.top := by omega
  have hlink : pointerField.Holds pg.next := by
    rw [← show load Page m.bytes pg.startAddress = pg from hload]
    exact take_decode_holds ..
  have hlinked : pagePrev null pre ≠ null → pagePrev null pre + 64 ≤ pg.startAddress := fun hne => by
    obtain ⟨q, hq, hstart, -⟩ := h.prev hne
    rw [← hstart]
    exact hprev q hq
  subst hm'
  refine ⟨pre ++ ([(assignPageOf m o.requestId o.tid pg.startAddress
      (pg.startAddress + m.metadata.pageSize), [unallocBlockOf P m pg.startAddress]),
    (unassignPageOf (pg.startAddress + m.metadata.pageSize) pg.endAddress pg.next, [])] ++ post),
    ?_, ?_⟩
  · refine h.replace rfl (fun page hpage => hapart.kept h hstate h.prev (fun y hy => ?_) hpage)
      fun hpost => ?_
    · refine (store_outside _ _ _ (Or.inl (by omega))).trans ?_
      exact store_outside _ _ _ (Or.inl hy)
    · have hheader : load Page (store (store (linkedStore P m pg.startAddress (pagePrev null pre))
          pg.startAddress (assignPageOf m o.requestId o.tid pg.startAddress
            (pg.startAddress + m.metadata.pageSize))) (pg.startAddress + m.metadata.pageSize)
          (unassignPageOf (pg.startAddress + m.metadata.pageSize) pg.endAddress pg.next))
          pg.startAddress = assignPageOf m o.requestId o.tid pg.startAddress
            (pg.startAddress + m.metadata.pageSize) := by
        rw [load_store_of_apart _ _ (by simp; omega)]
        exact load_store _ _ (assignPageOf_fits hps hlow hend
          (pointerField_holds (by omega) (by omega)))
      refine ⟨hin, hheader, rfl, fun _ => ⟨tiledPage_assigned hps hnext hlow hend hheader ?_,
        sub_add_cancel _ _⟩, hinside, ?_, rfl, fun hne => absurd rfl hne, hpost⟩
      · rw [load_store_of_apart _ _ (by simp; omega), load_store_of_apart _ _ (by simp)]
        exact linkedStore_block (unallocBlockOf_fits hps hnext hlow hend) hlinked
      · rw [show pg.endAddress = P.top - 1 by omega]
        exact load_store _ _ (unassignPageOf_fits (by omega) (by omega) hlink)
  · refine hapart.replace rfl ?_ (List.pairwise_pair.mpr (Or.inl ?_)) ?_ ?_
    · simp
      omega
    · simp
    · simp
      omega
    · simp [PageState.code]
      omega

end Unassigned

/-- `assign_page` turns the first unassigned page of a list into an owned one, where it comes
back, and leaves a list of the same kind. -/
theorem assignPage_chain {pages : List (Page × List Block)} {n : ℕ}
    (h : PageChain P m m.metadata.pageListHead pages) (hapart : PagesApart P m pages)
    (hstale : P.staleTmpPrev = null) (hnext : P.staleBlockNext = null)
    (hok : assignPage P o.requestId o.tid n m = .ok m') :
    ∃ pages', PageChain P m' m'.metadata.pageListHead pages' ∧ PagesApart P m' pages' := by
  rw [assignPage, assignPageLoop_eq, hstale] at hok
  obtain ⟨found, hscan, hok⟩ := bind_eq_ok.mp hok
  cases found with
  | none =>
    obtain rfl := Except.ok.inj hok
    exact ⟨pages, h, hapart⟩
  | some found =>
    obtain ⟨tmpPrev, pg⟩ := found
    obtain ⟨pre, bs, post, rfl, hstate, rfl⟩ := scanPages_chain h hscan
    have hprev : ∀ q ∈ pre, q.1.startAddress + 64 ≤ pg.startAddress := fun q hq => by
      have hbefore := hapart.before h hstate (List.mem_append_left post hq)
      have hheader := hapart.header q (by simp [hq])
      omega
    have hself : pagePrev null pre ≠ null → pagePrev null pre + 64 ≤ pg.startAddress ∧
        (load Page m.bytes (pagePrev null pre)).startAddress = pagePrev null pre := fun hne => by
      obtain ⟨q, hq, hstart, -⟩ := h.prev hne
      have hmem : q ∈ pre ++ (pg, bs) :: post := by simp [hq]
      obtain ⟨-, hqload⟩ := h.mem hmem
      rw [← hstart, hqload]
      exact ⟨hprev q hq, rfl⟩
    rcases splitPage_cases hself hok with ⟨heq, hm'⟩ | ⟨hinside, hm'⟩
    · obtain ⟨pages', hpages⟩ := h.whole hapart hstate hnext heq hm'
      refine ⟨pages', ?_⟩
      rwa [show m'.metadata = m.metadata by rw [hm']]
    · obtain ⟨pages', hpages⟩ := h.split hapart hstate hnext hprev hinside hm'
      refine ⟨pages', ?_⟩
      rwa [show m'.metadata = m.metadata by rw [hm']]

end Split

section Arenas

variable {m : Store} {a : ℤ} {bs : List ArenaBlock} {ps : Arena}

def storedBlocks (a : ℤ) (bs : List ArenaBlock) : List Block := (blockItems a bs).map Prod.snd

/-- The pages of an arena as they are stored from `a` on, with the unassigned one behind them. -/
def storedPages (P : Platform) : ℤ → Arena → List (Page × List Block)
  | a, [] => [(unassignPageOf a (P.top - 1) null, [])]
  | a, p :: ps => (p.header P a (a + P.sysconfPageSize), storedBlocks (a + 64) p.blocks) ::
      storedPages P (a + P.sysconfPageSize) ps

theorem blocksLink_storedBlocks (a x : ℤ) (bs : List ArenaBlock) :
    blocksLink a (storedBlocks x bs) = blockLink a bs := by
  cases bs <;> rfl

theorem BlocksAt.tiles (h : BlocksAt m a bs) (hv : ∀ b ∈ bs, b.Valid) :
    Tiles m a (a + extent bs) (storedBlocks a bs) := by
  induction bs generalizing a with
  | nil => exact (add_zero a).symm
  | cons b bs ih =>
    rw [extent, ← add_assoc]
    exact ⟨h.1, rfl, (hv b (by simp)).header_le, (blocksLink_storedBlocks _ _ _).symm,
      ih h.2 fun c hc => hv c (by simp [hc])⟩

theorem allocatedTotal_storedBlocks (a : ℤ) (bs : List ArenaBlock) :
    allocatedTotal (storedBlocks a bs) = allocatedExtent bs := by
  induction bs generalizing a with
  | nil => rfl
  | cons b bs ih =>
    have hstate : (b.state.code = BlockState.allocated.code) ↔ b.state = .allocated :=
      BlockState.code_injective.eq_iff
    simp only [storedBlocks, blockItems, List.map_cons, allocatedTotal, ArenaBlock.header_state,
      ArenaBlock.header_totalSize, hstate, allocatedExtent]
    congr 1
    exact ih (a + b.totalSize)

theorem storedPages_bounds (htop : pageEnd P a ps + 64 ≤ P.top) {page : Page × List Block}
    (h : page ∈ storedPages P a ps) :
    a ≤ page.1.startAddress ∧ page.1.startAddress + 64 ≤ page.1.endAddress + 1 ∧
      (page.1.state = PageState.unassigned.code → page.1.endAddress + 1 = P.top) := by
  have hlarge := P.pageSize_large
  induction ps generalizing a with
  | nil =>
    rw [pageEnd_nil] at htop
    rw [List.mem_singleton.mp h]
    simp
    omega
  | cons p ps ih =>
    rw [pageEnd_cons] at htop
    rcases List.mem_cons.mp h with rfl | h
    · simp [PageState.code]
      omega
    · obtain ⟨hlow, hrest⟩ := ih htop h
      exact ⟨by omega, hrest⟩

theorem storedPages_apart (htop : pageEnd P a ps + 64 ≤ P.top) :
    (storedPages P a ps).Pairwise fun p q => p.1.Apart q.1 := by
  induction ps generalizing a with
  | nil => exact List.pairwise_singleton _ _
  | cons p ps ih =>
    rw [pageEnd_cons] at htop
    refine List.pairwise_cons.mpr ⟨fun q hq => Or.inl ?_, ih htop⟩
    have hlow := (storedPages_bounds htop hq).1
    simp only [ArenaPage.header_endAddress]
    omega

theorem PagesAt.chain {m : Memory} (h : PagesAt P m.bytes a ps) (hv : ∀ p ∈ ps, p.Valid P)
    (ha : P.physicalMemory ≤ a) (hps : m.metadata.pageSize = P.sysconfPageSize) :
    PageChain P m a (storedPages P a ps) := by
  have hlarge := P.pageSize_large
  induction ps generalizing a with
  | nil =>
    exact ⟨inside_page.mpr ⟨ha, h.1.2⟩, h.1.1, rfl, fun hne => absurd rfl hne, rfl⟩
  | cons p ps ih =>
    obtain ⟨hload, hblocks, hrest⟩ := pagesAt_cons.mp h
    have hp := hv p (by simp)
    have htiles := hp.tiles
    have hroom := hrest.1.rest.2
    have hle := le_pageEnd (P := P) (a + P.sysconfPageSize) ps
    refine ⟨inside_page.mpr ⟨ha, by omega⟩, hload, rfl, fun _ => ⟨⟨hload, ?_, ?_, ?_, ha, ?_⟩, ?_⟩,
      ih hrest (fun q hq => hv q (by simp [hq])) (show _ ≤ a + P.sysconfPageSize by omega)⟩
    · exact (blocksLink_storedBlocks _ _ _).symm
    · have hstop : a + P.sysconfPageSize - 1 + 1 = a + 64 + extent p.blocks := by omega
      simp only [ArenaPage.header_startAddress, ArenaPage.header_endAddress, hstop]
      exact hblocks.tiles hp.blocks
    · rw [allocatedTotal_storedBlocks]
      rfl
    · simp only [ArenaPage.header_endAddress]
      omega
    · rw [hps]
      simp

/-- The memory of an arena has such a list. -/
theorem Represents.chain {m : Memory} {A : Arena} (h : Represents P m A) :
    PageChain P m m.metadata.pageListHead (storedPages P P.firstPage A) ∧
      PagesApart P m (storedPages P P.firstPage A) := by
  have hfirst := P.firstPage_eq
  have htop := h.headers.rest.2
  rw [h.pageListHead]
  refine ⟨h.pages.chain h.valid (by omega) h.pageSize, h.pageSize, storedPages_apart htop,
    fun page hpage => ?_, fun page hpage => ?_⟩
  · exact (storedPages_bounds htop hpage).2.1
  · exact (storedPages_bounds htop hpage).2.2

end Arenas

end VirtualMemorySimulation.MemoryManager

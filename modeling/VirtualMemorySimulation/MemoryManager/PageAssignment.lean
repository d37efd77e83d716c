import VirtualMemorySimulation.MemoryManager.Arena

/-!
# Assigning pages

`assign_page` walks to the first unassigned page and cuts one page off its
front. With a page and a header's room left this appends a page to the arena;
with less it writes past the end of `PHYSICAL_MEMORY`, because the scan never
compares what is left with the page size other than for equality.
-/

namespace VirtualMemorySimulation.MemoryManager

open ByteRecords Execution

variable {P : Platform}

structure Owner where
  requestId : RequestId
  tid : ℤ
  tid_uint : 0 ≤ tid ∧ tid < 4294967296

/-- A newly assigned page: one free block after the header. -/
def freshPage (P : Platform) (o : Owner) : ArenaPage :=
  { requestId := o.requestId, tid := o.tid
    blocks := [⟨.unallocated, 0, P.sysconfPageSize - 64⟩] }

theorem freshPage_valid (o : Owner) : (freshPage P o).Valid P := by
  have := P.pageSize_large
  refine ⟨o.tid_uint, ?_, ?_⟩
  · simp [freshPage, extent]
  · intro b hb
    rw [List.mem_singleton.mp hb]
    exact ⟨by simp only; omega, by simp, by simp⟩

section Code

variable (P)

/-- The scan of `assign_page` up to the copy of the unassigned page, with `tmp_prev`. -/
def scanPages : ℕ → ℤ → ℤ → Memory → Except Stop (Option (ℤ × Page))
  | 0, _, _, _ => .error .outOfFuel
  | fuel + 1, tmpCurr, tmpPrev, m =>
    if tmpCurr = null then .ok none
    else do
      let pg ← loadAt P Page m tmpCurr
      if pg.state = PageState.unassigned.code then .ok (some (tmpPrev, pg))
      else scanPages fuel pg.next tmpCurr m

/-- What `assign_page` does with the page that it has copied. -/
def splitPage (requestId : RequestId) (tid tmpPrev : ℤ) (pg : Page) (m : Memory) :
    Except Stop Memory :=
  let unallocBlk := unallocBlockOf P m pg.startAddress
  if pg.endAddress - pg.startAddress + 1 = m.metadata.pageSize then do
    let m ← storeAt P m unallocBlk.blockAddress unallocBlk
    let assignPg := assignPageOf m requestId tid pg.startAddress pg.next
    storeAt P m assignPg.startAddress assignPg
  else do
    let m ← storeAt P m unallocBlk.blockAddress unallocBlk
    let rest := pg.startAddress + m.metadata.pageSize
    let assignPg := assignPageOf m requestId tid pg.startAddress rest
    let unassignPg := unassignPageOf rest pg.endAddress pg.next
    if tmpPrev = null then
      let m ← storeAt P m assignPg.startAddress assignPg
      storeAt P m unassignPg.startAddress unassignPg
    else
      let prevPg ← loadAt P Page m tmpPrev
      let prevPg := { prevPg with next := assignPg.startAddress }
      let m ← storeAt P m prevPg.startAddress prevPg
      let m ← storeAt P m assignPg.startAddress assignPg
      storeAt P m unassignPg.startAddress unassignPg

/-- `assign_page` is its scan and what it does with the page found. -/
theorem assignPageLoop_eq (requestId : RequestId) (tid : ℤ) (n : ℕ) (tmpCurr tmpPrev : ℤ)
    (m : Memory) : assignPageLoop P requestId tid n tmpCurr tmpPrev m =
      scanPages P n tmpCurr tmpPrev m >>= fun found =>
        found.elim (.ok m) fun f => splitPage P requestId tid f.1 f.2 m := by
  induction n generalizing tmpCurr tmpPrev with
  | zero => rfl
  | succ n ih =>
    rw [assignPageLoop, scanPages]
    by_cases hnull : tmpCurr = null
    · rw [if_pos hnull, if_pos hnull]
      rfl
    · rw [if_neg hnull, if_neg hnull, bind_assoc]
      refine bind_congr fun pg => ?_
      by_cases hstate : pg.state = PageState.unassigned.code
      · rw [if_pos hstate, if_pos hstate]
        rfl
      · rw [if_neg hstate, if_neg hstate]
        exact ih _ _

end Code

/-- The bytes after a split at `s`, as `assign_page` writes them. -/
def splitStore (P : Platform) (m : Memory) (o : Owner) (s tmpPrev : ℤ) : Store :=
  let b := store m.bytes (s + 64) (unallocBlockOf P m s)
  let b := if tmpPrev = null then b else
    store b tmpPrev { load Page b tmpPrev with next := s }
  let b := store b s (assignPageOf m o.requestId o.tid s (s + P.sysconfPageSize))
  store b (s + P.sysconfPageSize) (unassignPageOf (s + P.sysconfPageSize) (P.top - 1) null)

theorem splitPage_metadata {m m' : Memory} {requestId : RequestId} {tid tmpPrev : ℤ} {pg : Page}
    (h : splitPage P requestId tid tmpPrev pg m = .ok m') : m'.metadata = m.metadata := by
  unfold splitPage at h
  split_ifs at h
  · obtain ⟨m₁, h₁, h⟩ := bind_eq_ok.mp h
    exact (storeAt_metadata h).trans (storeAt_metadata h₁)
  · obtain ⟨m₁, h₁, h⟩ := bind_eq_ok.mp h
    obtain ⟨m₂, h₂, h⟩ := bind_eq_ok.mp h
    exact (storeAt_metadata h).trans ((storeAt_metadata h₂).trans (storeAt_metadata h₁))
  · obtain ⟨m₁, h₁, h⟩ := bind_eq_ok.mp h
    obtain ⟨prevPg, -, h⟩ := bind_eq_ok.mp h
    obtain ⟨m₂, h₂, h⟩ := bind_eq_ok.mp h
    obtain ⟨m₃, h₃, h⟩ := bind_eq_ok.mp h
    exact (storeAt_metadata h).trans ((storeAt_metadata h₃).trans
      ((storeAt_metadata h₂).trans (storeAt_metadata h₁)))

theorem assignPage_metadata {m m' : Memory} {requestId : RequestId} {tid : ℤ} {n : ℕ}
    (h : assignPage P requestId tid n m = .ok m') : m'.metadata = m.metadata := by
  rw [assignPage, assignPageLoop_eq] at h
  obtain ⟨found, -, h⟩ := bind_eq_ok.mp h
  cases found with
  | none =>
    obtain rfl := Except.ok.inj h
    rfl
  | some found => exact splitPage_metadata h

/-- The header that `tmp_prev` names lies before `a` and says where it is. -/
def PrevAt (P : Platform) (m : Store) (a tmpPrev : ℤ) : Prop :=
  tmpPrev ≠ null → P.firstPage ≤ tmpPrev ∧ tmpPrev + 64 ≤ a ∧
    (load Page m tmpPrev).startAddress = tmpPrev

/-- The split of a copied page writes the same bytes wherever the header of the page before it
is in its place. -/
theorem splitPage_ok {m : Memory} {o : Owner} {s tmpPrev : ℤ}
    (hps : m.metadata.pageSize = P.sysconfPageSize)
    (hs : P.firstPage ≤ s) (hroom : s + P.sysconfPageSize + 64 ≤ P.top)
    (hprev : PrevAt P m.bytes s tmpPrev) :
    splitPage P o.requestId o.tid tmpPrev (unassignPageOf s (P.top - 1) null) m =
      .ok { m with bytes := splitStore P m o s tmpPrev } := by
  have hlarge := P.pageSize_large
  have hfirst := P.firstPage_eq
  have hin : ∀ x : ℤ, P.firstPage ≤ x → x + 64 ≤ P.top → P.Inside x (recordSize Page) :=
    fun x hx hn => inside_page.mpr ⟨by omega, hn⟩
  have hblock : P.Inside (s + 64) (recordSize Block) := inside_block.mpr ⟨by omega, by omega⟩
  unfold splitPage
  simp only [unassignPageOf_startAddress, unassignPageOf_endAddress, unassignPageOf_next,
    unallocBlockOf_blockAddress, assignPageOf_startAddress, recordSize_page, Nat.cast_ofNat]
  rw [if_neg (by rw [hps]; omega), storeAt_ok hblock, ok_bind]
  by_cases hnull : tmpPrev = null
  · rw [if_pos hnull, storeAt_ok (hin _ hs (by omega)), ok_bind,
      storeAt_ok (hin _ (by rw [hps]; omega) (by rw [hps]; omega))]
    simp [splitStore, hnull, assignPageOf, hps]
  · obtain ⟨hp, hps', hstart⟩ := hprev hnull
    have hsame : load Page (store m.bytes (s + 64) (unallocBlockOf P m s)) tmpPrev =
        load Page m.bytes tmpPrev :=
      load_store_of_apart _ _ (by simp; omega)
    rw [if_neg hnull, loadAt_ok (hin _ hp (by omega)), ok_bind]
    simp only [hsame, hstart]
    rw [storeAt_ok (hin _ hp (by omega)), ok_bind, storeAt_ok (hin _ hs (by omega)), ok_bind,
      storeAt_ok (hin _ (by rw [hps]; omega) (by rw [hps]; omega))]
    simp [splitStore, hnull, hsame, hstart, assignPageOf, hps]

/-- Without a page and a header's room the split writes outside the array. -/
theorem splitPage_overrun {m : Memory} {o : Owner} {s tmpPrev : ℤ}
    (hps : m.metadata.pageSize = P.sysconfPageSize) (hs : P.firstPage ≤ s)
    (htop : s + 64 ≤ P.top) (hne : P.top - s ≠ P.sysconfPageSize)
    (hroom : P.top < s + P.sysconfPageSize + 64) (hprev : PrevAt P m.bytes s tmpPrev) :
    splitPage P o.requestId o.tid tmpPrev (unassignPageOf s (P.top - 1) null) m =
      .error .outOfBounds := by
  have hlarge := P.pageSize_large
  have hfirst := P.firstPage_eq
  have hin : ∀ x : ℤ, P.firstPage ≤ x → x + 64 ≤ P.top → P.Inside x (recordSize Page) :=
    fun x hx hn => inside_page.mpr ⟨by omega, hn⟩
  have hout : ¬ P.Inside (s + P.sysconfPageSize) (recordSize Page) :=
    fun h => absurd (inside_page.mp h).2 (not_le.mpr hroom)
  unfold splitPage
  simp only [unassignPageOf_startAddress, unassignPageOf_endAddress, unassignPageOf_next,
    unallocBlockOf_blockAddress, assignPageOf_startAddress, recordSize_page, Nat.cast_ofNat]
  rw [if_neg (by rw [hps]; omega)]
  by_cases hblock : P.Inside (s + 64) (recordSize Block)
  · rw [storeAt_ok hblock, ok_bind]
    by_cases hnull : tmpPrev = null
    · rw [if_pos hnull, storeAt_ok (hin _ hs htop), ok_bind]
      simp only [hps]
      exact storeAt_error hout
    · obtain ⟨hp, hps', hstart⟩ := hprev hnull
      have hsame : load Page (store m.bytes (s + 64) (unallocBlockOf P m s)) tmpPrev =
          load Page m.bytes tmpPrev :=
        load_store_of_apart _ _ (by simp; omega)
      rw [if_neg hnull, loadAt_ok (hin _ hp (by omega)), ok_bind]
      simp only [hsame, hstart, hps]
      rw [storeAt_ok (hin _ hp (by omega)), ok_bind, storeAt_ok (hin _ hs htop), ok_bind]
      exact storeAt_error hout
  · rw [storeAt_error hblock, error_bind]

/-- The page before `pageEnd`, which `tmp_prev` names when the scan gets there. -/
def lastPage (P : Platform) : ℤ → ℤ → Arena → ℤ
  | _, tmpPrev, [] => tmpPrev
  | a, _, _ :: ps => lastPage P (a + P.sysconfPageSize) a ps

theorem lastPage_add (a tmpPrev : ℤ) {ps : Arena} (h : ps ≠ []) :
    lastPage P a tmpPrev ps + P.sysconfPageSize = pageEnd P a ps := by
  induction ps generalizing a tmpPrev with
  | nil => exact absurd rfl h
  | cons p ps ih =>
    rw [pageEnd_cons]
    cases ps with
    | nil => simp [lastPage]
    | cons q qs => exact ih _ a (by simp)

theorem scanPages_unassigned {m : Memory} {a : ℤ} (tmpPrev : ℤ) {ps : Arena}
    (h : HeadersAt P m.bytes a ps)
    (ha : P.physicalMemory ≤ a) : Settles (fun n => scanPages P n a tmpPrev m)
      (.ok (some (lastPage P a tmpPrev ps, unassignPageOf (pageEnd P a ps) (P.top - 1) null))) := by
  have hlarge := P.pageSize_large
  have hpos := P.physicalMemory_pos
  induction ps generalizing a tmpPrev with
  | nil =>
    have hload : loadAt P Page m a = .ok (unassignPageOf a (P.top - 1) null) := by
      rw [loadAt_ok (inside_page.mpr ⟨ha, h.2⟩), h.1]
    refine Settles.succ rfl (fun n => ?_) (Settles.const _)
    rw [scanPages, if_neg (by unfold null; omega), hload, ok_bind, pageEnd_nil]
    exact if_pos rfl
  | cons p ps ih =>
    have hle := le_pageEnd (P := P) (a + P.sysconfPageSize) ps
    have hrest := h.2.rest.2
    have hload : loadAt P Page m a = .ok (p.header P a (a + P.sysconfPageSize)) := by
      rw [loadAt_ok (inside_page.mpr ⟨ha, by omega⟩), h.1]
    rw [pageEnd_cons]
    refine Settles.succ rfl (fun n => ?_) (ih a h.2 (by omega))
    rw [scanPages, if_neg (by unfold null; omega), hload, ok_bind,
      if_neg (by simp [PageState.code])]
    rfl

section Frame

variable {m : Memory} {o : Owner} {s tmpPrev : ℤ}

theorem splitStore_before {x : ℤ} (hx : x < s)
    (hprev : tmpPrev ≠ null → x < tmpPrev ∨ tmpPrev + 64 ≤ x) :
    splitStore P m o s tmpPrev x = m.bytes x := by
  have hlarge := P.pageSize_large
  unfold splitStore
  rw [store_outside _ _ _ (by omega), store_outside _ _ _ (by omega)]
  split_ifs with hnull
  · exact store_outside _ _ _ (by omega)
  · rw [store_outside _ _ _ (by simpa using hprev hnull)]
    exact store_outside _ _ _ (by omega)

/-- The header that stood at `s` does not matter. -/
theorem splitStore_congr {m' : Memory} (hmeta : m'.metadata = m.metadata)
    (hbytes : ∀ x, x < s ∨ s + 64 ≤ x → m'.bytes x = m.bytes x)
    (hprev : tmpPrev ≠ null → tmpPrev + 64 ≤ s) :
    splitStore P m' o s tmpPrev = splitStore P m o s tmpPrev := by
  have hblock : unallocBlockOf P m' s = unallocBlockOf P m s := by
    rw [unallocBlockOf, unallocBlockOf, hmeta]
  have hpage : ∀ next, assignPageOf m' o.requestId o.tid s next =
      assignPageOf m o.requestId o.tid s next := fun next => by
    rw [assignPageOf, assignPageOf, hmeta]
  have hfirst : ∀ y, y < s ∨ s + 64 ≤ y → store m'.bytes (s + 64) (unallocBlockOf P m s) y =
      store m.bytes (s + 64) (unallocBlockOf P m s) y :=
    fun y hy => store_congr fun _ => hbytes y hy
  unfold splitStore
  simp only [hblock, hpage]
  funext x
  refine store_congr fun _ => store_congr fun hx => ?_
  rw [recordSize_page] at hx
  split_ifs with hnull
  · exact hfirst x hx
  · have hload : load Page (store m'.bytes (s + 64) (unallocBlockOf P m s)) tmpPrev =
        load Page (store m.bytes (s + 64) (unallocBlockOf P m s)) tmpPrev := by
      refine load_congr fun y _ hy => hfirst y (Or.inl ?_)
      have hlow := hprev hnull
      rw [recordSize_page] at hy
      omega
    rw [hload]
    exact store_congr fun _ => hfirst x hx

theorem splitStore_prev {pg : Page} (hnull : tmpPrev ≠ null) (hs : tmpPrev + 64 ≤ s)
    (hload : load Page m.bytes tmpPrev = pg) (hfits : Fits pg) (hnext : pg.next = s) :
    load Page (splitStore P m o s tmpPrev) tmpPrev = pg := by
  have hlarge := P.pageSize_large
  have hsame : load Page (store m.bytes (s + 64) (unallocBlockOf P m s)) tmpPrev = pg := by
    rw [load_store_of_apart _ _ (by simp; omega), hload]
  unfold splitStore
  rw [load_store_of_apart _ _ (by simp; omega), load_store_of_apart _ _ (by simp; omega),
    if_neg hnull, hsame]
  subst hnext
  exact load_store _ _ hfits

theorem splitStore_rest (hs : P.firstPage ≤ s) (hroom : s + P.sysconfPageSize + 64 ≤ P.top) :
    load Page (splitStore P m o s tmpPrev) (s + P.sysconfPageSize) =
      unassignPageOf (s + P.sysconfPageSize) (P.top - 1) null := by
  have hlarge := P.pageSize_large
  have hfirst := P.firstPage_eq
  exact load_store _ _ (unassignPageOf_fits (by omega) (by omega) null_holds)

theorem assignPageOf_eq_header (hps : m.metadata.pageSize = P.sysconfPageSize) (next : ℤ) :
    assignPageOf m o.requestId o.tid s next = (freshPage P o).header P s next := by
  simp [assignPageOf, freshPage, ArenaPage.header, ArenaPage.sizeOfAllocated, allocatedExtent, hps]

theorem splitStore_page (hps : m.metadata.pageSize = P.sysconfPageSize) (hs : P.firstPage ≤ s)
    (hroom : s + P.sysconfPageSize + 64 ≤ P.top) :
    load Page (splitStore P m o s tmpPrev) s =
      (freshPage P o).header P s (s + P.sysconfPageSize) := by
  have hlarge := P.pageSize_large
  have hpos := P.physicalMemory_pos
  have htop := P.physicalMemory_top
  have hfirst := P.firstPage_eq
  have htopEq := P.top_eq
  unfold splitStore
  rw [load_store_of_apart _ _ (by simp; omega), assignPageOf_eq_header hps]
  exact load_store _ _ (ArenaPage.header_fits (freshPage_valid o) (by omega) (by omega)
    (pointerField_holds (by omega) (by omega)))

theorem unallocBlockOf_eq_header (hps : m.metadata.pageSize = P.sysconfPageSize)
    (hnext : P.staleBlockNext = null) : unallocBlockOf P m s =
      (⟨.unallocated, 0, P.sysconfPageSize - 64⟩ : ArenaBlock).header (s + 64) null := by
  have hlarge := P.pageSize_large
  have hle := P.pageSize_le
  simp only [unallocBlockOf, ArenaBlock.header, hps, hnext, recordSize_page, recordSize_block]
  rw [toInt_of_range (by omega) (by omega)]
  rfl

theorem unallocBlockOf_fits (hps : m.metadata.pageSize = P.sysconfPageSize)
    (hnext : P.staleBlockNext = null) (hs : P.physicalMemory ≤ s)
    (hend : s + P.sysconfPageSize ≤ P.top) : Fits (unallocBlockOf P m s) := by
  have hlarge := P.pageSize_large
  have hle := P.pageSize_le
  have hpos := P.physicalMemory_pos
  have htop := P.physicalMemory_top
  have htopEq := P.top_eq
  rw [unallocBlockOf_eq_header hps hnext]
  exact ArenaBlock.header_fits ⟨by simp only; omega, by simp, by simp⟩ (by omega) (by omega)
    (by simp only; omega) null_holds

theorem splitStore_block (hps : m.metadata.pageSize = P.sysconfPageSize) (hs : P.firstPage ≤ s)
    (hroom : s + P.sysconfPageSize + 64 ≤ P.top) (hnext : P.staleBlockNext = null)
    (hprev : tmpPrev ≠ null → tmpPrev + 64 ≤ s) :
    BlocksAt (splitStore P m o s tmpPrev) (s + 64) (freshPage P o).blocks := by
  have hlarge := P.pageSize_large
  have hle := P.pageSize_le
  have hpos := P.physicalMemory_pos
  have htop := P.physicalMemory_top
  have hfirst := P.firstPage_eq
  have htopEq := P.top_eq
  have hheader := unallocBlockOf_eq_header (s := s) hps hnext
  have hfits := unallocBlockOf_fits hps hnext (show P.physicalMemory ≤ s by omega) (by omega)
  refine ⟨?_, trivial⟩
  rw [blockLink_nil, ← hheader]
  unfold splitStore
  rw [load_store_of_apart _ _ (by simp; omega), load_store_of_apart _ _ (by simp)]
  split_ifs with hnull
  · exact load_store _ _ hfits
  · rw [load_store_of_apart _ _ (by have := hprev hnull; simp; omega)]
    exact load_store _ _ hfits

end Frame

section Append

variable {m m' : Store} {a t : ℤ} {ps : Arena} {q : ArenaPage}

theorem HeadersAt.append (h : HeadersAt P m a ps)
    (hbytes : ∀ x, a ≤ x → x < pageEnd P a ps → x < t ∨ t + 64 ≤ x → m' x = m x)
    (hlast : ps ≠ [] → t + P.sysconfPageSize = pageEnd P a ps ∧ load Page m' t = load Page m t)
    (hpage : load Page m' (pageEnd P a ps) =
      q.header P (pageEnd P a ps) (pageEnd P a ps + P.sysconfPageSize))
    (hrest : load Page m' (pageEnd P a ps + P.sysconfPageSize) =
      unassignPageOf (pageEnd P a ps + P.sysconfPageSize) (P.top - 1) null)
    (hroom : pageEnd P a ps + P.sysconfPageSize + 64 ≤ P.top) :
    HeadersAt P m' a (ps ++ [q]) := by
  have hlarge := P.pageSize_large
  induction ps generalizing a with
  | nil =>
    simp only [pageEnd_nil] at hpage hrest hroom
    exact ⟨hpage, hrest, hroom⟩
  | cons p ps ih =>
    obtain ⟨ht, hload⟩ := hlast (by simp)
    rw [pageEnd_cons] at ht hpage hrest hroom hbytes
    refine ⟨?_, ih h.2 (fun x hx hx' => hbytes x (by omega) hx') (fun _ => ⟨ht, hload⟩)
      hpage hrest hroom⟩
    rw [← h.1]
    cases ps with
    | nil =>
      rw [pageEnd_nil] at ht
      obtain rfl : t = a := by omega
      exact hload
    | cons p' ps' =>
      rw [pageEnd_cons] at ht hbytes
      have hle := le_pageEnd (P := P) (a + P.sysconfPageSize + P.sysconfPageSize) ps'
      refine load_congr fun x hx hx' => ?_
      rw [recordSize_page] at hx'
      exact hbytes x hx (by omega) (by omega)

theorem OwnedBlocksAt.append (h : OwnedBlocksAt P m a ps) (hv : ∀ p ∈ ps, p.Valid P)
    (hbytes : ∀ x, a ≤ x → x < pageEnd P a ps → x < t ∨ t + 64 ≤ x → m' x = m x)
    (hlast : ps ≠ [] → t + P.sysconfPageSize = pageEnd P a ps)
    (hblocks : BlocksAt m' (pageEnd P a ps + 64) q.blocks) :
    OwnedBlocksAt P m' a (ps ++ [q]) := by
  have hlarge := P.pageSize_large
  induction ps generalizing a with
  | nil =>
    rw [pageEnd_nil] at hblocks
    exact ⟨hblocks, trivial⟩
  | cons p ps ih =>
    have ht := hlast (by simp)
    have htiles := (hv p (by simp)).tiles
    have hle := le_pageEnd (P := P) (a + P.sysconfPageSize) ps
    rw [pageEnd_cons] at ht hblocks hbytes
    refine ⟨h.1.congr (hv p (by simp)).blocks fun x hx hx' => ?_,
      ih h.2 (fun r hr => hv r (by simp [hr])) (fun x hx hx' => hbytes x (by omega) hx')
        (fun _ => ht) hblocks⟩
    refine (hbytes x (by omega) (by omega) ?_).symm
    cases ps with
    | nil =>
      rw [pageEnd_nil] at ht
      exact Or.inr (by omega)
    | cons p' ps' =>
      rw [pageEnd_cons] at ht
      have := le_pageEnd (P := P) (a + P.sysconfPageSize + P.sysconfPageSize) ps'
      exact Or.inl (by omega)

end Append

section Calls

variable {m : Memory} {A : Arena} {o : Owner}

def assigned (P : Platform) (m : Memory) (o : Owner) (A : Arena) : Memory :=
  { m with
    bytes := splitStore P m o (pageEnd P P.firstPage A) (lastPage P P.firstPage P.staleTmpPrev A) }

/-- When the scan ends, `tmp_prev` is null or names the last owned page. -/
theorem lastPage_cases (hstale : P.staleTmpPrev = null) :
    A = [] ∧ lastPage P P.firstPage P.staleTmpPrev A = null ∨
      A ≠ [] ∧ lastPage P P.firstPage P.staleTmpPrev A + P.sysconfPageSize =
        pageEnd P P.firstPage A := by
  by_cases hA : A = []
  · subst hA
    exact Or.inl ⟨rfl, hstale⟩
  · exact Or.inr ⟨hA, lastPage_add _ _ hA⟩

theorem HeadersAt.prevAt {b : Store} (h : HeadersAt P b P.firstPage A)
    (hstale : P.staleTmpPrev = null) :
    PrevAt P b (pageEnd P P.firstPage A) (lastPage P P.firstPage P.staleTmpPrev A) := by
  intro hne
  have hlarge := P.pageSize_large
  rcases lastPage_cases (P := P) (A := A) hstale with ⟨-, hnull⟩ | ⟨hA, hlast⟩
  · exact absurd hnull hne
  · obtain ⟨hlow, p, -, hload⟩ := h.last hA hlast
    exact ⟨hlow, by omega, by rw [hload]; rfl⟩

theorem ListsPages.assignPage_splits (h : ListsPages P m A) (requestId : RequestId) (tid : ℤ) :
    Settles (fun n => MemoryManager.assignPage P requestId tid n m)
      (splitPage P requestId tid (lastPage P P.firstPage P.staleTmpPrev A)
        (unassignPageOf (pageEnd P P.firstPage A) (P.top - 1) null) m) := by
  have hfirst := P.firstPage_eq
  unfold MemoryManager.assignPage
  rw [h.pageListHead]
  have hscan := scanPages_unassigned P.staleTmpPrev h.headers (by omega)
  exact (hscan.bind (Settles.const _)).congr fun n => assignPageLoop_eq ..

theorem ListsPages.assignPage (h : ListsPages P m A) (hstale : P.staleTmpPrev = null)
    (hroom : pageEnd P P.firstPage A + P.sysconfPageSize + 64 ≤ P.top) :
    Settles (fun n => MemoryManager.assignPage P o.requestId o.tid n m)
      (.ok (assigned P m o A)) := by
  have hsplits := h.assignPage_splits o.requestId o.tid
  rwa [splitPage_ok h.pageSize (le_pageEnd _ _) hroom (h.headers.prevAt hstale)] at hsplits

/-- With less than a page and a header left, the call writes outside the array. -/
theorem ListsPages.assignPage_overrun (h : ListsPages P m A) (hstale : P.staleTmpPrev = null)
    (hroom : P.top < pageEnd P P.firstPage A + P.sysconfPageSize + 64) :
    Settles (fun n => MemoryManager.assignPage P o.requestId o.tid n m)
      (.error .outOfBounds) := by
  have hsplits := h.assignPage_splits o.requestId o.tid
  rwa [splitPage_overrun h.pageSize (le_pageEnd _ _) h.headers.rest.2 (rest_ne_page A) hroom
    (h.headers.prevAt hstale)] at hsplits

theorem assigned_before {x : ℤ} (hx : x < pageEnd P P.firstPage A)
    (hlast : x < lastPage P P.firstPage P.staleTmpPrev A ∨
      lastPage P P.firstPage P.staleTmpPrev A + 64 ≤ x) :
    (assigned P m o A).bytes x = m.bytes x :=
  splitStore_before hx fun _ => hlast

theorem ListsPages.assigned_last (h : ListsPages P m A) (hA : A ≠ []) :
    load Page (assigned P m o A).bytes (lastPage P P.firstPage P.staleTmpPrev A) =
      load Page m.bytes (lastPage P P.firstPage P.staleTmpPrev A) := by
  have hlarge := P.pageSize_large
  have hpos := P.physicalMemory_pos
  have htop := P.physicalMemory_top
  have hfirst := P.firstPage_eq
  have htopEq := P.top_eq
  have ht := lastPage_add (P := P) P.firstPage P.staleTmpPrev hA
  have hrest := h.headers.rest.2
  obtain ⟨hle, p, hp, hload⟩ := h.headers.last hA ht
  rw [hload]
  refine splitStore_prev (by unfold null; omega) (by omega) hload ?_ rfl
  exact ArenaPage.header_fits (h.valid p hp) (by omega) (by omega)
    (pointerField_holds (by omega) (by omega))

theorem ListsPages.assigned (h : ListsPages P m A)
    (hroom : pageEnd P P.firstPage A + P.sysconfPageSize + 64 ≤ P.top) :
    ListsPages P (assigned P m o A) (A ++ [freshPage P o]) := by
  have hle := le_pageEnd (P := P) P.firstPage A
  refine ⟨h.initialized, h.pageSize, h.pageListHead, ?_, ?_⟩
  · exact h.headers.append (fun x _ => assigned_before)
      (fun hA => ⟨lastPage_add _ _ hA, h.assigned_last hA⟩)
      (splitStore_page h.pageSize hle hroom) (splitStore_rest hle hroom) hroom
  · intro p hp
    rcases List.mem_append.mp hp with hp | hp
    · exact h.valid p hp
    · rw [List.mem_singleton.mp hp]
      exact freshPage_valid o

theorem Represents.assigned (h : Represents P m A) (hstale : P.staleTmpPrev = null)
    (hnext : P.staleBlockNext = null)
    (hroom : pageEnd P P.firstPage A + P.sysconfPageSize + 64 ≤ P.top) :
    Represents P (assigned P m o A) (A ++ [freshPage P o]) := by
  have hlarge := P.pageSize_large
  have hle := le_pageEnd (P := P) P.firstPage A
  refine ⟨h.toListsPages.assigned hroom, ?_⟩
  apply h.ownedBlocks.append h.valid (fun x _ => assigned_before) (fun hA => lastPage_add _ _ hA)
  refine splitStore_block h.pageSize hle hroom hnext fun hnull => ?_
  rcases lastPage_cases (A := A) hstale with ⟨_, hlast⟩ | ⟨_, hlast⟩
  · exact absurd hlast hnull
  · omega

end Calls

def arenaMetadata (P : Platform) (head : ℤ) : MemoryMetadata :=
  ⟨0, P.sysconfPageSize, 8388608 / P.sysconfPageSize, P.physicalMemory, head⟩

theorem arenaMetadata_fits : Fits (arenaMetadata P null) := by
  have hlarge := P.pageSize_large
  have hle := P.pageSize_le
  have hpos := P.physicalMemory_pos
  have htop := P.physicalMemory_top
  have hnonneg : 0 ≤ 8388608 / P.sysconfPageSize := Int.ediv_nonneg (by decide) (by omega)
  have hbound : 8388608 / P.sysconfPageSize ≤ 8388608 := Int.ediv_le_self _ (by decide)
  exact MemoryMetadata.fits (intField_holds (by decide) (by decide))
    (intField_holds (by omega) (by omega)) (intField_holds (by omega) (by omega))
    (pointerField_holds (by omega) (by omega)) null_holds

def initialStore (P : Platform) (m : Store) : Store :=
  store (store m P.physicalMemory (arenaMetadata P null)) P.firstPage
    (unassignPageOf P.firstPage (P.top - 1) null)

theorem initMemoryMetadata_ok (m : Memory) : initMemoryMetadata P m =
    .ok ⟨initialStore P m.bytes, arenaMetadata P P.firstPage, true⟩ := by
  have hle := P.pageSize_le
  have hlarge := P.pageSize_large
  have hfirst := P.firstPage_eq
  have htop := P.top_eq
  have hin : P.Inside P.physicalMemory (recordSize MemoryMetadata) := ⟨le_rfl, by simp; omega⟩
  have hin' : P.Inside P.firstPage (recordSize Page) := inside_page.mpr ⟨by omega, by omega⟩
  have hload := load_store m.bytes P.physicalMemory (arenaMetadata_fits (P := P))
  unfold initMemoryMetadata
  rw [toInt_of_range (by omega) (by omega)]
  change (storeAt P m P.physicalMemory (arenaMetadata P null) >>= _) = _
  rw [storeAt_ok hin, ok_bind, loadAt_ok hin, ok_bind, hload]
  change (storeAt P _ P.firstPage (unassignPageOf P.firstPage (P.top - 1) null) >>= _) = _
  rw [storeAt_ok hin']
  rfl

/-- `init_memory_metadata` leaves one unassigned page over the whole array. -/
theorem initMemoryMetadata_represents (m : Memory) :
    ∃ m', initMemoryMetadata P m = .ok m' ∧ Represents P m' [] := by
  have hlarge := P.pageSize_large
  have hfirst := P.firstPage_eq
  have htop := P.top_eq
  refine ⟨_, initMemoryMetadata_ok m, ⟨rfl, rfl, rfl, ⟨?_, by omega⟩, by simp⟩, trivial⟩
  exact load_store _ _ (unassignPageOf_fits (by omega) (by omega) null_holds)

end VirtualMemorySimulation.MemoryManager

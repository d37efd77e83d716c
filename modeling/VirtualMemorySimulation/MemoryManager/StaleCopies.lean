import VirtualMemorySimulation.MemoryManager.FilledPages
import VirtualMemorySimulation.MemoryManager.PausedCalls

/-!
# What a stopped call hands out

While a call of `my_allocate` is stopped, any other calls may come and go. The call
hands out a range that another call has been given exactly when the header that it
has copied has changed meanwhile; otherwise it ends as if it had come after them. The
pages of a thread are changed by its own calls alone.
-/

namespace VirtualMemorySimulation.MemoryManager

open ByteRecords Execution SeparateBlocks

variable {P : Platform}

section Headers

variable {m : Store} {kind : RequestId} {tid x a : ℤ} {bs : List ArenaBlock} {ps : Arena}
  {c : Allocation}

theorem blockAllocations_header (h : BlocksAt m x bs) (hv : ∀ b ∈ bs, b.Valid)
    (hc : c ∈ blockAllocations kind tid x bs) :
    (load Block m (c.address - 40)).state = BlockState.allocated.code := by
  induction bs generalizing x with
  | nil => simp [blockAllocations] at hc
  | cons b bs ih =>
    rw [blockAllocations, List.mem_append] at hc
    rcases hc with hc | hc
    · split_ifs at hc with hs
      · obtain rfl := List.mem_singleton.mp hc
        rw [add_sub_cancel_right, h.1, ArenaBlock.header_state, hs]
      · simp at hc
    · exact ih h.2 (fun d hd => hv d (by simp [hd])) hc

theorem allocations_header (h : PagesAt P m a ps) (hv : ∀ p ∈ ps, p.Valid P)
    (hc : c ∈ allocations P a ps) :
    (load Block m (c.address - 40)).state = BlockState.allocated.code := by
  induction ps generalizing a with
  | nil => simp [allocations] at hc
  | cons p ps ih =>
    obtain ⟨-, hblocks, hrest⟩ := pagesAt_cons.mp h
    rcases List.mem_append.mp hc with hc | hc
    · exact blockAllocations_header hblocks (hv p (by simp)).blocks hc
    · exact ih hrest (fun q hq => hv q (by simp [hq])) hc

end Headers

section Prefix

variable {m : Memory} {A B : Arena} {o : Owner}

theorem PagesAt.prefix {b b' : Store} {a : ℤ} {pre post : Arena} (h : PagesAt P b a (pre ++ post))
    (hv : ∀ p ∈ pre, p.Valid P) (hb : ∀ x, a ≤ x → x < pageEnd P a pre → b' x = b x)
    (hrest : load Page b' (pageEnd P a pre) =
      unassignPageOf (pageEnd P a pre) (P.top - 1) null) (htop : pageEnd P a pre + 64 ≤ P.top) :
    PagesAt P b' a pre := by
  have hlarge := P.pageSize_large
  induction pre generalizing a with
  | nil =>
    rw [pageEnd_nil] at hrest htop
    exact ⟨⟨hrest, htop⟩, trivial⟩
  | cons p pre ih =>
    rw [List.cons_append] at h
    obtain ⟨hload, hblocks, htail⟩ := pagesAt_cons.mp h
    have hp := hv p (by simp)
    have htiles := hp.tiles
    have hle := le_pageEnd (P := P) (a + P.sysconfPageSize) pre
    rw [pageEnd_cons] at hb hrest htop
    refine pagesAt_cons.mpr ⟨?_, hblocks.congr hp.blocks fun y hy hy' => ?_,
      ih htail (fun q hq => hv q (by simp [hq])) (fun y hy => hb y (by omega)) hrest htop⟩
    · rw [← hload]
      refine load_congr fun y hy hy' => ?_
      rw [recordSize_page] at hy'
      exact hb y hy (by omega)
    · exact (hb y (by omega) (by omega)).symm

/-- The memory with the header of an unassigned page where the pages of `A` end. -/
def cutBack (P : Platform) (m : Memory) (A : Arena) : Memory :=
  { m with
    bytes := store m.bytes (pageEnd P P.firstPage A)
      (unassignPageOf (pageEnd P P.firstPage A) (P.top - 1) null) }

/-- With that header the memory holds the first pages alone. -/
theorem Represents.cutBack (h : Represents P m (A ++ B)) :
    Represents P (cutBack P m A) A := by
  have hlarge := P.pageSize_large
  have hpos := P.physicalMemory_pos
  have hfirst := P.firstPage_eq
  have hle := le_pageEnd (P := P) P.firstPage A
  have hle' := le_pageEnd (P := P) (pageEnd P P.firstPage A) B
  have hrest := h.headers.rest.2
  rw [pageEnd_append] at hrest
  have hvalid : ∀ p ∈ A, p.Valid P := fun p hp => h.valid p (by simp [hp])
  obtain ⟨hheaders, hblocks⟩ := h.pages.prefix hvalid
    (fun x _ hx => store_outside m.bytes _
      (unassignPageOf (pageEnd P P.firstPage A) (P.top - 1) null) (Or.inl hx))
    (load_store _ _ (unassignPageOf_fits (by omega) (by omega) null_holds)) (by omega)
  exact ⟨⟨h.initialized, h.pageSize, h.pageListHead, hheaders, hvalid⟩, hblocks⟩

/-- A call that goes on with an unassigned page of before forgets the pages that have come
behind it, and hands out the first block of one that it puts in their place. -/
theorem resume_cutBack {r : Request} {k : ℕ} {v : ℤ} {m' : Memory} (h : Represents P m (A ++ B))
    (hstale : P.staleTmpPrev = null) (hnext : P.staleBlockNext = null)
    (hr : r.requestId ≠ .unknown) (hsize : 0 ≤ r.size) (hnone : r.arenaFit P A = none)
    (hok : r.resume P k m (unassignedCopy P A) = .ok (v, m')) : v = dataAddress P A [] := by
  have hcut := h.cutBack
  obtain ⟨m₁, hsplit, hok⟩ := bind_eq_ok.mp hok
  have hroom := splitPage_room h.pageSize hsplit
  have hapart : ∀ y : ℤ, y + 64 ≤ pageEnd P P.firstPage A →
      load Page (cutBack P m A).bytes y = load Page m.bytes y :=
    fun y hy => load_store_of_apart _ _ (Or.inl (by simpa using hy))
  have hprev : PrevAt P m.bytes (pageEnd P P.firstPage A)
      (lastPage P P.firstPage P.staleTmpPrev A) := by
    intro hne
    obtain ⟨hlow, hhigh, hself⟩ := hcut.headers.prevAt hstale hne
    rw [hapart _ hhigh] at hself
    exact ⟨hlow, hhigh, hself⟩
  rw [Request.path_requestId hr, Request.path_tid] at hsplit
  have hwritten := splitPage_ok (o := r.owner) h.pageSize (le_pageEnd _ _) hroom hprev
  obtain rfl := Except.ok.inj (hsplit.symm.trans hwritten)
  have hsame : splitStore P (cutBack P m A) r.owner (pageEnd P P.firstPage A)
      (lastPage P P.firstPage P.staleTmpPrev A) = splitStore P m r.owner (pageEnd P P.firstPage A)
        (lastPage P P.firstPage P.staleTmpPrev A) :=
    splitStore_congr rfl (fun x hx => store_outside _ _ _ (by simpa using hx))
      fun hne => (hprev hne).2.1
  have hrep := hcut.assigned (o := r.owner) hstale hnext hroom
  rw [assigned, hsame] at hrep
  have hs := Request.path_searchesFor (P := P) hr hrep.pageSize
  rw [Request.path_allocate hr] at hok
  cases hfit : r.arenaFit P (A ++ [freshPage P r.owner]) with
  | none =>
    have hfresh := (Option.or_eq_none_iff.mp ((arenaFit_fresh r A).symm.trans hfit)).2
    have htaken : r.taken P (A ++ [freshPage P r.owner]) = none := by
      rw [Request.taken, hfit, hfresh]
      rfl
    cases (allocateFrom_exhaust hs hrep hstale hnext htaken).eq_of_ok hok
  | some b =>
    obtain ⟨pre, p, post, bpre, bpost, ht⟩ := arenaFit_some.mp hfit
    have hout := (allocateFrom_taken hs hrep ht hsize).eq_of_ok hok
    obtain ⟨rfl, -, -, rfl⟩ := TakenAt.fresh ht hnone
    exact (Prod.mk.inj (Except.ok.inj hout)).1.symm

end Prefix

section Staleness

variable {m : Memory} {A B : Arena}

theorem exists_split {i : ℕ} {q : ArenaPage} (h : B[i]? = some q) :
    ∃ pre post, B = pre ++ q :: post ∧ pre.length = i := by
  obtain ⟨hi, rfl⟩ := List.getElem?_eq_some_iff.mp h
  refine ⟨B.take i, B.drop (i + 1), ?_, List.length_take_of_le hi.le⟩
  rw [List.getElem_cons_drop, List.take_append_drop]

theorem lastPage_congr {pre pre' : Arena} (h : pre.length = pre'.length) (a tmpPrev : ℤ) :
    lastPage P a tmpPrev pre = lastPage P a tmpPrev pre' := by
  induction pre generalizing pre' a tmpPrev with
  | nil =>
    obtain rfl := List.length_eq_zero_iff.mp h.symm
    rfl
  | cons p pre ih =>
    cases pre' with
    | nil => simp at h
    | cons p' pre' => exact ih (Nat.succ.inj h) _ _

theorem unassignedCopy_congr (h : A.length = B.length) :
    unassignedCopy P A = unassignedCopy P B := by
  rw [unassignedCopy, unassignedCopy, lastPage_congr h, pageEnd_congr h]

/-- The copied page header differs from the one in the array if the page has changed at all. -/
theorem blockCopy_stale {pre post : Arena} {p : ArenaPage} {bpre bpost : List ArenaBlock}
    {b : ArenaBlock} (h : Represents P m B) (hgrown : Grown P (pre ++ p :: post) B) :
    (blockCopy P pre p bpre b bpost).Stale m ↔ B[pre.length]? ≠ some p := by
  obtain ⟨q, hq, hfills⟩ := hgrown pre.length p (by simp)
  obtain ⟨pre', post', rfl, hlength⟩ := exists_split hq
  obtain ⟨hload, -⟩ := pagesAt_cons.mp h.pages.drop
  rw [pageEnd_congr hlength] at hload
  change load Page m.bytes (pageEnd P P.firstPage pre) ≠ _ ↔ _
  rw [hload, hq]
  refine not_congr ⟨fun hheader => ?_, fun heq => by rw [Option.some.inj heq]⟩
  rcases hfills.grows with rfl | hlt
  · rfl
  · have hsize := congrArg Page.sizeOfAllocated hheader
    simp only [ArenaPage.header_sizeOfAllocated] at hsize
    omega

theorem unassignedCopy_stale (h : Represents P m B) (hle : A.length ≤ B.length) :
    (unassignedCopy P A).Stale m ↔ A.length < B.length := by
  change load Page m.bytes (pageEnd P P.firstPage A) ≠ _ ↔ _
  rcases hle.eq_or_lt with heq | hlt
  · have hload := h.headers.rest.1
    rw [← pageEnd_congr heq] at hload
    simp [hload, heq]
  · obtain ⟨q, hq⟩ : ∃ q, B[A.length]? = some q := ⟨_, List.getElem?_eq_getElem hlt⟩
    obtain ⟨pre, post, rfl, hlength⟩ := exists_split hq
    obtain ⟨hload, -⟩ := pagesAt_cons.mp h.pages.drop
    rw [pageEnd_congr hlength] at hload
    refine iff_of_true (fun hheader => ?_) hlt
    have hstate := congrArg Page.state (hload.symm.trans hheader)
    simp [PageState.code] at hstate

end Staleness

section Runs

variable {s s' : Service} {t t' : Ledger} {A : Arena} {actions : List (Action Call UInt8)}
  {r : Request} {v : ℤ} {m' : Memory}

theorem Tracks.step_represents (h : Tracks P s t) (hrep : Represents P s.memory t.arena)
    (hstale : P.staleTmpPrev = null) (hnext : P.staleBlockNext = null)
    {action : Action Call UInt8} (hstep : (manager P).Step s action s') :
    ∃ t', t.exec P action = .ok t' ∧ Tracks P s' t' ∧ Represents P s'.memory t'.arena := by
  obtain ⟨t', hexec, htracks⟩ := h.step hstale hnext hstep
  refine ⟨t', hexec, htracks, ?_⟩
  have hkept : s'.memory.initialized = true → Represents P s'.memory t'.arena := by
    rcases htracks.holds with ⟨hfalse, -⟩ | hrep'
    · intro htrue
      simp [hfalse] at htrue
    · exact fun _ => hrep'
  cases hstep with
  | call hcall =>
    cases hcall with
    | allocate =>
      rcases htracks.represents with ⟨hnil, -⟩ | hrep'
      · simp at hnil
      · exact hrep'
    | deallocate => exact hkept hrep.initialized
  | write => exact hkept hrep.initialized

theorem tailed_of_run (hstale : P.staleTmpPrev = null) (hnext : P.staleBlockNext = null)
    (hrun : Run (manager P).Step .initial actions s) :
    ∃ t, Tracks P s t ∧ ∀ p ∈ t.arena, Tailed p := by
  apply hrun.invariant (I := fun _ s => ∃ t, Tracks P s t ∧ ∀ p ∈ t.arena, Tailed p)
  · exact ⟨_, .initial, by simp [Ledger.initial]⟩
  · rintro done s action s' ⟨t, htracks, htailed⟩ hstep
    obtain ⟨t', hexec, htracks'⟩ := htracks.step hstale hnext hstep
    exact ⟨t', htracks', Ledger.exec_tailed htailed hexec⟩

/-- What calls of clients leave of a memory that held the arena `A`. -/
structure Meanwhile (P : Platform) (A : Arena) (actions : List (Action Call UInt8)) (s : Service)
    (t : Ledger) : Prop where
  tracks : Tracks P s t
  represents : Represents P s.memory t.arena
  since : Since P A t
  others : ∀ (i : ℕ) (p : ArenaPage), A[i]? = some p →
    (∀ r, .call (.allocate r) ∈ actions → ¬ r.Owns p) → t.arena[i]? = some p

theorem meanwhile_of_run (hstale : P.staleTmpPrev = null) (hnext : P.staleBlockNext = null)
    (htracks : Tracks P s t) (hrep : Represents P s.memory t.arena)
    (htailed : ∀ p ∈ t.arena, Tailed p) (hrun : Run (manager P).Step s actions s') :
    ∃ t', Meanwhile P t.arena actions s' t' := by
  apply hrun.invariant (I := fun actions s' => ∃ t', Meanwhile P t.arena actions s' t')
  · exact ⟨t, htracks, hrep, .refl t.served t.arena, fun i p hp _ => hp⟩
  · rintro done s₁ action s₂ ⟨t₁, h⟩ hstep
    obtain ⟨t₂, hexec, htracks₂, hrep₂⟩ :=
      h.tracks.step_represents h.represents hstale hnext hstep
    refine ⟨t₂, htracks₂, hrep₂, h.since.exec h.represents.valid htailed hexec, ?_⟩
    intro i p hp hother
    refine Ledger.exec_other (h.others i p hp fun r hr => hother r (by simp [hr])) ?_ hexec
    rintro r rfl
    exact hother r (by simp)

/-- A call of `my_allocate` that comes back hands out what nobody has been handed out. -/
theorem Tracks.not_served (h : Tracks P s t) (hstale : P.staleTmpPrev = null)
    (hnext : P.staleBlockNext = null) (hcall : Allocates P s.memory (r, v) m') :
    ∀ c ∈ s.served, c.2 ≠ v := by
  obtain ⟨hsize, n, hret⟩ := hcall
  obtain ⟨m₀, A₀, pre, p, post, bpre, b, bpost, hrep, hA₀, -, ht, rfl, -⟩ :=
    myAllocate_returns h.holds hstale hnext hsize hret
  intro c hc heq
  have hmem : c.1.allocation c.2 ∈ allocations P P.firstPage A₀ := by
    have hserved := h.allocation_mem hc
    rcases hA₀ with rfl | rfl
    · exact hserved
    · rwa [allocations_fresh]
  have hallocated := allocations_header hrep.pages hrep.valid hmem
  -- the header before the new data is that of a free block
  obtain rfl := ht.split
  obtain ⟨-, hblocks, -⟩ := pagesAt_cons.mp hrep.pages.drop
  rw [ht.fit.split] at hblocks
  have hfree := hblocks.drop.1
  simp only [Request.allocation, heq, dataAddress, add_sub_cancel_right] at hallocated
  rw [hfree, ArenaBlock.header_state, ht.fit.takes.1] at hallocated
  simp [BlockState.code] at hallocated

/-- Where a call that is stopped after a run was, and what a run after that leaves. -/
theorem paused_run {s₀ : Service} {before meanwhile : List (Action Call UInt8)} {m₁ : Memory}
    {copy : Copy} {n : ℕ} (hstale : P.staleTmpPrev = null) (hnext : P.staleBlockNext = null)
    (hbefore : Run (manager P).Step .initial before s₀)
    (hpause : r.pause P n s₀.memory = .ok (m₁, some copy))
    (hmeanwhile : Run (manager P).Step ⟨m₁, s₀.served⟩ meanwhile s) :
    ∃ t₀ t : Ledger, Meanwhile P t₀.arena meanwhile s t ∧ r.requestId ≠ .unknown ∧
      ((∃ pre p post bpre b bpost, TakenAt P r t₀.arena pre p post bpre b bpost ∧
          copy = blockCopy P pre p bpre b bpost) ∨
        r.arenaFit P t₀.arena = none ∧ copy = unassignedCopy P t₀.arena) := by
  obtain ⟨t₀, htracks, htailed⟩ := tailed_of_run hstale hnext hbefore
  obtain ⟨m₂, hrep, hsame⟩ := pause_holds (r := r) htracks.holds
  rw [hsame] at hpause
  obtain ⟨hr, rfl, hcopy⟩ := pause_cases hrep hpause
  have hstarted : Tracks P ⟨m₁, s₀.served⟩ t₀ :=
    ⟨htracks.served, Or.inr hrep, htracks.accounts,
      fun hfalse => absurd (hrep.initialized.symm.trans hfalse) (by decide)⟩
  obtain ⟨t, h⟩ := meanwhile_of_run hstale hnext hstarted hrep htailed hmeanwhile
  exact ⟨t₀, t, h, hr, hcopy⟩

namespace Meanwhile

variable {k : ℕ}

/-- A block of a page that has changed has been handed out; of one that has not, the call would
be given it now. -/
theorem resume_block {pre post : Arena} {p : ArenaPage} {bpre bpost : List ArenaBlock}
    {b : ArenaBlock} (h : Meanwhile P A actions s t) (hr : r.requestId ≠ .unknown)
    (ht : TakenAt P r A pre p post bpre b bpost)
    (hok : r.resume P k s.memory (blockCopy P pre p bpre b bpost) = .ok (v, m')) :
    ((blockCopy P pre p bpre b bpost).Stale s.memory → ∃ c ∈ s.served, c.2 = v) ∧
      (t.arena[pre.length]? = some p →
        Settles (fun n => myAllocate P r n s.memory) (.ok (v, m'))) := by
  have hv : v = dataAddress P pre bpre := (takeBlock_ok hok).1
  constructor
  · intro hstale
    have hgrown := h.since.grown
    rw [ht.split] at hgrown
    rw [hv, h.tracks.served]
    exact h.since.cut ht.split ht.fit ((blockCopy_stale h.represents hgrown).mp hstale)
  · intro hq
    obtain ⟨pre', post', hsplit, hlength⟩ := exists_split hq
    have hpassed : ∀ q ∈ pre', r.pageFit P q = none := by
      have hbefore : ∀ q ∈ A.take pre.length, r.pageFit P q = none := by
        rw [ht.split, List.take_left]
        exact ht.passed
      have hlater := h.since.grown.starved (by rw [ht.split]; simp) hbefore
      rwa [hsplit, ← hlength, List.take_left] at hlater
    have hnow : TakenAt P r t.arena pre' p post' bpre b bpost :=
      ⟨hsplit, hpassed, ht.searches, ht.fit⟩
    have hcopy : blockCopy P pre p bpre b bpost = blockCopy P pre' p bpre b bpost := by
      rw [blockCopy, blockCopy, pageEnd_congr hlength]
    rw [hcopy] at hok
    exact MemoryManager.resume_block h.represents hr hnow hok

/-- An unassigned page that has been assigned has been allocated from; one that has not is the
next one still. -/
theorem resume_unassigned (h : Meanwhile P A actions s t) (hstale : P.staleTmpPrev = null)
    (hnext : P.staleBlockNext = null) (hr : r.requestId ≠ .unknown) (hsize : 0 ≤ r.size)
    (hnone : r.arenaFit P A = none)
    (hok : r.resume P k s.memory (unassignedCopy P A) = .ok (v, m')) :
    ((unassignedCopy P A).Stale s.memory → ∃ c ∈ s.served, c.2 = v) ∧
      (¬ (unassignedCopy P A).Stale s.memory →
        Settles (fun n => myAllocate P r n s.memory) (.ok (v, m'))) := by
  have hle := h.since.grown.length_le
  have hstarved : ∀ q ∈ t.arena.take A.length, r.pageFit P q = none := by
    apply h.since.grown.starved le_rfl
    rw [List.take_length]
    exact List.findSome?_eq_none_iff.mp hnone
  rw [unassignedCopy_stale h.represents hle]
  constructor
  · intro hlt
    have hlength : A.length = (t.arena.take A.length).length := (List.length_take_of_le hle).symm
    have hrep := h.represents
    rw [← List.take_append_drop A.length t.arena] at hrep
    rw [unassignedCopy_congr hlength] at hok
    have hnone' := List.findSome?_eq_none_iff.mpr hstarved
    have hv := resume_cutBack hrep hstale hnext hr hsize hnone' hok
    rw [hv, h.tracks.served, ← dataAddress_congr hlength]
    exact h.since.fresh hlt
  · intro hnot
    have hlength : A.length = t.arena.length := le_antisymm hle (not_lt.mp hnot)
    rw [hlength, List.take_length] at hstarved
    rw [unassignedCopy_congr hlength] at hok
    have hnone' := List.findSome?_eq_none_iff.mpr hstarved
    exact MemoryManager.resume_unassigned h.represents hr hnone' hok

end Meanwhile

/-- While a call is stopped after the copy of a header, any calls of others may come and go. It
hands out what one of those served has been handed out exactly when the header in the array is
no longer the copied one; otherwise it ends as if it had been made after them. -/
theorem handed_out_twice_iff_stale {s₀ : Service} {before meanwhile : List (Action Call UInt8)}
    {m₁ : Memory} {copy : Copy} {n k : ℕ} (hstale : P.staleTmpPrev = null)
    (hnext : P.staleBlockNext = null) (hsize : 0 ≤ r.size)
    (hbefore : Run (manager P).Step .initial before s₀)
    (hpause : r.pause P n s₀.memory = .ok (m₁, some copy))
    (hmeanwhile : Run (manager P).Step ⟨m₁, s₀.served⟩ meanwhile s)
    (hresume : r.resume P k s.memory copy = .ok (v, m')) :
    ((∃ c ∈ s.served, c.2 = v) ↔ copy.Stale s.memory) ∧
      (¬ copy.Stale s.memory → Allocates P s.memory (r, v) m') := by
  obtain ⟨t₀, t, h, hr, hcopy⟩ := paused_run hstale hnext hbefore hpause hmeanwhile
  have hends : (copy.Stale s.memory → ∃ c ∈ s.served, c.2 = v) ∧
      (¬ copy.Stale s.memory → Settles (fun n => myAllocate P r n s.memory) (.ok (v, m'))) := by
    rcases hcopy with ⟨pre, p, post, bpre, b, bpost, ht, rfl⟩ | ⟨hnone, rfl⟩
    · obtain ⟨htwice, hnow⟩ := h.resume_block hr ht hresume
      have hgrown := h.since.grown
      rw [ht.split] at hgrown
      refine ⟨htwice, fun hfresh => hnow ?_⟩
      rwa [blockCopy_stale h.represents hgrown, not_not] at hfresh
    · exact h.resume_unassigned hstale hnext hr hsize hnone hresume
  have hnow : ¬ copy.Stale s.memory → Allocates P s.memory (r, v) m' :=
    fun hfresh => ⟨hsize, (hends.2 hfresh).exists_ok⟩
  refine ⟨⟨fun ⟨c, hc, hv⟩ => ?_, hends.1⟩, hnow⟩
  by_contra hfresh
  exact h.tracks.not_served hstale hnext (hnow hfresh) c hc hv

/-- Thread 1 is stopped with the first unassigned page, and thread 2 gets a page meanwhile. -/
theorem handed_out_twice_iff_stale_firstPage : ∃ m₁ copy s m',
    nodeRequest.pause .typical 4 Memory.initial = .ok (m₁, some copy) ∧
      Run (manager .typical).Step ⟨m₁, []⟩ [.call (.allocate bufferRequest)] s ∧
      nodeRequest.resume .typical 4 s.memory copy = .ok (65672, m') ∧
      (bufferRequest, 65672) ∈ s.served ∧ copy.Stale s.memory := by
  have hcalls : (nodeRequest.pause .typical 4 Memory.initial >>= fun paused =>
      myAllocate .typical bufferRequest 4 paused.1 >>= fun res =>
        paused.2.elim (.error .notEnabled) fun copy =>
          (nodeRequest.resume .typical 4 res.2 copy).map fun res' => (res.1, res'.1)) =
      .ok (65672, 65672) := by
    decide +kernel
  obtain ⟨⟨m₁, stopped⟩, hpause, hcalls⟩ := bind_eq_ok.mp hcalls
  obtain ⟨⟨w, m₂⟩, hcall, hcalls⟩ := bind_eq_ok.mp hcalls
  cases stopped with
  | none => cases hcalls
  | some copy =>
    obtain ⟨⟨v, m'⟩, hresume, hv⟩ := map_eq_ok.mp hcalls
    obtain ⟨rfl, rfl⟩ := Prod.mk.inj hv
    obtain ⟨m₀, hrep, hsame⟩ :=
      pause_holds (P := .typical) (r := nodeRequest) (m := Memory.initial) (Or.inl ⟨rfl, rfl⟩)
    obtain ⟨-, rfl, -⟩ := pause_cases hrep ((hsame 4).symm.trans hpause)
    have hclears : Clears .typical m₁ (bufferRequest, 65672) :=
      (clears_iff (Or.inr hrep) bufferRequest _).mpr (by decide)
    have hrun : Run (manager .typical).Step ⟨m₁, []⟩ [.call (.allocate bufferRequest)]
        ⟨m₂, [(bufferRequest, 65672)]⟩ :=
      .single (.call (.allocate hclears ⟨by decide, 4, hcall⟩))
    have htwice := handed_out_twice_iff_stale rfl rfl (by decide) .nil hpause hrun hresume
    exact ⟨m₁, copy, _, m', hpause, hrun, hresume, by simp,
      htwice.1.mp ⟨(bufferRequest, 65672), by simp, rfl⟩⟩

/-- The requests are served from pages of different owners. -/
def Request.OtherOwner (r r' : Request) : Prop :=
  r'.requestId ≠ r.requestId ∨ r.requestId = .threadReq ∧ r'.currTid ≠ r.currTid

/-- The page of a copied block has not changed if all calls since were by other owners. -/
theorem other_owners_leave_block {s₀ : Service} {before meanwhile : List (Action Call UInt8)}
    {m₁ : Memory} {currentPage : Page} {tmpPrev : ℤ} {blk : Block} {n k : ℕ}
    (hstale : P.staleTmpPrev = null) (hnext : P.staleBlockNext = null) (hsize : 0 ≤ r.size)
    (hbefore : Run (manager P).Step .initial before s₀)
    (hpause : r.pause P n s₀.memory = .ok (m₁, some (.block currentPage tmpPrev blk)))
    (hmeanwhile : Run (manager P).Step ⟨m₁, s₀.served⟩ meanwhile s)
    (hothers : ∀ r', .call (.allocate r') ∈ meanwhile → r.OtherOwner r')
    (hresume : r.resume P k s.memory (.block currentPage tmpPrev blk) = .ok (v, m')) :
    Allocates P s.memory (r, v) m' := by
  obtain ⟨t₀, t, h, hr, hcopy⟩ := paused_run hstale hnext hbefore hpause hmeanwhile
  rcases hcopy with ⟨pre, p, post, bpre, b, bpost, ht, hblock⟩ | ⟨-, hblock⟩
  · rw [hblock] at hresume
    refine ⟨hsize, ((h.resume_block hr ht hresume).2 ?_).exists_ok⟩
    refine h.others pre.length p (by rw [ht.split]; simp) fun r' hr' howns => ?_
    obtain ⟨hkind, htid⟩ := ht.searches.1
    rcases hothers r' hr' with hne | ⟨hthread, hne⟩
    · exact hne (howns.1.symm.trans hkind)
    · exact hne ((howns.2 ((howns.1.symm.trans hkind).trans hthread)).symm.trans (htid hthread))
  · cases hblock

/-- The scheduler is stopped with the free block of its page while thread 1 gets a page. -/
theorem other_owners_leave_block_nodeBetween : ∃ s₀ currentPage tmpPrev blk s m',
    Run (manager .typical).Step .initial [.call (.allocate smallRequest)] s₀ ∧
      smallRequest.pause .typical 8 s₀.memory =
        .ok (s₀.memory, some (.block currentPage tmpPrev blk)) ∧
      Run (manager .typical).Step s₀ [.call (.allocate nodeRequest)] s ∧
      smallRequest.resume .typical 8 s.memory (.block currentPage tmpPrev blk) = .ok (65812, m') ∧
      Allocates .typical s.memory (smallRequest, 65812) m' := by
  have hcalls : (myAllocate .typical smallRequest 8 Memory.initial >>= fun res =>
      smallRequest.pause .typical 8 res.2 >>= fun paused =>
        myAllocate .typical nodeRequest 8 paused.1 >>= fun res' =>
          match paused.2 with
          | some (.block currentPage tmpPrev blk) =>
            (smallRequest.resume .typical 8 res'.2 (.block currentPage tmpPrev blk)).map
              fun res'' => (res.1, res'.1, res''.1)
          | _ => .error .notEnabled) = .ok (65672, 69768, 65812) := by
    decide +kernel
  obtain ⟨⟨u, m₁⟩, hfirst, hcalls⟩ := bind_eq_ok.mp hcalls
  obtain ⟨⟨m₂, stopped⟩, hpause, hcalls⟩ := bind_eq_ok.mp hcalls
  obtain ⟨⟨w, m₃⟩, hcall, hcalls⟩ := bind_eq_ok.mp hcalls
  obtain ⟨currentPage, tmpPrev, blk, rfl⟩ :
      ∃ currentPage tmpPrev blk, stopped = some (.block currentPage tmpPrev blk) := by
    match stopped, hcalls with
    | some (.block currentPage tmpPrev blk), _ => exact ⟨_, _, _, rfl⟩
  obtain ⟨⟨v, m'⟩, hresume, hv⟩ := map_eq_ok.mp hcalls
  simp only [Prod.mk.injEq] at hv
  obtain ⟨rfl, rfl, rfl⟩ := hv
  have hclears : Clears .typical Memory.initial (smallRequest, 65672) :=
    (clears_iff (Or.inl ⟨rfl, rfl⟩) smallRequest _).mpr (by decide)
  have hallocates : Allocates .typical Memory.initial (smallRequest, 65672) m₁ :=
    ⟨by decide, 8, hfirst⟩
  obtain ⟨t, ht, htracks⟩ := Tracks.initial.allocate rfl rfl hclears hallocates
  have hrep : Represents .typical m₁ t.arena := by
    rcases htracks.represents with ⟨hnil, -⟩ | hrep
    · cases hnil
    · exact hrep
  obtain ⟨-, rfl, -⟩ := pause_cases hrep hpause
  obtain ⟨t', ht', hclear⟩ : ∃ t', Ledger.exec .typical (.call (.allocate smallRequest)) .initial =
      .ok t' ∧ decide (nodeRequest.Clear .typical t'.arena) = true :=
    map_eq_ok.mp (by decide +kernel)
  obtain rfl := Except.ok.inj (ht.symm.trans ht')
  have hclears' : Clears .typical m₂ (nodeRequest, 69768) :=
    (clears_iff (Or.inr hrep) nodeRequest _).mpr (of_decide_eq_true hclear)
  have hbefore : Run (manager .typical).Step .initial [.call (.allocate smallRequest)]
      ⟨m₂, [(smallRequest, 65672)]⟩ := .single (.call (.allocate hclears hallocates))
  have hmeanwhile : Run (manager .typical).Step ⟨m₂, [(smallRequest, 65672)]⟩
      [.call (.allocate nodeRequest)] ⟨m₃, [(smallRequest, 65672), (nodeRequest, 69768)]⟩ :=
    .single (.call (.allocate hclears' ⟨by decide, 8, hcall⟩))
  have hothers : ∀ r', (.call (.allocate r') : Action Call UInt8) ∈
      [.call (.allocate nodeRequest)] → smallRequest.OtherOwner r' := by
    intro r' hr'
    obtain rfl : r' = nodeRequest := by simpa using hr'
    exact Or.inl (by decide)
  exact ⟨_, currentPage, tmpPrev, blk, _, m', hbefore, hpause, hmeanwhile, hresume,
    other_owners_leave_block rfl rfl (by decide) hbefore hpause hmeanwhile hothers hresume⟩

end Runs

end VirtualMemorySimulation.MemoryManager

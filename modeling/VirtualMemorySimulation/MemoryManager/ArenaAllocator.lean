import VirtualMemorySimulation.MemoryManager.Accounting

/-!
# `my_allocate` on arenas

What `my_allocate` is for, without addresses and headers: a page is a list of
blocks, a request cuts the first block that fits in the pages of its caller, and
a page is added when no block does. `Request.serve` says so on arenas and names
the place that is handed out by the number of its page and an offset.

The byte array determines the arena it holds, and on every arena the code and
`serve` agree: on the pointer, on the arena left behind, and on when there is no
memory left.
-/

namespace VirtualMemorySimulation.MemoryManager

open ByteRecords Execution

variable {P : Platform}

/-- The first block that fits cut in two, with the bytes before it. -/
def cutBlocks (size : ℤ) : List ArenaBlock → Option (ℤ × List ArenaBlock)
  | [] => none
  | b :: bs =>
    if b.Takes size then
      some (0, ⟨.allocated, size, size + 40⟩ ::
        ⟨.unallocated, 0, b.totalSize - (size + 40)⟩ :: bs)
    else (cutBlocks size bs).map fun cut => (b.totalSize + cut.1, b :: cut.2)

/-- A place in an arena: the number of its page and the offset there. -/
abbrev Place := ℕ × ℤ

namespace Request

variable (r : Request) (P)

/-- What the request takes from a page: the offset of the data, and the page left. -/
def servePage (p : ArenaPage) : Option (ℤ × ArenaPage) :=
  if r.Searches P p then
    (cutBlocks r.size p.blocks).map fun cut => (64 + cut.1 + 40, { p with blocks := cut.2 })
  else none

/-- What the request takes from the first page that has something for it. -/
def servePages : Arena → Option (Place × Arena)
  | [] => none
  | p :: ps =>
    match r.servePage P p with
    | some served => some ((0, served.1), served.2 :: ps)
    | none => (servePages ps).map fun served => ((served.1.1 + 1, served.1.2), p :: served.2)

/-- The pages with a fresh one for the request behind them. -/
def withFresh (A : Arena) : Arena := A ++ [freshPage P r.owner]

/-- The request on an arena: its pages, or a fresh one if the array has room for it. -/
def serve (A : Arena) : Option (Place × Arena) :=
  (r.servePages P A).or
    (if pageEnd P P.firstPage A + P.sysconfPageSize ≤ P.top then r.servePages P (r.withFresh P A)
    else none)

/-- The block that the request takes has room for two headers. -/
def Clear (A : Arena) : Prop := ∀ b ∈ r.taken P A, r.size + 80 ≤ b.totalSize

instance (A : Arena) : Decidable (r.Clear P A) :=
  match h : r.taken P A with
  | none => .isTrue fun b hb => by rw [h] at hb; cases hb
  | some b => decidable_of_iff (r.size + 80 ≤ b.totalSize) (by simp [Clear, h])

end Request

def Place.address (P : Platform) (place : Place) : ℤ :=
  P.firstPage + place.1 * P.sysconfPageSize + place.2

section Serve

variable {r : Request} {A pre post : Arena} {p : ArenaPage} {bs bpre bpost : List ArenaBlock}
  {b : ArenaBlock}

theorem FitsAt.cutBlocks {size : ℤ} (h : FitsAt size bs bpre b bpost) :
    cutBlocks size bs = some (extent bpre, bpre ++ ⟨.allocated, size, size + 40⟩ ::
      ⟨.unallocated, 0, b.totalSize - (size + 40)⟩ :: bpost) := by
  obtain ⟨rfl, htakes, hpassed⟩ := h
  induction bpre with
  | nil => simp [MemoryManager.cutBlocks, htakes, extent]
  | cons c cs ih =>
    have hc : ¬ c.Takes size := hpassed c (by simp)
    rw [List.cons_append, MemoryManager.cutBlocks, if_neg hc, ih fun d hd => hpassed d (by simp [hd])]
    rfl

theorem cutBlocks_none {size : ℤ} (h : firstFit size bs = none) : cutBlocks size bs = none := by
  have hpassed := firstFit_none.mp h
  clear h
  induction bs with
  | nil => rfl
  | cons b bs ih =>
    rw [cutBlocks, if_neg (hpassed b (by simp)), ih fun c hc => hpassed c (by simp [hc])]
    rfl

theorem servePage_none (h : r.pageFit P p = none) : r.servePage P p = none := by
  unfold Request.pageFit at h
  unfold Request.servePage
  split_ifs at h ⊢
  · rw [cutBlocks_none h]
    rfl
  · rfl

theorem servePages_none (h : ∀ q ∈ A, r.pageFit P q = none) : r.servePages P A = none := by
  induction A with
  | nil => rfl
  | cons q qs ih =>
    rw [Request.servePages, servePage_none (h q (by simp)), ih fun t ht => h t (by simp [ht])]
    rfl

theorem TakenAt.servePages (h : TakenAt P r A pre p post bpre b bpost) :
    r.servePages P A = some ((pre.length, 64 + extent bpre + 40),
      pre ++ carvedPage p r.size bpre b bpost :: post) := by
  obtain ⟨rfl, hpassed, hsearches, hfit⟩ := h
  induction pre with
  | nil =>
    rw [List.nil_append, Request.servePages, Request.servePage, if_pos hsearches, hfit.cutBlocks]
    rfl
  | cons q qs ih =>
    rw [List.cons_append, Request.servePages, servePage_none (hpassed q (by simp)),
      ih fun t ht => hpassed t (by simp [ht])]
    rfl

theorem arenaFit_none_servePages (h : r.arenaFit P A = none) : r.servePages P A = none :=
  servePages_none (List.findSome?_eq_none_iff.mp h)

/-- What the arena allocator hands out is cut from a block of the pages of the caller, or of
the fresh page where they have none. -/
theorem serve_some {place : Place} {A' : Arena} (h : r.serve P A = some (place, A')) :
    ∃ A₀ pre p post bpre b bpost,
      (A₀ = A ∨ A₀ = r.withFresh P A ∧ r.arenaFit P A = none) ∧
      TakenAt P r A₀ pre p post bpre b bpost ∧ place = (pre.length, 64 + extent bpre + 40) ∧
      A' = pre ++ carvedPage p r.size bpre b bpost :: post := by
  cases hfit : r.arenaFit P A with
  | some b =>
    obtain ⟨pre, p, post, bpre, bpost, ht⟩ := arenaFit_some.mp hfit
    rw [Request.serve, ht.servePages, Option.some_or] at h
    obtain ⟨rfl, rfl⟩ := Prod.mk.inj (Option.some.inj h)
    exact ⟨A, pre, p, post, bpre, b, bpost, Or.inl rfl, ht, rfl, rfl⟩
  | none =>
    rw [Request.serve, arenaFit_none_servePages hfit, Option.none_or] at h
    split_ifs at h
    cases hfresh : r.arenaFit P (r.withFresh P A) with
    | none =>
      rw [arenaFit_none_servePages hfresh] at h
      cases h
    | some b =>
      obtain ⟨pre, p, post, bpre, bpost, ht⟩ := arenaFit_some.mp hfresh
      rw [ht.servePages] at h
      obtain ⟨rfl, rfl⟩ := Prod.mk.inj (Option.some.inj h)
      exact ⟨_, pre, p, post, bpre, b, bpost, Or.inr ⟨rfl, rfl⟩, ht, rfl, rfl⟩

theorem dataAddress_eq (pre : Arena) (bpre : List ArenaBlock) :
    dataAddress P pre bpre = Place.address P (pre.length, 64 + extent bpre + 40) := by
  simp only [dataAddress, Place.address, pageEnd]
  ring

end Serve

section Unique

variable {m : Store} {x a : ℤ}

theorem BlocksAt.unique {bs cs : List ArenaBlock} (h : BlocksAt m x bs) (h' : BlocksAt m x cs)
    (hv : ∀ b ∈ bs, b.Valid) (hv' : ∀ c ∈ cs, c.Valid) (hext : extent bs = extent cs) : bs = cs := by
  induction bs generalizing x cs with
  | nil =>
    cases cs with
    | nil => rfl
    | cons c cs =>
      have hc := (hv' c (by simp)).header_le
      have := extent_nonneg fun d hd => hv' d (List.mem_cons_of_mem _ hd)
      simp only [extent] at hext
      omega
  | cons b bs ih =>
    have hb := (hv b (by simp)).header_le
    have hbs : ∀ d ∈ bs, d.Valid := fun d hd => hv d (by simp [hd])
    cases cs with
    | nil =>
      have := extent_nonneg hbs
      simp only [extent] at hext
      omega
    | cons c cs =>
      have hhead := h.1.symm.trans h'.1
      simp only [ArenaBlock.header, Block.mk.injEq] at hhead
      obtain ⟨hstate, hdata, htotal, -⟩ := hhead
      have hbc : b = c := by
        cases b
        cases c
        simp only at hstate hdata htotal
        rw [hdata, htotal, BlockState.code_injective hstate]
      subst hbc
      simp only [extent, add_right_inj] at hext
      rw [ih h.2 h'.2 hbs (fun d hd => hv' d (by simp [hd])) hext]

theorem PagesAt.unique {ps qs : Arena} (h : PagesAt P m a ps) (h' : PagesAt P m a qs)
    (hv : ∀ p ∈ ps, p.Valid P) (hv' : ∀ q ∈ qs, q.Valid P) : ps = qs := by
  induction ps generalizing a qs with
  | nil =>
    cases qs with
    | nil => rfl
    | cons q qs =>
      have hstate := congrArg Page.state (h.1.1.symm.trans (pagesAt_cons.mp h').1)
      simp [unassignPageOf, PageState.code] at hstate
  | cons p ps ih =>
    obtain ⟨hhead, hblocks, hrest⟩ := pagesAt_cons.mp h
    cases qs with
    | nil =>
      have hstate := congrArg Page.state (hhead.symm.trans h'.1.1)
      simp [unassignPageOf, PageState.code] at hstate
    | cons q qs =>
      obtain ⟨hhead', hblocks', hrest'⟩ := pagesAt_cons.mp h'
      have hp := hv p (by simp)
      have hq := hv' q (by simp)
      have htiles := hp.tiles
      have htiles' := hq.tiles
      have hsame := hhead.symm.trans hhead'
      simp only [ArenaPage.header, Page.mk.injEq] at hsame
      have hpq : p = q := by
        have hlists := hblocks.unique hblocks' hp.blocks hq.blocks (by omega)
        cases p
        cases q
        simp only at hsame hlists
        rw [RequestId.code_injective hsame.2.1, hsame.2.2.1, hlists]
      subst hpq
      rw [ih hrest hrest' (fun t ht => hv t (by simp [ht])) fun t ht => hv' t (by simp [ht])]

variable {m : Memory} {A A' : Arena}

/-- The memory determines the arena it holds. -/
theorem Holds.unique (h : Holds P m A) (h' : Holds P m A') : A = A' := by
  rcases h with ⟨hfalse, rfl⟩ | h <;> rcases h' with ⟨hfalse', rfl⟩ | h'
  · rfl
  · exact absurd h'.initialized (by simp [hfalse])
  · exact absurd h.initialized (by simp [hfalse'])
  · exact h.pages.unique h'.pages h.valid h'.valid

theorem clears_iff (h : Holds P m A) (r : Request) (v : ℤ) : Clears P m (r, v) ↔ r.Clear P A := by
  constructor
  · exact fun hclears b hb => hclears A h b hb
  · intro hclear A' h' b hb
    obtain rfl := h.unique h'
    exact hclear b hb

end Unique

section Refinement

variable {m : Memory} {r : Request} {A : Arena}

/-- How a call ends, by what the arena allocator has for it: with the pointer to that place
and the arena left, or with a write outside the array. -/
inductive Ends (P : Platform) (m : Memory) (r : Request) : Option (Place × Arena) → Prop
  | serves {place : Place} {A' : Arena} {m' : Memory} :
      Settles (fun n => myAllocate P r n m) (.ok (place.address P, m')) → Represents P m' A' →
        Ends P m r (some (place, A'))
  | overruns : Settles (fun n => myAllocate P r n m) (.error .outOfBounds) → Ends P m r none

/-- A call and the arena allocator agree. -/
theorem myAllocate_ends (h : Holds P m A) (hstale : P.staleTmpPrev = null)
    (hnext : P.staleBlockNext = null) (hr : r.requestId ≠ .unknown) (hsize : 0 ≤ r.size)
    (hclear : r.Clear P A) : Ends P m r (r.serve P A) := by
  obtain ⟨m₀, owns, full, hrep, -, hs, hpath⟩ := myAllocate_path h hr
  cases hfit : r.arenaFit P A with
  | some b =>
    obtain ⟨pre, p, post, bpre, bpost, ht⟩ := arenaFit_some.mp hfit
    have hroom := hclear b (by simp [Request.taken, hfit])
    rw [Request.serve, ht.servePages, Option.some_or]
    apply Ends.serves _ (ht.represents hrep hsize hroom)
    rw [← dataAddress_eq]
    exact (allocateFrom_taken hs hrep ht hsize).congr hpath
  | none =>
    rw [Request.serve, arenaFit_none_servePages hfit, Option.none_or]
    by_cases hpage : pageEnd P P.firstPage A + P.sysconfPageSize ≤ P.top
    · have hrep' := hrep.assigned (o := r.owner) hstale hnext (room_of_page hpage)
      rw [if_pos hpage]
      cases htaken : r.taken P A with
      | none =>
        rw [Request.withFresh, arenaFit_none_servePages ((arenaFit_fresh r A).trans htaken)]
        exact .overruns ((allocateFrom_exhaust hs hrep hstale hnext htaken).congr hpath)
      | some b =>
        obtain ⟨pre, p, post, bpre, bpost, ht⟩ := arenaFit_some.mp ((arenaFit_fresh r A).trans htaken)
        rw [Request.withFresh, ht.servePages]
        apply Ends.serves _ (ht.represents hrep' hsize (hclear b htaken))
        rw [← dataAddress_eq]
        exact (allocateFrom_assign hs hrep hstale hfit (room_of_page hpage)
          (allocateFrom_taken hs hrep' ht hsize)).congr hpath
    · rw [if_neg hpage]
      have hlarge := P.pageSize_large
      exact .overruns ((allocateFrom_overrun hs hrep hstale hfit (by omega)).congr hpath)

theorem Allocates.serve (h : Holds P m A) (hstale : P.staleTmpPrev = null)
    (hnext : P.staleBlockNext = null) {v : ℤ} {m' : Memory} (hclears : Clears P m (r, v))
    (hstep : Allocates P m (r, v) m') :
    ∃ place A', r.serve P A = some (place, A') ∧ v = place.address P ∧ Represents P m' A' := by
  obtain ⟨hsize, n, hret⟩ := hstep
  have hends := myAllocate_ends h hstale hnext (myAllocate_known hret) hsize
    ((clears_iff h r v).mp hclears)
  generalize hserve : r.serve P A = served at hends
  cases hends with
  | serves hsettles hrep =>
    cases hsettles.eq_of_ok hret
    exact ⟨_, _, rfl, rfl, hrep⟩
  | overruns hsettles => cases hsettles.eq_of_ok hret

end Refinement

section Runs

variable {A A' : Arena} {m : Memory} {call : Request × ℤ}

def serveCall (P : Platform) (call : Request × ℤ) (A : Arena) : Except Stop Arena :=
  if call.1.requestId ≠ .unknown ∧ 0 ≤ call.1.size ∧ call.1.Clear P A then
    match call.1.serve P A with
    | some (place, A') => if place.address P = call.2 then .ok A' else .error .notEnabled
    | none => .error .outOfBounds
  else .error .notEnabled

theorem serveCall_allocates (h : Holds P m A) (hstale : P.staleTmpPrev = null)
    (hnext : P.staleBlockNext = null) (hserve : serveCall P call A = .ok A') :
    ∃ m', Clears P m call ∧ Allocates P m call m' ∧ Holds P m' A' := by
  obtain ⟨r, v⟩ := call
  unfold serveCall at hserve
  split_ifs at hserve with hcall
  obtain ⟨hr, hsize, hclear⟩ := hcall
  have hends := myAllocate_ends h hstale hnext hr hsize hclear
  generalize r.serve P A = served at hends hserve
  cases hends with
  | serves hsettles hrep =>
    simp only at hserve
    split_ifs at hserve with hv
    obtain rfl := Except.ok.inj hserve
    obtain ⟨n, hn⟩ := hsettles.exists_ok
    exact ⟨_, (clears_iff h r v).mpr hclear, ⟨hsize, n, by rw [hn, hv]⟩, Or.inr hrep⟩
  | overruns => cases hserve

/-- Calls that the arenas serve in a row are a run of the code. -/
theorem run_of_serves {calls : List (Request × ℤ)} (hstale : P.staleTmpPrev = null)
    (hnext : P.staleBlockNext = null) (hcalls : runAll (serveCall P) calls [] = .ok A) :
    ∃ m, Run (Guarded (Clears P) (Allocates P)) Memory.initial calls m ∧ Holds P m A := by
  obtain ⟨A', hrun, rfl⟩ := Run.of_runAll
    (fun A call A' (h : serveCall P call A = .ok A') => h) calls [] id (by rw [hcalls]; rfl)
  refine hrun.simulation (R := fun A m => Holds P m A) (fun A call A' m h hserve => ?_)
    (Or.inl ⟨rfl, rfl⟩)
  obtain ⟨m', hclears, hallocates, hA'⟩ := serveCall_allocates h hstale hnext hserve
  exact ⟨m', ⟨hclears, hallocates⟩, hA'⟩

end Runs

end VirtualMemorySimulation.MemoryManager

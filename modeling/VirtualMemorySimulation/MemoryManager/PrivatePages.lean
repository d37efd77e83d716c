import VirtualMemorySimulation.MemoryManager.Clients

/-!
# Private pages

The scheduler and every thread have pages of their own. What a caller sees of the
memory manager is then the arena allocator run on these pages and on its own
requests: the pointers it gets are places in its pages, the same ones whatever
the others do and in whatever order. Only where the pages lie depends on them,
and the page headers are the table that says it.
-/

namespace VirtualMemorySimulation.MemoryManager

open ByteRecords Execution SeparateBlocks

variable {P : Platform}

def ownPages (kind : RequestId) (tid : ℤ) (A : Arena) : Arena :=
  A.filter fun p => p.requestId = kind ∧ p.tid = tid

/-- Where the pages lie that carry the owner in their headers, in the order of the page list. -/
def pageTable (kind : RequestId) (tid : ℤ) (items : List (ℤ × Page)) : List ℤ :=
  (items.filter fun pg => pg.2.requestId = kind.code ∧ pg.2.tid = tid).map Prod.fst

/-- The address of a place in pages that lie where the table says. -/
def Place.translate (table : List ℤ) (place : Place) : ℤ := table.getD place.1 0 + place.2

def callsOf (kind : RequestId) (tid : ℤ) (served : List (Request × ℤ)) : List (Request × ℤ) :=
  served.filter fun c => c.1.requestId = kind ∧ c.1.ownerTid = tid

/-- The request on pages of its owner alone: one of them serves it, or a fresh one. -/
def Request.serveOwn (r : Request) (P : Platform) (pages : Arena) : Option (Place × Arena) :=
  (r.servePages P pages).or (r.servePages P (r.withFresh P pages))

/-- What an owner has been handed out, and its pages. -/
structure PrivateArena where
  places : List Place
  pages : Arena

namespace PrivateArena

def empty : PrivateArena := ⟨[], []⟩

def exec (P : Platform) (r : Request) (t : PrivateArena) : Except Stop PrivateArena :=
  match r.serveOwn P t.pages with
  | some (place, pages) => .ok ⟨t.places ++ [place], pages⟩
  | none => .error .outOfBounds

end PrivateArena

section Own

variable {kind : RequestId} {tid : ℤ} {r : Request} {A pre post : Arena} {p : ArenaPage}
  {bpre bpost : List ArenaBlock} {b : ArenaBlock}

theorem ownPages_append (A B : Arena) :
    ownPages kind tid (A ++ B) = ownPages kind tid A ++ ownPages kind tid B :=
  List.filter_append ..

theorem ownPages_own (h : p.requestId = kind ∧ p.tid = tid) (ps : Arena) :
    ownPages kind tid (p :: ps) = p :: ownPages kind tid ps :=
  List.filter_cons_of_pos (by simpa using h)

theorem ownPages_other (h : ¬ (p.requestId = kind ∧ p.tid = tid)) (ps : Arena) :
    ownPages kind tid (p :: ps) = ownPages kind tid ps :=
  List.filter_cons_of_neg (by simpa using h)

/-- On the pages of its owner a request finds the page that it finds among all. -/
theorem TakenAt.own (h : TakenAt P r A pre p post bpre b bpost)
    (hp : p.requestId = kind ∧ p.tid = tid) :
    TakenAt P r (ownPages kind tid A) (ownPages kind tid pre) p (ownPages kind tid post)
      bpre b bpost := by
  constructor
  · rw [h.split, ownPages_append, ownPages_own hp]
  · exact fun q hq => h.passed q (List.mem_of_mem_filter hq)
  · exact h.searches
  · exact h.fit

theorem arenaFit_own_none (h : r.arenaFit P A = none) :
    r.arenaFit P (ownPages kind tid A) = none := by
  apply List.findSome?_eq_none_iff.mpr
  intro q hq
  exact List.findSome?_eq_none_iff.mp h q (List.mem_of_mem_filter hq)

theorem serveOwn_of_taken {A₀ : Arena} (hA₀ : A₀ = A ∨ A₀ = r.withFresh P A ∧ r.arenaFit P A = none)
    (h : TakenAt P r A₀ pre p post bpre b bpost) (hp : p.requestId = kind ∧ p.tid = tid)
    (hr : r.requestId = kind ∧ r.ownerTid = tid) :
    r.serveOwn P (ownPages kind tid A) =
      some (((ownPages kind tid pre).length, 64 + extent bpre + 40),
        ownPages kind tid (pre ++ carvedPage p r.size bpre b bpost :: post)) := by
  have hserve := (h.own hp).servePages
  rw [ownPages_append, ownPages_own (p := carvedPage p r.size bpre b bpost) hp]
  rcases hA₀ with rfl | ⟨rfl, hnone⟩
  · rw [Request.serveOwn, hserve, Option.some_or]
  · have hfresh : ownPages kind tid (r.withFresh P A) = r.withFresh P (ownPages kind tid A) := by
      rw [Request.withFresh, ownPages_append, ownPages_own hr]
      rfl
    rw [Request.serveOwn, arenaFit_none_servePages (arenaFit_own_none hnone), Option.none_or,
      ← hfresh, hserve]

theorem ownPages_of_taken {A₀ : Arena} (hA₀ : A₀ = A ∨ A₀ = r.withFresh P A ∧ r.arenaFit P A = none)
    (h : TakenAt P r A₀ pre p post bpre b bpost) (hp : ¬ (p.requestId = kind ∧ p.tid = tid))
    (hr : ¬ (r.requestId = kind ∧ r.ownerTid = tid)) :
    ownPages kind tid (pre ++ carvedPage p r.size bpre b bpost :: post) = ownPages kind tid A := by
  have hold : ownPages kind tid A₀ = ownPages kind tid A := by
    rcases hA₀ with rfl | ⟨rfl, -⟩
    · rfl
    · rw [Request.withFresh, ownPages_append, ownPages_other hr]
      exact List.append_nil _
  rw [← hold, h.split, ownPages_append, ownPages_append, ownPages_other hp,
    ownPages_other (p := carvedPage p r.size bpre b bpost) hp]

end Own

section Tables

variable {kind : RequestId} {tid a : ℤ} {A B pre post : Arena} {p q : ArenaPage}

theorem pageTable_nil (hkind : kind ≠ .unknown) :
    pageTable kind tid (pageItems P a []) = [] := by
  have hcode : RequestId.unknown.code ≠ kind.code := fun h => hkind (RequestId.code_injective h).symm
  simp [pageTable, pageItems, hcode]

theorem pageTable_own (h : p.requestId = kind ∧ p.tid = tid) (ps : Arena) :
    pageTable kind tid (pageItems P a (p :: ps)) =
      a :: pageTable kind tid (pageItems P (a + P.sysconfPageSize) ps) := by
  simp [pageTable, pageItems, h.1, h.2]

theorem pageTable_other (h : ¬ (p.requestId = kind ∧ p.tid = tid)) (ps : Arena) :
    pageTable kind tid (pageItems P a (p :: ps)) =
      pageTable kind tid (pageItems P (a + P.sysconfPageSize) ps) := by
  have hcode : ¬ (p.requestId.code = kind.code ∧ p.tid = tid) := by
    rintro ⟨hcode, htid⟩
    exact h ⟨RequestId.code_injective hcode, htid⟩
  simp only [pageTable, pageItems]
  rw [List.filter_cons_of_neg (by simpa using hcode)]

theorem pageTable_append (hkind : kind ≠ .unknown) (A B : Arena) :
    pageTable kind tid (pageItems P a (A ++ B)) = pageTable kind tid (pageItems P a A) ++
      pageTable kind tid (pageItems P (pageEnd P a A) B) := by
  induction A generalizing a with
  | nil => simp [pageTable_nil hkind]
  | cons p ps ih =>
    rw [List.cons_append, pageEnd_cons]
    by_cases hp : p.requestId = kind ∧ p.tid = tid
    · rw [pageTable_own hp, pageTable_own hp, ih, List.cons_append]
    · rw [pageTable_other hp, pageTable_other hp, ih]

theorem length_pageTable (hkind : kind ≠ .unknown) (A : Arena) :
    (pageTable kind tid (pageItems P a A)).length = (ownPages kind tid A).length := by
  induction A generalizing a with
  | nil => simp [pageTable_nil hkind, ownPages]
  | cons p ps ih =>
    by_cases hp : p.requestId = kind ∧ p.tid = tid
    · rw [pageTable_own hp, ownPages_own hp, List.length_cons, List.length_cons, ih]
    · rw [pageTable_other hp, ownPages_other hp, ih]

theorem pageTable_replace (hkind : kind ≠ .unknown) (hsame : q.requestId = p.requestId)
    (htid : q.tid = p.tid) : pageTable kind tid (pageItems P a (pre ++ q :: post)) =
      pageTable kind tid (pageItems P a (pre ++ p :: post)) := by
  rw [pageTable_append hkind, pageTable_append hkind]
  by_cases hp : p.requestId = kind ∧ p.tid = tid
  · rw [pageTable_own hp, pageTable_own (by rwa [hsame, htid])]
  · rw [pageTable_other hp, pageTable_other (by rwa [hsame, htid])]

theorem translate_own (hkind : kind ≠ .unknown) (hp : p.requestId = kind ∧ p.tid = tid)
    (offset : ℤ) :
    Place.translate (pageTable kind tid (pageItems P P.firstPage (pre ++ p :: post)))
      ((ownPages kind tid pre).length, offset) = Place.address P (pre.length, offset) := by
  rw [pageTable_append hkind, pageTable_own hp, ← length_pageTable (P := P) (a := P.firstPage) hkind]
  simp [Place.translate, Place.address, pageEnd]

theorem translate_prefix {table more : List ℤ} {place : Place} (h : place.1 < table.length) :
    Place.translate (table ++ more) place = Place.translate table place := by
  simp [Place.translate, List.getElem?_append_left h]

end Tables

section Runs

variable {kind : RequestId} {tid : ℤ} {s : Service} {t t' : Ledger} {places : List Place}
  {actions : List (Action Call UInt8)}

/-- What the owner has been handed out are places in its pages, found by its requests alone. -/
structure Sees (P : Platform) (kind : RequestId) (tid : ℤ) (t : Ledger) (places : List Place) :
    Prop where
  alone : runAll (PrivateArena.exec P) ((callsOf kind tid t.served).map Prod.fst) .empty =
    .ok ⟨places, ownPages kind tid t.arena⟩
  pointers : (callsOf kind tid t.served).map Prod.snd =
    places.map (Place.translate (pageTable kind tid (pageItems P P.firstPage t.arena)))
  inside : ∀ place ∈ places, place.1 < (ownPages kind tid t.arena).length

theorem Sees.initial : Sees P kind tid .initial [] := ⟨rfl, rfl, by simp⟩

theorem pageTable_of_taken (hkind : kind ≠ .unknown) (tid : ℤ) {r : Request}
    {A A₀ pre post : Arena} {p : ArenaPage} {bpre bpost : List ArenaBlock} {b : ArenaBlock}
    (hA₀ : A₀ = A ∨ A₀ = r.withFresh P A ∧ r.arenaFit P A = none)
    (ht : TakenAt P r A₀ pre p post bpre b bpost) :
    ∃ more, pageTable kind tid
        (pageItems P P.firstPage (pre ++ carvedPage p r.size bpre b bpost :: post)) =
      pageTable kind tid (pageItems P P.firstPage A) ++ more := by
  have hsame : pageTable kind tid
      (pageItems P P.firstPage (pre ++ carvedPage p r.size bpre b bpost :: post)) =
      pageTable kind tid (pageItems P P.firstPage (pre ++ p :: post)) :=
    pageTable_replace hkind rfl rfl
  rw [hsame, ← ht.split]
  rcases hA₀ with rfl | ⟨rfl, -⟩
  · exact ⟨[], by simp⟩
  · exact ⟨_, pageTable_append hkind A _⟩

/-- A call of the owner hands out a place in its pages; a call of another leaves them alone. -/
theorem Sees.allocate (h : Sees P kind tid t places) (hkind : kind ≠ .unknown)
    (hacc : Accounts P t.arena t.served) {r : Request} (hr : r.requestId ≠ .unknown) {place : Place}
    {A' : Arena} (hserve : r.serve P t.arena = some (place, A')) :
    ∃ places', Sees P kind tid ⟨t.served ++ [(r, place.address P)], A'⟩ places' := by
  obtain ⟨A₀, pre, p, post, bpre, b, bpost, hA₀, ht, rfl, rfl⟩ := serve_some hserve
  obtain ⟨hpkind, hptid, -⟩ := hacc.taken hr (hA₀.imp id And.left) ht
  obtain ⟨more, hmore⟩ := pageTable_of_taken hkind tid hA₀ ht
  have hlength := congrArg List.length hmore
  rw [List.length_append, length_pageTable hkind, length_pageTable hkind] at hlength
  have hold : places.map (Place.translate (pageTable kind tid (pageItems P P.firstPage t.arena))) =
      places.map (Place.translate (pageTable kind tid (pageItems P P.firstPage
        (pre ++ carvedPage p r.size bpre b bpost :: post)))) := by
    apply List.map_congr_left
    intro pl hpl
    rw [hmore, translate_prefix]
    rw [length_pageTable hkind]
    exact h.inside pl hpl
  by_cases hown : r.requestId = kind ∧ r.ownerTid = tid
  · have hp : p.requestId = kind ∧ p.tid = tid := ⟨hpkind.trans hown.1, hptid.trans hown.2⟩
    have hcalls : ∀ v, callsOf kind tid (t.served ++ [(r, v)]) =
        callsOf kind tid t.served ++ [(r, v)] :=
      fun v => by simp [callsOf, List.filter_append, hown]
    refine ⟨places ++ [((ownPages kind tid pre).length, 64 + extent bpre + 40)], ?_, ?_, ?_⟩
    · rw [hcalls, List.map_append, runAll_append, h.alone, ok_bind]
      simp only [List.map_cons, List.map_nil, runAll, PrivateArena.exec,
        serveOwn_of_taken hA₀ ht hp hown]
      rfl
    · rw [hcalls, List.map_append, List.map_append, h.pointers, hold, List.map_singleton,
        List.map_singleton, translate_own hkind (p := carvedPage p r.size bpre b bpost) hp]
    · intro pl hpl
      rcases List.mem_append.mp hpl with hpl | hpl
      · exact lt_of_lt_of_le (h.inside pl hpl) (by simp only; omega)
      · rw [List.mem_singleton.mp hpl, ownPages_append,
          ownPages_own (p := carvedPage p r.size bpre b bpost) hp]
        simp
  · have hp : ¬ (p.requestId = kind ∧ p.tid = tid) := by rwa [hpkind, hptid]
    have hcalls : ∀ v, callsOf kind tid (t.served ++ [(r, v)]) = callsOf kind tid t.served :=
      fun v => by simp [callsOf, List.filter_append, hown]
    refine ⟨places, ?_, ?_, ?_⟩
    · rw [hcalls, h.alone, ownPages_of_taken hA₀ ht hp hown]
    · rw [hcalls, h.pointers, hold]
    · rw [ownPages_of_taken hA₀ ht hp hown]
      exact h.inside

theorem Sees.step (h : Sees P kind tid t places) (hkind : kind ≠ .unknown)
    (hacc : Accounts P t.arena t.served) {action : Action Call UInt8}
    (hexec : t.exec P action = .ok t') : ∃ places', Sees P kind tid t' places' := by
  rcases Ledger.exec_cases hexec with rfl | ⟨r, place, A', ⟨hr, -⟩, hserve, rfl⟩
  · exact ⟨places, h⟩
  · exact h.allocate hkind hacc hr hserve

/-- In every run of clients the pointers an owner gets are the places that its own requests
get on pages of their own, at the addresses of the pages that carry its name. -/
theorem private_pages (hstale : P.staleTmpPrev = null) (hnext : P.staleBlockNext = null)
    (kind : RequestId) (hkind : kind ≠ .unknown) (tid : ℤ)
    (hrun : Run (manager P).Step .initial actions s) :
    ∃ items places pages, PageList s.memory items ∧
      runAll (PrivateArena.exec P) ((callsOf kind tid s.served).map Prod.fst) .empty =
        .ok ⟨places, pages⟩ ∧
      (callsOf kind tid s.served).map Prod.snd =
        places.map (Place.translate (pageTable kind tid items)) ∧
      ∀ place ∈ places, place.1 < (pageTable kind tid items).length := by
  obtain ⟨t, htracks, places, hsees⟩ :
      ∃ t, Tracks P s t ∧ ∃ places, Sees P kind tid t places := by
    apply hrun.invariant (I := fun _ s => ∃ t, Tracks P s t ∧ ∃ places, Sees P kind tid t places)
    · exact ⟨_, .initial, _, .initial⟩
    · rintro done s action s' ⟨t, htracks, places, hsees⟩ hstep
      obtain ⟨t', hexec, htracks'⟩ := htracks.step hstale hnext hstep
      exact ⟨t', htracks', hsees.step hkind htracks.accounts hexec⟩
  rcases htracks.represents with ⟨hnil, hlist⟩ | hrep
  · rw [hnil]
    exact ⟨[], [], [], hlist, rfl, rfl, by simp⟩
  · refine ⟨_, places, ownPages kind tid t.arena, hrep.inside.list, ?_, ?_, ?_⟩
    · rw [htracks.served]
      exact hsees.alone
    · rw [htracks.served]
      exact hsees.pointers
    · rw [length_pageTable hkind]
      exact hsees.inside

theorem private_pages_shared : ∃ s items, ∃ places : List Place,
    Run (manager .typical).Step .initial sharedArray s ∧ PageList s.memory items ∧
      [69768, 69832] = places.map (Place.translate (pageTable .threadReq 1 items)) := by
  have hcalls : (runAll (Ledger.exec .typical) sharedArray .initial).map
      (fun t => (callsOf .threadReq 1 t.served).map Prod.snd) = .ok [69768, 69832] := by
    decide +kernel
  obtain ⟨t, ht, hserved⟩ := map_eq_ok.mp hcalls
  obtain ⟨s, hrun, htracks⟩ := run_of_ledger (P := .typical) rfl rfl ht
  obtain ⟨items, places, pages, hlist, -, hpointers, -⟩ :=
    private_pages rfl rfl .threadReq (by decide) 1 hrun
  rw [htracks.served, hserved] at hpointers
  exact ⟨s, items, places, hrun, hlist, hpointers⟩

end Runs

section Accounting

variable {A : Arena} {bs : List ArenaBlock} {requestId : RequestId} {tid x a : ℤ}

/-- The bytes that calls of `my_allocate` have used up, with the headers of their blocks. -/
def servedBytes (served : List (Request × ℤ)) : ℤ := (served.map fun c => c.1.size + 40).sum

def assignedPages (items : List (ℤ × Page)) : List Page :=
  (items.map Prod.snd).filter fun pg => pg.state = PageState.assigned.code

theorem sum_blockAllocations (hv : ∀ b ∈ bs, b.Valid) :
    ((blockAllocations requestId tid x bs).map fun c => c.size + 40).sum = allocatedExtent bs := by
  induction bs generalizing x with
  | nil => rfl
  | cons b bs ih =>
    have hb := hv b (by simp)
    rw [blockAllocations, List.map_append, List.sum_append, ih fun c hc => hv c (by simp [hc]),
      allocatedExtent]
    split_ifs with hs
    · simp [hb.data hs]
    · rfl

/-- The pages account for the allocations, and for a header each. -/
theorem sum_allocations (hv : ∀ p ∈ A, p.Valid P) :
    ((allocations P a A).map fun c => c.size + 40).sum + 64 * A.length =
      (A.map ArenaPage.sizeOfAllocated).sum := by
  induction A generalizing a with
  | nil => rfl
  | cons p ps ih =>
    have hps := ih (a := a + P.sysconfPageSize) fun q hq => hv q (by simp [hq])
    rw [allocations, List.map_append, List.sum_append, sum_blockAllocations (hv p (by simp)).blocks,
      List.map_cons, List.sum_cons, ArenaPage.sizeOfAllocated, List.length_cons]
    push_cast
    omega

theorem assignedPages_items (A : Arena) :
    (assignedPages (pageItems P a A)).map Page.sizeOfAllocated =
      A.map ArenaPage.sizeOfAllocated := by
  induction A generalizing a with
  | nil => simp [assignedPages, pageItems, PageState.code]
  | cons p ps ih =>
    simp only [assignedPages, pageItems, List.map_cons] at ih ⊢
    rw [List.filter_cons_of_pos (by simp), List.map_cons, ih]
    rfl

theorem sum_sizeOfAllocated_le (hv : ∀ p ∈ A, p.Valid P) :
    (A.map ArenaPage.sizeOfAllocated).sum ≤ A.length * P.sysconfPageSize := by
  induction A with
  | nil => simp
  | cons p ps ih =>
    have hps := ih fun q hq => hv q (by simp [hq])
    have htiles := (hv p (by simp)).tiles
    have hused := allocatedExtent_le (hv p (by simp)).blocks
    rw [List.map_cons, List.sum_cons, List.length_cons, ArenaPage.sizeOfAllocated]
    push_cast
    linarith

/-- In every run of clients the pages account for all calls that were ever served: nothing that
was freed is handed out again, and the bytes run out. -/
theorem served_accounted {s : Service} {actions : List (Action Call UInt8)}
    (hstale : P.staleTmpPrev = null) (hnext : P.staleBlockNext = null)
    (hrun : Run (manager P).Step .initial actions s) :
    ∃ items, PageList s.memory items ∧
      ((assignedPages items).map Page.sizeOfAllocated).sum =
        64 * (assignedPages items).length + servedBytes s.served ∧
      64 * (assignedPages items).length + servedBytes s.served + 96 ≤ physicalSize := by
  obtain ⟨t, -, htracks⟩ := tracks_of_run hstale hnext hrun
  rcases htracks.represents with ⟨hnil, hlist⟩ | hrep
  · rw [hnil]
    exact ⟨[], hlist, rfl, by decide⟩
  · have hsum := sum_allocations (a := P.firstPage) hrep.valid
    have hpages := assignedPages_items (P := P) (a := P.firstPage) t.arena
    have hlength := congrArg List.length hpages
    have hbytes : servedBytes s.served =
        ((allocations P P.firstPage t.arena).map fun c => c.size + 40).sum := by
      rw [← (htracks.accounts.perm.map _).sum_eq, htracks.served, List.map_map]
      rfl
    have hle := sum_sizeOfAllocated_le hrep.valid
    have hrest := hrep.headers.rest.2
    simp only [List.length_map] at hlength
    refine ⟨_, hrep.inside.list, ?_, ?_⟩
    · rw [hpages, hlength, hbytes]
      omega
    · rw [hlength, hbytes]
      have hfirst := P.firstPage_eq
      have htop := P.top_eq
      unfold pageEnd at hrest
      unfold physicalSize
      omega

theorem served_accounted_shared : ∃ s items, Run (manager .typical).Step .initial sharedArray s ∧
    ((assignedPages items).map Page.sizeOfAllocated).sum =
      64 * (assignedPages items).length + 408 := by
  have hbytes : (runAll (Ledger.exec .typical) sharedArray .initial).map
      (fun t => servedBytes t.served) = .ok 408 := by
    decide +kernel
  obtain ⟨t, ht, hserved⟩ := map_eq_ok.mp hbytes
  obtain ⟨s, hrun, htracks⟩ := run_of_ledger (P := .typical) rfl rfl ht
  obtain ⟨items, -, hsum, -⟩ := served_accounted rfl rfl hrun
  rw [htracks.served, hserved] at hsum
  exact ⟨s, items, hrun, hsum⟩

end Accounting

end VirtualMemorySimulation.MemoryManager

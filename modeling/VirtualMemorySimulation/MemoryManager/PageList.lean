import VirtualMemorySimulation.MemoryManager.PageAssignment

/-!
# The page list under repeated assignment

After initialisation and any number of `assign_page` calls the page list should
stay a finite acyclic chain inside the array. It does as long as every call
finds a whole page left; the call after that splits the short remainder and
writes the header of the rest past the end of `PHYSICAL_MEMORY`.
-/

namespace VirtualMemorySimulation.MemoryManager

open ByteRecords Execution

variable {P : Platform}

/-- `init_memory_metadata` and then one `assign_page` call after the other. -/
def assignPages (P : Platform) (calls : List Owner) (fuel : ℕ) : Except Stop Memory := do
  let m ← initMemoryMetadata P Memory.initial
  calls.foldlM (fun m o => assignPage P o.requestId o.tid fuel m) m

/-- The page list of a memory: each address with the header stored there. -/
def PageList (m : Memory) (items : List (ℤ × Page)) : Prop :=
  Linked Page.next m.bytes m.metadata.pageListHead items

/-- The page list tiles the array from its first page on. -/
structure PageListInside (P : Platform) (m : Memory) (items : List (ℤ × Page)) : Prop where
  list : PageList m items
  acyclic : (items.map Prod.fst).Nodup
  head : (items.map Prod.fst).head? = some P.firstPage
  startAddress : ∀ pg ∈ items, pg.2.startAddress = pg.1
  consecutive : items.IsChain fun p q => q.2.startAddress = p.2.endAddress + 1
  assigned : ∀ pg ∈ items, pg.2.state = PageState.assigned.code →
    pg.2.endAddress - pg.2.startAddress + 1 = P.sysconfPageSize
  unassigned : ∀ pg ∈ items, pg.2.state = PageState.unassigned.code →
    recordSize Page ≤ pg.2.endAddress - pg.2.startAddress + 1
  inside : ∀ pg ∈ items, P.Inside pg.1 (recordSize Page) ∧
    P.Inside pg.1 (pg.2.endAddress - pg.2.startAddress + 1)

def owners (items : List (ℤ × Page)) : List (ℤ × ℤ × ℤ) :=
  (items.filter fun pg => pg.2.state = PageState.assigned.code).map
    fun pg => (pg.1, pg.2.requestId, pg.2.tid)

def remainder (items : List (ℤ × Page)) : ℤ :=
  ((items.filter fun pg => pg.2.state = PageState.unassigned.code).map
    fun pg => pg.2.endAddress - pg.2.startAddress + 1).sum

/-- What a sequence of calls should leave behind, after each of its prefixes. -/
structure PageListSound (P : Platform) (calls : List Owner) : Prop where
  inside : ∀ done, done <+: calls → ∃ m items,
    Settles (assignPages P done) (.ok m) ∧ PageListInside P m items
  later : ∀ done o m m' items items', done ++ [o] <+: calls →
    Settles (assignPages P done) (.ok m) → PageList m items →
    Settles (assignPages P (done ++ [o])) (.ok m') → PageList m' items' →
    owners items <+: owners items' ∧ (remainder items < P.sysconfPageSize → items' = items)

section Items

variable {a : ℤ} {ps qs : Arena}

@[simp] theorem header_assigned (p : ArenaPage) (next : ℤ) :
    (p.header P a next).state = PageState.assigned.code := rfl

theorem pageItems_head (ps : Arena) : ((pageItems P a ps).map Prod.fst).head? = some a := by
  cases ps <;> rfl

theorem mem_pageItems {pg : ℤ × Page} (h : pg ∈ pageItems P a ps) :
    (∃ p ∈ ps, ∃ b, a ≤ b ∧ b + P.sysconfPageSize ≤ pageEnd P a ps ∧
        pg = (b, p.header P b (b + P.sysconfPageSize))) ∨
      pg = (pageEnd P a ps, unassignPageOf (pageEnd P a ps) (P.top - 1) null) := by
  have hlarge := P.pageSize_large
  induction ps generalizing a with
  | nil =>
    rw [pageEnd_nil]
    exact Or.inr (List.mem_singleton.mp h)
  | cons p ps ih =>
    rw [pageEnd_cons]
    rcases List.mem_cons.mp h with rfl | h
    · exact Or.inl ⟨p, by simp, a, le_rfl, le_pageEnd _ _, rfl⟩
    · rcases ih h with ⟨q, hq, b, hab, hb, rfl⟩ | rfl
      · exact Or.inl ⟨q, by simp [hq], b, by omega, hb, rfl⟩
      · exact Or.inr rfl

theorem pageItems_consecutive (ps : Arena) :
    (pageItems P a ps).IsChain fun p q => q.2.startAddress = p.2.endAddress + 1 := by
  induction ps generalizing a with
  | nil => exact .singleton _
  | cons p ps ih =>
    cases ps with
    | nil => exact .cons_cons (by simp) ih
    | cons q qs => exact .cons_cons (by simp) ih

theorem owners_pageItems_append (ps qs : Arena) :
    owners (pageItems P a ps) <+: owners (pageItems P a (ps ++ qs)) := by
  induction ps generalizing a with
  | nil => simp [owners, pageItems, PageState.code]
  | cons p ps ih =>
    simp only [owners, pageItems, List.cons_append, List.filter_cons, header_assigned,
      decide_true, if_true, List.map_cons]
    exact List.prefix_cons_inj _ |>.mpr ih

theorem remainder_pageItems (ps : Arena) :
    remainder (pageItems P a ps) = P.top - pageEnd P a ps := by
  induction ps generalizing a with
  | nil =>
    simp [remainder, pageItems]
    omega
  | cons p ps ih =>
    rw [pageEnd_cons, ← ih]
    simp [remainder, pageItems, PageState.code]

theorem ListsPages.inside {m : Memory} {A : Arena} (h : ListsPages P m A) :
    PageListInside P m (pageItems P P.firstPage A) := by
  have hlarge := P.pageSize_large
  have hpos := P.physicalMemory_pos
  have hfirst := P.firstPage_eq
  have hrest := h.headers.rest.2
  have hle := le_pageEnd (P := P) P.firstPage A
  have hlinked : PageList m (pageItems P P.firstPage A) := by
    unfold PageList
    rw [h.pageListHead]
    exact h.headers.linked (by omega)
  refine ⟨hlinked, hlinked.nodup, pageItems_head A, ?_, pageItems_consecutive A, ?_, ?_, ?_⟩
  · intro pg hpg
    rcases mem_pageItems hpg with ⟨p, _, b, _, _, rfl⟩ | rfl <;> rfl
  · intro pg hpg hstate
    rcases mem_pageItems hpg with ⟨p, _, b, _, _, rfl⟩ | rfl
    · simp
      omega
    · simp [PageState.code] at hstate
  · intro pg hpg hstate
    rcases mem_pageItems hpg with ⟨p, _, b, _, _, rfl⟩ | rfl
    · simp [PageState.code] at hstate
    · simp
      omega
  · intro pg hpg
    rcases mem_pageItems hpg with ⟨p, _, b, hb, hb', rfl⟩ | rfl
    · exact ⟨⟨by simp only; omega, by simp; omega⟩, ⟨by simp only; omega, by simp; omega⟩⟩
    · exact ⟨⟨by simp only; omega, by simp; omega⟩, ⟨by simp only; omega, by simp; omega⟩⟩

end Items

section Calls

variable {calls done : List Owner} {o : Owner}

theorem assignPages_append (done : List Owner) (o : Owner) (n : ℕ) :
    assignPages P (done ++ [o]) n =
      assignPages P done n >>= fun m => assignPage P o.requestId o.tid n m := by
  simp [assignPages, List.foldlM_append]

/-- After `k` assignments a further one finds a whole page exactly when `k + 1` pages fit. -/
theorem pageEnd_room (A : Arena) :
    pageEnd P P.firstPage A + P.sysconfPageSize + 64 ≤ P.top ↔
      (A.length + 1 : ℕ) * P.sysconfPageSize ≤ 8388576 := by
  have hlarge := P.pageSize_large
  have hfirst := P.firstPage_eq
  have htop := P.top_eq
  have hend : pageEnd P P.firstPage A = P.firstPage + A.length * P.sysconfPageSize := rfl
  have hsucc : ((A.length + 1 : ℕ) : ℤ) * P.sysconfPageSize =
      A.length * P.sysconfPageSize + P.sysconfPageSize := by
    push_cast
    ring
  exact ⟨fun h => by omega, fun h => room_of_page (by omega)⟩

/-- While whole pages are left the calls append one page each. -/
theorem assignPages_spec (hstale : P.staleTmpPrev = null) (calls : List Owner)
    (hlen : calls.length * P.sysconfPageSize ≤ 8388576) :
    ∃ m, Settles (assignPages P calls) (.ok m) ∧ ListsPages P m (calls.map (freshPage P)) := by
  have hlarge := P.pageSize_large
  induction calls using List.reverseRecOn with
  | nil =>
    obtain ⟨m, hinit, hrep⟩ := initMemoryMetadata_represents (P := P) Memory.initial
    refine ⟨m, Settles.congr (fun n => ?_) (Settles.const _), hrep.toListsPages⟩
    simp only [assignPages, hinit, ok_bind, List.foldlM_nil]
    rfl
  | append_singleton done o ih =>
    rw [List.length_append, List.length_singleton] at hlen
    obtain ⟨m, hm, hlists⟩ := ih (by push_cast at hlen; linarith)
    have hroom := (pageEnd_room (done.map (freshPage P))).mpr (by rwa [List.length_map])
    refine ⟨_, (hm.bind (hlists.assignPage hstale hroom)).congr (assignPages_append done o), ?_⟩
    rw [List.map_append]
    exact hlists.assigned hroom

/-- The call that finds less than a page left writes outside the array. -/
theorem assignPages_overrun (hstale : P.staleTmpPrev = null)
    (hlen : done.length * P.sysconfPageSize ≤ 8388576)
    (hover : 8388576 < (done.length + 1 : ℕ) * P.sysconfPageSize) :
    Settles (assignPages P (done ++ [o])) (.error .outOfBounds) := by
  obtain ⟨m, hm, hlists⟩ := assignPages_spec hstale done hlen
  have hroom : P.top < pageEnd P P.firstPage (done.map (freshPage P)) + P.sysconfPageSize + 64 := by
    by_contra hle
    have := (pageEnd_room _).mp (not_lt.mp hle)
    rw [List.length_map] at this
    omega
  exact (hm.bind (hlists.assignPage_overrun hstale hroom)).congr (assignPages_append done o)

theorem PageListSound.length_le (hstale : P.staleTmpPrev = null) (h : PageListSound P calls) :
    calls.length * P.sysconfPageSize ≤ 8388576 := by
  suffices ∀ done, done <+: calls → done.length * P.sysconfPageSize ≤ 8388576 from
    this calls List.prefix_rfl
  intro done
  induction done using List.reverseRecOn with
  | nil => simp
  | append_singleton done o ih =>
    intro hpre
    have hlen := ih ((List.prefix_append done [o]).trans hpre)
    rw [List.length_append, List.length_singleton]
    by_contra hover
    obtain ⟨m, _, hm, _⟩ := h.inside _ hpre
    obtain ⟨n, hn⟩ := hm.exists_ok
    exact (assignPages_overrun hstale hlen (not_le.mp hover)).not_ok n m hn

theorem PageListSound.of_length_le (hstale : P.staleTmpPrev = null)
    (hlen : calls.length * P.sysconfPageSize ≤ 8388576) : PageListSound P calls := by
  have hlarge := P.pageSize_large
  have hinitial : ∀ done : List Owner, done <+: calls →
      done.length * P.sysconfPageSize ≤ 8388576 := fun done hpre => by
    have := mul_le_mul_of_nonneg_right (Int.ofNat_le.mpr hpre.length_le)
      (by omega : 0 ≤ P.sysconfPageSize)
    linarith
  have huniq : ∀ done m items, done <+: calls → Settles (assignPages P done) (.ok m) →
      PageList m items → ListsPages P m (done.map (freshPage P)) ∧
        items = pageItems P P.firstPage (done.map (freshPage P)) := by
    intro done m items hpre hm hitems
    obtain ⟨m', hm', hlists⟩ := assignPages_spec hstale done (hinitial done hpre)
    obtain ⟨n, hn⟩ := hm'.exists_ok
    cases hm.eq_of_ok hn
    exact ⟨hlists, hitems.unique hlists.inside.list⟩
  constructor
  · intro done hpre
    obtain ⟨m, hm, hlists⟩ := assignPages_spec hstale done (hinitial done hpre)
    exact ⟨m, _, hm, hlists.inside⟩
  · intro done o m m' items items' hpre hm hitems hm' hitems'
    have hdone := (List.prefix_append done [o]).trans hpre
    obtain ⟨_, rfl⟩ := huniq done m items hdone hm hitems
    obtain ⟨hlists', rfl⟩ := huniq (done ++ [o]) m' items' hpre hm' hitems'
    rw [List.map_append]
    refine ⟨owners_pageItems_append _ _, fun hless => ?_⟩
    have hroom := (pageEnd_room (done.map (freshPage P))).mpr (by
      have := hinitial _ hpre
      rwa [List.length_append, List.length_singleton, ← List.length_map (freshPage P)] at this)
    rw [remainder_pageItems] at hless
    omega

/-- The page list stays sound exactly while every call finds a whole page left. -/
theorem page_list_sound_iff (hstale : P.staleTmpPrev = null) (calls : List Owner) :
    PageListSound P calls ↔ calls.length * P.sysconfPageSize ≤ 8388576 :=
  ⟨PageListSound.length_le hstale, PageListSound.of_length_le hstale⟩

theorem page_list_sound_two :
    PageListSound .typical [⟨.libraryReq, libraryTid, by decide⟩, ⟨.threadReq, 3, by decide⟩] :=
  (page_list_sound_iff rfl _).mpr (by decide)

/-- With 4096-byte pages the 2048th call finds 4064 bytes left and leaves the array. -/
theorem page_list_overrun :
    ¬ PageListSound .typical (List.replicate 2048 ⟨.libraryReq, libraryTid, by decide⟩) ∧
      Settles (assignPages .typical (List.replicate 2048 ⟨.libraryReq, libraryTid, by decide⟩))
        (.error .outOfBounds) := by
  refine ⟨fun h => ?_, ?_⟩
  · have hlen := h.length_le rfl
    rw [List.length_replicate] at hlen
    exact absurd hlen (by decide)
  · rw [List.replicate_succ']
    exact assignPages_overrun rfl (by rw [List.length_replicate]; decide)
      (by rw [List.length_replicate]; decide)

end Calls

end VirtualMemorySimulation.MemoryManager

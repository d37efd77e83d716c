import VirtualMemorySimulation.MemoryManager.Clients

/-!
# How pages fill up

Nothing is given back, so a page only fills up: what finds no block in it never finds
one later, and a page that has changed counts more bytes as allocated. Every page has
one free block, its last, so the first call that a page serves gets the block that any
other call would have taken.
-/

namespace VirtualMemorySimulation.MemoryManager

open ByteRecords Execution SeparateBlocks

variable {P : Platform}

section Pages

variable {p q t : ArenaPage} {size : ℤ} {bpre bpost : List ArenaBlock} {b : ArenaBlock}

/-- The page `q` is the page `p` later. -/
structure Fills (P : Platform) (p q : ArenaPage) : Prop where
  owner : q.requestId = p.requestId ∧ q.tid = p.tid
  starved : ∀ r : Request, r.pageFit P p = none → r.pageFit P q = none
  grows : q = p ∨ p.sizeOfAllocated < q.sizeOfAllocated

theorem Fills.refl (p : ArenaPage) : Fills P p p := ⟨⟨rfl, rfl⟩, fun _ => id, .inl rfl⟩

theorem Fills.trans (h : Fills P p q) (h' : Fills P q t) : Fills P p t where
  owner := ⟨h'.owner.1.trans h.owner.1, h'.owner.2.trans h.owner.2⟩
  starved r hr := h'.starved r (h.starved r hr)
  grows := by
    rcases h.grows with rfl | hlt
    · exact h'.grows
    · rcases h'.grows with rfl | hlt'
      · exact .inr hlt
      · exact .inr (hlt.trans hlt')

/-- A page that counts as full for a request that would fit counts as full ever after. -/
theorem Request.FullFor.carved {r : Request} (h : r.FullFor P p) (hp : p.Valid P) (hsize : 0 ≤ size)
    (hfit : FitsAt size p.blocks bpre b bpost) {d : ArenaBlock} (hd : d ∈ p.blocks)
    (hdtakes : d.Takes r.size) : r.FullFor P (carvedPage p size bpre b bpost) := by
  have hle := P.pageSize_le
  have htiles := hp.tiles
  have hlow := allocatedExtent_nonneg hp.blocks
  have hdfree := allocatedExtent_add_free_le hp.blocks hd hdtakes.1
  have hbfree := allocatedExtent_add_free_le hp.blocks (by rw [hfit.split]; simp) hfit.takes.1
  have hdsize := hdtakes.2
  have hbsize := hfit.takes.2
  have hrsize := r.size_int.1
  have hsum := hfit.sizeOfAllocated_carvedPage
  unfold Request.FullFor at h ⊢
  split_ifs at h ⊢
  · omega
  · have hnow : p.sizeOfAllocated = 64 + allocatedExtent p.blocks := rfl
    rw [toInt_of_range (by omega) (by omega)] at h
    rw [hsum, toInt_of_range (by omega) (by omega)]
    omega

theorem Fills.carved (hp : p.Valid P) (hsize : 0 ≤ size)
    (hfit : FitsAt size p.blocks bpre b bpost) :
    Fills P p (carvedPage p size bpre b bpost) where
  owner := ⟨rfl, rfl⟩
  grows := by
    rw [hfit.sizeOfAllocated_carvedPage]
    exact .inr (by omega)
  starved r hnone := by
    by_contra hsome
    obtain ⟨c, hc⟩ := Option.ne_none_iff_exists'.mp hsome
    obtain ⟨⟨hown, hfull⟩, cpre, cpost, hcfit⟩ := pageFit_some hc
    -- the block that is found later, or the one that it is a part of, is there before
    obtain ⟨d, hd, hdtakes⟩ : ∃ d ∈ p.blocks, d.Takes r.size := by
      have hmem : c ∈ (carvedPage p size bpre b bpost).blocks := by
        rw [hcfit.split]
        simp
      simp only [carvedPage, List.mem_append, List.mem_cons] at hmem
      rw [hfit.split]
      rcases hmem with hmem | rfl | rfl | hmem
      · exact ⟨c, by simp [hmem], hcfit.takes⟩
      · exact absurd hcfit.takes.1 (by simp)
      · have hless := hcfit.takes.2
        exact ⟨b, by simp, hfit.takes.1, by simp only at hless; omega⟩
      · exact ⟨c, by simp [hmem], hcfit.takes⟩
    have hsearch : r.Searches P p :=
      ⟨hown, fun hwas => hfull (hwas.carved hp hsize hfit hd hdtakes)⟩
    have hnot := firstFit_none.mp (by rwa [Request.pageFit, if_pos hsearch] at hnone)
    exact hnot d hd hdtakes

end Pages

section Tails

variable {p : ArenaPage} {size size' : ℤ} {bpre bpost bpre' bpost' : List ArenaBlock}
  {b b' : ArenaBlock}

/-- The page has one free block, behind the allocated ones. -/
def Tailed (p : ArenaPage) : Prop :=
  ∃ bs b, p.blocks = bs ++ [b] ∧ b.state = .unallocated ∧ ∀ c ∈ bs, c.state = .allocated

theorem freshPage_tailed (o : Owner) : Tailed (freshPage P o) :=
  ⟨[], _, rfl, rfl, by simp⟩

/-- The block that any call takes is the last one. -/
theorem Tailed.fit (h : Tailed p) (hfit : FitsAt size p.blocks bpre b bpost) :
    bpost = [] ∧ ∀ c ∈ bpre, c.state = .allocated := by
  obtain ⟨bs, c, hblocks, -, hallocated⟩ := h
  have hsplit := hblocks.symm.trans hfit.split
  rcases List.eq_nil_or_concat bpost with rfl | ⟨l, d, rfl⟩
  · obtain ⟨rfl, -⟩ := List.append_inj' hsplit rfl
    exact ⟨rfl, hallocated⟩
  · have hsplit' : bs ++ [c] = (bpre ++ b :: l) ++ [d] := by simpa using hsplit
    obtain ⟨rfl, -⟩ := List.append_inj' hsplit' rfl
    exact absurd (hallocated b (by simp)) (by simp [hfit.takes.1])

theorem Tailed.fit_unique (h : Tailed p) (hfit : FitsAt size p.blocks bpre b bpost)
    (hfit' : FitsAt size' p.blocks bpre' b' bpost') : bpre = bpre' := by
  obtain ⟨rfl, -⟩ := h.fit hfit
  obtain ⟨rfl, -⟩ := h.fit hfit'
  exact (List.append_inj' (hfit.split.symm.trans hfit'.split) rfl).1

theorem Tailed.carved (h : Tailed p) (hfit : FitsAt size p.blocks bpre b bpost) :
    Tailed (carvedPage p size bpre b bpost) := by
  obtain ⟨rfl, hallocated⟩ := h.fit hfit
  refine ⟨bpre ++ [⟨.allocated, size, size + 40⟩], ⟨.unallocated, 0, b.totalSize - (size + 40)⟩,
    by simp [carvedPage], rfl, fun c hc => ?_⟩
  rcases List.mem_append.mp hc with hc | hc
  · exact hallocated c hc
  · rw [List.mem_singleton.mp hc]

end Tails

section Arenas

variable {A B : Arena} {pre post : Arena} {p q x : ArenaPage} {i : ℕ} {r : Request} {place : Place}
  {bpre bpost : List ArenaBlock} {b : ArenaBlock}

/-- Each page of `A` is still in its place in `B`. -/
def Grown (P : Platform) (A B : Arena) : Prop :=
  ∀ (i : ℕ) (p : ArenaPage), A[i]? = some p → ∃ q, B[i]? = some q ∧ Fills P p q

theorem Grown.refl (A : Arena) : Grown P A A := fun _ p h => ⟨p, h, .refl p⟩

theorem Grown.trans {C : Arena} (h : Grown P A B) (h' : Grown P B C) : Grown P A C := by
  intro i p hp
  obtain ⟨q, hq, hpq⟩ := h i p hp
  obtain ⟨t, ht, hqt⟩ := h' i q hq
  exact ⟨t, ht, hpq.trans hqt⟩

theorem Grown.length_le (h : Grown P A B) : A.length ≤ B.length := by
  by_contra hlt
  have hin : B.length < A.length := not_le.mp hlt
  obtain ⟨q, hq, -⟩ := h B.length _ (List.getElem?_eq_getElem hin)
  rw [List.getElem?_eq_none le_rfl] at hq
  cases hq

/-- What finds no block in some pages finds none in them later. -/
theorem Grown.starved (h : Grown P A B) {n : ℕ} (hn : n ≤ A.length)
    (hnone : ∀ q ∈ A.take n, r.pageFit P q = none) : ∀ q ∈ B.take n, r.pageFit P q = none := by
  intro q hq
  obtain ⟨i, hi⟩ := List.getElem?_of_mem hq
  rw [List.getElem?_take] at hi
  split_ifs at hi with hin
  have hpage := List.getElem?_eq_getElem (hin.trans_le hn)
  obtain ⟨t, ht, hfills⟩ := h i _ hpage
  obtain rfl := Option.some.inj (ht.symm.trans hi)
  refine hfills.starved r (hnone _ (List.mem_of_getElem? (i := i) ?_))
  rw [List.getElem?_take, if_pos hin, hpage]

theorem getElem?_replace (q : ArenaPage) (h : (pre ++ p :: post)[i]? = some x) :
    i = pre.length ∧ x = p ∧ (pre ++ q :: post)[i]? = some q ∨
      i ≠ pre.length ∧ (pre ++ q :: post)[i]? = some x := by
  rcases lt_trichotomy i pre.length with hlt | rfl | hgt
  · rw [List.getElem?_append_left hlt] at h ⊢
    exact .inr ⟨hlt.ne, h⟩
  · rw [List.getElem?_append_right le_rfl, Nat.sub_self, List.getElem?_cons_zero] at h ⊢
    exact .inl ⟨rfl, (Option.some.inj h).symm, rfl⟩
  · obtain ⟨k, rfl⟩ : ∃ k, i = pre.length + (k + 1) := ⟨i - pre.length - 1, by omega⟩
    rw [List.getElem?_append_right (by omega), Nat.add_sub_cancel_left,
      List.getElem?_cons_succ] at h ⊢
    exact .inr ⟨by omega, h⟩

/-- Where a request is served: in the pages there are, or in the fresh one behind them. -/
structure ServedAt (P : Platform) (r : Request) (A B pre : Arena) (p : ArenaPage) (post : Arena)
    (bpre : List ArenaBlock) (b : ArenaBlock) (bpost : List ArenaBlock) : Prop where
  taken : TakenAt P r (pre ++ p :: post) pre p post bpre b bpost
  before : A = pre ++ p :: post ∨ A = pre ∧ p = freshPage P r.owner ∧ post = [] ∧ bpre = []
  after : B = pre ++ carvedPage p r.size bpre b bpost :: post

theorem TakenAt.fresh (h : TakenAt P r (r.withFresh P A) pre p post bpre b bpost)
    (hnone : r.arenaFit P A = none) :
    A = pre ∧ p = freshPage P r.owner ∧ post = [] ∧ bpre = [] := by
  have hsplit := h.split
  unfold Request.withFresh at hsplit
  rcases List.eq_nil_or_concat post with rfl | ⟨l, q, rfl⟩
  · obtain ⟨rfl, hp⟩ := List.append_inj' hsplit rfl
    obtain ⟨rfl, -⟩ := List.cons.inj hp
    refine ⟨rfl, rfl, rfl, ?_⟩
    have hlength := congrArg List.length h.fit.split
    simp only [freshPage, List.length_append, List.length_cons, List.length_nil] at hlength
    exact List.eq_nil_of_length_eq_zero (by omega)
  · -- the page would be one of those that have nothing for the request
    have hsplit' : A ++ [freshPage P r.owner] = (pre ++ p :: l) ++ [q] := by simpa using hsplit
    obtain ⟨rfl, -⟩ := List.append_inj' hsplit' rfl
    have hsome := arenaFit_some.mpr ⟨pre, p, l, bpre, bpost, rfl, h.passed, h.searches, h.fit⟩
    rw [hnone] at hsome
    cases hsome

theorem serve_servedAt (h : r.serve P A = some (place, B)) : ∃ pre p post bpre b bpost,
    ServedAt P r A B pre p post bpre b bpost ∧ place.address P = dataAddress P pre bpre := by
  obtain ⟨A₀, pre, p, post, bpre, b, bpost, hA₀, ht, rfl, rfl⟩ := serve_some h
  obtain rfl := ht.split
  refine ⟨pre, p, post, bpre, b, bpost, ⟨ht, ?_, rfl⟩, (dataAddress_eq _ _).symm⟩
  rcases hA₀ with hA₀ | ⟨hA₀, hnone⟩
  · exact .inl hA₀.symm
  · rw [hA₀] at ht
    exact .inr (ht.fresh hnone)

namespace ServedAt

variable (h : ServedAt P r A B pre p post bpre b bpost)

include h

theorem getElem? (hx : A[i]? = some x) :
    i = pre.length ∧ x = p ∧ B[i]? = some (carvedPage p r.size bpre b bpost) ∨
      i ≠ pre.length ∧ B[i]? = some x := by
  rw [h.after]
  apply getElem?_replace (p := p)
  rcases h.before with rfl | ⟨rfl, -⟩
  · exact hx
  · rwa [List.getElem?_append_left (List.getElem?_eq_some_iff.mp hx).1]

theorem valid (hvalid : ∀ q ∈ A, q.Valid P) : p.Valid P := by
  rcases h.before with rfl | ⟨-, rfl, -⟩
  · exact hvalid p (by simp)
  · exact freshPage_valid _

theorem tailed (htailed : ∀ q ∈ A, Tailed q) : ∀ q ∈ B, Tailed q := by
  have hp : Tailed p := by
    rcases h.before with rfl | ⟨-, rfl, -⟩
    · exact htailed p (by simp)
    · exact freshPage_tailed _
  have hother : ∀ q ∈ pre ++ post, Tailed q := by
    intro q hq
    rcases h.before with rfl | ⟨rfl, -, rfl, -⟩
    · exact htailed q (by simp at hq ⊢; tauto)
    · exact htailed q (by simpa using hq)
  intro q hq
  rw [h.after] at hq
  rcases List.mem_append.mp hq with hq | hq
  · exact hother q (by simp [hq])
  · rcases List.mem_cons.mp hq with rfl | hq
    · exact hp.carved h.taken.fit
    · exact hother q (by simp [hq])

theorem grown (hvalid : ∀ q ∈ A, q.Valid P) (hsize : 0 ≤ r.size) : Grown P A B := by
  intro i x hx
  rcases h.getElem? hx with ⟨-, rfl, hB⟩ | ⟨-, hB⟩
  · exact ⟨_, hB, .carved (h.valid hvalid) hsize h.taken.fit⟩
  · exact ⟨x, hB, .refl x⟩

end ServedAt

end Arenas

section Ledgers

variable {A : Arena} {t t' : Ledger} {action : Action Call UInt8}

/-- What has happened to the pages of `A` until `t`: a page more, or a page that has changed,
has been handed out at the place where any other call would have been served. -/
structure Since (P : Platform) (A : Arena) (t : Ledger) : Prop where
  grown : Grown P A t.arena
  fresh : A.length < t.arena.length → ∃ c ∈ t.served, c.2 = dataAddress P A []
  cut : ∀ {pre p post size bpre b bpost}, A = pre ++ p :: post → FitsAt size p.blocks bpre b bpost →
    t.arena[pre.length]? ≠ some p → ∃ c ∈ t.served, c.2 = dataAddress P pre bpre

theorem Since.refl (served : List (Request × ℤ)) (A : Arena) : Since P A ⟨served, A⟩ where
  grown := .refl A
  fresh hlt := absurd hlt (lt_irrefl _)
  cut := by
    rintro pre p post size bpre b bpost rfl - hne
    exact absurd (by simp) hne

theorem pageEnd_congr {pre pre' : Arena} (h : pre.length = pre'.length) :
    pageEnd P P.firstPage pre = pageEnd P P.firstPage pre' := by
  rw [pageEnd, pageEnd, h]

theorem dataAddress_congr {pre pre' : Arena} (h : pre.length = pre'.length)
    (bpre : List ArenaBlock) : dataAddress P pre bpre = dataAddress P pre' bpre := by
  rw [dataAddress, dataAddress, pageEnd_congr h]

theorem Since.exec (h : Since P A t) (hvalid : ∀ p ∈ t.arena, p.Valid P)
    (htailed : ∀ p ∈ A, Tailed p) (hexec : t.exec P action = .ok t') : Since P A t' := by
  rcases Ledger.exec_cases hexec with rfl | ⟨r, place, B, ⟨-, hsize, -⟩, hserve, rfl⟩
  · exact h
  obtain ⟨pre, p, post, bpre, b, bpost, hserved, haddress⟩ := serve_servedAt hserve
  have hkept : ∀ {v : ℤ}, (∃ c ∈ t.served, c.2 = v) →
      ∃ c ∈ t.served ++ [(r, place.address P)], c.2 = v := by
    rintro v ⟨c, hc, hv⟩
    exact ⟨c, List.mem_append_left _ hc, hv⟩
  have hnew : ∀ {v : ℤ}, place.address P = v →
      ∃ c ∈ t.served ++ [(r, place.address P)], c.2 = v :=
    fun hv => ⟨(r, place.address P), by simp, hv⟩
  refine ⟨h.grown.trans (hserved.grown hvalid hsize), fun hlt => ?_, ?_⟩
  · by_cases hwas : A.length < t.arena.length
    · exact hkept (h.fresh hwas)
    · have hlength : t.arena.length = A.length := le_antisymm (not_lt.mp hwas) h.grown.length_le
      simp only [hserved.after, List.length_append, List.length_cons] at hlt
      rcases hserved.before with harena | ⟨rfl, -, -, rfl⟩
      · rw [harena, List.length_append, List.length_cons] at hlength
        omega
      · exact hnew (haddress.trans (dataAddress_congr hlength _))
  · intro pre' p' post' size bpre' b' bpost' hA hfit hne
    by_cases hwas : t.arena[pre'.length]? = some p'
    · rcases hserved.getElem? hwas with ⟨hi, rfl, -⟩ | ⟨-, hB⟩
      · have hblocks := (htailed p' (by simp [hA])).fit_unique hfit hserved.taken.fit
        rw [hblocks, dataAddress_congr hi]
        exact hnew haddress
      · exact absurd hB hne
    · exact hkept (h.cut hA hfit hwas)

theorem Ledger.exec_tailed (h : ∀ p ∈ t.arena, Tailed p) (hexec : t.exec P action = .ok t') :
    ∀ p ∈ t'.arena, Tailed p := by
  rcases Ledger.exec_cases hexec with rfl | ⟨r, place, B, -, hserve, rfl⟩
  · exact h
  · obtain ⟨pre, p, post, bpre, b, bpost, hserved, -⟩ := serve_servedAt hserve
    exact hserved.tailed h

theorem Ledger.exec_other {i : ℕ} {p : ArenaPage} (hp : t.arena[i]? = some p)
    (hother : ∀ r, action = .call (.allocate r) → ¬ r.Owns p) (hexec : t.exec P action = .ok t') :
    t'.arena[i]? = some p := by
  cases action with
  | call call =>
    cases call with
    | allocate r =>
      simp only [Ledger.exec] at hexec
      split_ifs at hexec
      cases hserve : r.serve P t.arena with
      | none => simp [hserve] at hexec
      | some given =>
        obtain ⟨place, B⟩ := given
        simp only [hserve] at hexec
        obtain rfl := Except.ok.inj hexec
        obtain ⟨pre, q, post, bpre, b, bpost, hserved, -⟩ := serve_servedAt hserve
        rcases hserved.getElem? hp with ⟨-, rfl, -⟩ | ⟨-, hB⟩
        · exact absurd hserved.taken.searches.1 (hother r rfl)
        · exact hB
    | deallocate ptr requestId =>
      obtain rfl := Except.ok.inj hexec
      exact hp
  | write k v x =>
    simp only [Ledger.exec] at hexec
    split at hexec
    · split_ifs at hexec
      obtain rfl := Except.ok.inj hexec
      exact hp
    · cases hexec

end Ledgers

end VirtualMemorySimulation.MemoryManager

import VirtualMemorySimulation.Scheduler.Conservation
import VirtualMemorySimulation.Scheduler.Maintenance

/-!
# Promoting the oldest threads

The end of `scheduler_maintenance` moves the chosen threads to level 0, one after the
other. A removal leaves its level counted too high, and a level that it empties keeps
the removed thread as its tail, behind which the next thread would be enqueued. Only
level 0 is enqueued to, so nobody is lost unless its only thread is the first one moved.
-/

namespace VirtualMemorySimulation.Scheduler

open Execution LinkedQueue Selection QuickSelect

def promoteLoop (oldest : List TcbCopy) (fuel : ℕ) :
    ℕ → ℤ → State TcbLinks → Except Stop (State TcbLinks)
  | 0, _, s => .ok s
  | left + 1, i, s => do
    let tcb ← readAt oldest i
    let s ← changePriority tcb.tid 0 fuel s
    promoteLoop oldest fuel left (i + 1) s

def schedulerMaintenance (initialStartTime : TcbPtr → Timeval) (size fuel : ℕ)
    (s : State TcbLinks) : Except Stop (State TcbLinks) := do
  let oldest ← oldestTcbArray initialStartTime size fuel s
  promoteLoop oldest fuel size 0 s

/-- A queue with the chain and the tail of a list, and a count that may be too high. -/
structure Drifted (next : TcbPtr → Option TcbPtr) (q : Queue TcbPtr) (l : List TcbPtr)
    (count : ℕ) : Prop where
  chain : Chain next q.head l
  tail : l ≠ [] → q.tail = l.getLast?
  size : q.size = count
  enough : l.length ≤ count

def recount (q : QueuePtr) (count : ℕ) (L : TcbLinks) : TcbLinks :=
  { L with queue := Function.update L.queue q { L.queue q with size := count } }

def withoutThreads (ps : List TcbPtr) (A : ℤ → List TcbPtr) : ℤ → List TcbPtr :=
  fun i => (A i).filter (· ∉ ps)

/-- The levels with these threads at the end of level 0. -/
def movedToTop (ps : List TcbPtr) (A : ℤ → List TcbPtr) : ℤ → List TcbPtr :=
  Function.update (withoutThreads ps A) 0 (withoutThreads ps A 0 ++ ps)

/-- Levels between two changes of priority. -/
structure Promoting (s : State TcbLinks) (A : ℤ → List TcbPtr) (count : ℤ → ℕ) : Prop where
  scheduler : s.scheduler = true
  levels : ∀ i, 0 ≤ i → i ≤ 2 →
    Drifted s.queues.next (s.queues.queue (.level i)) (A i) (count i)
  tids : ((A 0 ++ A 1 ++ A 2).map fun p => (s.tcbs p).tid).Nodup

section Queues

variable {L : TcbLinks} {q : QueuePtr} {p t : TcbPtr} {l pre post : List TcbPtr} {count : ℕ}

theorem Drifted.congr {next next' : TcbPtr → Option TcbPtr} {queue queue' : Queue TcbPtr}
    (h : Drifted next queue l count) (hqueue : queue' = queue)
    (hnext : ∀ r ∈ l, next' r = next r) : Drifted next' queue' l count := by
  subst hqueue
  exact ⟨h.chain.congr hnext, h.tail, h.size, h.enough⟩

theorem recount_recount (q : QueuePtr) (count count' : ℕ) (L : TcbLinks) :
    recount q count (recount q count' L) = recount q count L := by
  simp [recount]

theorem recount_self (q : QueuePtr) (L : TcbLinks) : recount q (L.queue q).size L = L := by
  simp [recount]

/-- Taking a node out does not look at the count. -/
theorem unlink_recount (node : TcbPtr) (prev : Option TcbPtr) (count : ℕ) (L : TcbLinks) :
    unlink q node prev (recount q count L) = (unlink q node prev L).map (recount q count) := by
  by_cases hhead : some node = prev
  · simp [unlink, recount, Except.map, hhead]
  · cases prev with
    | none => rfl
    | some r =>
      by_cases hlast : L.next node = none
      · simp [unlink, recount, Except.map, hhead, hlast]
      · simp [unlink, recount, Except.map, hhead, hlast]

theorem Drifted.unlink (h : Drifted L.next (L.queue q) (pre ++ p :: post) count)
    (hnodup : (pre ++ p :: post).Nodup) : ∃ L',
      unlink q p (pre.getLast?.or (L.queue q).head) L = .ok L' ∧
        Drifted L'.next (L'.queue q) (pre ++ post) count ∧
        (pre ++ post = [] → (L'.queue q).tail = some p) ∧
        (∀ q', q' ≠ q → L'.queue q' = L.queue q') ∧ ∀ r ∉ pre, L'.next r = L.next r := by
  have hden : ((recount q (pre ++ p :: post).length L).queue q).Denotes
      (recount q (pre ++ p :: post).length L).next (pre ++ p :: post) := by
    simp only [recount, Function.update_self]
    exact ⟨h.chain, h.tail (by simp), rfl⟩
  have hhead : ((recount q (pre ++ p :: post).length L).queue q).head = (L.queue q).head := by
    simp [recount]
  obtain ⟨L₁, hunlink, hout⟩ := unlink_unlinked hden hnodup
  have hlength := h.enough
  rw [List.length_append, List.length_cons] at hlength
  refine ⟨recount q count L₁, ?_, ⟨?_, ?_, ?_, ?_⟩, ?_, fun q' hq' => ?_, hout.links⟩
  · rw [← h.size]
    have hback := unlink_recount p (pre.getLast?.or (L.queue q).head) (L.queue q).size
      (recount q (pre ++ p :: post).length L) (q := q)
    rw [recount_recount, recount_self, ← hhead, hunlink] at hback
    rw [← hhead]
    exact hback
  · simp only [recount, Function.update_self]
    exact hout.chain
  · intro hne
    simp only [recount, Function.update_self]
    rw [hout.tail, if_neg hne]
  · simp [recount]
  · rw [List.length_append]
    omega
  · intro hnil
    simp only [recount, Function.update_self]
    rw [hout.tail, if_pos hnil]
  · simp only [recount, Function.update_of_ne hq']
    rw [hout.queues q' hq']
    exact Function.update_of_ne hq' _ _

theorem Drifted.enqueue (h : Drifted L.next (L.queue q) l count) (hempty : l = [] → count = 0)
    (hnodup : l.Nodup) (hp : p ∉ l) : ∃ L', Links.enqueue q (some p) L = .ok L' ∧
      Drifted L'.next (L'.queue q) (l ++ [p]) (count + 1) ∧
      (∀ q', q' ≠ q → L'.queue q' = L.queue q') ∧ ∀ r ∉ l, r ≠ p → L'.next r = L.next r := by
  have hlength := h.enough
  rcases List.eq_nil_or_concat l with rfl | ⟨front, t, hconcat⟩
  · have hsize : (L.queue q).size = 0 := h.size.trans (hempty rfl)
    refine ⟨⟨Function.update L.queue q ⟨some p, some p, 1⟩, Function.update L.next p none⟩,
      by rw [Links.enqueue, if_pos hsize], ?_, fun q' hq' => Function.update_of_ne hq' _ _,
      fun r _ hr => Function.update_of_ne hr _ _⟩
    dsimp only
    rw [Function.update_self, hempty rfl]
    exact ⟨.cons (.last (Function.update_self ..)), fun _ => rfl, rfl, le_rfl⟩
  · rw [List.concat_eq_append] at hconcat
    subst hconcat
    have hsize : (L.queue q).size ≠ 0 := by
      rw [h.size]
      rw [List.length_append, List.length_singleton] at hlength
      omega
    have htail : (L.queue q).tail = some t := by
      rw [h.tail (by simp)]
      simp
    have ht : t ∉ front := by
      intro hmem
      exact (List.nodup_append.mp hnodup).2.2 t hmem t (by simp) rfl
    refine ⟨⟨Function.update L.queue q ⟨(L.queue q).head, some p, (L.queue q).size + 1⟩,
      Function.update (Function.update L.next t (some p)) p none⟩, ?_, ?_,
      fun q' hq' => Function.update_of_ne hq' _ _, fun r hr hne => ?_⟩
    · rw [Links.enqueue, if_neg hsize, htail]
    · dsimp only
      rw [Function.update_self]
      exact ⟨h.chain.snoc ht hp, fun _ => by simp, congrArg (· + 1) h.size, by simpa using hlength⟩
    · have hrt : r ≠ t := by
        rintro rfl
        simp at hr
      dsimp only
      rw [Function.update_of_ne hne, Function.update_of_ne hrt]

/-- Behind the tail that an emptied queue has kept, it is lost. -/
theorem Drifted.enqueue_lost (h : Drifted L.next (L.queue q) [] count) (hcount : count ≠ 0)
    (htail : (L.queue q).tail = some t) : ∃ L', Links.enqueue q (some p) L = .ok L' ∧
      Drifted L'.next (L'.queue q) [] (count + 1) ∧ (L'.queue q).tail = some p ∧
      (∀ q', q' ≠ q → L'.queue q' = L.queue q') ∧
        ∀ r, r ≠ t → r ≠ p → L'.next r = L.next r := by
  have hsize : (L.queue q).size ≠ 0 := by rwa [h.size]
  have hhead : (L.queue q).head = none := h.chain.head_eq
  refine ⟨⟨Function.update L.queue q ⟨(L.queue q).head, some p, (L.queue q).size + 1⟩,
    Function.update (Function.update L.next t (some p)) p none⟩, ?_, ?_, ?_,
    fun q' hq' => Function.update_of_ne hq' _ _, fun r hrt hrp => ?_⟩
  · rw [Links.enqueue, if_neg hsize, htail]
  · dsimp only
    rw [Function.update_self]
    exact ⟨.last hhead, fun hne => absurd rfl hne, congrArg (· + 1) h.size, Nat.zero_le _⟩
  · dsimp only
    rw [Function.update_self]
  · dsimp only
    rw [Function.update_of_ne hrp, Function.update_of_ne hrt]

end Queues

section Levels

variable {s : State TcbLinks} {A : ℤ → List TcbPtr} {count : ℤ → ℕ} {i j : ℤ} {p r : TcbPtr}
  {l pre post ps qs : List TcbPtr}

theorem mem_withoutThreads : r ∈ withoutThreads ps A i ↔ r ∈ A i ∧ r ∉ ps := by
  simp [withoutThreads]

theorem withoutThreads_levels (ps : List TcbPtr) (A : ℤ → List TcbPtr) :
    withoutThreads ps A 0 ++ withoutThreads ps A 1 ++ withoutThreads ps A 2 =
      (A 0 ++ A 1 ++ A 2).filter (· ∉ ps) := by
  simp [withoutThreads, List.filter_append]

theorem movedToTop_levels (ps : List TcbPtr) (A : ℤ → List TcbPtr) :
    (movedToTop ps A 0 ++ movedToTop ps A 1 ++ movedToTop ps A 2).Perm
      (ps ++ (A 0 ++ A 1 ++ A 2).filter (· ∉ ps)) := by
  rw [← withoutThreads_levels]
  have hlevels : movedToTop ps A 0 ++ movedToTop ps A 1 ++ movedToTop ps A 2 =
      withoutThreads ps A 0 ++ ps ++ withoutThreads ps A 1 ++ withoutThreads ps A 2 := rfl
  rw [hlevels]
  simp only [List.append_assoc]
  exact List.perm_append_comm_assoc ..

theorem withoutThreads_append (ps qs : List TcbPtr) (A : ℤ → List TcbPtr) :
    withoutThreads qs (withoutThreads ps A) = withoutThreads (ps ++ qs) A := by
  funext i
  simp [withoutThreads, List.filter_filter, Bool.and_comm]

theorem movedToTop_append (hqs : ∀ q ∈ qs, q ∉ ps) (A : ℤ → List TcbPtr) :
    movedToTop qs (movedToTop ps A) = movedToTop (ps ++ qs) A := by
  have hkept : ps.filter (· ∉ qs) = ps := by
    rw [List.filter_eq_self]
    intro q hq
    simpa using fun hmem => hqs q hmem hq
  funext i
  by_cases hi : i = 0
  · subst hi
    simp only [movedToTop, Function.update_self, withoutThreads, List.filter_append, hkept,
      List.append_assoc]
    rw [← List.append_assoc, ← List.append_assoc]
    congr 2
    simp [List.filter_filter, Bool.and_comm]
  · simp only [movedToTop, Function.update_of_ne hi]
    rw [← withoutThreads_append]
    simp only [withoutThreads, Function.update_of_ne hi]

theorem withoutThreads_located (h : (A 0 ++ A 1 ++ A 2).Nodup) (hi : 0 ≤ i ∧ i ≤ 2)
    (hsplit : A i = pre ++ p :: post) : withoutThreads [p] A i = pre ++ post ∧
      ∀ j, 0 ≤ j ∧ j ≤ 2 → j ≠ i → withoutThreads [p] A j = A j := by
  have hnodup := level_nodup h hi.1 hi.2
  constructor
  · rw [hsplit] at hnodup
    have hp : p ∉ pre ++ post := (List.nodup_middle.mp hnodup).notMem
    have hkept : (pre ++ post).filter (· ∉ [p]) = pre ++ post := by
      rw [List.filter_eq_self]
      intro q hq
      have hqp : q ≠ p := fun heq => hp (heq ▸ hq)
      simpa using hqp
    rw [List.filter_append] at hkept
    simp only [withoutThreads, hsplit, List.filter_append]
    rw [List.filter_cons_of_neg (by simp)]
    exact hkept
  · intro j hj hne
    rw [withoutThreads, List.filter_eq_self]
    intro q hq
    have hpi : p ∈ A i := by
      rw [hsplit]
      simp
    have hqp : q ≠ p := fun heq => hne (levels_apart h hj hi (heq ▸ hq) hpi)
    simpa using hqp

end Levels

section Steps

variable {s : State TcbLinks} {A : ℤ → List TcbPtr} {count : ℤ → ℕ} {i : ℤ} {p t : TcbPtr}
  {pre post : List TcbPtr}

theorem Promoting.nodup (h : Promoting s A count) : (A 0 ++ A 1 ++ A 2).Nodup := h.tids.of_map _

/-- The removal of a scheduled thread between two changes of priority. -/
theorem Promoting.removal (h : Promoting s A count) (hp : p ∈ A 0 ++ A 1 ++ A 2) : ∃ L',
    Settles (fun n => getAndRemoveTcb (s.tcbs p).tid n s) (.ok (some p, { s with queues := L' })) ∧
      (∀ i, 0 ≤ i → i ≤ 2 →
        Drifted L'.next (L'.queue (.level i)) (withoutThreads [p] A i) (count i)) ∧
      (A 0 = [p] → (L'.queue (.level 0)).tail = some p) ∧
      (A 0 = [] → L'.queue (.level 0) = s.queues.queue (.level 0)) := by
  obtain ⟨i, hlow, hhigh, hpi⟩ := mem_mlpq.mp hp
  obtain ⟨pre, post, hsplit⟩ := List.append_of_mem hpi
  have hnodup := level_nodup h.nodup hlow hhigh
  have hlevel := h.levels i hlow hhigh
  obtain ⟨hwithout, hothers⟩ := withoutThreads_located h.nodup ⟨hlow, hhigh⟩ hsplit
  rw [hsplit] at hnodup hlevel
  obtain ⟨L', hunlink, hdrifted, hghost, hqueues, hlinks⟩ := hlevel.unlink hnodup
  have hlocated : Located s A (s.tcbs p).tid i pre p post := ⟨hlow, hhigh, hsplit, rfl⟩
  have hchains := fun j hj hj' => (h.levels j hj hj').chain
  refine ⟨L', ?_, fun j hj hj' => ?_, fun hall => ?_, fun hnil => ?_⟩
  · exact getAndRemoveTcb_unlinks h.scheduler hchains h.tids hlocated hunlink
  · by_cases hji : j = i
    · subst hji
      rw [hwithout]
      exact hdrifted
    · rw [hothers j ⟨hj, hj'⟩ hji]
      apply (h.levels j hj hj').congr (hqueues _ (by simpa using hji))
      intro r hr
      apply hlinks
      intro hmem
      have hri : r ∈ A i := by
        rw [hsplit]
        simp [hmem]
      exact hji (levels_apart h.nodup ⟨hj, hj'⟩ ⟨hlow, hhigh⟩ hr hri)
  · have hp0 : p ∈ A 0 := by
      rw [hall]
      exact List.mem_singleton_self p
    obtain rfl := levels_apart h.nodup ⟨hlow, hhigh⟩ ⟨le_rfl, by decide⟩ hpi hp0
    obtain ⟨rfl, rfl⟩ : pre = [] ∧ post = [] := by
      rw [hsplit, List.append_eq_singleton_iff] at hall
      simpa using hall
    exact hghost rfl
  · apply hqueues
    intro heq
    obtain rfl : (0 : ℤ) = i := by simpa using heq
    rw [hnil] at hpi
    cases hpi

theorem movedToTop_perm {ps : List TcbPtr} (h : (A 0 ++ A 1 ++ A 2).Nodup) (hps : ps.Nodup)
    (hmem : ∀ p ∈ ps, p ∈ A 0 ++ A 1 ++ A 2) :
    (movedToTop ps A 0 ++ movedToTop ps A 1 ++ movedToTop ps A 2).Perm (A 0 ++ A 1 ++ A 2) := by
  refine (movedToTop_levels ps A).trans ?_
  rw [List.perm_ext_iff_of_nodup _ h]
  · intro r
    rw [List.mem_append, List.mem_filter]
    constructor
    · rintro (hr | hr)
      · exact hmem r hr
      · exact hr.1
    · intro hr
      by_cases hr' : r ∈ ps
      · exact Or.inl hr'
      · exact Or.inr ⟨hr, by simpa using hr'⟩
  · refine List.nodup_append.mpr ⟨hps, h.filter _, ?_⟩
    rintro r hr _ hr' rfl
    simp [hr] at hr'

theorem scheduleThread_top {L' : TcbLinks}
    (h : Links.enqueue (.level 0) (some p) s.queues = .ok L') :
    scheduleThread (some p) 0 s =
      .ok { s.setTcb p { s.tcbs p with priority := 0 } with queues := L' } := by
  have hrange : ¬ ((0 : ℤ) < 0 ∨ numberLevels - 1 < 0) := by decide
  have henqueue : QueueStore.enqueue (.level 0) (some p) s.queues = .ok L' := h
  rw [scheduleThread, if_neg hrange]
  simp only [State.setTcb_queues, henqueue, ok_bind]

theorem setTcb_priority_tid (s : State TcbLinks) (p r : TcbPtr) :
    ((s.setTcb p { s.tcbs p with priority := 0 }).tcbs r).tid = (s.tcbs r).tid := by
  by_cases hr : r = p
  · subst hr
    simp
  · simp [hr]

/-- The thread goes to the end of level 0, unless it is the only one there. -/
theorem Promoting.moves (h : Promoting s A count) (hp : p ∈ A 0 ++ A 1 ++ A 2)
    (hkeep : A 0 ≠ [p]) (hfresh : A 0 = [] → count 0 = 0) : ∃ s',
      Settles (fun n => changePriority (s.tcbs p).tid 0 n s) (.ok s') ∧
        Promoting s' (movedToTop [p] A) (Function.update count 0 (count 0 + 1)) ∧
        s'.tcbs = (s.setTcb p { s.tcbs p with priority := 0 }).tcbs := by
  obtain ⟨L₁, hremove, hlevels, -, -⟩ := h.removal hp
  have hnodup := level_nodup h.nodup le_rfl (by decide : (0 : ℤ) ≤ 2)
  have hempty : withoutThreads [p] A 0 = [] → count 0 = 0 := by
    intro hnil
    apply hfresh
    have hall : ∀ r ∈ A 0, r = p := by
      intro r hr
      by_contra hne
      have hmem : r ∈ withoutThreads [p] A 0 := mem_withoutThreads.mpr ⟨hr, by simpa using hne⟩
      rw [hnil] at hmem
      cases hmem
    rcases hA : A 0 with _ | ⟨x, _ | ⟨y, l⟩⟩
    · rfl
    · rw [hA] at hall hkeep
      exact absurd (by rw [hall x (by simp)]) hkeep
    · rw [hA] at hall hnodup
      have hxy : x = y := (hall x (by simp)).trans (hall y (by simp)).symm
      simp [hxy] at hnodup
  have hout : p ∉ withoutThreads [p] A 0 := fun hmem => (mem_withoutThreads.mp hmem).2 (by simp)
  obtain ⟨L₂, henqueue, hlevel, hqueues, hlinks⟩ :=
    (hlevels 0 le_rfl (by decide)).enqueue hempty (hnodup.filter _) hout
  refine ⟨{ s.setTcb p { s.tcbs p with priority := 0 } with queues := L₂ }, ?_,
    ⟨h.scheduler, fun i hi hi' => ?_, ?_⟩, rfl⟩
  · have hsettles : Settles (fun n => changePriority (s.tcbs p).tid 0 n s) _ :=
      changePriority_settles hremove
    rw [scheduleThread_top henqueue] at hsettles
    exact hsettles
  · by_cases hi0 : i = 0
    · subst hi0
      simp only [movedToTop, Function.update_self]
      exact hlevel
    · simp only [movedToTop, Function.update_of_ne hi0]
      apply (hlevels i hi hi').congr (hqueues _ (by simpa using hi0))
      intro r hr
      obtain ⟨hri, hrp⟩ := mem_withoutThreads.mp hr
      refine hlinks r (fun hr0 => hi0 ?_) (by simpa using hrp)
      exact levels_apart h.nodup ⟨hi, hi'⟩ ⟨le_rfl, by decide⟩ hri (mem_withoutThreads.mp hr0).1
  · have hperm := movedToTop_perm h.nodup (List.nodup_singleton p) (by simpa using hp)
    rw [((hperm.map _).nodup_iff)]
    simp only [setTcb_priority_tid]
    exact h.tids

/-- Level 0 holds no thread, and its tail is one that no level holds. -/
def Ghost (s : State TcbLinks) (A : ℤ → List TcbPtr) : Prop :=
  A 0 = [] ∧ ∃ t, (s.queues.queue (.level 0)).tail = some t ∧ t ∉ A 0 ++ A 1 ++ A 2

/-- The thread is lost if it was the only one of level 0, or if such a one has been lost. -/
theorem Promoting.loses (h : Promoting s A count) (hp : p ∈ A 0 ++ A 1 ++ A 2)
    (hlost : A 0 = [p] ∨ Ghost s A) (hcount : count 0 ≠ 0) : ∃ s',
      Settles (fun n => changePriority (s.tcbs p).tid 0 n s) (.ok s') ∧
        Promoting s' (withoutThreads [p] A) (Function.update count 0 (count 0 + 1)) ∧
        Ghost s' (withoutThreads [p] A) ∧
        s'.tcbs = (s.setTcb p { s.tcbs p with priority := 0 }).tcbs := by
  obtain ⟨L₁, hremove, hlevels, honly, hsame⟩ := h.removal hp
  have hnil : withoutThreads [p] A 0 = [] := by
    rcases hlost with hall | ⟨hnil, -⟩
    · simp [withoutThreads, hall]
    · simp [withoutThreads, hnil]
  have houtside : ∀ t, t ∉ A 0 ++ A 1 ++ A 2 ∨ t = p →
      ∀ i, 0 ≤ i → i ≤ 2 → t ∉ withoutThreads [p] A i := by
    rintro t ht i hi hi' hmem
    obtain ⟨hti, htp⟩ := mem_withoutThreads.mp hmem
    rcases ht with ht | rfl
    · exact ht (mem_mlpq.mpr ⟨i, hi, hi', hti⟩)
    · simp at htp
  obtain ⟨t, htail, ht⟩ : ∃ t, (L₁.queue (.level 0)).tail = some t ∧
      (t ∉ A 0 ++ A 1 ++ A 2 ∨ t = p) := by
    rcases hlost with hall | ⟨hnil, t, htail, ht⟩
    · exact ⟨p, honly hall, Or.inr rfl⟩
    · exact ⟨t, by rw [hsame hnil, htail], Or.inl ht⟩
  have hlevel := hlevels 0 le_rfl (by decide)
  rw [hnil] at hlevel
  obtain ⟨L₂, henqueue, hlevel', htail', hqueues, hlinks⟩ :=
    hlevel.enqueue_lost (p := p) hcount htail
  refine ⟨{ s.setTcb p { s.tcbs p with priority := 0 } with queues := L₂ }, ?_,
    ⟨h.scheduler, fun i hi hi' => ?_, ?_⟩, ⟨hnil, p, htail', fun hmem => ?_⟩, rfl⟩
  · have hsettles : Settles (fun n => changePriority (s.tcbs p).tid 0 n s) _ :=
      changePriority_settles hremove
    rw [scheduleThread_top henqueue] at hsettles
    exact hsettles
  · by_cases hi0 : i = 0
    · subst hi0
      rw [Function.update_self, hnil]
      exact hlevel'
    · rw [Function.update_of_ne hi0]
      apply (hlevels i hi hi').congr (hqueues _ (by simpa using hi0))
      intro r hr
      refine hlinks r ?_ ?_
      · rintro rfl
        exact houtside r ht i hi hi' hr
      · rintro rfl
        exact houtside r (Or.inr rfl) i hi hi' hr
  · rw [withoutThreads_levels]
    simp only [setTcb_priority_tid]
    exact h.tids.sublist (List.filter_sublist.map _)
  · obtain ⟨i, hi, hi', hpi⟩ := mem_mlpq.mp hmem
    exact houtside p (Or.inr rfl) i hi hi' hpi

end Steps

/-- The counts of the levels after so many threads have been moved to level 0. -/
def countsAfter (A : ℤ → List TcbPtr) (moved : ℕ) (i : ℤ) : ℕ :=
  (A i).length + if i = 0 then moved else 0

/-- The state in which the threads have been moved, with the levels that result. -/
structure Promoted (s₀ : State TcbLinks) (A : ℤ → List TcbPtr) (ps : List TcbPtr)
    (B : ℤ → List TcbPtr) (s : State TcbLinks) : Prop
    extends Promoting s B (countsAfter A ps.length) where
  tcbs : ∀ r, s.tcbs r = if r ∈ ps then { s₀.tcbs r with priority := 0 } else s₀.tcbs r

section Runs

variable {s s' s₀ : State TcbLinks} {A B B' : ℤ → List TcbPtr} {p : TcbPtr}
  {done ps : List TcbPtr} {m : ℕ}

theorem promoteLoop_run {I : List TcbPtr → State TcbLinks → Prop} (copy : TcbPtr → TcbCopy)
    {i : ℤ} (hstep : ∀ before p rest, done ++ ps = before ++ p :: rest → ∀ s, I before s → ∃ s',
      Settles (fun n => changePriority (copy p).tid 0 n s) (.ok s') ∧ I (before ++ [p]) s')
    (hs : I done s) (hi : i = done.length) : ∃ s',
      Settles (fun n => promoteLoop ((done ++ ps).map copy) n ps.length i s) (.ok s') ∧
        I (done ++ ps) s' := by
  induction ps generalizing done s i with
  | nil => exact ⟨s, Settles.const _, by simpa using hs⟩
  | cons p ps ih =>
    have hsplit : done ++ p :: ps = (done ++ [p]) ++ ps := by simp
    obtain ⟨s₁, hchange, hs₁⟩ := hstep done p ps rfl s hs
    rw [hsplit] at hstep
    obtain ⟨s', hrest, hs'⟩ := ih hstep hs₁ (i := i + 1) (by simp [hi])
    refine ⟨s', ?_, hsplit ▸ hs'⟩
    have hread : readAt ((done ++ p :: ps).map copy) i = .ok (copy p) := by
      rw [List.map_append, List.map_cons]
      exact readAt_append _ _ _ (by simpa using hi)
    simp only [List.length_cons, promoteLoop, hread, ok_bind]
    rw [hsplit]
    exact hchange.bind hrest

theorem withoutThreads_nil (A : ℤ → List TcbPtr) : withoutThreads [] A = A := by
  funext i
  simp [withoutThreads]

theorem movedToTop_nil (A : ℤ → List TcbPtr) : movedToTop [] A = A := by
  simp [movedToTop, withoutThreads_nil]

theorem countsAfter_succ (A : ℤ → List TcbPtr) (moved : ℕ) :
    Function.update (countsAfter A moved) 0 (countsAfter A moved 0 + 1) =
      countsAfter A (moved + 1) := by
  funext i
  by_cases hi : i = 0
  · subst hi
    simp [countsAfter, Nat.add_assoc]
  · simp [countsAfter, hi]

theorem Mlpq.promoted (h : Mlpq s A) : Promoted s A [] A s where
  scheduler := h.scheduler
  levels i hi hi' := by
    have hden := h.denotes i hi hi'
    exact ⟨hden.chain, fun _ => hden.tail, hden.size.trans (by simp [countsAfter]),
      Nat.le_add_right ..⟩
  tids := h.tids
  tcbs r := by simp

theorem Promoted.tid (h : Promoted s₀ A ps B s) (r : TcbPtr) :
    (s.tcbs r).tid = (s₀.tcbs r).tid := by
  rw [h.tcbs]
  split_ifs <;> rfl

theorem Promoted.snoc (h : Promoted s₀ A done B s)
    (h' : Promoting s' B' (Function.update (countsAfter A done.length) 0
      (countsAfter A done.length 0 + 1)))
    (htcbs : s'.tcbs = (s.setTcb p { s.tcbs p with priority := 0 }).tcbs) :
    Promoted s₀ A (done ++ [p]) B' s' where
  scheduler := h'.scheduler
  levels := by
    rw [List.length_append, List.length_singleton, ← countsAfter_succ]
    exact h'.levels
  tids := h'.tids
  tcbs r := by
    rw [htcbs]
    by_cases hr : r = p
    · subst hr
      have hold := h.tcbs r
      simp only [State.setTcb_tcbs, Function.update_self, List.mem_append, List.mem_singleton,
        or_true, if_true]
      rw [hold]
      split_ifs <;> rfl
    · simp [hr, h.tcbs r]

theorem Mlpq.promoteLoop_moves (h : Mlpq s A) (initialStartTime : TcbPtr → Timeval)
    (hps : ps.Nodup) (hmem : ∀ p ∈ ps, p ∈ A 0 ++ A 1 ++ A 2)
    (hkeep : ∀ p, ps.head? = some p → A 0 ≠ [p]) : ∃ s',
      Settles (fun n => promoteLoop (ps.map (s.copy initialStartTime)) n ps.length 0 s) (.ok s') ∧
        Promoted s A ps (movedToTop ps A) s' := by
  have hstart : Promoted s A [] (movedToTop [] A) s := by
    rw [movedToTop_nil]
    exact h.promoted
  refine promoteLoop_run (I := fun done s' => Promoted s A done (movedToTop done A) s')
    (s.copy initialStartTime) ?_ hstart rfl
  rintro before p rest rfl u hu
  have hlevel : ∀ r ∈ before, r ∈ movedToTop before A 0 := by
    intro r hr
    simp [movedToTop, hr]
  have hnot : p ∉ before := fun hp => (List.nodup_append.mp hps).2.2 p hp p (by simp) rfl
  have hperm := movedToTop_perm h.nodup (List.nodup_append.mp hps).1
    fun r hr => hmem r (List.mem_append_left _ hr)
  have hp := hperm.mem_iff.mpr (hmem p (by simp))
  have hkept : movedToTop before A 0 ≠ [p] ∧
      (movedToTop before A 0 = [] → countsAfter A before.length 0 = 0) := by
    cases before with
    | nil =>
      rw [movedToTop_nil]
      exact ⟨hkeep p rfl, fun hnil => by simp [countsAfter, hnil]⟩
    | cons x before =>
      have hx := hlevel x (by simp)
      constructor
      · intro hall
        rw [hall, List.mem_singleton] at hx
        simp [hx] at hnot
      · intro hnil
        rw [hnil] at hx
        cases hx
  obtain ⟨u', hchange, hmoved, htcbs⟩ := hu.moves hp hkept.1 hkept.2
  rw [movedToTop_append (by simpa using hnot)] at hmoved
  rw [hu.tid] at hchange
  exact ⟨u', hchange, hu.snoc hmoved htcbs⟩

theorem Mlpq.promoteLoop_loses (h : Mlpq s A) (initialStartTime : TcbPtr → Timeval)
    (hps : (p :: ps).Nodup) (hmem : ∀ r ∈ p :: ps, r ∈ A 0 ++ A 1 ++ A 2) (hall : A 0 = [p]) :
    ∃ s', Settles (fun n => promoteLoop ((p :: ps).map (s.copy initialStartTime)) n
        (p :: ps).length 0 s) (.ok s') ∧
      Promoted s A (p :: ps) (withoutThreads (p :: ps) A) s' := by
  have hstart : Promoted s A [] (withoutThreads [] A) s := by
    rw [withoutThreads_nil]
    exact h.promoted
  have hrun : ∃ s', Settles (fun n => promoteLoop (([] ++ p :: ps).map (s.copy initialStartTime)) n
      (p :: ps).length 0 s) (.ok s') ∧ Promoted s A ([] ++ p :: ps)
        (withoutThreads ([] ++ p :: ps) A) s' ∧
          ([] ++ p :: ps = [] ∨ Ghost s' (withoutThreads ([] ++ p :: ps) A)) := by
    refine promoteLoop_run (I := fun done s' => Promoted s A done (withoutThreads done A) s' ∧
      (done = [] ∨ Ghost s' (withoutThreads done A))) (s.copy initialStartTime)
      ?_ ⟨hstart, Or.inl rfl⟩ rfl
    rintro before q rest hsplit u ⟨hu, hghost⟩
    rw [List.nil_append] at hsplit
    rw [hsplit] at hps hmem
    have hnot : q ∉ before := fun hq => (List.nodup_append.mp hps).2.2 q hq q (by simp) rfl
    have hq : q ∈ withoutThreads before A 0 ++ withoutThreads before A 1 ++
        withoutThreads before A 2 := by
      rw [withoutThreads_levels, List.mem_filter]
      exact ⟨hmem q (by simp), by simpa using hnot⟩
    have hlost : withoutThreads before A 0 = [q] ∨ Ghost u (withoutThreads before A) := by
      refine hghost.imp_left fun hnil => ?_
      subst hnil
      obtain ⟨rfl, -⟩ := List.cons.inj hsplit
      rw [withoutThreads_nil, hall]
    have hcount : countsAfter A before.length 0 ≠ 0 := by simp [countsAfter, hall]
    obtain ⟨u', hchange, hgone, hghost', htcbs⟩ := hu.loses hq hlost hcount
    rw [withoutThreads_append] at hgone hghost'
    rw [hu.tid] at hchange
    exact ⟨u', hchange, hu.snoc hgone htcbs, Or.inr hghost'⟩
  obtain ⟨s', hloop, hpromoted, -⟩ := hrun
  exact ⟨s', hloop, hpromoted⟩

end Runs

section Maintenance

variable {s : State TcbLinks} {A : ℤ → List TcbPtr} {m : ℕ}

theorem exists_copied {initialStartTime : TcbPtr → Timeval} {oldest : List TcbCopy}
    (h : ∀ e ∈ oldest, ∃ p ∈ A 0 ++ A 1 ++ A 2, s.copy initialStartTime p = e) :
    ∃ ps : List TcbPtr, ps.map (s.copy initialStartTime) = oldest ∧
      ∀ p ∈ ps, p ∈ A 0 ++ A 1 ++ A 2 := by
  induction oldest with
  | nil => exact ⟨[], rfl, by simp⟩
  | cons e oldest ih =>
    obtain ⟨ps, hps, hmem⟩ := ih fun x hx => h x (List.mem_cons_of_mem e hx)
    obtain ⟨p, hp, rfl⟩ := h e List.mem_cons_self
    exact ⟨p :: ps, by rw [List.map_cons, hps], List.forall_mem_cons.mpr ⟨hp, hmem⟩⟩

theorem Promoting.inQueue_iff {B : ℤ → List TcbPtr} {count : ℤ → ℕ} (h : Promoting s B count)
    (p : TcbPtr) : (∃ i, 0 ≤ i ∧ i ≤ 2 ∧ InQueue s.queues (.level i) p) ↔
      p ∈ B 0 ++ B 1 ++ B 2 := by
  rw [mem_mlpq]
  refine exists_congr fun i => and_congr_right fun hi => and_congr_right fun hi' => ?_
  have hchain := (h.levels i hi hi').chain
  constructor
  · rintro ⟨l, hl, hp⟩
    rwa [hchain.unique hl]
  · exact fun hp => ⟨B i, hchain, hp⟩

/-- Where `scheduler_maintenance` chooses the oldest threads, it moves them to the end of level 0
and loses nobody, unless the first of them is the only thread of level 0: then it loses them
all. Their counts stay behind in the levels that they leave. -/
theorem maintenance_promotes (h : Mlpq s A) (initialStartTime : TcbPtr → Timeval)
    (hm : 1 ≤ m) (hn : m ≤ (A 0 ++ A 1 ++ A 2).length)
    (hfits : PivotFits (s.copies initialStartTime A) m) :
    ∃ (ps : List TcbPtr) (s' : State TcbLinks),
      ChoosesOldest s initialStartTime A m (ps.map (s.copy initialStartTime)) ∧
        Settles (fun n => schedulerMaintenance initialStartTime m n s) (.ok s') ∧
        Promoted s A ps (if A 0 = ps.take 1 then withoutThreads ps A else movedToTop ps A) s' ∧
        ((∀ p ∈ A 0 ++ A 1 ++ A 2, ∃ i, 0 ≤ i ∧ i ≤ 2 ∧ InQueue s'.queues (.level i) p) ↔
          A 0 ≠ ps.take 1) := by
  obtain ⟨oldest, hchooses⟩ := (oldestTcbArray_chooses_iff h initialStartTime hm hn).mpr hfits
  obtain ⟨ps, rfl, hmem⟩ := exists_copied hchooses.scheduled
  have hlength : ps.length = m := by simpa using hchooses.written
  have hnodup : ps.Nodup := hchooses.distinct.of_map.of_map
  have hmaintenance : ∀ s', Settles (fun n =>
      promoteLoop (ps.map (s.copy initialStartTime)) n ps.length 0 s) (.ok s') →
        Settles (fun n => schedulerMaintenance initialStartTime m n s) (.ok s') := by
    intro s' hloop
    rw [hlength] at hloop
    exact hchooses.settles.bind hloop
  by_cases hall : A 0 = ps.take 1
  · obtain ⟨p, rest, rfl⟩ := List.exists_cons_of_length_pos (hlength ▸ hm : 0 < ps.length)
    obtain ⟨s', hloop, hpromoted⟩ := h.promoteLoop_loses initialStartTime hnodup hmem hall
    refine ⟨p :: rest, s', hchooses, hmaintenance s' hloop, by rwa [if_pos hall], ?_⟩
    refine iff_of_false (fun hkept => ?_) (not_not.mpr hall)
    have hp := (hpromoted.inQueue_iff p).mp (hkept p (hmem p List.mem_cons_self))
    rw [withoutThreads_levels] at hp
    simp at hp
  · have hkeep : ∀ p, ps.head? = some p → A 0 ≠ [p] := by
      intro p hp hA
      obtain ⟨rest, rfl⟩ := List.head?_eq_some_iff.mp hp
      exact hall (by simpa using hA)
    obtain ⟨s', hloop, hpromoted⟩ := h.promoteLoop_moves initialStartTime hnodup hmem hkeep
    refine ⟨ps, s', hchooses, hmaintenance s' hloop, by rwa [if_neg hall], ?_⟩
    refine iff_of_true (fun p hp => (hpromoted.inQueue_iff p).mpr ?_) hall
    exact (movedToTop_perm h.nodup hnodup hmem).mem_iff.mpr hp

/-- Seven threads on level 0, of which the first two are to be promoted. -/
theorem maintenance_promotes_seven : ∃ (ps : List TcbPtr) (s' : State TcbLinks),
    Settles (fun n => schedulerMaintenance
      (fun p => if p = 1 then ⟨2, 0⟩ else if p = 2 then ⟨1, 0⟩ else ⟨p, 0⟩) 2 n sevenThreads)
        (.ok s') ∧ Promoted sevenThreads sevenLevels ps (movedToTop ps sevenLevels) s' := by
  obtain ⟨ps, s', -, hsettles, hpromoted, -⟩ := maintenance_promotes sevenThreads_mlpq
    (fun p => if p = 1 then ⟨2, 0⟩ else if p = 2 then ⟨1, 0⟩ else ⟨p, 0⟩) (m := 2) (by decide)
    (by decide) ((@pivotFits_iff_of_distinct _ [] _ _ (by decide) (by decide)).mpr (Or.inl rfl))
  have hmany : sevenLevels 0 ≠ ps.take 1 := by
    intro heq
    have hlength := List.length_take_le 1 ps
    rw [← heq] at hlength
    exact absurd hlength (by decide)
  rw [if_neg hmany] at hpromoted
  exact ⟨ps, s', hsettles, hpromoted⟩

/-- One thread on level 0, and a younger one on level 1. -/
def loneTop : State TcbLinks :=
  { State.initial
      ⟨fun q => if q = .level 0 then ⟨some 1, some 1, 1⟩
        else if q = .level 1 then ⟨some 2, some 2, 1⟩ else ⟨none, none, 0⟩, fun _ => none⟩
      (fun p => { zeroedTcb with tid := p }) with
    scheduler := true }

example : (schedulerMaintenance (fun p => ⟨p, 0⟩) 1 9 loneTop).map (fun s =>
    ((s.queues.queue (.level 0)).head, (s.queues.queue (.level 0)).size,
      (s.queues.queue (.level 1)).head)) = .ok (none, 2, some 2) := by decide +kernel

end Maintenance

end VirtualMemorySimulation.Scheduler

import VirtualMemorySimulation.Scheduler.Refinement

/-!
# Removing a thread and changing its priority

`get_and_remove_tcb` and `delete_tcb` take a control block out of the links of its
level. They never count the level down, and they leave the tail of a level whose
head they remove, so that no removal leaves a level well-formed; and a tid that is
not scheduled makes the functions that go on with the result dereference `NULL`.
-/

namespace VirtualMemorySimulation.Scheduler

open Execution LinkedQueue

/-- What is done at the control block found: its level gets a new head, or the one before it
becomes the tail or is linked to what follows. -/
def unlink (q : QueuePtr) (node : TcbPtr) (prev : Option TcbPtr) (L : TcbLinks) :
    Except Stop TcbLinks :=
  if some node = prev then
    .ok { L with queue := Function.update L.queue q { L.queue q with head := L.next node } }
  else
    match prev with
    | none => .error .nullDereference
    | some r =>
      if L.next node = none then
        .ok ⟨Function.update L.queue q { L.queue q with tail := some r },
          Function.update L.next r none⟩
      else .ok { L with next := Function.update L.next r (L.next node) }

/-- The inner loop of `get_and_remove_tcb`, with `tcb_node_prev` behind `tcb_node`. -/
def unlinkWalk (found : TcbPtr → Bool) (q : QueuePtr) :
    ℕ → Option TcbPtr → Option TcbPtr → TcbLinks → Except Stop (Option TcbPtr × TcbLinks)
  | 0, _, _, _ => .error .outOfFuel
  | _ + 1, none, _, L => .ok (none, L)
  | fuel + 1, some node, prev, L =>
    if found node then do
      let L ← unlink q node prev L
      .ok (some node, L)
    else unlinkWalk found q fuel (L.next node) (some node) L

def getAndRemoveLoop (found : TcbPtr → Bool) (fuel : ℕ) :
    List ℤ → TcbLinks → Except Stop (Option TcbPtr × TcbLinks)
  | [], L => .ok (none, L)
  | i :: levels, L => do
    let head := (L.queue (.level i)).head
    let (node, L) ← unlinkWalk found (.level i) fuel head head L
    match node with
    | some p => .ok (some p, L)
    | none => getAndRemoveLoop found fuel levels L

def getAndRemoveTcb (tid fuel : ℕ) (s : State TcbLinks) :
    Except Stop (Option TcbPtr × State TcbLinks) :=
  if s.scheduler then do
    let (node, queues) ←
      getAndRemoveLoop (fun p => (s.tcbs p).tid = tid) fuel [0, 1, 2] s.queues
    .ok (node, { s with queues })
  else .error .nullDereference

/-- `delete_tcb`: the same two loops; the deallocations after them read the control block and
leave the queues alone. -/
def deleteTcb (tid fuel : ℕ) (s : State TcbLinks) : Except Stop (State TcbLinks) := do
  let (node, s) ← getAndRemoveTcb tid fuel s
  match node with
  | some _ => .ok s
  | none => .error .nullDereference

def changePriority (tid : ℕ) (priority : ℤ) (fuel : ℕ) (s : State TcbLinks) :
    Except Stop (State TcbLinks) := do
  let (node, s) ← getAndRemoveTcb tid fuel s
  scheduleThread node priority s

/-- The levels of the multi-level priority queue are lists of threads with distinct tids. -/
structure Mlpq (s : State TcbLinks) (A : ℤ → List TcbPtr) : Prop where
  scheduler : s.scheduler = true
  denotes : ∀ i, 0 ≤ i → i ≤ 2 → (s.queues.queue (.level i)).Denotes s.queues.next (A i)
  tids : ((A 0 ++ A 1 ++ A 2).map fun p => (s.tcbs p).tid).Nodup

/-- The thread with the tid, and those before and after it in its level. -/
structure Located (s : State TcbLinks) (A : ℤ → List TcbPtr) (tid : ℕ) (i : ℤ)
    (pre : List TcbPtr) (p : TcbPtr) (post : List TcbPtr) : Prop where
  low : 0 ≤ i
  high : i ≤ 2
  split : A i = pre ++ p :: post
  tid : (s.tcbs p).tid = tid

def Absent (s : State TcbLinks) (A : ℤ → List TcbPtr) (tid : ℕ) : Prop :=
  ∀ p ∈ A 0 ++ A 1 ++ A 2, (s.tcbs p).tid ≠ tid

instance (s : State TcbLinks) (A : ℤ → List TcbPtr) (tid : ℕ) : Decidable (Absent s A tid) :=
  inferInstanceAs (Decidable (∀ p ∈ _, _))

/-- The thread goes to the tail of the level `priority`, and nothing else changes; a tid that
is not scheduled or a priority out of range leaves the state as it was. -/
structure ChangesPriority (s : State TcbLinks) (A : ℤ → List TcbPtr) (tid : ℕ) (priority : ℤ) :
    Prop where
  moves : ∀ i pre p post, Located s A tid i pre p post → 0 ≤ priority → priority ≤ 2 →
    ∃ s', Settles (fun n => changePriority tid priority n s) (.ok s') ∧
      Mlpq s' (Function.update (Function.update A i (pre ++ post)) priority
        (Function.update A i (pre ++ post) priority ++ [p]))
  stays : Absent s A tid ∨ priority < 0 ∨ 2 < priority →
    Settles (fun n => changePriority tid priority n s) (.ok s)

/-- A removed thread leaves its level as it was without it. -/
structure RemovesCleanly (s : State TcbLinks) (A : ℤ → List TcbPtr) (tid : ℕ) : Prop where
  getAndRemove : ∀ i pre p post, Located s A tid i pre p post →
    ∃ s', Settles (fun n => getAndRemoveTcb tid n s) (.ok (some p, s')) ∧
      Mlpq s' (Function.update A i (pre ++ post))
  delete : ∀ i pre p post, Located s A tid i pre p post →
    ∃ s', Settles (fun n => deleteTcb tid n s) (.ok s') ∧
      Mlpq s' (Function.update A i (pre ++ post))

section Walk

variable {L : TcbLinks} {q : QueuePtr} {found : TcbPtr → Bool} {p : TcbPtr}
  {pre post l : List TcbPtr}

/-- The walk comes to the first control block that passes the test. -/
theorem unlinkWalk_settles {node : Option TcbPtr} (prev : Option TcbPtr)
    (hl : Chain L.next node (pre ++ p :: post)) (hpre : ∀ r ∈ pre, ¬ found r) (hp : found p) :
    Settles (fun n => unlinkWalk found q n node prev L)
      ((unlink q p (pre.getLast?.or prev) L).map fun L' => (some p, L')) := by
  induction pre generalizing node prev with
  | nil =>
    cases hl
    refine Settles.succ rfl (fun n => ?_) (Settles.const _)
    rw [unlinkWalk, if_pos hp, List.getLast?_nil, Option.none_or]
    cases unlink q p prev L <;> rfl
  | cons x pre ih =>
    cases hl with
    | cons hrest =>
      have hlast : (x :: pre).getLast?.or prev = pre.getLast?.or (some x) := by
        cases pre <;> simp [List.getLast?_cons]
      rw [hlast]
      refine Settles.succ rfl (fun n => ?_) (ih (some x) hrest fun r hr => hpre r (by simp [hr]))
      rw [unlinkWalk, if_neg (hpre x (by simp))]

theorem unlinkWalk_absent {node : Option TcbPtr} (prev : Option TcbPtr)
    (hl : Chain L.next node l) (habsent : ∀ r ∈ l, ¬ found r) :
    Settles (fun n => unlinkWalk found q n node prev L) (.ok (none, L)) := by
  induction l generalizing node prev with
  | nil =>
    cases hl
    exact Settles.succ rfl (fun n => rfl) (Settles.const _)
  | cons x l ih =>
    cases hl with
    | cons hrest =>
      refine Settles.succ rfl (fun n => ?_) (ih (some x) hrest fun r hr => habsent r (by simp [hr]))
      rw [unlinkWalk, if_neg (habsent x (by simp))]

/-- What a removal makes of a queue: its chain is that of the others, and its count is one too
many. The tail is right unless the head was the only node. -/
structure Unlinked (q : QueuePtr) (pre : List TcbPtr) (p : TcbPtr) (post : List TcbPtr)
    (L L' : TcbLinks) : Prop where
  chain : Chain L'.next (L'.queue q).head (pre ++ post)
  size : (L'.queue q).size = (pre ++ post).length + 1
  tail : (L'.queue q).tail = if pre ++ post = [] then some p else (pre ++ post).getLast?
  queues : ∀ q', q' ≠ q → L'.queue q' = L.queue q'
  links : ∀ r ∉ pre, L'.next r = L.next r

theorem unlink_unlinked (hden : (L.queue q).Denotes L.next (pre ++ p :: post))
    (hnodup : (pre ++ p :: post).Nodup) : ∃ L',
      unlink q p (pre.getLast?.or (L.queue q).head) L = .ok L' ∧ Unlinked q pre p post L L' := by
  obtain ⟨hchain, htail, hsize⟩ := hden
  have hafter := hchain.after
  rcases List.eq_nil_or_concat pre with hnil | ⟨l, r, hconcat⟩
  · subst hnil
    have hhead : (L.queue q).head = some p := hchain.head_eq
    refine ⟨{ L with queue := Function.update L.queue q { L.queue q with head := L.next p } },
      ?_, ?_, ?_, ?_, fun q' hq' => ?_, fun r _ => rfl⟩
    · unfold unlink
      rw [List.getLast?_nil, Option.none_or, if_pos hhead.symm]
    · simpa using hafter
    · simpa using hsize
    · cases post <;> simp [htail, List.getLast?_cons]
    · exact Function.update_of_ne hq' _ _
  · rw [List.concat_eq_append] at hconcat
    subst hconcat
    rw [List.append_assoc, List.singleton_append] at hchain hnodup
    have hne : p ≠ r := by
      rintro rfl
      exact (List.nodup_cons.mp (List.nodup_append.mp hnodup).2.1).1 (by simp)
    have hunlinked := hchain.unlink hnodup
    cases post with
    | nil =>
      have hnone : L.next p = none := hafter.head_eq
      rw [hnone] at hunlinked
      refine ⟨⟨Function.update L.queue q { L.queue q with tail := some r },
        Function.update L.next r none⟩, ?_, ?_, ?_, ?_, fun q' hq' => ?_, fun x hx => ?_⟩
      · simp [unlink, hne, hnone]
      · simpa using hunlinked
      · simpa using hsize
      · simp
      · exact Function.update_of_ne hq' _ _
      · exact Function.update_of_ne (fun heq => hx (by simp [heq])) _ _
    | cons y post =>
      have hsome : L.next p = some y := hafter.head_eq
      refine ⟨{ L with next := Function.update L.next r (L.next p) }, ?_, ?_, ?_, ?_,
        fun q' hq' => rfl, fun x hx => ?_⟩
      · simp [unlink, hne, hsome]
      · simpa using hunlinked
      · simp only [List.length_append, List.length_cons] at hsize ⊢
        omega
      · simp [htail, List.getLast?_append, List.getLast?_cons]
      · exact Function.update_of_ne (fun heq => hx (by simp [heq])) _ _

end Walk

section Levels

variable {L : TcbLinks} {found : TcbPtr → Bool} {p : TcbPtr} {pre post : List TcbPtr}
  {A : ℤ → List TcbPtr}

theorem getAndRemoveLoop_absent {levels : List ℤ}
    (hden : ∀ i ∈ levels, (L.queue (.level i)).Denotes L.next (A i))
    (habsent : ∀ i ∈ levels, ∀ r ∈ A i, ¬ found r) :
    Settles (fun n => getAndRemoveLoop found n levels L) (.ok (none, L)) := by
  induction levels with
  | nil => exact Settles.const _
  | cons i levels ih =>
    apply (unlinkWalk_absent _ (hden i (by simp)).chain (habsent i (by simp))).bind
    exact ih (fun j hj => hden j (by simp [hj])) fun j hj => habsent j (by simp [hj])

theorem getAndRemoveLoop_unlinks {L' : TcbLinks} {before after : List ℤ} {i : ℤ}
    (hbefore : ∀ j ∈ before, Chain L.next (L.queue (.level j)).head (A j))
    (habsent : ∀ j ∈ before, ∀ r ∈ A j, ¬ found r)
    (hchain : Chain L.next (L.queue (.level i)).head (pre ++ p :: post))
    (hpre : ∀ r ∈ pre, ¬ found r) (hp : found p)
    (hunlink : unlink (.level i) p (pre.getLast?.or (L.queue (.level i)).head) L = .ok L') :
    Settles (fun n => getAndRemoveLoop found n (before ++ i :: after) L) (.ok (some p, L')) := by
  induction before with
  | nil =>
    have hwalk := unlinkWalk_settles (q := .level i) (L.queue (.level i)).head hchain hpre hp
    rw [hunlink] at hwalk
    exact hwalk.bind (Settles.const _)
  | cons j before ih =>
    have hloop := ih (fun k hk => hbefore k (by simp [hk])) fun k hk => habsent k (by simp [hk])
    exact (unlinkWalk_absent _ (hbefore j (by simp)) (habsent j (by simp))).bind hloop

end Levels

section Removal

variable {s : State TcbLinks} {A : ℤ → List TcbPtr} {tid : ℕ} {i j priority : ℤ} {p r : TcbPtr}
  {pre post : List TcbPtr}

theorem mem_mlpq : p ∈ A 0 ++ A 1 ++ A 2 ↔ ∃ i, 0 ≤ i ∧ i ≤ 2 ∧ p ∈ A i := by
  rw [List.mem_append, List.mem_append]
  constructor
  · rintro ((hp | hp) | hp)
    · exact ⟨0, by decide, by decide, hp⟩
    · exact ⟨1, by decide, by decide, hp⟩
    · exact ⟨2, by decide, by decide, hp⟩
  · rintro ⟨i, hlow, hhigh, hp⟩
    interval_cases i <;> simp [hp]

theorem level_nodup (h : (A 0 ++ A 1 ++ A 2).Nodup) (hlow : 0 ≤ i) (hhigh : i ≤ 2) :
    (A i).Nodup := by
  rw [List.nodup_append, List.nodup_append] at h
  interval_cases i
  · exact h.1.1
  · exact h.1.2.1
  · exact h.2.1

theorem levels_apart (h : (A 0 ++ A 1 ++ A 2).Nodup) (hi : 0 ≤ i ∧ i ≤ 2) (hj : 0 ≤ j ∧ j ≤ 2)
    (hp : p ∈ A i) (hp' : p ∈ A j) : i = j := by
  simp only [List.nodup_append, List.mem_append] at h
  obtain ⟨hlow, hhigh⟩ := hi
  obtain ⟨hlow', hhigh'⟩ := hj
  by_contra hne
  interval_cases i <;> interval_cases j <;> grind

theorem Mlpq.nodup (h : Mlpq s A) : (A 0 ++ A 1 ++ A 2).Nodup := h.tids.of_map _

theorem exists_located (habsent : ¬ Absent s A tid) :
    ∃ i pre p post, Located s A tid i pre p post := by
  unfold Absent at habsent
  push Not at habsent
  obtain ⟨p, hp, htid⟩ := habsent
  obtain ⟨i, hlow, hhigh, hp⟩ := mem_mlpq.mp hp
  obtain ⟨pre, post, hsplit⟩ := List.append_of_mem hp
  exact ⟨i, pre, p, post, hlow, hhigh, hsplit, htid⟩

theorem Located.mem (hl : Located s A tid i pre p post) : p ∈ A i := by
  rw [hl.split]
  simp

theorem Located.not_absent (hl : Located s A tid i pre p post) : ¬ Absent s A tid :=
  fun habsent => habsent p (mem_mlpq.mpr ⟨i, hl.low, hl.high, hl.mem⟩) hl.tid

theorem getAndRemoveTcb_absent (h : Mlpq s A) (habsent : Absent s A tid) :
    Settles (fun n => getAndRemoveTcb tid n s) (.ok (none, s)) := by
  have hmem : ∀ i ∈ [(0 : ℤ), 1, 2], 0 ≤ i ∧ i ≤ 2 := by decide
  simp only [getAndRemoveTcb, if_pos h.scheduler]
  apply (getAndRemoveLoop_absent (A := A) (fun i hi => h.denotes i (hmem i hi).1 (hmem i hi).2)
    fun i hi r hr => ?_).bind (Settles.const _)
  have htid := habsent r (mem_mlpq.mpr ⟨i, (hmem i hi).1, (hmem i hi).2, hr⟩)
  simpa using htid

/-- `get_and_remove_tcb` takes the thread out of its level, whatever the counts are. -/
theorem getAndRemoveTcb_unlinks {L' : TcbLinks} (hscheduler : s.scheduler = true)
    (hchains : ∀ j, 0 ≤ j → j ≤ 2 → Chain s.queues.next (s.queues.queue (.level j)).head (A j))
    (htids : ((A 0 ++ A 1 ++ A 2).map fun r => (s.tcbs r).tid).Nodup)
    (hl : Located s A tid i pre p post)
    (hunlink : unlink (.level i) p (pre.getLast?.or (s.queues.queue (.level i)).head) s.queues =
      .ok L') :
    Settles (fun n => getAndRemoveTcb tid n s) (.ok (some p, { s with queues := L' })) := by
  obtain ⟨before, after, hlevels, hbefore⟩ : ∃ before after, [(0 : ℤ), 1, 2] =
      before ++ i :: after ∧ ∀ j ∈ before, (0 ≤ j ∧ j ≤ 2) ∧ j ≠ i := by
    have hlow := hl.low
    have hhigh := hl.high
    interval_cases i
    · exact ⟨[], [1, 2], rfl, by decide⟩
    · exact ⟨[0], [2], rfl, by decide⟩
    · exact ⟨[0, 1], [], rfl, by decide⟩
  have hdistinct : (A 0 ++ A 1 ++ A 2).Nodup := htids.of_map _
  have hnodup := level_nodup hdistinct hl.low hl.high
  have hchain := hchains i hl.low hl.high
  rw [hl.split] at hnodup hchain
  -- no other thread passes the test
  have hother : ∀ j, 0 ≤ j ∧ j ≤ 2 → ∀ r ∈ A j, (s.tcbs r).tid = tid → r = p :=
    fun j hj r hr htid => List.inj_on_of_nodup_map htids (mem_mlpq.mpr ⟨j, hj.1, hj.2, hr⟩)
      (mem_mlpq.mpr ⟨i, hl.low, hl.high, hl.mem⟩) (htid.trans hl.tid.symm)
  have habsent : ∀ j ∈ before, ∀ r ∈ A j, (s.tcbs r).tid ≠ tid := by
    intro j hj r hr htid
    obtain rfl := hother j (hbefore j hj).1 r hr htid
    exact (hbefore j hj).2 (levels_apart hdistinct (hbefore j hj).1 ⟨hl.low, hl.high⟩ hr hl.mem)
  have hpre : ∀ r ∈ pre, (s.tcbs r).tid ≠ tid := by
    intro r hr htid
    have hmem : r ∈ A i := by
      rw [hl.split]
      simp [hr]
    obtain rfl := hother i ⟨hl.low, hl.high⟩ r hmem htid
    exact (List.nodup_append.mp hnodup).2.2 r hr r (by simp) rfl
  have hloop : Settles (fun n => getAndRemoveLoop (fun r => (s.tcbs r).tid = tid) n
      (before ++ i :: after) s.queues) (.ok (some p, L')) := by
    apply getAndRemoveLoop_unlinks (A := A) _ _ hchain _ _ hunlink
    · exact fun j hj => hchains j (hbefore j hj).1.1 (hbefore j hj).1.2
    · simpa using habsent
    · simpa using hpre
    · simpa using hl.tid
  simp only [getAndRemoveTcb, if_pos hscheduler, hlevels]
  exact hloop.bind (Settles.const _)

theorem getAndRemoveTcb_settles (h : Mlpq s A) (hl : Located s A tid i pre p post) : ∃ L',
    Settles (fun n => getAndRemoveTcb tid n s) (.ok (some p, { s with queues := L' })) ∧
      Unlinked (.level i) pre p post s.queues L' := by
  have hnodup := level_nodup h.nodup hl.low hl.high
  have hden := h.denotes i hl.low hl.high
  rw [hl.split] at hnodup hden
  obtain ⟨L', hunlink, hout⟩ := unlink_unlinked hden hnodup
  have hchains := fun j hlow hhigh => (h.denotes j hlow hhigh).chain
  exact ⟨L', getAndRemoveTcb_unlinks h.scheduler hchains h.tids hl hunlink, hout⟩

theorem Unlinked.size_ne {L L' : TcbLinks} (h : Unlinked (.level i) pre p post L L')
    {l : List TcbPtr} (hl : l.length = (pre ++ post).length) :
    (L'.queue (.level i)).size ≠ l.length := by
  rw [h.size, hl]
  omega

theorem scheduleThread_counts {s' : State TcbLinks} (hlow : 0 ≤ priority) (hhigh : priority ≤ 2)
    (hs : scheduleThread (some p) priority s = .ok s') :
    (s'.queues.queue (.level priority)).size = (s.queues.queue (.level priority)).size + 1 ∧
      ∀ q, q ≠ .level priority → s'.queues.queue q = s.queues.queue q := by
  have hrange : ¬ (priority < 0 ∨ numberLevels - 1 < priority) := by
    simp only [numberLevels]
    omega
  rw [scheduleThread, if_neg hrange] at hs
  obtain ⟨L', henq, heq⟩ := bind_eq_ok.mp hs
  cases heq
  exact Links.enqueue_counts henq

theorem scheduleThread_refused (hrange : priority < 0 ∨ 2 < priority) (node : Option TcbPtr) :
    scheduleThread node priority s = .ok s := by
  have hinvalid : priority < 0 ∨ numberLevels - 1 < priority := by
    simp only [numberLevels]
    omega
  unfold scheduleThread
  rw [if_pos hinvalid]

theorem changePriority_settles {node : Option TcbPtr} {s' : State TcbLinks}
    (h : Settles (fun n => getAndRemoveTcb tid n s) (.ok (node, s'))) :
    Settles (fun n => changePriority tid priority n s) (scheduleThread node priority s') := by
  have hbind : Settles
      (fun n => getAndRemoveTcb tid n s >>= fun r => scheduleThread r.1 priority r.2)
      (scheduleThread node priority s') := h.bind (Settles.const _)
  exact hbind.congr fun n => rfl

/-- A thread that is scheduled at a valid priority leaves the count of its old level too high. -/
theorem Located.not_moves (hl : Located s A tid i pre p post) (h : Mlpq s A) (hlow : 0 ≤ priority)
    (hhigh : priority ≤ 2) {s' : State TcbLinks}
    (hs : Settles (fun n => changePriority tid priority n s) (.ok s')) :
    ¬ Mlpq s' (Function.update (Function.update A i (pre ++ post)) priority
      (Function.update A i (pre ++ post) priority ++ [p])) := by
  intro hmlpq
  obtain ⟨L', hremove, hout⟩ := getAndRemoveTcb_settles h hl
  have hschedule := (changePriority_settles hremove).unique hs
  obtain ⟨hsize, hother⟩ := scheduleThread_counts hlow hhigh hschedule
  have hden := (hmlpq.denotes i hl.low hl.high).size
  by_cases heq : priority = i
  · subst heq
    rw [hsize] at hden
    simp only [Function.update_self, List.length_append, List.length_singleton] at hden
    have hcount := hout.size
    simp only [List.length_append] at hcount
    omega
  · have hqueue : QueuePtr.level i ≠ .level priority := by
      simpa using Ne.symm heq
    rw [hother _ hqueue, Function.update_of_ne (Ne.symm heq), Function.update_self] at hden
    exact hout.size_ne rfl hden

/-- A refused priority comes too late: the thread has been taken out. -/
theorem Located.not_stays (hl : Located s A tid i pre p post) (h : Mlpq s A)
    (hrange : priority < 0 ∨ 2 < priority) :
    ¬ Settles (fun n => changePriority tid priority n s) (.ok s) := by
  intro hs
  obtain ⟨L', hremove, hout⟩ := getAndRemoveTcb_settles h hl
  have hschedule := (changePriority_settles hremove).unique hs
  rw [scheduleThread_refused hrange] at hschedule
  have hlinks : L' = s.queues := congrArg State.queues (Except.ok.inj hschedule)
  have hchain := hout.chain
  rw [hlinks] at hchain
  have hlists := hchain.unique (h.denotes i hl.low hl.high).chain
  have hlength := congrArg List.length hlists
  simp only [hl.split, List.length_append, List.length_cons] at hlength
  omega

theorem changesPriority_absent_iff (h : Mlpq s A) : ChangesPriority s A tid priority ↔
    Absent s A tid ∧ (priority < 0 ∨ 2 < priority) := by
  constructor
  · intro hc
    have habsent : Absent s A tid := by
      by_contra hpresent
      obtain ⟨i, pre, p, post, hl⟩ := exists_located hpresent
      by_cases hrange : priority < 0 ∨ 2 < priority
      · exact hl.not_stays h hrange (hc.stays (.inr hrange))
      · have hlow : 0 ≤ priority := by omega
        have hhigh : priority ≤ 2 := by omega
        obtain ⟨s', hs, hmlpq⟩ := hc.moves i pre p post hl hlow hhigh
        exact hl.not_moves h hlow hhigh hs hmlpq
    refine ⟨habsent, ?_⟩
    by_contra hrange
    -- `schedule_thread` writes the priority of the thread that was not found
    have hnull : scheduleThread none priority s = .error .nullDereference := by
      rw [scheduleThread, if_neg (by simp only [numberLevels]; omega)]
    have hstops := (changePriority_settles (getAndRemoveTcb_absent h habsent)).unique
      (hc.stays (.inl habsent))
    rw [hnull] at hstops
    cases hstops
  · rintro ⟨habsent, hrange⟩
    constructor
    · intro i pre p post hl
      exact absurd habsent hl.not_absent
    · intro _
      rw [← scheduleThread_refused hrange none]
      exact changePriority_settles (getAndRemoveTcb_absent h habsent)

theorem removesCleanly_absent_iff (h : Mlpq s A) :
    RemovesCleanly s A tid ↔ Absent s A tid := by
  constructor
  · intro hr
    by_contra hpresent
    obtain ⟨i, pre, p, post, hl⟩ := exists_located hpresent
    obtain ⟨L', hremove, hout⟩ := getAndRemoveTcb_settles h hl
    obtain ⟨s', hs, hmlpq⟩ := hr.getAndRemove i pre p post hl
    have heq := hremove.unique hs
    obtain rfl := congrArg Prod.snd (Except.ok.inj heq)
    have hden := (hmlpq.denotes i hl.low hl.high).size
    rw [Function.update_self] at hden
    exact hout.size_ne rfl hden
  · intro habsent
    constructor
    · intro i pre p post hl
      exact absurd habsent hl.not_absent
    · intro i pre p post hl
      exact absurd habsent hl.not_absent

/-- Changing a priority and removing a thread, on every well-formed multi-level queue: the
first is right exactly where it must do nothing, the second only where there is nothing to
remove. -/
theorem changePriority_keeps_iff (h : Mlpq s A) (tid : ℕ) (priority : ℤ) :
    (ChangesPriority s A tid priority ↔ Absent s A tid ∧ (priority < 0 ∨ 2 < priority)) ∧
      (RemovesCleanly s A tid ↔ Absent s A tid) := by
  constructor
  · exact changesPriority_absent_iff h
  · exact removesCleanly_absent_iff h

end Removal

section Runs

/-- Two threads on level 0 and one on level 1. -/
def threeThreads : State TcbLinks :=
  { State.initial
      ⟨fun q => if q = .level 0 then ⟨some 1, some 2, 2⟩
        else if q = .level 1 then ⟨some 3, some 3, 1⟩ else ⟨none, none, 0⟩,
        fun p => if p = 1 then some 2 else none⟩
      (fun p => { zeroedTcb with tid := p }) with
    scheduler := true }

def threeLevels (i : ℤ) : List TcbPtr := if i = 0 then [1, 2] else if i = 1 then [3] else []

theorem threeThreads_mlpq : Mlpq threeThreads threeLevels := by
  refine ⟨rfl, fun i hlow hhigh => ?_, by decide⟩
  interval_cases i
  · exact ⟨.cons (.cons .nil), rfl, rfl⟩
  · exact ⟨.cons .nil, rfl, rfl⟩
  · exact ⟨.nil, rfl, rfl⟩

theorem changePriority_keeps_iff_three : ChangesPriority threeThreads threeLevels 4 3 ∧
    ¬ ChangesPriority threeThreads threeLevels 4 2 ∧
    ¬ ChangesPriority threeThreads threeLevels 1 3 ∧ ¬ RemovesCleanly threeThreads threeLevels 2 := by
  have habsent : Absent threeThreads threeLevels 4 := by decide
  refine ⟨?_, fun h => ?_, fun h => ?_, fun h => ?_⟩
  · exact (changePriority_keeps_iff threeThreads_mlpq 4 3).1.mpr ⟨habsent, by decide⟩
  · exact absurd ((changePriority_keeps_iff threeThreads_mlpq 4 2).1.mp h).2 (by decide)
  · exact absurd ((changePriority_keeps_iff threeThreads_mlpq 1 3).1.mp h).1 (by decide)
  · exact absurd ((changePriority_keeps_iff threeThreads_mlpq 2 0).2.mp h) (by decide)

/-- The only thread of level 1 goes to level 0: level 1 still counts it and ends with it, but
its head is null. -/
theorem changePriority_leaves_count :
    Located threeThreads threeLevels 3 1 [] 3 [] ∧
    ((changePriority 3 0 4 threeThreads).map fun s =>
      ((s.queues.queue (.level 1)).head, (s.queues.queue (.level 1)).tail,
        (s.queues.queue (.level 1)).size)) = .ok (none, some 3, 1) ∧
    ¬ ChangesPriority threeThreads threeLevels 3 0 ∧ ¬ RemovesCleanly threeThreads threeLevels 3 := by
  have hpresent : ¬ Absent threeThreads threeLevels 3 := by decide
  refine ⟨⟨by decide, by decide, rfl, rfl⟩, rfl, fun h => ?_, fun h => ?_⟩
  · exact hpresent ((changesPriority_absent_iff threeThreads_mlpq).mp h).1
  · exact hpresent ((removesCleanly_absent_iff threeThreads_mlpq).mp h)

end Runs

end VirtualMemorySimulation.Scheduler

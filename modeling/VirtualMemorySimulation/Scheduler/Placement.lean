import VirtualMemorySimulation.Scheduler.RoundRobin

/-!
# Where threads are

The invariant that every call and every signal keeps, whatever the interleaving:
queued control blocks belong to created threads and are in one place, only level 0
is in use, and the thread on the processor is the one that `current_tcb` names.
-/

namespace VirtualMemorySimulation.Scheduler

open Execution LinkedQueue

section Contexts

variable {t : State TcbLists}

theorem created_contextOf_of_ne {p : TcbPtr} (hp : p ≠ t.frontier) (tid : ℕ) (context : Context) :
    (t.created tid context).contextOf p = t.contextOf p := by
  unfold State.contextOf
  rw [created_tcb_of_ne hp]
  rfl

theorem created_contextOf_frontier (h : t.cpu.owner ≠ t.frontier) (tid : ℕ) (context : Context) :
    (t.created tid context).contextOf t.frontier = context := by
  have howner : (t.created tid context).cpu.owner ≠ t.frontier := h
  rw [contextOf_eq_tcb howner, created_tcb_frontier]

end Contexts

structure Placed (t : State TcbLists) : Prop where
  distinct : t.queues.Distinct
  known : ∀ q, ∀ p ∈ t.queues q, p ∈ t.threads
  level : ∀ i, ∀ p ∈ t.queues (.level i), i = 0
  allocated : ∀ p ∈ t.threads, p < t.frontier
  nodup : t.threads.Nodup
  priority : ∀ p ∈ t.threads, (t.tcbs p).priority = 0
  noYield : ∀ p ∈ t.threads, (t.tcbs p).state ≠ .yield
  owner : ∀ p ∈ t.threads, (t.contextOf p).owner = p
  current : ∀ p, t.currentTcb = some p → p ∈ t.threads ∧ t.cpu.owner = p
  running : t.threads ≠ [] → t.cpu.owner ∈ t.threads
  afterUnlock : t.afterUnlockPriority = -1 ∨ t.afterUnlockPriority = 0
  waits : ∀ m, t.mutexes m = none → t.queues (.wait m) = []
  started : t.schedulerInit = false → t.threads = []

namespace Placed

variable {t t' : State TcbLists} {p cur : TcbPtr} {l : List TcbPtr}

theorem initial (storage : TcbPtr → Tcb) : Placed (State.initial noLists storage) where
  distinct := noLinks_agrees.distinct
  known _ p hp := absurd hp List.not_mem_nil
  level _ p hp := absurd hp List.not_mem_nil
  allocated p hp := absurd hp List.not_mem_nil
  nodup := .nil
  priority p hp := absurd hp List.not_mem_nil
  noYield p hp := absurd hp List.not_mem_nil
  owner p hp := absurd hp List.not_mem_nil
  current p hp := by cases hp
  running h := absurd rfl h
  afterUnlock := Or.inl rfl
  waits _ _ := rfl
  started _ := rfl

theorem levels (h : Placed t) {i : ℤ} (hi : i ≠ 0) : t.queues (.level i) = [] :=
  List.eq_nil_iff_forall_not_mem.mpr fun p hp => hi (h.level i p hp)

theorem oneLevel (h : Placed t) : OneLevel t :=
  ⟨fun _ hi => h.levels hi, fun p hp => h.priority p (h.known _ p hp),
    fun p hp => h.noYield p (h.known _ p hp)⟩

theorem fresh (h : Placed t) : Allocated t := fun q p hp => h.allocated p (h.known q p hp)

theorem of_frame (h : Placed t) (hf : Frame t t')
    (hcurrent : ∀ p, t'.currentTcb = some p → p ∈ t.threads ∧ t'.cpu.owner = p)
    (hrunning : t.threads ≠ [] → t'.cpu.owner ∈ t.threads)
    (hafter : t'.afterUnlockPriority = -1 ∨ t'.afterUnlockPriority = 0) : Placed t' where
  distinct := h.distinct.of_perm hf.queues
  known q p hp := hf.threads ▸ h.known q p ((hf.queues q).mem_iff.mp hp)
  level i p hp := h.level i p ((hf.queues _).mem_iff.mp hp)
  allocated := by
    rw [hf.threads, hf.frontier]
    exact h.allocated
  nodup := hf.threads ▸ h.nodup
  priority p hp := ((hf.tcbs p).priority).trans (h.priority p (hf.threads ▸ hp))
  noYield p hp := (hf.tcbs p).noYield (h.noYield p (hf.threads ▸ hp))
  owner p hp := by
    rw [hf.context]
    exact h.owner p (hf.threads ▸ hp)
  current := by rwa [hf.threads]
  running := by rwa [hf.threads]
  afterUnlock := hafter
  waits m hm := by
    have hnil := h.waits m (hf.mutexes ▸ hm)
    exact List.perm_nil.mp (hnil ▸ hf.queues (.wait m))
  started hs := by
    rw [hf.threads]
    exact h.started (hf.schedulerInit ▸ hs)

theorem withCpu (h : Placed t) {cpu : Context} (hcpu : cpu.owner = t.cpu.owner) :
    Placed { t with cpu } where
  distinct := h.distinct
  known := h.known
  level := h.level
  allocated := h.allocated
  nodup := h.nodup
  priority := h.priority
  noYield := h.noYield
  owner p hp := by
    have howner := h.owner p hp
    unfold State.contextOf at howner ⊢
    rw [hcpu]
    split_ifs at howner ⊢ with hp'
    · exact hcpu.trans hp'
    · exact howner
  current p hp := ⟨(h.current p hp).1, hcpu.trans (h.current p hp).2⟩
  running hne := hcpu ▸ h.running hne
  afterUnlock := h.afterUnlock
  waits := h.waits
  started := h.started

theorem interrupt (h : Placed t) : Placed t.interrupt := h.withCpu rfl

theorem setTcb (h : Placed t) {tcb : Tcb} (hprio : tcb.priority = (t.tcbs p).priority)
    (hcontext : tcb.context = (t.tcbs p).context)
    (hyield : (t.tcbs p).state ≠ .yield → tcb.state ≠ .yield) : Placed (t.setTcb p tcb) := by
  have hother : ∀ r, r = p ∧ (t.setTcb p tcb).tcbs r = tcb ∨
      r ≠ p ∧ (t.setTcb p tcb).tcbs r = t.tcbs r := by
    intro r
    by_cases hr : r = p
    · exact Or.inl ⟨hr, hr ▸ Function.update_self ..⟩
    · exact Or.inr ⟨hr, Function.update_of_ne hr ..⟩
  refine { h with priority := ?_, noYield := ?_, owner := ?_ }
  · intro r hr
    rcases hother r with ⟨rfl, heq⟩ | ⟨-, heq⟩
    · rw [heq, hprio]
      exact h.priority _ hr
    · rw [heq]
      exact h.priority _ hr
  · intro r hr
    rcases hother r with ⟨rfl, heq⟩ | ⟨-, heq⟩
    · rw [heq]
      exact hyield (h.noYield _ hr)
    · rw [heq]
      exact h.noYield _ hr
  · intro r hr
    have howner := h.owner r hr
    unfold State.contextOf at howner ⊢
    split_ifs at howner ⊢ with hcpu hcpu' hcpu'
    · exact howner
    · exact absurd hcpu hcpu'
    · exact absurd hcpu' hcpu
    · rcases hother r with ⟨rfl, heq⟩ | ⟨-, heq⟩
      · rwa [heq, hcontext]
      · rwa [heq]

theorem withMutex (h : Placed t) (m : MutexPtr) (s : MutexState) :
    Placed { t with mutexes := Function.update t.mutexes m (some s) } := by
  refine { h with waits := fun m' hm' => ?_ }
  dsimp only at hm'
  by_cases hm : m' = m
  · subst hm
    simp at hm'
  · rw [Function.update_of_ne hm] at hm'
    exact h.waits m' hm'

theorem withQueues (h : Placed t) {queues : TcbLists} (hdistinct : queues.Distinct)
    (hknown : ∀ q, ∀ p ∈ queues q, p ∈ t.threads)
    (hlevel : ∀ i, ∀ p ∈ queues (.level i), i = 0)
    (hwaits : ∀ m, t.mutexes m = none → queues (.wait m) = []) : Placed { t with queues } :=
  { h with distinct := hdistinct, known := hknown, level := hlevel, waits := hwaits }

theorem enqueued (h : Placed t) {q : QueuePtr} (hlevel : ∀ i, q = .level i → i = 0)
    (hwait : ∀ m, q = .wait m → t.mutexes m ≠ none) (hp : p ∈ t.threads) (hun : Unqueued t p) :
    Placed { t with queues := t.queues.set q (t.queues q ++ [p]) } := by
  apply h.withQueues (h.distinct.enqueue hun)
  · intro q' r hr
    rcases Lists.mem_enqueue.mp hr with hr | ⟨-, rfl⟩
    · exact h.known q' r hr
    · exact hp
  · intro i r hr
    rcases Lists.mem_enqueue.mp hr with hr | ⟨hq, -⟩
    · exact h.level i r hr
    · exact hlevel i hq.symm
  · intro m hm
    rw [Lists.set_of_ne fun heq => hwait m heq.symm hm]
    exact h.waits m hm

theorem scheduled (h : Placed t) (hp : p ∈ t.threads) (hun : Unqueued t p) :
    Placed (t.scheduled p) := by
  rw [scheduled_eq (h.priority p hp)]
  exact h.enqueued (fun i heq => (QueuePtr.level.inj heq).symm) (fun m heq => by cases heq) hp hun

theorem dequeued (h : Placed t) {q : QueuePtr} (hq : t.queues q = p :: l) :
    Placed { t with queues := t.queues.set q l } ∧
      Unqueued { t with queues := t.queues.set q l } p := by
  have hmem : ∀ q' r, r ∈ (t.queues.set q l) q' ↔ r ∈ t.queues q' ∧ r ≠ p :=
    fun q' r => h.distinct.mem_dequeue hq
  refine ⟨h.withQueues (h.distinct.dequeue hq) ?_ ?_ ?_, ?_⟩
  · exact fun q' r hr => h.known q' r ((hmem q' r).mp hr).1
  · exact fun i r hr => h.level i r ((hmem _ r).mp hr).1
  · intro m hm
    have hnil := h.waits m hm
    refine List.eq_nil_iff_forall_not_mem.mpr fun r hr => ?_
    have := ((hmem _ r).mp hr).1
    simp [hnil] at this
  · exact fun q' hp => ((hmem q' p).mp hp).2 rfl

theorem parked (h : Placed t) {m : MutexPtr} (hm : t.mutexes m ≠ none) (hp : p ∈ t.threads)
    (hun : Unqueued t p) :
    Placed { t with queues := t.queues.set (.wait m) (t.queues (.wait m) ++ [p]) } := by
  apply h.enqueued (fun i heq => by cases heq) (fun m' heq => ?_) hp hun
  obtain rfl := QueuePtr.wait.inj heq
  exact hm

theorem queues_nil (h : Placed t) (hnone : t.threads = []) (q : QueuePtr) : t.queues q = [] := by
  refine List.eq_nil_iff_forall_not_mem.mpr fun p hp => ?_
  have := h.known q p hp
  simp [hnone] at this

theorem initScheduler_eq (h : Placed t) (hnone : t.threads = []) :
    initScheduler t = { t with scheduler := true, currentTcb := none } := by
  have hset : ∀ q, t.queues.set q [] = t.queues := by
    intro q
    rw [← h.queues_nil hnone q]
    exact Lists.set_eq_self ..
  change ({ t with
    scheduler := true
    queues := ((t.queues.set (.level 0) []).set (.level 1) []).set (.level 2) []
    currentTcb := none } : State TcbLists) = _
  rw [hset, hset, hset]

theorem initScheduler (h : Placed t) (hnone : t.threads = []) : Placed (initScheduler t) := by
  rw [h.initScheduler_eq hnone]
  exact { h with current := fun p hp => by cases hp }

theorem allocateTcb (h : Placed t) (tid : ℕ) : Placed (t.allocateTcb tid) := by
  have hne : ∀ p ∈ t.threads, p ≠ t.frontier := fun p hp => (h.allocated p hp).ne
  have htcb : ∀ p ∈ t.threads, (t.allocateTcb tid).tcbs p = t.tcbs p :=
    fun p hp => Function.update_of_ne (hne p hp) ..
  refine { h with allocated := ?_, priority := ?_, noYield := ?_, owner := ?_ }
  · exact fun p hp => Nat.lt_succ_of_lt (h.allocated p hp)
  · intro p hp
    rw [htcb p hp]
    exact h.priority p hp
  · intro p hp
    rw [htcb p hp]
    exact h.noYield p hp
  · intro p hp
    have howner := h.owner p hp
    unfold State.contextOf at howner ⊢
    rw [htcb p hp]
    exact howner

theorem created (h : Placed t) (hinit : t.schedulerInit = true) (tid : ℕ) (context cpu : Context)
    (currentTcb : Option TcbPtr) (howner : ∀ p ∈ t.threads ++ [t.frontier],
      ({ t.created tid context with currentTcb, cpu }.contextOf p).owner = p)
    (hcurrent : ∀ p, currentTcb = some p → p ∈ t.threads ++ [t.frontier] ∧ cpu.owner = p)
    (hrunning : cpu.owner ∈ t.threads ++ [t.frontier]) :
    Placed { t.created tid context with currentTcb, cpu } where
  distinct := h.distinct.enqueue fun q hq => (h.fresh q _ hq).false
  known q p hp := by
    rcases Lists.mem_enqueue.mp hp with hp | ⟨-, rfl⟩
    · exact List.mem_append_left _ (h.known q p hp)
    · exact List.mem_append_right _ (List.mem_singleton_self _)
  level i p hp := by
    rcases Lists.mem_enqueue.mp hp with hp | ⟨hq, -⟩
    · exact h.level i p hp
    · exact QueuePtr.level.inj hq
  allocated p hp := by
    rcases List.mem_append.mp hp with hp | hp
    · exact Nat.lt_succ_of_lt (h.allocated p hp)
    · rw [List.mem_singleton.mp hp]
      exact Nat.lt_succ_self _
  nodup := by
    refine List.nodup_append.mpr ⟨h.nodup, List.nodup_singleton _, fun p hp r hr => ?_⟩
    rw [List.mem_singleton.mp hr]
    exact (h.allocated p hp).ne
  priority p hp := by
    rcases List.mem_append.mp hp with hp | hp
    · exact (congrArg Tcb.priority (created_tcb_of_ne (h.allocated p hp).ne ..)).trans
        (h.priority p hp)
    · rw [List.mem_singleton.mp hp]
      exact congrArg Tcb.priority (created_tcb_frontier t tid context)
  noYield p hp := by
    change ((t.created tid context).tcbs p).state ≠ .yield
    rcases List.mem_append.mp hp with hp | hp
    · rw [created_tcb_of_ne (h.allocated p hp).ne]
      exact h.noYield p hp
    · rw [List.mem_singleton.mp hp, created_tcb_frontier]
      simp
  owner := howner
  current := hcurrent
  running _ := hrunning
  afterUnlock := h.afterUnlock
  waits m hm := by
    have hne : QueuePtr.wait m ≠ .level 0 := by simp
    exact (Lists.set_of_ne hne).trans (h.waits m hm)
  started hs := by cases hinit.symm.trans hs

theorem withMain (h : Placed t) (hinit : t.schedulerInit = true) (hnone : t.threads = []) :
    Placed t.withMain := by
  refine h.created hinit t.tid _ { t.cpu with owner := t.frontier } _ ?_ ?_ (by simp)
  · intro p hp
    obtain rfl : p = t.frontier := by simpa [hnone] using hp
    simp [State.contextOf]
  · rintro p ⟨⟩
    exact ⟨by simp, rfl⟩

theorem withNode (h : Placed t) (routine : Routine) (hinit : t.schedulerInit = true)
    (hsome : t.threads ≠ []) :
    Placed (t.withNode routine) := by
  have hrunning := h.running hsome
  have hcreated : Placed (t.created (t.tid + 1) ⟨t.frontier, .start routine, []⟩) := by
    refine h.created hinit _ _ t.cpu t.currentTcb (fun p hp => ?_) (fun p hp => ?_)
      (List.mem_append_left _ hrunning)
    · change ((t.created (t.tid + 1) ⟨t.frontier, .start routine, []⟩).contextOf p).owner = p
      rcases List.mem_append.mp hp with hp | hp
      · rw [created_contextOf_of_ne (h.allocated p hp).ne]
        exact h.owner p hp
      · rw [List.mem_singleton.mp hp, created_contextOf_frontier (h.allocated _ hrunning).ne]
    · exact ⟨List.mem_append_left _ (h.current p hp).1, (h.current p hp).2⟩
  exact { hcreated with }

end Placed

section Effects

variable {t t' : State TcbLists} {m : MutexPtr} {ok : Bool}

/-- The state in which `my_pthread_create` looks at `TID`. -/
def State.begun (t : State TcbLists) : State TcbLists :=
  if t.schedulerInit then t else initScheduler { t with schedulerInit := true }

/-- The state after the calling context has been taken in, if need be. -/
inductive Entered (t : State TcbLists) : State TcbLists → Prop
  | first : t.tid = 0 → Entered t t.withMain
  | later : t.tid ≠ 0 → Entered t t

/-- What `my_pthread_create` can lead to once the scheduler is there. -/
inductive Creates (t : State TcbLists) : Bool → State TcbLists → Prop
  | mainFails : t.tid = 0 → Creates t false (t.allocateTcb t.tid)
  | nodeFails {u : State TcbLists} : Entered t u → Creates t false (u.allocateTcb (u.tid + 1))
  | node {u : State TcbLists} {routine : Routine} : Entered t u →
      Creates t true (u.withNode routine)

theorem createThreads_creates {mainContext nodeContext : Bool} {routine : Routine}
    (h : createThreads mainContext nodeContext routine t = .ok (ok, t')) : Creates t ok t' := by
  have hnode : ∀ {u}, Entered t u → createNode nodeContext routine u = .ok (ok, t') →
      Creates t ok t' := by
    intro u hu hn
    rw [createNode_lists] at hn
    obtain ⟨rfl, rfl⟩ := hn
    cases ok with
    | false => exact .nodeFails hu
    | true => exact .node hu
  unfold createThreads at h
  split_ifs at h with htid
  · rw [createMain_lists] at h
    cases mainContext with
    | false =>
      obtain ⟨rfl, rfl⟩ := h
      exact .mainFails htid
    | true => exact hnode (.first htid) h
  · exact hnode (.later htid) h

theorem myPthreadCreate_creates {mainContext nodeContext : Bool} {routine : Routine}
    (h : myPthreadCreate mainContext nodeContext routine t = .ok (ok, t')) : Creates t.begun ok t' :=
  createThreads_creates h

theorem testAndSet_ok {σ : Type} {s s' : State σ} {found : MutexState}
    (h : testAndSet m s = .ok (found, s')) : s.mutexes m = some found ∧
      s' = { s with mutexes := Function.update s.mutexes m (some .locked) } := by
  unfold testAndSet at h
  cases hm : s.mutexes m with
  | none => simp [hm] at h
  | some s =>
    rw [hm] at h
    obtain ⟨rfl, rfl⟩ := h
    exact ⟨rfl, rfl⟩

theorem release_ok {σ : Type} {s s' : State σ} (h : release m s = .ok s') :
    s.mutexes m ≠ none ∧
      s' = { s with mutexes := Function.update s.mutexes m (some .unlocked) } := by
  unfold release at h
  cases hm : s.mutexes m with
  | none => simp [hm] at h
  | some s =>
    rw [hm] at h
    exact ⟨by simp, (Except.ok.inj h).symm⟩

theorem dequeue_lists {q : QueuePtr} {node : Option TcbPtr} {queues : TcbLists}
    (h : QueueStore.dequeue q t.queues = .ok (node, queues)) :
    node = none ∧ queues = t.queues ∧ t.queues q = [] ∨
      ∃ p l, node = some p ∧ t.queues q = p :: l ∧ queues = t.queues.set q l := by
  change Lists.dequeue q t.queues = _ at h
  unfold Lists.dequeue at h
  cases hq : t.queues q with
  | nil =>
    rw [hq] at h
    obtain ⟨rfl, rfl⟩ := h
    exact Or.inl ⟨rfl, rfl, rfl⟩
  | cons p l =>
    rw [hq] at h
    obtain ⟨rfl, rfl⟩ := h
    exact Or.inr ⟨p, l, rfl, rfl, rfl⟩

/-- The head of the level comes to the wait queue; an empty level is a null dereference. -/
theorem moveHead_ok {priority : ℤ} (h : moveHead m priority t = .ok t') :
    ∃ p l, t.queues (.level priority) = p :: l ∧
      t' = { t with queues := t.queues.move (.level priority) (.wait m) p l } := by
  obtain ⟨⟨node, queues⟩, hdeq, h⟩ := bind_eq_ok.mp h
  rcases dequeue_lists hdeq with ⟨rfl, -, -⟩ | ⟨p, l, rfl, hq, rfl⟩
  · cases h
  · exact ⟨p, l, hq, (Except.ok.inj h).symm⟩

/-- A pass of the lock loop acquires the mutex or blocks the head of the level. -/
theorem lockPass_ok {priority : ℤ} (h : lockPass m priority t = .ok t') :
    t.mutexes m = some .unlocked ∧
        t' = { t with mutexes := Function.update t.mutexes m (some .locked) } ∨
      t.mutexes m = some .locked ∧ ∃ p l, t.queues (.level priority) = p :: l ∧
        t' = { t with
          mutexes := Function.update t.mutexes m (some .locked)
          queues := t.queues.move (.level priority) (.wait m) p l } := by
  obtain ⟨⟨found, u⟩, htas, h⟩ := bind_eq_ok.mp h
  obtain ⟨hm, rfl⟩ := testAndSet_ok htas
  cases found with
  | unlocked => exact Or.inl ⟨hm, (Except.ok.inj h).symm⟩
  | locked =>
    obtain ⟨p, l, hq, rfl⟩ := moveHead_ok h
    exact Or.inr ⟨hm, p, l, hq, rfl⟩

theorem dequeueWaiter_ok {node : Option TcbPtr} (h : dequeueWaiter m t = .ok (node, t')) :
    node = none ∧ t' = t ∧ t.queues (.wait m) = [] ∨
      ∃ p l, node = some p ∧ t.queues (.wait m) = p :: l ∧
        t' = { t with queues := t.queues.set (.wait m) l } := by
  obtain ⟨⟨node', queues⟩, hdeq, h⟩ := bind_eq_ok.mp h
  obtain ⟨rfl, rfl⟩ := h
  rcases dequeue_lists hdeq with ⟨rfl, rfl, hq⟩ | ⟨p, l, rfl, hq, rfl⟩
  · exact Or.inl ⟨rfl, rfl, hq⟩
  · exact Or.inr ⟨p, l, rfl, hq, rfl⟩

theorem scheduleWaiter_ok {node : Option TcbPtr} (h : scheduleWaiter node t = .ok t') :
    node = none ∧ t' = t ∨ ∃ p, node = some p ∧ t' = t.scheduled p := by
  cases node with
  | none => exact Or.inl ⟨rfl, (Except.ok.inj h).symm⟩
  | some p =>
    have h' := (scheduleThread_first t p).symm.trans h
    exact Or.inr ⟨p, rfl, (Except.ok.inj h').symm⟩

theorem markUnlock_ok (h : markUnlock t = .ok t') : ∃ cur, t.currentTcb = some cur ∧
    t' = { t with afterUnlockPriority := (t.tcbs cur).priority } := by
  obtain ⟨cur, hcur, h⟩ := bind_eq_ok.mp h
  exact ⟨cur, State.current_eq_ok.mp hcur, (Except.ok.inj h).symm⟩

theorem myPthreadExit_ok {value : Value} (h : myPthreadExit value t = .ok t') :
    ∃ cur, t.currentTcb = some cur ∧
      t' = t.setTcb cur { t.tcbs cur with returnValue := value, state := .terminated } := by
  obtain ⟨cur, hcur, h⟩ := bind_eq_ok.mp h
  exact ⟨cur, State.current_eq_ok.mp hcur, (Except.ok.inj h).symm⟩

end Effects

namespace Placed

variable {t t' : State TcbLists} {m : MutexPtr} {ok : Bool}

/-- `init_scheduler` before the first thread resets what is empty anyway. -/
theorem begun_eq (h : Placed t) : t.schedulerInit = true ∧ t.begun = t ∨
    t.threads = [] ∧
      t.begun = { t with schedulerInit := true, scheduler := true, currentTcb := none } := by
  unfold State.begun
  split_ifs with hinit
  · exact Or.inl ⟨hinit, rfl⟩
  · have hnone := h.started (by simpa using hinit)
    have h' : Placed { t with schedulerInit := true } := { h with started := fun hs => by cases hs }
    exact Or.inr ⟨hnone, h'.initScheduler_eq hnone⟩

theorem begun (h : Placed t) : Placed t.begun ∧ t.begun.schedulerInit = true := by
  rcases h.begun_eq with ⟨hinit, heq⟩ | ⟨hnone, heq⟩
  · rw [heq]
    exact ⟨h, hinit⟩
  · rw [heq]
    exact ⟨{ h with
      current := fun p hp => by cases hp
      started := fun hs => by cases hs }, rfl⟩

theorem begun_threads (h : Placed t) : t.begun.threads = t.threads ∧
    t.begun.tid = t.tid ∧ t.begun.cpu = t.cpu ∧ t.begun.tcbs = t.tcbs ∧
      t.begun.queues = t.queues ∧ t.begun.mutexes = t.mutexes ∧ t.begun.frontier = t.frontier ∧
        t.begun.dispatches = t.dispatches := by
  rcases h.begun_eq with ⟨-, heq⟩ | ⟨-, heq⟩ <;> rw [heq] <;>
    exact ⟨rfl, rfl, rfl, rfl, rfl, rfl, rfl, rfl⟩

theorem entered {u : State TcbLists} (h : Placed t) (hinit : t.schedulerInit = true)
    (hcount : t.tid = 0 ↔ t.threads = []) (hu : Entered t u) :
    Placed u ∧ u.schedulerInit = true ∧ u.threads ≠ [] := by
  cases hu with
  | first htid =>
    exact ⟨h.withMain hinit (hcount.mp htid), hinit, by simp [State.withMain, State.created]⟩
  | later htid => exact ⟨h, hinit, fun hnone => htid (hcount.mpr hnone)⟩

theorem creates (h : Placed t) (hinit : t.schedulerInit = true)
    (hcount : t.tid = 0 ↔ t.threads = []) (hc : Creates t ok t') :
    Placed t' ∧ (t'.tid = 0 ↔ t'.threads = []) := by
  cases hc with
  | mainFails => exact ⟨h.allocateTcb _, hcount⟩
  | nodeFails hu =>
    obtain ⟨hu', hinit', hne⟩ := h.entered hinit hcount hu
    exact ⟨hu'.allocateTcb _, by simp [State.allocateTcb, hne]⟩
  | node hu =>
    obtain ⟨hu', hinit', hne⟩ := h.entered hinit hcount hu
    exact ⟨hu'.withNode _ hinit' hne, by simp [State.withNode, State.created]⟩

theorem creates_induction {I : State TcbLists → Prop} (h : Placed t)
    (hinit : t.schedulerInit = true) (hcount : t.tid = 0 ↔ t.threads = []) (hc : Creates t ok t')
    (hI : I t) (hmain : t.tid = 0 → t.threads = [] → I t.withMain)
    (hallocate : ∀ u tid, Placed u → u.tid ≤ tid → I u → I (u.allocateTcb tid))
    (hnode : ∀ u routine, Placed u → u.threads ≠ [] → I u → I (u.withNode routine)) : I t' := by
  have hentered : ∀ {u}, Entered t u → I u := by
    intro u hu
    cases hu with
    | first htid => exact hmain htid (hcount.mp htid)
    | later => exact hI
  cases hc with
  | mainFails => exact hallocate t _ h le_rfl hI
  | nodeFails hu =>
    obtain ⟨hplaced, -, -⟩ := h.entered hinit hcount hu
    exact hallocate _ _ hplaced (Nat.le_succ _) (hentered hu)
  | node hu =>
    obtain ⟨hplaced, -, hne⟩ := h.entered hinit hcount hu
    exact hnode _ _ hplaced hne (hentered hu)

/-- The mutex is new, its queue empty already, and the scheduler is there or has no threads. -/
theorem mutexInit_ok (h : Placed t) (ht : myPthreadMutexInit m t = .ok t') :
    t.mutexes m = none ∧ ∃ u, (u = t ∨ t.threads = [] ∧
      u = { t with scheduler := true, currentTcb := none }) ∧
      t' = { u with mutexes := Function.update t.mutexes m (some .unlocked) } := by
  unfold myPthreadMutexInit at ht
  by_cases hm : t.mutexes m = none
  · have hqueue : QueueStore.init (QueuePtr.wait m) t.queues = t.queues := by
      change t.queues.set (.wait m) [] = _
      rw [← h.waits m hm]
      exact Lists.set_eq_self ..
    refine ⟨hm, ?_⟩
    rw [if_neg (by simp [hm])] at ht
    by_cases hinit : t.schedulerInit = true
    · rw [if_pos hinit] at ht
      refine ⟨t, Or.inl rfl, ?_⟩
      rw [← Except.ok.inj ht, hqueue]
    · rw [if_neg hinit] at ht
      have hnone := h.started (by simpa using hinit)
      refine ⟨_, Or.inr ⟨hnone, rfl⟩, ?_⟩
      rw [← Except.ok.inj ht, h.initScheduler_eq hnone, hqueue]
  · rw [if_pos (by simpa [Option.isSome_iff_ne_none] using hm)] at ht
    cases ht

theorem mutexInit (h : Placed t) (ht : myPthreadMutexInit m t = .ok t') : Placed t' := by
  obtain ⟨-, u, rfl | ⟨-, rfl⟩, rfl⟩ := h.mutexInit_ok ht
  · exact h.withMutex m .unlocked
  · have h' : Placed { t with scheduler := true, currentTcb := none } :=
      { h with current := fun p hp => by cases hp }
    exact h'.withMutex m .unlocked

theorem moveHead {priority : ℤ} (h : Placed t) (hm : t.mutexes m ≠ none)
    (ht : moveHead m priority t = .ok t') : Placed t' := by
  obtain ⟨p, l, hq, rfl⟩ := moveHead_ok ht
  obtain ⟨h', hun⟩ := h.dequeued hq
  exact h'.parked hm (h.known (.level priority) p (by simp [hq])) hun

theorem lockPass {priority : ℤ} (h : Placed t) (ht : lockPass m priority t = .ok t') :
    Placed t' := by
  obtain ⟨⟨found, u⟩, htas, ht⟩ := bind_eq_ok.mp ht
  obtain ⟨-, rfl⟩ := testAndSet_ok htas
  cases found with
  | unlocked =>
    rw [← Except.ok.inj ht]
    exact h.withMutex m .locked
  | locked => exact (h.withMutex m .locked).moveHead (by simp) ht

theorem dequeueWaiter {node : Option TcbPtr} (h : Placed t)
    (ht : dequeueWaiter m t = .ok (node, t')) :
    Placed t' ∧ ∀ p, node = some p → p ∈ t'.threads ∧ Unqueued t' p := by
  rcases dequeueWaiter_ok ht with ⟨rfl, rfl, -⟩ | ⟨p, l, rfl, hq, rfl⟩
  · exact ⟨h, fun p hp => by cases hp⟩
  · obtain ⟨h', hun⟩ := h.dequeued hq
    refine ⟨h', ?_⟩
    rintro p ⟨⟩
    exact ⟨h.known (.wait m) p (by simp [hq]), hun⟩

theorem scheduleWaiter {node : Option TcbPtr} (h : Placed t)
    (hnode : ∀ p, node = some p → p ∈ t.threads ∧ Unqueued t p)
    (ht : scheduleWaiter node t = .ok t') : Placed t' := by
  rcases scheduleWaiter_ok ht with ⟨-, rfl⟩ | ⟨p, hp, rfl⟩
  · exact h
  · exact h.scheduled (hnode p hp).1 (hnode p hp).2

theorem markUnlock (h : Placed t) (ht : markUnlock t = .ok t') : Placed t' := by
  obtain ⟨cur, hcur, rfl⟩ := markUnlock_ok ht
  exact { h with afterUnlock := Or.inr (h.priority cur (h.current cur hcur).1) }

theorem release (h : Placed t) (ht : release m t = .ok t') : Placed t' := by
  obtain ⟨-, rfl⟩ := release_ok ht
  exact h.withMutex m .unlocked

theorem unlock (h : Placed t) (ht : myPthreadMutexUnlock m t = .ok t') : Placed t' := by
  obtain ⟨t₁, h₁, ht⟩ := bind_eq_ok.mp ht
  obtain ⟨⟨node, t₂⟩, h₂, ht⟩ := bind_eq_ok.mp ht
  obtain ⟨t₃, h₃, h₄⟩ := bind_eq_ok.mp ht
  obtain ⟨hp₂, hnode⟩ := (h.release h₁).dequeueWaiter h₂
  exact (hp₂.scheduleWaiter hnode h₃).markUnlock h₄

/-- An unlock releases the mutex and brings the first waiter, if any, to level 0. -/
theorem unlock_ok (h : Placed t) (ht : myPthreadMutexUnlock m t = .ok t') :
    t.queues (.wait m) = [] ∧ t' = { t with
        mutexes := Function.update t.mutexes m (some .unlocked), afterUnlockPriority := 0 } ∨
      ∃ p l, t.queues (.wait m) = p :: l ∧ t' = { t with
        mutexes := Function.update t.mutexes m (some .unlocked)
        queues := t.queues.move (.wait m) (.level 0) p l
        afterUnlockPriority := 0 } := by
  obtain ⟨t₁, h₁, ht⟩ := bind_eq_ok.mp ht
  obtain ⟨⟨node, t₂⟩, h₂, ht⟩ := bind_eq_ok.mp ht
  obtain ⟨t₃, h₃, h₄⟩ := bind_eq_ok.mp ht
  obtain ⟨-, rfl⟩ := release_ok h₁
  rcases dequeueWaiter_ok h₂ with ⟨rfl, rfl, hq⟩ | ⟨p, l, rfl, hq, ht₂⟩
  · obtain rfl := Except.ok.inj h₃
    obtain ⟨cur, hcur, rfl⟩ := markUnlock_ok h₄
    refine Or.inl ⟨hq, ?_⟩
    dsimp only
    rw [h.priority cur (h.current cur hcur).1]
  · obtain ⟨hp, -⟩ | ⟨p', hp, rfl⟩ := scheduleWaiter_ok h₃
    · cases hp
    obtain rfl := Option.some.inj hp
    have hq' : t.queues (.wait m) = p :: l := hq
    have hp₂ : (t₂.tcbs p).priority = 0 := by
      rw [ht₂]
      exact h.priority p (h.known (.wait m) p (by rw [hq']; exact List.mem_cons_self))
    rw [scheduled_eq hp₂, ht₂] at h₄
    obtain ⟨cur, hcur, rfl⟩ := markUnlock_ok h₄
    refine Or.inr ⟨p, l, hq, ?_⟩
    dsimp only
    rw [h.priority cur (h.current cur hcur).1]
    rfl

theorem terminate (h : Placed t) (p : TcbPtr) (value : Value) :
    Placed (t.setTcb p { t.tcbs p with returnValue := value, state := .terminated }) :=
  h.setTcb rfl rfl fun _ => by simp

end Placed

section Signals

variable {t t' : State TcbLists} {now start : Time} {cur : TcbPtr}

structure Switched (t t' : State TcbLists) (p : TcbPtr) : Prop where
  head : (t'.queues (.level 0)).head? = some p
  current : t'.currentTcb = some p
  owner : t'.cpu.owner = p
  state : (t'.tcbs p).state = .running
  alive : (t.tcbs p).state ≠ .terminated
  dispatches : t'.dispatches = t.dispatches ++ [p]
  afterUnlock : t'.afterUnlockPriority = -1

structure Idled (t t' : State TcbLists) : Prop where
  empty : t.queues (.level 0) = []
  pending : t.afterUnlockPriority ≠ -1
  current : t'.currentTcb = none
  cpu : t'.cpu = t.cpu
  dispatches : t'.dispatches = t.dispatches
  afterUnlock : t'.afterUnlockPriority = -1

theorem Placed.frame_rotated (h : Placed t) (hcur : t.currentTcb = some cur) {p : TcbPtr}
    {l : List TcbPtr} (hq : t.queues (.level 0) = p :: l) :
    Frame t ((t.save cur).rotate p l) ∧ ((t.save cur).rotate p l).Saved :=
  have howner := (h.current cur hcur).2
  ⟨(Frame.save howner).trans (Frame.rotate hq), rotate_saved (save_saved howner)⟩

theorem Placed.dispatched {u : State TcbLists} (h : Placed t) (hf : Frame t u) (hs : u.Saved)
    (hafter : u.afterUnlockPriority = -1) (hdispatches : u.dispatches = t.dispatches)
    (hd : Dispatched start u t') : Frame t t' ∧ ∃ p ∈ t.threads, Switched t t' p := by
  have howner : ∀ p ∈ u.queues (.level 0), (u.contextOf p).owner = p := by
    intro p hp
    rw [hf.context]
    exact h.owner p (h.known _ p ((hf.queues _).mem_iff.mp hp))
  refine ⟨hf.trans (.dispatched hs howner hd), ?_⟩
  obtain ⟨p, l, n, hperm, hfind, rfl⟩ := hd
  have hstate : (u.tcbs p).state ≠ .terminated := live_iff.mp (List.find?_some hfind)
  have hp : p ∈ u.queues (.level 0) := hperm.mem_iff.mp (by simp)
  refine ⟨p, h.known _ p ((hf.queues _).mem_iff.mp hp), ?_⟩
  refine ⟨by simp, rfl, ?_, by simp, ?_, by simp [hdispatches], hafter⟩
  · have := howner p hp
    rwa [hs.contextOf] at this
  · exact fun hterm => hstate (((hf.tcbs p).terminated).mpr hterm)

/-- A signal switches, or idles, or changes nothing. -/
theorem Handled.outcome (h : Placed t) (hh : Handled now start t t') : Frame t t' ∧
    (t' = t ∨ (∃ p ∈ t.threads, Switched t t' p) ∨ Idled t t') := by
  cases hh with
  | within => exact ⟨.refl t, Or.inl rfl⟩
  | rotated hcur _ hafter hq hd =>
    obtain ⟨hf, hs⟩ := h.frame_rotated hcur hq
    obtain ⟨hf', hswitch⟩ := h.dispatched hf hs (by rw [rotate_afterUnlock]; exact hafter)
      (by rw [rotate_dispatches]; rfl) hd
    exact ⟨hf', Or.inr (Or.inl hswitch)⟩
  | resumed hcur _ hafter hq hd =>
    have howner := (h.current _ hcur).2
    have hs : State.Saved { t.save _ with afterUnlockPriority := -1 } := save_saved howner
    have hf := (Frame.save howner).trans (.afterUnlock _ (-1))
    obtain ⟨hf', hswitch⟩ := h.dispatched hf hs rfl rfl hd
    exact ⟨hf', Or.inr (Or.inl hswitch)⟩
  | idle hcur _ hafter hq =>
    have hf := (Frame.save (h.current _ hcur).2).trans (.afterUnlock _ (-1))
    exact ⟨hf.trans (.select _ 0 none), Or.inr (Or.inr ⟨hq, by simp [hafter], rfl, rfl, rfl, rfl⟩)⟩

theorem tick_outcome {fuel : ℕ} (h : Placed t) (ht' : tick now start fuel t = .ok t') :
    Handled now start t.interrupt t' ∧ Frame t.interrupt t' ∧
      (t' = t.interrupt ∨ (∃ p ∈ t.threads, Switched t.interrupt t' p) ∨ Idled t.interrupt t') := by
  have hi := h.interrupt
  have hprio : ∀ cur, t.currentTcb = some cur → (t.tcbs cur).priority = 0 := fun cur hcur =>
    h.priority cur (h.current cur hcur).1
  have hh := signalHandler_handled hi.oneLevel hprio h.afterUnlock ht'
  exact ⟨hh, hh.outcome hi⟩

theorem Placed.tick {fuel : ℕ} (h : Placed t) (ht' : tick now start fuel t = .ok t') :
    Placed t' := by
  obtain ⟨-, hf, houtcome⟩ := tick_outcome h ht'
  have hi := h.interrupt
  rcases houtcome with rfl | ⟨p, hp, hswitch⟩ | hidle
  · exact hi
  · refine hi.of_frame hf (fun r hr => ?_) (fun _ => ?_) (Or.inl hswitch.afterUnlock)
    · obtain rfl := Option.some.inj (hswitch.current.symm.trans hr)
      exact ⟨hp, hswitch.owner⟩
    · rw [hswitch.owner]
      exact hp
  · refine hi.of_frame hf (fun r hr => ?_) (fun hne => ?_) (Or.inl hidle.afterUnlock)
    · cases hidle.current.symm.trans hr
    · rw [hidle.cpu]
      exact hi.running hne

end Signals

end VirtualMemorySimulation.Scheduler

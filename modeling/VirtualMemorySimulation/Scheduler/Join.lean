import VirtualMemorySimulation.Scheduler.Conservation

/-!
# Joining a thread

`get_tcb` looks through the levels and nowhere else. A thread is therefore found
when it is in no wait queue, and `my_pthread_join` gives up on a thread that is
blocked. The value handed over is right whenever the thread has terminated.
-/

namespace VirtualMemorySimulation.Scheduler

open Execution LinkedQueue

def Returned (calls : List CallBy) (p : TcbPtr) (value : Value) : Prop :=
  ∃ resumed, ⟨some p, .functionReturn value resumed⟩ ∈ calls

/-- The value is the one that the thread last passed to `my_pthread_exit`. -/
def LastExit (calls : List CallBy) (p : TcbPtr) (value : Value) : Prop :=
  ∃ before after, calls = before ++ ⟨some p, .exit value⟩ :: after ∧
    ∀ v, ⟨some p, .exit v⟩ ∉ after

/-- What `my_pthread_join` may hand over for the thread. -/
def Delivered (calls : List CallBy) (p : TcbPtr) (value : Value) : Prop :=
  Returned calls p value ∨ LastExit calls p value

/-- The numbering of the threads. Id 0 is the main thread's. -/
structure Numbered (t : State TcbLists) : Prop where
  handles : ∀ tid p, (tid, p) ∈ t.handles → p ∈ t.threads ∧ (t.tcbs p).tid = tid ∧ tid ≠ 0
  handed : ∀ p ∈ t.threads, (t.tcbs p).tid ≠ 0 → ((t.tcbs p).tid, p) ∈ t.handles
  bounded : ∀ p ∈ t.threads, (t.tcbs p).tid ≤ t.tid
  injective : ∀ p ∈ t.threads, ∀ r ∈ t.threads, (t.tcbs p).tid = (t.tcbs r).tid → p = r
  scheduler : t.schedulerInit = true → t.scheduler = true

section Numbering

variable {t t' : State TcbLists} {p : TcbPtr}

theorem Numbered.initial (storage : TcbPtr → Tcb) : Numbered (State.initial noLists storage) where
  handles _ _ h := absurd h List.not_mem_nil
  handed _ h := absurd h List.not_mem_nil
  bounded _ h := absurd h List.not_mem_nil
  injective _ h := absurd h List.not_mem_nil
  scheduler h := by cases h

theorem Numbered.congr (h : Numbered t) (htid : ∀ p ∈ t.threads, (t'.tcbs p).tid = (t.tcbs p).tid)
    (hthreads : t'.threads = t.threads) (hhandles : t'.handles = t.handles) (hle : t.tid ≤ t'.tid)
    (hscheduler : t'.schedulerInit = true → t'.scheduler = true) : Numbered t' where
  handles tid p hp := by
    obtain ⟨hmem, heq, hne⟩ := h.handles tid p (hhandles ▸ hp)
    exact ⟨hthreads ▸ hmem, (htid p hmem).trans heq, hne⟩
  handed p hp hne := by
    rw [hthreads] at hp
    rw [htid p hp] at hne ⊢
    rw [hhandles]
    exact h.handed p hp hne
  bounded p hp := by
    rw [hthreads] at hp
    rw [htid p hp]
    exact (h.bounded p hp).trans hle
  injective p hp r hr heq := by
    rw [hthreads] at hp hr
    rw [htid p hp, htid r hr] at heq
    exact h.injective p hp r hr heq
  scheduler := hscheduler

theorem Numbered.allocateTcb (hc : Placed t) (h : Numbered t) {tid : ℕ} (hle : t.tid ≤ tid) :
    Numbered (t.allocateTcb tid) := by
  refine h.congr (fun p hp => ?_) rfl rfl hle h.scheduler
  exact congrArg Tcb.tid (Function.update_of_ne (hc.allocated p hp).ne ..)

theorem Numbered.withMain (h : Numbered t) (htid : t.tid = 0) (hnone : t.threads = []) :
    Numbered t.withMain := by
  have hself : (t.withMain.tcbs t.frontier).tid = 0 :=
    (congrArg Tcb.tid (created_tcb_frontier t t.tid _)).trans htid
  have hmem : ∀ p, p ∈ t.withMain.threads → p = t.frontier := by
    intro p hp
    have hp' : p ∈ t.threads ++ [t.frontier] := hp
    simpa [hnone] using hp'
  constructor
  · intro tid p hp
    have := (h.handles tid p hp).1
    simp [hnone] at this
  · intro p hp hne
    rw [hmem p hp] at hne
    exact absurd hself hne
  · intro p hp
    rw [hmem p hp, hself]
    exact Nat.zero_le _
  · intro p hp r hr _
    rw [hmem p hp, hmem r hr]
  · exact h.scheduler

theorem Numbered.withNode (hc : Placed t) (h : Numbered t) (routine : Routine) :
    Numbered (t.withNode routine) := by
  have hself : ((t.withNode routine).tcbs t.frontier).tid = t.tid + 1 :=
    congrArg Tcb.tid (created_tcb_frontier t (t.tid + 1) _)
  have hold : ∀ p ∈ t.threads, ((t.withNode routine).tcbs p).tid = (t.tcbs p).tid :=
    fun p hp => congrArg Tcb.tid (created_tcb_of_ne (hc.allocated p hp).ne _ _)
  have hmem : ∀ p, p ∈ (t.withNode routine).threads → p ∈ t.threads ∨ p = t.frontier := by
    intro p hp
    have hp' : p ∈ t.threads ++ [t.frontier] := hp
    simpa using hp'
  constructor
  · intro tid p hp
    rcases List.mem_append.mp hp with hp | hp
    · obtain ⟨hp', heq, hne⟩ := h.handles tid p hp
      exact ⟨List.mem_append_left _ hp', (hold p hp').trans heq, hne⟩
    · obtain ⟨rfl, rfl⟩ := Prod.mk.inj (List.mem_singleton.mp hp)
      exact ⟨List.mem_append_right _ (List.mem_singleton_self _), hself, Nat.succ_ne_zero _⟩
  · intro p hp hne
    rcases hmem p hp with hp | rfl
    · rw [hold p hp] at hne ⊢
      exact List.mem_append_left _ (h.handed p hp hne)
    · rw [hself]
      exact List.mem_append_right _ (List.mem_singleton_self _)
  · intro p hp
    rcases hmem p hp with hp | rfl
    · rw [hold p hp]
      exact Nat.le_succ_of_le (h.bounded p hp)
    · rw [hself]
      exact le_rfl
  · intro p hp r hr heq
    rcases hmem p hp with hp | rfl <;> rcases hmem r hr with hr | rfl
    · rw [hold p hp, hold r hr] at heq
      exact h.injective p hp r hr heq
    · rw [hold p hp, hself] at heq
      have := h.bounded p hp
      omega
    · rw [hold r hr, hself] at heq
      have := h.bounded r hr
      omega
    · rfl
  · exact h.scheduler

end Numbering

section Lookup

variable {t : State TcbLists} {p : TcbPtr}

theorem getTcbLoop_cons (t : State TcbLists) (found : TcbPtr → Bool) (i : ℤ) (levels : List ℤ)
    (r : Option TcbPtr)
    (hrest : Settles (fun fuel => getTcbLoop found fuel t.queues levels) (.ok r)) :
    Settles (fun fuel => getTcbLoop found fuel t.queues (i :: levels))
      (.ok (((t.queues (.level i)).find? found).or r)) := by
  have hwalk := Lists.walk_settles found (t.queues (.level i))
  cases hfind : (t.queues (.level i)).find? found with
  | none =>
    rw [hfind] at hwalk
    exact hwalk.bind hrest
  | some p =>
    rw [hfind] at hwalk
    exact hwalk.bind (Settles.const _)

theorem getTcb_settles (h : OneLevel t) (hs : t.scheduler = true) (tid : ℕ) :
    Settles (fun fuel => getTcb tid fuel t)
      (.ok ((t.queues (.level 0)).find? fun p => (t.tcbs p).tid = tid)) := by
  apply Settles.congr (fun n => by rw [getTcb, if_pos hs])
  have hloop := getTcbLoop_cons t (fun p => (t.tcbs p).tid = tid) 0 [1, 2] _
    (getTcbLoop_cons t _ 1 [2] _ (getTcbLoop_cons t _ 2 [] none (Settles.const _)))
  rw [h.levels 1 (by decide), h.levels 2 (by decide)] at hloop
  simpa using hloop

/-- A thread is found by its id exactly when it is in level 0. -/
theorem find_tid (hc : Placed t) (h : Numbered t) (hp : p ∈ t.threads) :
    ((t.queues (.level 0)).find? fun r => (t.tcbs r).tid = (t.tcbs p).tid) =
      if p ∈ t.queues (.level 0) then some p else none := by
  have huniq : ∀ r ∈ t.queues (.level 0), (t.tcbs r).tid = (t.tcbs p).tid → r = p :=
    fun r hr heq => h.injective r (hc.known _ r hr) p hp heq
  split_ifs with hmem
  · cases hfind : (t.queues (.level 0)).find? fun r => (t.tcbs r).tid = (t.tcbs p).tid with
    | none => simpa using List.find?_eq_none.mp hfind p hmem
    | some r =>
      have heq := List.find?_some hfind
      rw [huniq r (List.mem_of_find?_eq_some hfind) (by simpa using heq)]
  · refine List.find?_eq_none.mpr fun r hr heq => hmem ?_
    rwa [← huniq r hr (by simpa using heq)]

end Lookup

section Steps

variable {t t' : State TcbLists} {c : CallBy}

theorem Numbered.create {mainContext nodeContext ok : Bool} {routine : Routine}
    (hc : Conserved t) (h : Numbered t)
    (ht : myPthreadCreate mainContext nodeContext routine t = .ok (ok, t')) : Numbered t' := by
  obtain ⟨hplaced, hinit⟩ := hc.toPlaced.begun
  have hcount := hc.begun.counted
  have hbegun : Numbered t.begun := by
    rcases hc.toPlaced.begun_eq with ⟨-, heq⟩ | ⟨-, heq⟩
    · rwa [heq]
    · rw [heq]
      exact h.congr (fun _ _ => rfl) rfl rfl le_rfl fun _ => rfl
  apply hplaced.creates_induction hinit hcount (myPthreadCreate_creates ht) hbegun
  · exact fun htid hnone => hbegun.withMain htid hnone
  · exact fun u tid hplaced' hle hu => hu.allocateTcb hplaced' hle
  · exact fun u routine hplaced' _ hu => hu.withNode hplaced' routine

theorem Numbered.setTcb (h : Numbered t) {p : TcbPtr} {tcb : Tcb}
    (htid : tcb.tid = (t.tcbs p).tid) : Numbered (t.setTcb p tcb) := by
  refine h.congr (fun r _ => ?_) rfl rfl le_rfl h.scheduler
  by_cases hr : r = p
  · subst hr
    exact (congrArg Tcb.tid (Function.update_self ..)).trans htid
  · exact congrArg Tcb.tid (Function.update_of_ne hr ..)

theorem Numbered.call (hc : Conserved t) (h : Numbered t) (hs : CallStep t c t') :
    Numbered t' := by
  have hsame : ∀ u : State TcbLists, u.tcbs = t.tcbs → u.threads = t.threads →
      u.handles = t.handles → u.tid = t.tid → (u.schedulerInit = true → u.scheduler = true) →
      Numbered u := fun u htcbs hthreads hhandles htid hsched =>
    h.congr (fun p _ => by rw [htcbs]) hthreads hhandles htid.ge hsched
  have hpass : ∀ {mutex priority u}, lockPass mutex priority t = .ok u → Numbered u := by
    intro mutex priority u hu
    rcases lockPass_ok hu with ⟨-, rfl⟩ | ⟨-, p, l, -, rfl⟩
    · exact hsame _ rfl rfl rfl rfl h.scheduler
    · exact hsame _ rfl rfl rfl rfl h.scheduler
  cases hs.performed with
  | create hcreate => exact h.create hc hcreate
  | tick ht =>
    obtain ⟨-, hf, -⟩ := tick_outcome hc.toPlaced ht
    refine h.congr (fun p _ => (hf.tcbs p).tid) hf.threads hf.handles hf.tid.ge fun hinit => ?_
    rw [hf.scheduler]
    exact h.scheduler (hf.schedulerInit ▸ hinit)
  | mutexInit hinit =>
    obtain ⟨-, u, rfl | ⟨-, rfl⟩, rfl⟩ := hc.toPlaced.mutexInit_ok hinit
    · exact hsame _ rfl rfl rfl rfl h.scheduler
    · exact hsame _ rfl rfl rfl rfl fun _ => rfl
  | lock _ hu => exact hpass hu
  | relock hu => exact hpass hu
  | unlock hunlock =>
    rcases hc.toPlaced.unlock_ok hunlock with ⟨-, rfl⟩ | ⟨p, l, -, rfl⟩
    · exact hsame _ rfl rfl rfl rfl h.scheduler
    · exact hsame _ rfl rfl rfl rfl h.scheduler
  | exit => exact h.setTcb rfl
  | exited => exact h
  | functionReturn => exact h.setTcb rfl
  | join => exact h

/-- The values of terminated threads are theirs. -/
def Valued (calls : List CallBy) (t : State TcbLists) : Prop :=
  ∀ p ∈ t.threads, (t.tcbs p).state = .terminated → Delivered calls p (t.tcbs p).returnValue

theorem Delivered.later {calls : List CallBy} {p : TcbPtr} {value : Value}
    (h : Delivered calls p value) (hc : ∀ v, c ≠ ⟨some p, .exit v⟩) :
    Delivered (calls ++ [c]) p value := by
  rcases h with ⟨resumed, hmem⟩ | ⟨before, after, rfl, hlast⟩
  · exact Or.inl ⟨resumed, List.mem_append_left _ hmem⟩
  · refine Or.inr ⟨before, after ++ [c], by simp, fun v hv => ?_⟩
    rcases List.mem_append.mp hv with hv | hv
    · exact hlast v hv
    · exact hc v (List.mem_singleton.mp hv).symm

/-- Whoever has terminated had terminated before, with the same value. -/
def DeadKept (t t' : State TcbLists) : Prop :=
  ∀ p ∈ t'.threads, (t'.tcbs p).state = .terminated → p ∈ t.threads ∧
    (t.tcbs p).state = .terminated ∧ (t'.tcbs p).returnValue = (t.tcbs p).returnValue

theorem DeadKept.of_eq (htcbs : t'.tcbs = t.tcbs) (hthreads : t'.threads = t.threads) :
    DeadKept t t' := by
  intro p hp hdead
  rw [htcbs] at hdead ⊢
  exact ⟨hthreads ▸ hp, hdead, rfl⟩

theorem DeadKept.trans {u : State TcbLists} (h : DeadKept t u) (h' : DeadKept u t') :
    DeadKept t t' := by
  intro p hp hdead
  obtain ⟨hp', hdead', hvalue'⟩ := h' p hp hdead
  obtain ⟨hp'', hdead'', hvalue''⟩ := h p hp' hdead'
  exact ⟨hp'', hdead'', hvalue'.trans hvalue''⟩

theorem DeadKept.of_frame (hf : Frame t t') : DeadKept t t' := fun p hp hdead =>
  ⟨hf.threads ▸ hp, (hf.tcbs p).terminated.mp hdead, (hf.tcbs p).returnValue⟩

theorem DeadKept.allocateTcb (hc : Placed t) (tid : ℕ) : DeadKept t (t.allocateTcb tid) := by
  intro p hp hdead
  have hold : (t.allocateTcb tid).tcbs p = t.tcbs p :=
    Function.update_of_ne (hc.allocated p hp).ne ..
  rw [hold] at hdead ⊢
  exact ⟨hp, hdead, rfl⟩

theorem DeadKept.created (hc : Placed t) (tid : ℕ) (context : Context) :
    DeadKept t (t.created tid context) := by
  intro p hp hdead
  rcases List.mem_append.mp hp with hp | hp
  · rw [created_tcb_of_ne (hc.allocated p hp).ne] at hdead ⊢
    exact ⟨hp, hdead, rfl⟩
  · rw [List.mem_singleton.mp hp, created_tcb_frontier] at hdead
    cases hdead

theorem DeadKept.create {mainContext nodeContext ok : Bool} {routine : Routine} (hc : Conserved t)
    (ht : myPthreadCreate mainContext nodeContext routine t = .ok (ok, t')) : DeadKept t t' := by
  obtain ⟨hplaced, hinit⟩ := hc.toPlaced.begun
  have hcount := hc.begun.counted
  have hbegun : DeadKept t t.begun := by
    obtain ⟨hthreads, -, -, htcbs, -⟩ := hc.toPlaced.begun_threads
    exact .of_eq htcbs hthreads
  apply hplaced.creates_induction hinit hcount (myPthreadCreate_creates ht) hbegun
  · intro _ _
    exact hbegun.trans (.created hplaced t.begun.tid { t.begun.cpu with owner := t.begun.frontier })
  · exact fun u tid hplaced' _ hu => hu.trans (.allocateTcb hplaced' tid)
  · intro u routine hplaced' _ hu
    exact hu.trans (.created hplaced' (u.tid + 1) ⟨u.frontier, .start routine, []⟩)

theorem Valued.later {calls : List CallBy} (h : Valued calls t)
    (hc : ∀ p v, c ≠ ⟨some p, .exit v⟩) (ht : DeadKept t t') : Valued (calls ++ [c]) t' := by
  intro p hp hdead
  obtain ⟨hp', hdead', hvalue⟩ := ht p hp hdead
  rw [hvalue]
  exact (h p hp' hdead').later (hc p)

theorem Valued.terminate {calls : List CallBy} (h : Valued calls t) {cur : TcbPtr} {value : Value}
    (hself : Delivered (calls ++ [c]) cur value) (hc : ∀ p v, p ≠ cur → c ≠ ⟨some p, .exit v⟩) :
    Valued (calls ++ [c])
      (t.setTcb cur { t.tcbs cur with returnValue := value, state := .terminated }) := by
  intro p hp hdead
  simp only [State.setTcb_tcbs] at hdead ⊢
  by_cases hcur : p = cur
  · rw [hcur, Function.update_self]
    exact hself
  · rw [Function.update_of_ne hcur] at hdead ⊢
    exact (h p hp hdead).later fun v => hc p v hcur

theorem Valued.call {calls : List CallBy} (hconserved : Conserved t) (h : Valued calls t)
    (hs : CallStep t c t') : Valued (calls ++ [c]) t' := by
  have hpass : ∀ {caller call mutex priority u}, lockPass mutex priority t = .ok u →
      (∀ p v, (⟨caller, call⟩ : CallBy) ≠ ⟨some p, .exit v⟩) →
        Valued (calls ++ [⟨caller, call⟩]) u := by
    intro caller call mutex priority u hu hne
    rcases lockPass_ok hu with ⟨-, rfl⟩ | ⟨-, p, l, -, rfl⟩
    · exact h.later hne (.of_eq rfl rfl)
    · exact h.later hne (.of_eq rfl rfl)
  cases hs.performed with
  | create hcreate => exact h.later (by simp) (.create hconserved hcreate)
  | tick ht =>
    obtain ⟨-, hf, -⟩ := tick_outcome hconserved.toPlaced ht
    exact h.later (by simp) (DeadKept.of_frame (t := t.interrupt) hf)
  | mutexInit hinit =>
    obtain ⟨-, u, rfl | ⟨-, rfl⟩, rfl⟩ := hconserved.toPlaced.mutexInit_ok hinit
    · exact h.later (by simp) (.of_eq rfl rfl)
    · exact h.later (by simp) (.of_eq rfl rfl)
  | lock _ hu => exact hpass hu (by simp)
  | relock hu => exact hpass hu (by simp)
  | unlock hunlock =>
    rcases hconserved.toPlaced.unlock_ok hunlock with ⟨-, rfl⟩ | ⟨p, l, -, rfl⟩
    · exact h.later (by simp) (.of_eq rfl rfl)
    · exact h.later (by simp) (.of_eq rfl rfl)
  | exit hcur =>
    refine h.terminate (Or.inr ⟨calls, [], rfl, by simp⟩) fun p v hp heq => ?_
    exact hp (Option.some.inj (CallBy.mk.inj heq).1).symm
  | exited => exact h.later (by simp) (.of_eq rfl rfl)
  | @functionReturn cur value resumed hcur =>
    exact h.terminate (Or.inl ⟨resumed, by simp⟩) (by simp)
  | join => exact h.later (by simp) (.of_eq rfl rfl)

end Steps

def NotHandedOut {σ : Type} (s : State σ) (tid : ℕ) : Prop :=
  (∀ p, (tid, p) ∉ s.handles) ∧ (tid = 0 → s.threads = [])

/-- `my_pthread_join` and its lookup do what is expected of an id. -/
structure JoinWorks (calls : List CallBy) (s : State TcbLinks) (tid : ℕ) : Prop where
  found : ∀ p, (tid, p) ∈ s.handles → Settles (fun fuel => getTcb tid fuel s) (.ok (some p))
  joined : ∀ p, (tid, p) ∈ s.handles → ∀ fuel, myPthreadJoin tid fuel s ≠ .ok none
  value : ∀ p, (tid, p) ∈ s.handles → ∀ v, awaitTermination p s = .ok v → Delivered calls p v
  absent : NotHandedOut s tid → Settles (fun fuel => getTcb tid fuel s) (.ok none)

/-- The thread of the id, if any, is in no wait queue; without one the scheduler exists. -/
structure Findable (s : State TcbLinks) (tid : ℕ) : Prop where
  unblocked : ∀ p, (tid, p) ∈ s.handles → ∀ m, ¬ InQueue s.queues (.wait m) p
  scheduler : NotHandedOut s tid → s.scheduler = true

/-- The list state of a run, with the invariants that joining rests on. -/
theorem run_numbered {storage : TcbPtr → Tcb} {calls : List CallBy} {s : State TcbLinks}
    (h : Run CallStep (State.initial noLinks storage) calls s) :
    ∃ t, Refines s t ∧ Conserved t ∧ Numbered t ∧ Valued calls t := by
  obtain ⟨t, hrun, hr, -⟩ := run_conserved h
  refine ⟨t, hr, ?_⟩
  refine hrun.invariant (I := fun calls t => Conserved t ∧ Numbered t ∧ Valued calls t)
    ⟨.initial storage, .initial storage, fun p hp => absurd hp List.not_mem_nil⟩ ?_
  rintro calls t c t' ⟨hc, hn, hv⟩ hs
  exact ⟨hc.call hs, hn.call hc hs, hv.call hc hs⟩

section Exactness

variable {t : State TcbLists} {p : TcbPtr} {tid : ℕ} {calls : List CallBy}

theorem getTcb_thread (hc : Conserved t) (hn : Numbered t) (hp : (tid, p) ∈ t.handles) :
    Settles (fun fuel => getTcb tid fuel t)
      (.ok (if p ∈ t.queues (.level 0) then some p else none)) := by
  obtain ⟨hmem, rfl, -⟩ := hn.handles tid p hp
  have hinit : t.schedulerInit = true := by
    by_contra hinit
    have := hc.started (by simpa using hinit)
    simp [this] at hmem
  rw [← find_tid hc.toPlaced hn hmem]
  exact getTcb_settles hc.toPlaced.oneLevel (hn.scheduler hinit) _

theorem getTcb_absent (hc : Conserved t) (hn : Numbered t) (hs : t.scheduler = true)
    (habsent : NotHandedOut t tid) : Settles (fun fuel => getTcb tid fuel t) (.ok none) := by
  have hnone : ((t.queues (.level 0)).find? fun r => (t.tcbs r).tid = tid) = none := by
    refine List.find?_eq_none.mpr fun r hr heq => ?_
    have hr' := hc.known _ r hr
    obtain rfl : (t.tcbs r).tid = tid := by simpa using heq
    by_cases hzero : (t.tcbs r).tid = 0
    · simp [habsent.2 hzero] at hr'
    · exact habsent.1 r (hn.handed r hr' hzero)
  rw [← hnone]
  exact getTcb_settles hc.toPlaced.oneLevel hs tid

theorem unblocked_iff (hc : Conserved t) (hp : p ∈ t.threads) :
    (∀ m, p ∉ t.queues (.wait m)) ↔ p ∈ t.queues (.level 0) := by
  constructor
  · intro hfree
    obtain ⟨q, hq⟩ := hc.homed p hp
    cases q with
    | level i =>
      obtain rfl := hc.level i p hq
      exact hq
    | wait m => exact absurd hq (hfree m)
  · intro hlevel m hwait
    cases hc.distinct.apart _ _ p hlevel hwait

theorem joinWorks_iff {L : TcbLinks} (hL : Agrees L t.queues) (hc : Conserved t) (hn : Numbered t)
    (hv : Valued calls t) :
    JoinWorks calls (t.withQueues L) tid ↔ Findable (t.withQueues L) tid := by
  have hget : ∀ fuel, getTcb tid fuel (t.withQueues L) = getTcb tid fuel t :=
    fun fuel => getTcb_refines hL tid fuel
  constructor
  · intro h
    constructor
    · intro p hp m hwait
      have hmem := (hn.handles tid p hp).1
      have hfound := h.found p hp
      have hthread := getTcb_thread hc hn hp
      rw [if_neg fun hlevel => (unblocked_iff hc hmem).mpr hlevel m ((inQueue_iff hL).mp hwait)]
        at hthread
      obtain ⟨n, hsome⟩ := hfound.exists_ok
      rw [hget] at hsome
      cases hthread.eq_of_ok hsome
    · intro habsent
      obtain ⟨n, hnone⟩ := (h.absent habsent).exists_ok
      by_contra hs
      rw [hget, getTcb, if_neg (show ¬ t.scheduler = true from hs)] at hnone
      cases hnone
  · intro h
    have hthread : ∀ p, (tid, p) ∈ t.handles →
        Settles (fun fuel => getTcb tid fuel t) (.ok (some p)) := by
      intro p hp
      have hlevel := (unblocked_iff hc (hn.handles tid p hp).1).mp fun m hwait =>
        h.unblocked p hp m ((inQueue_iff hL).mpr hwait)
      have hthread := getTcb_thread hc hn hp
      rwa [if_pos hlevel] at hthread
    constructor
    · exact fun p hp => Settles.congr hget (hthread p hp)
    · intro p hp fuel hjoin
      rw [myPthreadJoin_refines hL] at hjoin
      obtain ⟨found, hfound, hjoin⟩ := bind_eq_ok.mp hjoin
      obtain rfl := Except.ok.inj ((hthread p hp).eq_of_ok hfound)
      obtain ⟨v, -, hv⟩ := bind_eq_ok.mp hjoin
      cases hv
    · intro p hp v hawait
      unfold awaitTermination at hawait
      split_ifs at hawait with hdead
      rw [← Except.ok.inj hawait]
      exact hv p (hn.handles tid p hp).1 hdead
    · exact fun habsent => Settles.congr hget (getTcb_absent hc hn (h.scheduler habsent) habsent)

end Exactness

/-- Joining works for the threads that are in no wait queue, and for no others. -/
theorem join_works_iff {storage : TcbPtr → Tcb} {calls : List CallBy} {s : State TcbLinks}
    (h : Run CallStep (State.initial noLinks storage) calls s) (tid : ℕ) :
    JoinWorks calls s tid ↔ Findable s tid := by
  obtain ⟨t, ⟨L, hL, rfl⟩, hc, hn, hv⟩ := run_numbered h
  exact joinWorks_iff hL hc hn hv

theorem join_works_contention : ∃ s,
    Run CallStep (State.initial noLinks fun _ => zeroedTcb) contention s ∧
      s.handles = [(1, 1)] ∧ (JoinWorks contention s 1 ↔ Findable s 1) := by
  obtain ⟨s, hrun, hs⟩ := Run.of_runAll (CallBy.exec_step 5) contention
    (State.initial noLinks fun _ => zeroedTcb) (fun s => s.handles) (b := [(1, 1)]) rfl
  exact ⟨s, hrun, hs, join_works_iff hrun 1⟩

/-- The thread that waits for the mutex is not found, and joining it gives `-1`. -/
theorem contention_not_joined : ∃ s,
    Run CallStep (State.initial noLinks fun _ => zeroedTcb) contention s ∧
      (1, 1) ∈ s.handles ∧ getTcb 1 5 s = .ok none ∧ myPthreadJoin 1 5 s = .ok none ∧
      ¬ JoinWorks contention s 1 := by
  obtain ⟨s, hrun, hs⟩ := Run.of_runAll (CallBy.exec_step 5) contention
    (State.initial noLinks fun _ => zeroedTcb)
    (fun s => (s.handles, getTcb 1 5 s, myPthreadJoin 1 5 s))
    (b := ([(1, 1)], .ok none, .ok none)) rfl
  simp only [Prod.mk.injEq] at hs
  obtain ⟨hhandles, hget, hjoin⟩ := hs
  have hmem : (1, 1) ∈ s.handles := by simp [hhandles]
  exact ⟨s, hrun, hmem, hget, hjoin, fun h => h.joined 1 hmem 5 hjoin⟩

end VirtualMemorySimulation.Scheduler

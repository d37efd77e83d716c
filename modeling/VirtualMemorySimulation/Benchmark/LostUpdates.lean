import VirtualMemorySimulation.Benchmark.System

/-!
# No update is lost

A thread that has read the sum and not yet written it back holds the mutex, so no
two threads are there at a time. Whatever signals do, the memory stays consistent
with what the threads would have computed alone.
-/

namespace VirtualMemorySimulation.Benchmark

open Execution LinkedQueue Scheduler SharedUpdates
open scoped BigOperators

section Creation

variable {σ : Type} [QueueStore σ QueuePtr TcbPtr] {s s' : State σ} {p : TcbPtr} {ok : Bool}
  {routine : Routine}

theorem scheduleThread_zero (h : scheduleThread (some p) 0 s = .ok s') :
    ∃ queues, s' = { s.setTcb p { s.tcbs p with priority := 0 } with queues } := by
  unfold scheduleThread at h
  rw [if_neg (by decide)] at h
  obtain ⟨queues, -, h⟩ := bind_eq_ok.mp h
  exact ⟨queues, (Except.ok.inj h).symm⟩

def filled (s : State σ) (p : TcbPtr) (tid : ℕ) (context : Context) : Tcb :=
  { s.tcbs p with tid, context, state := .ready, priority := 0 }

theorem createNode_eq (h : createNode true routine s = .ok (ok, s')) :
    s'.tcbs = Function.update s.tcbs s.frontier
        (filled s s.frontier (s.tid + 1) ⟨s.frontier, .start routine, []⟩) ∧
      s'.threads = s.threads ++ [s.frontier] ∧ s'.cpu = s.cpu ∧ s'.tid = s.tid + 1 := by
  unfold createNode at h
  dsimp only at h
  rw [if_pos rfl] at h
  obtain ⟨u, hu, h⟩ := bind_eq_ok.mp h
  obtain ⟨queues, rfl⟩ := scheduleThread_zero hu
  obtain ⟨-, rfl⟩ := Prod.mk.inj (Except.ok.inj h)
  refine ⟨?_, rfl, rfl, rfl⟩
  clear hu
  funext r
  by_cases hr : r = s.frontier <;>
    simp [State.readyTcb, State.allocateTcb, filled, hr]

theorem createMain_eq (h : createMain true s = .ok (ok, s')) : ok = true ∧
    s'.tcbs = Function.update s.tcbs s.frontier
        (filled s s.frontier s.tid { s.cpu with owner := s.frontier }) ∧
      s'.threads = s.threads ++ [s.frontier] ∧ s'.cpu = { s.cpu with owner := s.frontier } ∧
      s'.tid = s.tid ∧ s'.frontier = s.frontier + 1 := by
  unfold createMain at h
  dsimp only at h
  rw [if_pos rfl] at h
  obtain ⟨u, hu, h⟩ := bind_eq_ok.mp h
  obtain ⟨queues, rfl⟩ := scheduleThread_zero hu
  obtain ⟨hok, rfl⟩ := Prod.mk.inj (Except.ok.inj h)
  refine ⟨hok.symm, ?_, rfl, rfl, rfl, rfl⟩
  clear hu
  funext r
  by_cases hr : r = s.frontier <;>
    simp [State.readyTcb, State.allocateTcb, filled, hr]

/-- A successful creation: the control blocks `first` takes the calling context in, if it is
the first one, and `p` is the new thread's. -/
structure Created (s s' : State σ) (routine : Routine) (first : List TcbPtr) (p : TcbPtr) :
    Prop where
  threads : s'.threads = s.threads ++ first ++ [p]
  taken : s.threads = [] ∧ first.length = 1 ∨ s.threads ≠ [] ∧ first = []
  nodup : s.threads.Nodup → s'.threads.Nodup
  old : ∀ r ∈ s.threads, s'.contextOf r = s.contextOf r ∧ s'.tcbs r = s.tcbs r
  main : ∀ r ∈ first, (s'.tcbs r).tid = 0 ∧ (s'.tcbs r).state = .ready ∧
    (s'.contextOf r).pc = s.cpu.pc
  context : s'.contextOf p = ⟨p, .start routine, []⟩
  node : (s'.tcbs p).tid = s.tid + 1 ∧ (s'.tcbs p).state = .ready
  tid : s'.tid = s.tid + 1

omit [QueueStore σ QueuePtr TcbPtr] in
theorem Created.get {first : List TcbPtr} (h : Created s s' routine first p) {k : ℕ} {r : TcbPtr}
    (hr : s'.threads[k]? = some r) : s.threads[k]? = some r ∨ k = 0 ∧ r ∈ first ∨
      k = (s.threads ++ first).length ∧ r = p := by
  rw [h.threads] at hr
  rcases Nat.lt_or_ge k (s.threads ++ first).length with hlt | hge
  · rw [List.getElem?_append_left hlt] at hr
    rcases h.taken with ⟨hnone, hone⟩ | ⟨-, rfl⟩
    · rw [hnone, List.nil_append] at hr hlt
      exact Or.inr (Or.inl ⟨by omega, List.mem_of_getElem? hr⟩)
    · rw [List.append_nil] at hr
      exact Or.inl hr
  · have hlt := (List.getElem?_eq_some_iff.mp hr).1
    rw [List.length_append, List.length_singleton] at hlt
    have hk : k = (s.threads ++ first).length := by omega
    rw [List.getElem?_append_right hge, hk, Nat.sub_self] at hr
    exact Or.inr (Or.inr ⟨hk, (Option.some.inj hr).symm⟩)

theorem create_created {a : Owners} (h : Owned s a) (hcount : s.tid = 0 ↔ s.threads = [])
    (ht : myPthreadCreate true true routine s = .ok (ok, s')) :
    ∃ first p, Created s s' routine first p := by
  obtain ⟨u, hu, ht⟩ : ∃ u : State σ, (u.tcbs = s.tcbs ∧ u.threads = s.threads ∧ u.cpu = s.cpu ∧
      u.tid = s.tid ∧ u.frontier = s.frontier) ∧
      createThreads true true routine u = .ok (ok, s') := by
    refine ⟨_, ?_, ht⟩
    split_ifs <;> exact ⟨rfl, rfl, rfl, rfl, rfl⟩
  obtain ⟨htcbs, hthreads, hcpu, htid, hfrontier⟩ := hu
  unfold createThreads at ht
  split_ifs at ht with hzero
  · -- the calling context is taken in first
    have hnone : s.threads = [] := hcount.mp (htid ▸ hzero)
    obtain ⟨⟨ok', v⟩, hmain, ht⟩ := bind_eq_ok.mp ht
    obtain ⟨rfl, hvtcbs, hvthreads, hvcpu, hvtid, hvfrontier⟩ := createMain_eq hmain
    obtain ⟨htcbs', hthreads', hcpu', htid'⟩ := createNode_eq ht
    have hne : s.frontier ≠ s.frontier + 1 := (Nat.lt_succ_self _).ne
    refine ⟨[s.frontier], s.frontier + 1, ?_, Or.inl ⟨hnone, rfl⟩, fun _ => ?_, ?_, ?_, ?_, ?_, ?_⟩
    · rw [hthreads', hvthreads, hthreads, hvfrontier, hfrontier]
    · rw [hthreads', hvthreads, hthreads, hvfrontier, hfrontier, hnone]
      simp
    · simp [hnone]
    · intro r hr
      obtain rfl := List.mem_singleton.mp hr
      rw [htcbs', hvtcbs, hvfrontier, hfrontier, Function.update_of_ne hne,
        Function.update_self]
      refine ⟨htid.symm ▸ hzero, rfl, ?_⟩
      rw [State.contextOf, hcpu', hvcpu, hfrontier, if_pos rfl, hcpu]
    · rw [State.contextOf, hcpu', hvcpu, hfrontier, if_neg hne, htcbs', hvfrontier, hfrontier,
        Function.update_self]
      rfl
    · rw [htcbs', hvfrontier, hfrontier, Function.update_self, hvtid, htid]
      exact ⟨rfl, rfl⟩
    · rw [htid', hvtid, htid]
  · have hsome : s.threads ≠ [] := fun hnone => hzero (htid.trans (hcount.mpr hnone))
    obtain ⟨htcbs', hthreads', hcpu', htid'⟩ := createNode_eq ht
    have hlt := h.allocated
    have howner : s.cpu.owner ≠ s.frontier := (hlt _ (h.running hsome)).ne
    refine ⟨[], s.frontier, ?_, Or.inr ⟨hsome, rfl⟩, fun hnodup => ?_, ?_, by simp, ?_, ?_, ?_⟩
    · rw [hthreads', hthreads, hfrontier, List.append_nil]
    · rw [hthreads', hthreads, hfrontier]
      exact hnodup.append (List.nodup_singleton _) (by simpa using fun hmem => (hlt _ hmem).false)
    · intro r hr
      have hr' : s'.tcbs r = s.tcbs r := by
        rw [htcbs', hfrontier, Function.update_of_ne (hlt r hr).ne, htcbs]
      exact ⟨by rw [State.contextOf, State.contextOf, hcpu', hcpu, hr'], hr'⟩
    · rw [State.contextOf, hcpu', hcpu, if_neg howner, htcbs', hfrontier, Function.update_self]
      rfl
    · rw [htcbs', hfrontier, Function.update_self, htid]
      exact ⟨rfl, rfl⟩
    · rw [htid', htid]

theorem call_run {c : ClientCall} (h : EventStep s (.call c) s') : ∃ fuel, c.run fuel s = .ok s' := by
  obtain ⟨fuel, hrun⟩ := h
  change (if s.cpu.pc = .body then _ else _) = _ at hrun
  split_ifs at hrun
  exact ⟨fuel, hrun⟩

theorem create_run (h : EventStep s (.call (.create true true routine)) s') :
    ∃ ok, myPthreadCreate true true routine s = .ok (ok, s') := by
  obtain ⟨fuel, hrun⟩ := call_run h
  obtain ⟨⟨ok, u⟩, hcreate, hu⟩ := bind_eq_ok.mp hrun
  obtain rfl := Except.ok.inj hu
  exact ⟨ok, hcreate⟩

theorem mutexInit_keeps {m : MutexPtr} (h : EventStep s (.call (.mutexInit m)) s') :
    s'.tcbs = s.tcbs ∧ s'.cpu = s.cpu ∧ s'.threads = s.threads ∧ s'.tid = s.tid := by
  obtain ⟨fuel, hrun⟩ := call_run h
  change myPthreadMutexInit m s = _ at hrun
  unfold myPthreadMutexInit at hrun
  split_ifs at hrun <;> obtain rfl := Except.ok.inj hrun <;> exact ⟨rfl, rfl, rfl, rfl⟩

theorem join_run {tid : ℕ} (h : EventStep s (.call (.join tid)) s') :
    s' = s ∨ ∃ node, (∃ fuel, getTcb tid fuel s = .ok (some node)) ∧
      s' = s.setPc (.joinWait node) := by
  obtain ⟨fuel, hrun⟩ := call_run h
  obtain ⟨found, hfound, hjoin⟩ := bind_eq_ok.mp hrun
  cases found with
  | none => exact Or.inl (Except.ok.inj hjoin).symm
  | some node => exact Or.inr ⟨node, ⟨fuel, hfound⟩, (Except.ok.inj hjoin).symm⟩

end Creation

section Locking

/-- Between the call of `my_pthread_mutex_lock` and its return. -/
def Locking : Pc → Prop
  | .lockTest m _ => m = mutex
  | .lockMove m _ => m = mutex
  | .lockPark m _ => m = mutex
  | .lockPause m _ => m = mutex
  | .lockWon m => m = mutex
  | _ => False

/-- The call of `my_pthread_mutex_lock` has been made and not been followed by a release. -/
def Locked (c : Context) : Prop := Locking c.pc ∨ c.pc = .body ∧ mutex ∈ c.held

theorem Locking.interrupted {pc : Pc} (h : Locking pc) : Locking pc.interrupted := by
  cases pc <;> exact h

variable {σ : Type} [QueueStore σ QueuePtr TcbPtr] {s s' : State σ}

/-- A statement in the lock leads on in the lock, or out of it with the mutex; none leads
back to the start of a thread. -/
theorem statement_locked (h : statement s = .ok s') :
    (Locking s.cpu.pc → Locked s'.cpu) ∧ ∀ routine, s'.cpu.pc ≠ .start routine := by
  unfold statement at h
  cases hpc : s.cpu.pc with
  | start routine =>
    rw [hpc] at h
    obtain rfl := Except.ok.inj h
    exact ⟨fun hlock => hlock.elim, by simp⟩
  | lockTest m priority =>
    rw [hpc] at h
    obtain ⟨⟨found, u⟩, -, h⟩ := bind_eq_ok.mp h
    obtain rfl := Except.ok.inj h
    cases found with
    | unlocked => exact ⟨fun hlock => Or.inl hlock, by simp [afterTest]⟩
    | locked => exact ⟨fun hlock => Or.inl hlock, by simp [afterTest]⟩
  | lockMove m priority =>
    rw [hpc] at h
    obtain ⟨u, -, h⟩ := bind_eq_ok.mp h
    obtain rfl := Except.ok.inj h
    exact ⟨fun hlock => Or.inl hlock, by simp⟩
  | lockPark m priority =>
    rw [hpc] at h
    obtain rfl := Except.ok.inj h
    exact ⟨fun hlock => Or.inl hlock, by simp⟩
  | lockWon m =>
    rw [hpc] at h
    obtain rfl := Except.ok.inj h
    refine ⟨fun hlock => Or.inr ⟨rfl, ?_⟩, by simp⟩
    obtain rfl : m = mutex := hlock
    exact List.mem_cons_self
  | unlockRelease m =>
    rw [hpc] at h
    obtain ⟨u, -, h⟩ := bind_eq_ok.mp h
    obtain rfl := Except.ok.inj h
    exact ⟨fun hlock => hlock.elim, by simp⟩
  | unlockDequeue m =>
    rw [hpc] at h
    obtain ⟨⟨node, u⟩, -, h⟩ := bind_eq_ok.mp h
    obtain rfl := Except.ok.inj h
    exact ⟨fun hlock => hlock.elim, by simp⟩
  | unlockSchedule m node =>
    rw [hpc] at h
    obtain ⟨u, -, h⟩ := bind_eq_ok.mp h
    obtain rfl := Except.ok.inj h
    exact ⟨fun hlock => hlock.elim, by simp⟩
  | unlockMark m =>
    rw [hpc] at h
    obtain ⟨u, -, h⟩ := bind_eq_ok.mp h
    obtain rfl := Except.ok.inj h
    exact ⟨fun hlock => hlock.elim, by simp⟩
  | joinWait node =>
    rw [hpc] at h
    obtain ⟨value, -, h⟩ := bind_eq_ok.mp h
    obtain rfl := Except.ok.inj h
    exact ⟨fun hlock => hlock.elim, by simp⟩
  | returned value =>
    rw [hpc] at h
    dsimp only at h
    split_ifs at h <;> obtain rfl := Except.ok.inj h <;>
      exact ⟨fun hlock => hlock.elim, by simp⟩
  | storing value =>
    rw [hpc] at h
    obtain rfl := Except.ok.inj h
    exact ⟨fun hlock => hlock.elim, by simp⟩
  | terminating =>
    rw [hpc] at h
    obtain rfl := Except.ok.inj h
    exact ⟨fun hlock => hlock.elim, by simp⟩
  | body => simp [hpc] at h
  | lockPause m priority => simp [hpc] at h
  | exitPause value => simp [hpc] at h
  | finalPause => simp [hpc] at h
  | ended => simp [hpc] at h

end Locking

/-- What the stage of a worker says about its thread: it is past the start, in the lock once
it has called it, and with the mutex in client code from then until it calls the unlock. -/
structure Fits (w : Worker CInt) (c : Context) : Prop where
  started : ∀ routine, c.pc ≠ .start routine
  entered : w.stage = .entered → Locked c
  inside : w.Inside ∨ w.stage = .leaving → c.pc = .body ∧ mutex ∈ c.held

theorem Fits.interrupted {w : Worker CInt} {c : Context} (h : Fits w c) :
    Fits w { c with pc := c.pc.interrupted } := by
  constructor
  · intro routine hpc
    have hstarted := h.started routine
    cases hc : c.pc <;> simp_all [Pc.interrupted]
  · intro hstage
    rcases h.entered hstage with hlock | ⟨hbody, hheld⟩
    · exact Or.inl hlock.interrupted
    · exact Or.inr ⟨by rw [hbody]; rfl, hheld⟩
  · intro hin
    obtain ⟨hbody, hheld⟩ := h.inside hin
    exact ⟨by rw [hbody]; rfl, hheld⟩

theorem Fits.access {w w' : Worker CInt} {m m' : Memory CInt} {c : Context} (h : Fits w c)
    (hbody : c.pc = .body) (hs : w.step m = some (m', w', .nothing)) : Fits w' c := by
  have hheld : w.stage = .entered → c.pc = .body ∧ mutex ∈ c.held := fun hstage => by
    rcases h.entered hstage with hlock | hheld
    · rw [hbody] at hlock
      exact hlock.elim
    · exact hheld
  refine ⟨h.started, fun hentered => ?_, fun hin => ?_⟩
  · unfold Worker.step at hs
    split at hs <;> cases hs <;> cases hentered
  · unfold Worker.step at hs
    split at hs
    case h_2 c v rest hstage hrest =>
      cases hs
      rcases hin with ⟨r, operand, rest', -, hrest'⟩ | hleaving
      · cases hrest.symm.trans hrest'
      · cases hleaving
    case h_5 operand rest hstage hrest => exact hheld hstage
    case h_7 r operand rest hstage hrest =>
      exact h.inside (Or.inl ⟨r, operand, rest, hstage, hrest⟩)
    all_goals
      cases hs
      try rcases hin with ⟨r, operand, rest', hloaded, -⟩ | hleaving
      all_goals simp_all [Worker.finish]

def AfterFunction : Pc → Prop
  | .returned _ => True
  | .exitPause _ => True
  | .storing _ => True
  | .terminating => True
  | .finalPause => True
  | .ended => True
  | _ => False

theorem Fits.request {σ : Type} [QueueStore σ QueuePtr TcbPtr] {s s' : State σ}
    {w w' : Worker CInt} {m m' : Memory CInt} {r : Request} {c : ClientCall}
    (hs : w.step m = some (m', w', r)) (hr : Request.event r = some (.call c))
    (hcall : EventStep s (.call c) s') : (∃ pc, s' = s.setPc pc) ∧ Fits w' s'.cpu ∧
      (AfterFunction s'.cpu.pc → w'.rest = []) := by
  obtain ⟨fuel, hrun⟩ := hcall
  change (if s.cpu.pc = .body then _ else _) = _ at hrun
  split_ifs at hrun
  unfold Worker.step at hs
  split at hs <;> cases hs <;> cases hr
  case h_1 hstage hrest =>
    change (if s.onMain then _ else _) = _ at hrun
    split_ifs at hrun
    obtain rfl := Except.ok.inj hrun
    refine ⟨⟨_, rfl⟩, ⟨by simp, fun hentered => ?_, fun hin => ?_⟩, fun _ => hrest⟩
    · cases hstage.symm.trans hentered
    · rcases hin with ⟨r, operand, rest', hloaded, -⟩ | hleaving
      · cases hstage.symm.trans hloaded
      · cases hstage.symm.trans hleaving
  case h_4 operand rest hstage hrest =>
    obtain ⟨cur, -, hlock⟩ := bind_eq_ok.mp hrun
    obtain rfl := Except.ok.inj hlock
    refine ⟨⟨_, rfl⟩, ⟨by simp, fun _ => Or.inl rfl, fun hin => ?_⟩, fun hafter => hafter.elim⟩
    rcases hin with ⟨r, operand, rest', hloaded, -⟩ | hleaving
    · cases hloaded
    · cases hleaving
  case h_8 hstage =>
    change (if mutex ∈ s.cpu.held then _ else _) = _ at hrun
    split_ifs at hrun
    obtain rfl := Except.ok.inj hrun
    refine ⟨⟨_, rfl⟩, ⟨by simp, fun hentered => (by cases hentered), fun hin => ?_⟩,
      fun hafter => hafter.elim⟩
    rcases hin with ⟨r, operand, rest', hloaded, -⟩ | hleaving
    · cases hloaded
    · cases hleaving

/-- The thread `p` runs the worker `k`, or will. -/
def Runs {σ : Type} (S : System σ) (k : ℕ) (p : TcbPtr) : Prop :=
  (∃ function, (S.library.contextOf p).pc = .start ⟨function, k⟩) ∧ (S.workers k).stage = .ready ∨
    S.number p = k ∧ Fits (S.workers k) (S.library.contextOf p)

theorem Runs.congr {σ : Type} {S S' : System σ} {k : ℕ} {p : TcbPtr} (h : Runs S k p)
    (hcontext : S'.library.contextOf p = S.library.contextOf p)
    (hworker : S'.workers k = S.workers k) (hnumber : S'.number p = S.number p) : Runs S' k p := by
  unfold Runs at h ⊢
  rwa [hcontext, hworker, hnumber]

def Main.created (P : Program) : Main → ℕ
  | .init => 0
  | .creating i => i
  | .joining _ _ => P.threadNum
  | .printed _ _ => P.threadNum

/-- What every step of a benchmark keeps, whatever signals do. -/
structure Sound {σ : Type} (P : Program) (S : System σ) (a : Owners) : Prop where
  owned : Owned S.library a
  counted : S.library.tid = 0 ↔ S.library.threads = []
  nodup : S.library.threads.Nodup
  bounded : S.main.created P ≤ P.threadNum
  length : S.library.threads.length = if S.main.created P = 0 then 0 else S.main.created P + 1
  runs : ∀ k p, S.library.threads[k + 1]? = some p → Runs S k p
  busy : ∀ k, (S.workers k).stage ≠ .ready → k + 1 < S.library.threads.length
  consistent : Consistent P.owner (Finset.range P.threadNum) S.memory S.workers
  assigned : ∀ k, (S.workers k).finished ++ (S.workers k).rest = P.updates k

namespace Sound

variable {σ : Type} {P : Program} {S S' : System σ} {a : Owners} {k : ℕ} {p : TcbPtr}

theorem initial (P : Program) (queues : σ) (storage : TcbPtr → Tcb) :
    Sound P (.initial P queues storage) fun _ => none where
  owned := .initial queues storage
  counted := by simp [System.initial, State.initial]
  nodup := .nil
  bounded := Nat.zero_le _
  length := rfl
  runs k p h := by simp [System.initial, State.initial] at h
  busy k h := absurd rfl h
  consistent := .start P.within
  assigned _ := rfl

theorem length_le (h : Sound P S a) : S.library.threads.length ≤ P.threadNum + 1 := by
  have hbounded := h.bounded
  rw [h.length]
  split_ifs <;> omega

/-- A worker between the read and the write has the mutex. -/
theorem holds (h : Sound P S a) (hin : (S.workers k).Inside) :
    ∃ p, S.library.threads[k + 1]? = some p ∧ a mutex = some p := by
  have hstage : (S.workers k).stage ≠ .ready := by
    obtain ⟨r, operand, rest, hloaded, -⟩ := hin
    simp [hloaded]
  have hk := h.busy k hstage
  have hp := List.getElem?_eq_getElem hk
  refine ⟨_, hp, ?_⟩
  rcases h.runs k _ hp with ⟨-, hready⟩ | ⟨-, hfits⟩
  · exact absurd hready hstage
  · exact (h.owned.owns _ (List.getElem_mem hk) mutex).mp (Or.inl (hfits.inside (Or.inl hin)).2)

theorem exclusive (h : Sound P S a) : Exclusive S.workers := by
  intro k k' hin hin'
  obtain ⟨p, hp, hown⟩ := h.holds hin
  obtain ⟨p', hp', hown'⟩ := h.holds hin'
  obtain rfl : p = p' := Option.some.inj (hown.symm.trans hown')
  obtain ⟨hk, hkp⟩ := List.getElem?_eq_some_iff.mp hp
  obtain ⟨hk', hkp'⟩ := List.getElem?_eq_some_iff.mp hp'
  have := (h.nodup.getElem_inj_iff).mp (hkp.trans hkp'.symm)
  omega

theorem ne_main (h : Sound P S a) (hmain : S.library.onMain)
    (hp : S.library.threads[k + 1]? = some p) : p ≠ S.library.cpu.owner := by
  have hnodup := h.nodup
  unfold State.onMain at hmain
  cases hthreads : S.library.threads with
  | nil => simp [hthreads] at hp
  | cons q l =>
    rw [hthreads] at hp hnodup hmain
    have hq : q = S.library.cpu.owner := hmain q rfl
    rintro rfl
    exact (List.nodup_cons.mp hnodup).1 (hq ▸ List.mem_of_getElem? hp)

theorem worker (h : Sound P S a) (hmain : ¬ S.library.onMain) :
    ∃ k, S.library.threads[k + 1]? = some S.library.cpu.owner := by
  unfold State.onMain at hmain
  cases hthreads : S.library.threads with
  | nil => simp [hthreads] at hmain
  | cons q l =>
    have hmem := h.owned.running (by simp [hthreads])
    have hq : q ≠ S.library.cpu.owner := by simpa [hthreads] using hmain
    rw [hthreads] at hmem
    obtain ⟨k, hk⟩ := List.getElem?_of_mem ((List.mem_cons.mp hmem).resolve_left (Ne.symm hq))
    exact ⟨k, hk⟩

theorem at_body (h : Sound P S a) (hbody : S.library.cpu.pc = .body)
    (hp : S.library.threads[k + 1]? = some S.library.cpu.owner) :
    S.number S.library.cpu.owner = k ∧ Fits (S.workers k) S.library.cpu := by
  rcases h.runs k _ hp with ⟨⟨function, hpc⟩, -⟩ | hruns
  · rw [contextOf_self, hbody] at hpc
    cases hpc
  · rwa [contextOf_self] at hruns

theorem of_library {a' : Owners} (h : Sound P S a) (howned : Owned S'.library a')
    (hcount : S'.library.tid = 0 ↔ S'.library.threads = [])
    (hthreads : S'.library.threads = S.library.threads)
    (hcreated : S'.main.created P = S.main.created P) (hmemory : S'.memory = S.memory)
    (hworkers : S'.workers = S.workers)
    (hruns : ∀ k p, S.library.threads[k + 1]? = some p → Runs S' k p) : Sound P S' a' where
  owned := howned
  counted := hcount
  nodup := hthreads ▸ h.nodup
  bounded := hcreated ▸ h.bounded
  length := by rw [hthreads, hcreated]; exact h.length
  runs k p hp := hruns k p (hthreads ▸ hp)
  busy := by rw [hthreads, hworkers]; exact h.busy
  consistent := by rw [hmemory, hworkers]; exact h.consistent
  assigned := by rw [hworkers]; exact h.assigned

theorem tick {s : State σ} {a' : Owners} (h : Sound P S a)
    (hs : Rescheduled S.library s) (howned : Owned s a')
    (hcount : s.tid = 0 ↔ s.threads = []) : Sound P { S with library := s } a' := by
  refine h.of_library howned hcount hs.threads ?_ ?_ ?_ fun k p hp => ?_
  · rfl
  · rfl
  · rfl
  rcases hs.contexts p (List.mem_of_getElem? hp) with heq | heq
  · exact (h.runs k p hp).congr heq rfl rfl
  · rcases h.runs k p hp with ⟨⟨function, hpc⟩, hready⟩ | ⟨hnumber, hfits⟩
    · refine Or.inl ⟨⟨function, ?_⟩, hready⟩
      change (s.contextOf p).pc = _
      rw [heq, hpc]
      rfl
    · refine Or.inr ⟨hnumber, ?_⟩
      change Fits _ (s.contextOf p)
      rw [heq]
      exact hfits.interrupted

variable [QueueStore σ QueuePtr TcbPtr]

theorem resume {s : State σ} {a' : Owners} (h : Sound P S a) (hs : statement S.library = .ok s)
    (howned : Owned s a') (hcount : s.tid = 0 ↔ s.threads = []) : Sound P (S.resume s) a' := by
  obtain ⟨hf, -⟩ := statement_acts hs
  obtain ⟨hlock, hstart⟩ := statement_locked hs
  refine h.of_library howned hcount hf.threads ?_ ?_ ?_ fun k p hp => ?_
  · rfl
  · rfl
  · rfl
  by_cases howner : p = S.library.cpu.owner
  · have hcpu : s.contextOf p = s.cpu := by rw [howner, ← hf.owner, contextOf_self]
    have hruns := h.runs k p hp
    rw [Runs, howner, contextOf_self] at hruns
    right
    change (S.resume s).number p = k ∧ Fits (S.workers k) (s.contextOf p)
    rw [hcpu]
    rcases hruns with ⟨⟨function, hpc⟩, hready⟩ | ⟨hnumber, hfits⟩
    · -- the thread has read its number
      refine ⟨by simp [System.resume, hpc, howner], hstart, fun hentered => ?_, fun hin => ?_⟩
      · cases hready.symm.trans hentered
      · rcases hin with ⟨r, operand, rest, hloaded, -⟩ | hleaving
        · cases hready.symm.trans hloaded
        · cases hready.symm.trans hleaving
    · refine ⟨?_, hstart, fun hentered => ?_, fun hin => ?_⟩
      · rw [howner, ← hnumber]
        unfold System.resume
        split
        case h_1 routine hpc => exact absurd hpc (hfits.started routine)
        case h_2 => rfl
      · rcases hfits.entered hentered with hlocking | ⟨hbody, -⟩
        · exact hlock hlocking
        · simp [statement, hbody] at hs
      · simp [statement, (hfits.inside hin).1] at hs
  · have hnumber : (S.resume s).number p = S.number p := by
      unfold System.resume
      split
      · exact Function.update_of_ne howner ..
      · rfl
    have hcontext : (S.resume s).library.contextOf p = S.library.contextOf p :=
      hf.contextOf howner
    exact (h.runs k p hp).congr hcontext rfl hnumber

omit [QueueStore σ QueuePtr TcbPtr] in
theorem works {s : State σ} {a' : Owners} {m : Memory CInt} {w : Worker CInt} {r : Request}
    (h : Sound P S a) (hk : S.library.threads[k + 1]? = some S.library.cpu.owner)
    (hs : (S.workers k).step S.memory = some (m, w, r)) (howned : Owned s a')
    (hcount : s.tid = 0 ↔ s.threads = []) (hthreads : s.threads = S.library.threads)
    (howner : s.cpu.owner = S.library.cpu.owner)
    (hothers : ∀ p, p ≠ S.library.cpu.owner → s.contextOf p = S.library.contextOf p)
    (hnumber : S.number S.library.cpu.owner = k) (hfits : Fits w s.cpu) :
    Sound P { S with library := s, memory := m, workers := Function.update S.workers k w } a' where
  owned := howned
  counted := hcount
  nodup := hthreads ▸ h.nodup
  bounded := h.bounded
  length := by rw [hthreads]; exact h.length
  runs k' p hp := by
    dsimp only at hp
    rw [hthreads] at hp
    by_cases hkk : k' = k
    · subst hkk
      obtain rfl := Option.some.inj (hk.symm.trans hp)
      refine Or.inr ⟨hnumber, ?_⟩
      change Fits (Function.update S.workers k' w k') (s.contextOf S.library.cpu.owner)
      rw [Function.update_self, ← howner, contextOf_self]
      exact hfits
    · have hne : p ≠ S.library.cpu.owner := by
        rintro rfl
        obtain ⟨hlt, hget⟩ := List.getElem?_eq_some_iff.mp hk
        obtain ⟨hlt', hget'⟩ := List.getElem?_eq_some_iff.mp hp
        have := h.nodup.getElem_inj_iff.mp (hget'.trans hget.symm)
        omega
      exact (h.runs k' p hp).congr (hothers p hne) (Function.update_of_ne hkk ..) rfl
  busy k' hstage := by
    dsimp only
    rw [hthreads]
    by_cases hkk : k' = k
    · subst hkk
      exact (List.getElem?_eq_some_iff.mp hk).1
    · dsimp only at hstage
      rw [Function.update_of_ne hkk] at hstage
      exact h.busy k' hstage
  consistent := by
    have hlt := (List.getElem?_eq_some_iff.mp hk).1
    have hle := h.length_le
    exact h.consistent.step h.exclusive (Finset.mem_range.mpr (by omega)) hs
  assigned k' := by
    dsimp only
    by_cases hkk : k' = k
    · subst hkk
      rw [Function.update_self, Worker.step_updates hs]
      exact h.assigned k'
    · rw [Function.update_of_ne hkk]
      exact h.assigned k'

omit [QueueStore σ QueuePtr TcbPtr] in
theorem place {i : ℕ} {s : State σ} (h : Sound P S a) (hmain : S.main = .creating i)
    {first : List TcbPtr} (hc : Created S.library s ⟨0, i⟩ first p) :
    (S.library.threads ++ first).length = i + 1 := by
  have hlength : S.library.threads.length = if i = 0 then 0 else i + 1 := by
    rw [h.length, hmain]
    rfl
  rw [List.length_append]
  rcases hc.taken with ⟨hnone, hone⟩ | ⟨hsome, rfl⟩
  · rw [hnone, List.length_nil] at hlength
    rw [hnone, hone, List.length_nil]
    split_ifs at hlength
    omega
  · have hpos := List.length_pos_of_ne_nil hsome
    rw [List.length_nil]
    split_ifs at hlength
    · omega
    · exact hlength

omit [QueueStore σ QueuePtr TcbPtr] in
theorem create {i : ℕ} {s : State σ} {a' : Owners} (h : Sound P S a)
    (hmain : S.main = .creating i) (hi : i < P.threadNum) (howned : Owned s a')
    (hcount : s.tid = 0 ↔ s.threads = []) {first : List TcbPtr}
    (hc : Created S.library s ⟨0, i⟩ first p) : Sound P { S with
      library := s
      main := .creating (i + 1)
      thread := Function.update S.thread i s.tid } a' := by
  have hplace := h.place hmain hc
  have hlen : s.threads.length = i + 2 := by
    rw [hc.threads, List.length_append, hplace]
    rfl
  have hle : S.library.threads.length ≤ i + 1 := by
    rw [← hplace, List.length_append]
    exact Nat.le_add_right _ _
  refine ⟨howned, hcount, hc.nodup h.nodup, hi, by simp [hlen, Main.created], ?_, ?_,
    h.consistent, h.assigned⟩
  · intro k r hr
    rcases hc.get hr with hold | ⟨hzero, -⟩ | ⟨hk, rfl⟩
    · exact (h.runs k r hold).congr (hc.old r (List.mem_of_getElem? hold)).1 rfl rfl
    · omega
    · obtain rfl : k = i := by omega
      refine Or.inl ⟨⟨0, by rw [hc.context]⟩, ?_⟩
      by_contra hstage
      have := h.busy k hstage
      omega
  · intro k hstage
    have := h.busy k hstage
    dsimp only
    omega

/-- Every step keeps the invariant, whatever signals do. -/
theorem step {action : Action} (h : Sound P S a) (hs : System.Step P FreeStep S action S') :
    ∃ a', Sound P S' a' := by
  -- the owners after an event of the library
  have howned : ∀ {e s}, FreeStep S.library e s →
      ∃ a', Owned s a' ∧ (s.tid = 0 ↔ s.threads = []) := fun hfree => by
    obtain ⟨a', -, ha', hcount⟩ := h.owned.step h.counted hfree
    exact ⟨a', ha', hcount⟩
  cases hs.moves with
  | tick hfree =>
    obtain ⟨a', ha', hcount⟩ := howned hfree
    exact ⟨a', h.tick hfree ha' hcount⟩
  | library _ hfree =>
    obtain ⟨a', ha', hcount⟩ := howned hfree
    obtain ⟨fuel, hrun⟩ := hfree
    exact ⟨a', h.resume hrun ha' hcount⟩
  | @init s hmain hinit hfree =>
    obtain ⟨a', ha', hcount⟩ := howned hfree
    obtain ⟨htcbs, hcpu, hthreads, -⟩ := mutexInit_keeps hfree
    refine ⟨a', h.of_library ha' hcount hthreads ?_ ?_ ?_ fun k p hp => ?_⟩
    · rw [hinit]
      rfl
    · rfl
    · rfl
    · refine (h.runs k p hp).congr ?_ rfl rfl
      change s.contextOf p = _
      rw [State.contextOf, State.contextOf, htcbs, hcpu]
  | create _ hmain hi hfree =>
    obtain ⟨a', ha', hcount⟩ := howned hfree
    obtain ⟨ok, hcreate⟩ := create_run hfree
    obtain ⟨first, p, hc⟩ := create_created h.owned h.counted hcreate
    exact ⟨a', h.create hmain hi ha' hcount hc⟩
  | created hmain hi =>
    refine ⟨a, h.of_library h.owned h.counted rfl ?_ ?_ ?_ h.runs⟩
    · have hbounded := h.bounded
      rw [hmain] at hbounded ⊢
      exact le_antisymm (not_lt.mp hi) hbounded
    · rfl
    · rfl
  | @join i missed s _ hmain hjoining _ hfree =>
    obtain ⟨a', ha', hcount⟩ := howned hfree
    have hf : ByOwner S.library s := by
      rcases join_run hfree with rfl | ⟨node, -, rfl⟩
      · exact (Aside.refl S.library).setPc S.library.cpu.pc
      · exact (Aside.refl S.library).setPc _
    refine ⟨a', h.of_library ha' hcount hf.threads ?_ ?_ ?_ fun k p hp => ?_⟩
    · rw [hjoining]
      rfl
    · rfl
    · rfl
    · exact (h.runs k p hp).congr (hf.contextOf (h.ne_main hmain hp)) rfl rfl
  | print _ _ hmain _ =>
    refine ⟨a, h.of_library h.owned h.counted rfl ?_ ?_ ?_ h.runs⟩
    · rw [hmain]
      rfl
    · rfl
    · rfl
  | access hbody hmain hstep =>
    obtain ⟨k, hk⟩ := h.worker hmain
    obtain ⟨hnumber, hfits⟩ := h.at_body hbody hk
    rw [hnumber] at hstep ⊢
    exact ⟨a, h.works hk hstep h.owned h.counted rfl rfl (fun _ _ => rfl) hnumber
      (hfits.access hbody hstep)⟩
  | request hbody hmain hstep hr hfree =>
    obtain ⟨a', ha', hcount⟩ := howned hfree
    obtain ⟨k, hk⟩ := h.worker hmain
    obtain ⟨hnumber, -⟩ := h.at_body hbody hk
    rw [hnumber] at hstep ⊢
    obtain ⟨⟨pc, rfl⟩, hfits, -⟩ := Fits.request hstep hr hfree
    have hf := (Aside.refl S.library).setPc pc
    exact ⟨a', h.works hk hstep ha' hcount hf.threads hf.owner (fun p hp => hf.contextOf hp)
      hnumber hfits⟩

end Sound

section Runs

variable {σ : Type} [QueueStore σ QueuePtr TcbPtr] {P : Program} {S : System σ} {queues : σ}
  {storage : TcbPtr → Tcb} {actions : List Action}

theorem run_sound
    (h : Run (System.Step P FreeStep) (.initial P queues storage) actions S) :
    ∃ a, Sound P S a := by
  apply h.invariant (I := fun _ S => ∃ a, Sound P S a)
  · exact ⟨_, .initial P queues storage⟩
  · rintro _ S action S' ⟨a, ha⟩ hs
    exact ha.step hs

/-- The sum holds what the finished updates of all threads have added, and each cell what
those of its owner have put there, at every moment. -/
theorem no_update_lost
    (h : Run (System.Step P FreeStep) (.initial P queues storage) actions S) :
    S.memory.total = ∑ k ∈ Finset.range P.threadNum, (runUpdates (S.workers k).finished).total ∧
      (∀ c, S.memory.cells c = (runUpdates (S.workers (P.owner c)).finished).cells c) ∧
      ∀ k, (S.workers k).finished ++ (S.workers k).rest = P.updates k := by
  obtain ⟨a, ha⟩ := run_sound h
  exact ⟨ha.consistent.total, ha.consistent.cells, ha.assigned⟩

omit [QueueStore σ QueuePtr TcbPtr] in
theorem step_library {lib : State σ → Event → State σ → Prop} {S' : System σ} {a : Action}
    (h : System.Step P lib S a S') :
    S'.library = S.library ∨ ∃ e, lib S.library e S'.library := by
  cases h.moves with
  | tick hlib => exact Or.inr ⟨_, hlib⟩
  | library _ hlib => exact Or.inr ⟨_, hlib⟩
  | init _ _ hlib => exact Or.inr ⟨_, hlib⟩
  | create _ _ _ hlib => exact Or.inr ⟨_, hlib⟩
  | created => exact Or.inl rfl
  | join _ _ _ _ hlib => exact Or.inr ⟨_, hlib⟩
  | print => exact Or.inl rfl
  | access => exact Or.inl rfl
  | request _ _ _ _ hlib => exact Or.inr ⟨_, hlib⟩

theorem run_library (h : Run (System.Step P EventStep) (.initial P queues storage) actions S) :
    ∃ events, Run EventStep (State.initial queues storage) events S.library := by
  induction h with
  | nil => exact ⟨[], .nil⟩
  | snoc _ hs ih =>
    obtain ⟨events, hrun⟩ := ih
    rcases step_library hs with heq | ⟨e, he⟩
    · exact ⟨events, heq ▸ hrun⟩
    · exact ⟨_, hrun.snoc he⟩

end Runs

/-- Runs under `signal_handler` are among the runs under any scheduler. -/
theorem run_any {P : Program} {S : System TcbLinks} {storage : TcbPtr → Tcb}
    {actions : List Action}
    (h : Run (System.Step P EventStep) (.initial P noLinks storage) actions S) :
    Run (System.Step P FreeStep) (.initial P noLinks storage) actions S := by
  induction h with
  | nil => exact .nil
  | snoc hrun hs ih =>
    obtain ⟨events, hlibrary⟩ := run_library hrun
    obtain ⟨t, -, hr, ht⟩ := run_steady hlibrary
    obtain ⟨e, after, he, s, hlib, hrest⟩ := hs
    exact ih.snoc ⟨e, after, he, s, fun e' he' => (hlib e' he').free hr ht, hrest⟩

/-- Steps with a signal between any two bursts of them. -/
def bursts (lengths : List ℕ) : List Action :=
  (lengths.zipIdx.flatMap fun (n, i) => .tick ⟨i, 0⟩ ⟨i, 0⟩ :: List.replicate n .next).tail

def smallRows : Program := parallelCalProgram 2 2 2 fun j i => BitVec.ofNat 32 (10 * j + i + 1)

/-- A signal finds the first thread with its row added up and the sum read and not yet written.
The second one has added its row up and has to wait. -/
theorem no_update_lost_smallRows : ∃ S : System TcbLinks,
    Run (System.Step smallRows FreeStep) (.initial smallRows noLinks fun _ => zeroedTcb)
      (bursts [4, 9, 9]) S ∧
      ((S.workers 0).stage = .loaded 0 ∧ S.library.cpu = ⟨2, .lockPause mutex 0, []⟩ ∧
        S.memory.cells 0 = 2 ∧ S.memory.cells 1 = 12) ∧
      S.memory.total =
        ∑ k ∈ Finset.range smallRows.threadNum, (runUpdates (S.workers k).finished).total ∧
      (∀ c, S.memory.cells c = (runUpdates (S.workers (smallRows.owner c)).finished).cells c) ∧
      ∀ k, (S.workers k).finished ++ (S.workers k).rest = smallRows.updates k := by
  obtain ⟨S, hrun, hS⟩ := Run.of_runAll (System.exec_step smallRows 5) (bursts [4, 9, 9])
    (.initial smallRows noLinks fun _ => zeroedTcb)
    (fun S : System TcbLinks =>
      ((S.workers 0).stage, S.library.cpu, S.memory.cells 0, S.memory.cells 1))
    (b := (.loaded 0, ⟨2, .lockPause mutex 0, []⟩, 2, 12)) (by decide +kernel)
  simp only [Prod.mk.injEq] at hS
  exact ⟨S, run_any hrun, hS, no_update_lost (run_any hrun)⟩

end VirtualMemorySimulation.Benchmark

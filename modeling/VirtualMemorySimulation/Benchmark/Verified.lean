import VirtualMemorySimulation.Benchmark.LostUpdates
import VirtualMemorySimulation.Scheduler.Join

/-!
# The printed sum is the verified one

Under `signal_handler` a thread is `TERMINATED` only after its function has
returned, and ids lead to the threads they were given to. So a `main` whose joins
have all found their threads prints what `verify` computes.
-/

namespace VirtualMemorySimulation.Benchmark

open Execution LinkedQueue Scheduler SharedUpdates
open scoped BigOperators

def Ended {σ : Type} (s : State σ) (p : TcbPtr) : Prop :=
  (s.tcbs p).state = .terminated ∨ AfterFunction (s.contextOf p).pc

theorem AfterFunction.of_interrupted {pc : Pc} (h : AfterFunction pc.interrupted) :
    AfterFunction pc := by
  cases pc <;> exact h

/-- What a step of the library that creates no thread does, as far as joins depend on it. The
functions of some threads return. -/
structure Proceeds {σ : Type} (returning : TcbPtr → Prop) (s s' : State σ) : Prop where
  threads : s'.threads = s.threads
  tid : s'.tid = s.tid
  tids : ∀ p, (s'.tcbs p).tid = (s.tcbs p).tid
  ended : ∀ p, Ended s' p → Ended s p ∨ returning p
  waiting : ∀ p q, (s.contextOf p).pc = .joinWait q →
    (s'.contextOf p).pc = .joinWait q ∨ (s.tcbs q).state = .terminated

section Library

variable {t t' : State TcbLists}

theorem tick_proceeds {now start : Time} {fuel : ℕ} (h : Placed t)
    (ht : tick now start fuel t = .ok t') : Proceeds (fun _ => False) t t' := by
  obtain ⟨-, hf, -⟩ := tick_outcome h ht
  refine ⟨hf.threads, hf.tid, fun p => (hf.tcbs p).tid, fun p hended => ?_, fun p q hpc => ?_⟩
  · left
    rcases hended with hdead | hafter
    · exact Or.inl ((hf.tcbs p).terminated.mp hdead)
    · rw [hf.context] at hafter
      rcases interrupt_contextOf t p with heq | heq
      · rw [heq] at hafter
        exact Or.inr hafter
      · rw [heq] at hafter
        exact Or.inr hafter.of_interrupted
  · left
    rw [hf.context]
    rcases interrupt_contextOf t p with heq | heq
    · rw [heq, hpc]
    · rw [heq, hpc]
      rfl

theorem executes_after (he : Executes t t') : (AfterFunction t'.cpu.pc → AfterFunction t.cpu.pc) ∧
    ∀ p, (t'.tcbs p).tid = (t.tcbs p).tid ∧ ((t'.tcbs p).state = .terminated →
      (t.tcbs p).state = .terminated ∨ p = t.cpu.owner ∧ AfterFunction t.cpu.pc) := by
  have hset : ∀ (r : TcbPtr) (tcb : Tcb), tcb.tid = (t.tcbs r).tid →
      (tcb.state = .terminated → (t.tcbs r).state = .terminated ∨
        r = t.cpu.owner ∧ AfterFunction t.cpu.pc) →
      ∀ p, ((t.setTcb r tcb).tcbs p).tid = (t.tcbs p).tid ∧
        (((t.setTcb r tcb).tcbs p).state = .terminated → (t.tcbs p).state = .terminated ∨
          p = t.cpu.owner ∧ AfterFunction t.cpu.pc) := by
    intro r tcb htid hstate p
    by_cases hp : p = r
    · subst hp
      simpa using ⟨htid, hstate⟩
    · simpa [hp] using Or.inl
  cases he with
  | start hpc => exact ⟨fun h => h.elim, hset _ _ rfl (by simp)⟩
  | @test m priority found hpc =>
    refine ⟨fun h => ?_, fun p => ⟨rfl, Or.inl⟩⟩
    cases found <;> exact h.elim
  | wake hpc => exact ⟨fun h => h.elim, hset _ _ rfl Or.inl⟩
  | exited hpc => exact ⟨fun _ => by rw [hpc]; trivial, fun p => ⟨rfl, Or.inl⟩⟩
  | notExited hpc => exact ⟨fun _ => by rw [hpc]; trivial, fun p => ⟨rfl, Or.inl⟩⟩
  | store hpc => exact ⟨fun _ => by rw [hpc]; trivial, hset _ _ rfl Or.inl⟩
  | terminate hpc =>
    have hafter : AfterFunction t.cpu.pc := by rw [hpc]; trivial
    exact ⟨fun _ => hafter, hset _ _ rfl fun _ => Or.inr ⟨rfl, hafter⟩⟩
  | _ => exact ⟨fun h => h.elim, fun p => ⟨rfl, Or.inl⟩⟩

theorem statement_proceeds (h : statement t = .ok t') : Proceeds (fun _ => False) t t' := by
  have he := statement_executes h
  have hlocal := he.local
  obtain ⟨hafter, htcbs⟩ := executes_after he
  have hcontext : ∀ p, p = t.cpu.owner ∧ t'.contextOf p = t'.cpu ∧ t.contextOf p = t.cpu ∨
      t'.contextOf p = t.contextOf p := by
    intro p
    by_cases hp : p = t.cpu.owner
    · subst hp
      exact Or.inl ⟨rfl, hlocal.owner ▸ contextOf_self t', contextOf_self t⟩
    · exact Or.inr (hlocal.contextOf hp)
  refine ⟨hlocal.threads, hlocal.tid, fun p => (htcbs p).1, fun p hended => ?_, fun p q hpc => ?_⟩
  · left
    rcases hended with hdead | hend
    · rcases (htcbs p).2 hdead with hdead' | ⟨rfl, hend⟩
      · exact Or.inl hdead'
      · exact Or.inr (by rwa [contextOf_self])
    · rcases hcontext p with ⟨-, hcpu', hcpu⟩ | hsame
      · rw [hcpu'] at hend
        exact Or.inr (hcpu ▸ hafter hend)
      · rw [hsame] at hend
        exact Or.inr hend
  · rcases hcontext p with ⟨-, -, hcpu⟩ | hsame
    · -- the loop of the join is left only when the thread has terminated
      right
      rw [hcpu] at hpc
      unfold statement at h
      rw [hpc] at h
      obtain ⟨value, hvalue, -⟩ := bind_eq_ok.mp h
      unfold awaitTermination at hvalue
      split_ifs at hvalue with hdead
      exact hdead
    · exact Or.inl (hsame ▸ hpc)

theorem getTcb_tid {tid fuel : ℕ} {p : TcbPtr} (h : Placed t)
    (hget : getTcb tid fuel t = .ok (some p)) : p ∈ t.threads ∧ (t.tcbs p).tid = tid := by
  refine ⟨getTcb_mem h hget, ?_⟩
  have hs : t.scheduler = true := by
    unfold getTcb at hget
    split_ifs at hget with hs
    exact hs
  have hfind := Except.ok.inj ((getTcb_settles h.oneLevel hs tid).eq_of_ok hget)
  simpa using List.find?_some hfind

theorem event_proceeds {s s' : State TcbLinks} {e : Event} (hr : Refines s t) (ht : Steady t)
    (hs : EventStep s e s') (hcall : ∀ c, e ≠ .call c) : Proceeds (fun _ => False) s s' := by
  obtain ⟨t', ⟨fuel, hrun⟩, ⟨L', -, rfl⟩, -⟩ := hs.simulates hr ht
  obtain ⟨L, -, rfl⟩ := hr
  have hlists : Proceeds (fun _ => False) t t' := by
    cases e with
    | tick now start => exact tick_proceeds ht.toPlaced hrun
    | call c => exact absurd rfl (hcall c)
    | next => exact statement_proceeds hrun
  exact ⟨hlists.threads, hlists.tid, hlists.tids, hlists.ended, hlists.waiting⟩

theorem setPc_proceeds {σ : Type} {s : State σ} (hbody : s.cpu.pc = .body) (pc : Pc) :
    Proceeds (fun p => p = s.cpu.owner ∧ AfterFunction pc) s (s.setPc pc) := by
  have hf := (Aside.refl s).setPc pc
  refine ⟨rfl, rfl, fun _ => rfl, fun p hended => ?_, fun p q hpc => ?_⟩
  · rcases hended with hdead | hafter
    · exact Or.inl (Or.inl hdead)
    · by_cases hp : p = s.cpu.owner
      · have hself : (s.setPc pc).contextOf s.cpu.owner = (s.setPc pc).cpu :=
          contextOf_self (s.setPc pc)
        rw [hp, hself] at hafter
        exact Or.inr ⟨hp, hafter⟩
      · rw [hf.contextOf hp] at hafter
        exact Or.inl (Or.inr hafter)
  · by_cases hp : p = s.cpu.owner
    · rw [hp, contextOf_self, hbody] at hpc
      cases hpc
    · exact Or.inl (by rwa [hf.contextOf hp])

end Library

/-- What `main` has been told: a thread that it has joined is done, or it waits for it. -/
def Told {σ : Type} (P : Program) (S : System σ) : Prop :=
  match S.main with
  | .joining i false => ∀ k < i, (S.workers k).rest = [] ∨ ∃ p q, S.library.threads[0]? = some p ∧
      S.library.threads[k + 1]? = some q ∧ (S.library.contextOf p).pc = .joinWait q
  | .printed false sum =>
    sum = ∑ k ∈ Finset.range P.threadNum, (runUpdates (P.updates k)).total
  | _ => True

/-- Ids are the places of the threads, and threads that have ended are done. -/
structure Tracked {σ : Type} (P : Program) (S : System σ) : Prop where
  tids : ∀ k p, S.library.threads[k]? = some p → (S.library.tcbs p).tid = k
  tid : S.library.tid = S.main.created P
  thread : ∀ i < S.main.created P, S.thread i = i + 1
  ended : ∀ k p, S.library.threads[k + 1]? = some p → Ended S.library p →
    (S.workers k).rest = []
  told : Told P S

namespace Tracked

variable {σ : Type} {P : Program} {S S' : System σ} {k : ℕ}

theorem initial (P : Program) (queues : σ) (storage : TcbPtr → Tcb) :
    Tracked P (.initial P queues storage) where
  tids k p h := by simp [System.initial, State.initial] at h
  tid := rfl
  thread i h := absurd h (Nat.not_lt_zero i)
  ended k p h := by simp [System.initial, State.initial] at h
  told := trivial

theorem proceeds {returning : TcbPtr → Prop} (h : Tracked P S)
    (hp : Proceeds returning S.library S'.library)
    (hcreated : S'.main.created P = S.main.created P) (hthread : S'.thread = S.thread)
    (hrest : ∀ k, (S.workers k).rest = [] → (S'.workers k).rest = [])
    (hreturning : ∀ k p, S.library.threads[k + 1]? = some p → returning p →
      (S'.workers k).rest = []) (htold : Told P S') : Tracked P S' where
  tids k p hk := by
    rw [hp.threads] at hk
    rw [hp.tids]
    exact h.tids k p hk
  tid := by
    rw [hp.tid, hcreated]
    exact h.tid
  thread i hi := by
    rw [hcreated] at hi
    rw [hthread]
    exact h.thread i hi
  ended k p hk hended := by
    rw [hp.threads] at hk
    rcases hp.ended p hended with hend | hreturn
    · exact hrest k (h.ended k p hk hend)
    · exact hreturning k p hk hreturn
  told := htold

/-- What `main` has been told stays true. -/
theorem told_proceeds {returning : TcbPtr → Prop} (h : Tracked P S)
    (hp : Proceeds returning S.library S'.library) (hmain : S'.main = S.main)
    (hrest : ∀ k, (S.workers k).rest = [] → (S'.workers k).rest = []) : Told P S' := by
  have htold := h.told
  unfold Told at htold ⊢
  rw [hmain]
  split
  case h_1 i heq =>
    rw [heq] at htold
    intro k hk
    rcases htold k hk with hdone | ⟨p, q, hmainThread, hq, hpc⟩
    · exact Or.inl (hrest k hdone)
    · rw [hp.threads]
      rcases hp.waiting p q hpc with hpc' | hdead
      · exact Or.inr ⟨p, q, hmainThread, hq, hpc'⟩
      · exact Or.inl (hrest k (h.ended k q hq (Or.inl hdead)))
  case h_2 sum heq =>
    rw [heq] at htold
    exact htold
  case h_3 => trivial

/-- In its own code `main` waits for nobody: all that it has joined are done. -/
theorem joined {i : ℕ} (h : Tracked P S) (hbody : S.library.cpu.pc = .body) (hmain : S.library.onMain)
    (hjoining : S.main = .joining i false) : ∀ k < i, (S.workers k).rest = [] := by
  have htold := h.told
  unfold Told at htold
  rw [hjoining] at htold
  intro k hk
  rcases htold k hk with hdone | ⟨p, q, hp, -, hpc⟩
  · exact hdone
  · have howner : p = S.library.cpu.owner := hmain p (by rwa [List.head?_eq_getElem?])
    rw [howner, contextOf_self, hbody] at hpc
    cases hpc

theorem create {a : Owners} {i : ℕ} {s : State σ} {first : List TcbPtr} {p : TcbPtr}
    (h : Tracked P S) (hs : Sound P S a) (hmain : S.main = .creating i)
    (hc : Created S.library s ⟨0, i⟩ first p) : Tracked P { S with
      library := s
      main := .creating (i + 1)
      thread := Function.update S.thread i s.tid } := by
  have htid : S.library.tid = i := by
    rw [h.tid, hmain]
    rfl
  have hplace := hs.place hmain hc
  refine ⟨fun k r hr => ?_, ?_, fun j hj => ?_, fun k r hr hended => ?_, trivial⟩
  · rcases hc.get hr with hold | ⟨rfl, hfirst⟩ | ⟨rfl, rfl⟩
    · change (s.tcbs r).tid = k
      rw [(hc.old r (List.mem_of_getElem? hold)).2]
      exact h.tids k r hold
    · exact (hc.main r hfirst).1
    · rw [hplace, ← htid]
      exact hc.node.1
  · change s.tid = i + 1
    rw [hc.tid, htid]
  · change Function.update S.thread i s.tid j = j + 1
    by_cases hji : j = i
    · subst hji
      rw [Function.update_self, hc.tid, htid]
    · rw [Function.update_of_ne hji]
      have hlt : j < i + 1 := hj
      apply h.thread
      rw [hmain]
      exact lt_of_le_of_ne (Nat.le_of_lt_succ hlt) hji
  · rcases hc.get hr with hold | ⟨hzero, -⟩ | ⟨-, rfl⟩
    · obtain ⟨hcontext, htcb⟩ := hc.old r (List.mem_of_getElem? hold)
      refine h.ended k r hold ?_
      unfold Ended at hended ⊢
      rwa [hcontext, htcb] at hended
    · omega
    · rcases hended with hdead | hafter
      · cases hc.node.2.symm.trans hdead
      · change AfterFunction (s.contextOf r).pc at hafter
        rw [hc.context] at hafter
        exact hafter.elim

end Tracked

theorem rest_updated {S : System σ} {n : ℕ} {m m' : Memory CInt} {w : Worker CInt} {r : Request}
    (hs : (S.workers n).step m = some (m', w, r)) (k : ℕ) (hk : (S.workers k).rest = []) :
    (Function.update S.workers n w k).rest = [] := by
  by_cases heq : k = n
  · subst heq
    rw [Function.update_self]
    exact Worker.step_done hs hk
  · rwa [Function.update_of_ne heq]

/-- Every step under `signal_handler` keeps track. -/
theorem tracked_step {P : Program} {S S' : System TcbLinks} {action : Action} {a : Owners}
    {t : State TcbLists} (hr : Refines S.library t) (ht : Steady t) (hsound : Sound P S a)
    (h : Tracked P S) (hs : System.Step P EventStep S action S') : Tracked P S' := by
  have hstill : ∀ {s : State TcbLinks}, s.tcbs = S.library.tcbs → s.cpu = S.library.cpu →
      s.threads = S.library.threads → s.tid = S.library.tid →
      Proceeds (fun _ => False) S.library s := by
    intro s htcbs hcpu hthreads htid
    have hcontext : s.contextOf = S.library.contextOf := by
      funext p
      rw [State.contextOf, State.contextOf, htcbs, hcpu]
    refine ⟨hthreads, htid, fun p => by rw [htcbs], fun p hended => ?_, fun p q hpc => ?_⟩
    · rw [Ended, htcbs, hcontext] at hended
      exact Or.inl hended
    · exact Or.inl (by rwa [hcontext])
  cases hs.moves with
  | tick hlib =>
    have hp := event_proceeds hr ht hlib (by simp)
    exact h.proceeds hp rfl rfl (fun _ => id) (fun _ _ _ => False.elim)
      (h.told_proceeds hp rfl fun _ => id)
  | library _ hlib =>
    have hp := event_proceeds hr ht hlib (by simp)
    exact h.proceeds hp rfl rfl (fun _ => id) (fun _ _ _ => False.elim)
      (h.told_proceeds hp rfl fun _ => id)
  | init _ hinit hlib =>
    obtain ⟨htcbs, hcpu, hthreads, htid⟩ := mutexInit_keeps hlib
    exact h.proceeds (hstill htcbs hcpu hthreads htid) (by rw [hinit]; rfl) rfl (fun _ => id)
      (fun _ _ _ => False.elim) trivial
  | create _ hmain hi hlib =>
    obtain ⟨ok, hcreate⟩ := create_run hlib
    obtain ⟨first, p, hc⟩ := create_created hsound.owned hsound.counted hcreate
    exact h.create hsound hmain hc
  | created hmain hi =>
    have hbounded := hsound.bounded
    rw [hmain] at hbounded
    exact h.proceeds (hstill rfl rfl rfl rfl)
      (by rw [hmain]; exact le_antisymm (not_lt.mp hi) hbounded) rfl (fun _ => id)
      (fun _ _ _ => False.elim) fun k hk => absurd hk (Nat.not_lt_zero k)
  | @join i missed s hbody hmain hjoining hi hlib =>
    have hcreated : S.main.created P = P.threadNum := by
      rw [hjoining]
      rfl
    rcases join_run hlib with rfl | ⟨node, ⟨fuel, hget⟩, rfl⟩
    · refine h.proceeds (hstill rfl rfl rfl rfl) hcreated.symm rfl (fun _ => id)
        (fun _ _ _ => False.elim) ?_
      simp [Told, hbody]
    · refine h.proceeds (setPc_proceeds hbody _) hcreated.symm rfl (fun _ => id)
        (fun _ _ _ hreturn => hreturn.2.elim) ?_
      cases missed with
      | true => trivial
      | false =>
        -- the lookup has led to the thread whose id it was
        obtain ⟨L, hL, hlibrary⟩ := hr
        rw [hlibrary, getTcb_refines hL] at hget
        obtain ⟨hnode, htid⟩ := getTcb_tid ht.toPlaced hget
        have hthreads : S.library.threads = t.threads := by rw [hlibrary]; rfl
        obtain ⟨j, hj⟩ := List.getElem?_of_mem (hthreads ▸ hnode)
        have hplace : j = i + 1 := by
          rw [← h.tids j node hj, ← h.thread i (hcreated.symm ▸ hi), ← htid, hlibrary]
          rfl
        have hfirst : S.library.threads[0]? = some S.library.cpu.owner := by
          cases hall : S.library.threads with
          | nil => simp [hall] at hj
          | cons p l =>
            rw [State.onMain, hall] at hmain
            exact congrArg some (hmain p rfl)
        intro k hk
        by_cases hki : k = i
        · subst hki
          exact Or.inr ⟨_, node, hfirst, hplace ▸ hj,
            congrArg Context.pc (contextOf_self (S.library.setPc (.joinWait node)))⟩
        · exact Or.inl (h.joined hbody hmain hjoining k (by omega))
  | @print i missed hbody hmain hjoining hi =>
    refine h.proceeds (hstill rfl rfl rfl rfl) (by rw [hjoining]; rfl) rfl (fun _ => id)
      (fun _ _ _ => False.elim) ?_
    cases missed with
    | true => trivial
    | false =>
      refine hsound.consistent.total_of_done hsound.assigned fun k hk => ?_
      have hlt := Finset.mem_range.mp hk
      exact h.joined hbody hmain hjoining k (by omega)
  | @access memory w hbody hmain hstep =>
    have hrest := rest_updated hstep
    have hp := hstill rfl rfl rfl rfl
    exact h.proceeds hp rfl rfl hrest (fun _ _ _ => False.elim) (h.told_proceeds hp rfl hrest)
  | @request memory w r c s hbody hmain hstep hreq hlib =>
    have hrest := rest_updated hstep
    obtain ⟨⟨pc, rfl⟩, -, hafter⟩ := Fits.request hstep hreq hlib
    have hp := setPc_proceeds hbody pc
    refine h.proceeds hp rfl rfl hrest (fun k p hk hreturn => ?_) (h.told_proceeds hp rfl hrest)
    obtain ⟨rfl, hend⟩ := hreturn
    obtain ⟨hnumber, -⟩ := hsound.at_body hbody hk
    change (Function.update S.workers (S.number S.library.cpu.owner) w k).rest = []
    rw [← hnumber, Function.update_self]
    exact hafter hend

theorem run_tracked {P : Program} {S : System TcbLinks} {storage : TcbPtr → Tcb}
    {actions : List Action}
    (h : Run (System.Step P EventStep) (.initial P noLinks storage) actions S) : Tracked P S := by
  induction h with
  | nil => exact .initial P noLinks storage
  | snoc hrun hs ih =>
    obtain ⟨events, hlibrary⟩ := run_library hrun
    obtain ⟨t, -, hr, ht⟩ := run_steady hlibrary
    obtain ⟨a, ha⟩ := run_sound (run_any hrun)
    exact tracked_step hr ht ha ih hs

theorem printed_sum {P : Program} {S : System TcbLinks} {storage : TcbPtr → Tcb}
    {actions : List Action} {sum : CInt}
    (h : Run (System.Step P EventStep) (.initial P noLinks storage) actions S)
    (hprinted : S.main = .printed false sum) :
    sum = ∑ k ∈ Finset.range P.threadNum, (runUpdates (P.updates k)).total := by
  have htold := (run_tracked h).told
  unfold Told at htold
  rwa [hprinted] at htold

section Programs

variable {S : System TcbLinks} {storage : TcbPtr → Tcb} {actions : List Action} {sum : CInt}
  {threadNum : ℕ}

/-- `vectorMultiply` prints the verified result. -/
theorem vectorMultiply_prints_verified (hthreads : 0 < threadNum) {vectorSize : ℕ}
    {r s : ℕ → CInt}
    (h : Run (System.Step (vectorMultiplyProgram vectorSize threadNum r s) EventStep)
      (.initial (vectorMultiplyProgram vectorSize threadNum r s) noLinks storage) actions S)
    (hprinted : S.main = .printed false sum) : sum = Verify.vectorMultiply vectorSize r s :=
  (printed_sum h hprinted).trans (vectorMultiply_verify hthreads vectorSize r s)

def smallVectors : Program :=
  vectorMultiplyProgram 4 2 (fun i => BitVec.ofNat 32 (i + 1)) fun i => BitVec.ofNat 32 (i + 2)

/-- Two threads that have to wait for each other's unlocks. -/
theorem vectorMultiply_prints_verified_contended : ∃ S : System TcbLinks,
    Run (System.Step smallVectors EventStep) (.initial smallVectors noLinks fun _ => zeroedTcb)
      (bursts [4, 8, 8, 1, 8, 8, 1, 8, 8, 1, 4]) S ∧ S.main = .printed false 40 ∧
      (40 : CInt) = Verify.vectorMultiply 4 (fun i => BitVec.ofNat 32 (i + 1))
        fun i => BitVec.ofNat 32 (i + 2) := by
  obtain ⟨S, hrun, hS⟩ := Run.of_runAll (System.exec_step smallVectors 5)
    (bursts [4, 8, 8, 1, 8, 8, 1, 8, 8, 1, 4])
    (.initial smallVectors noLinks fun _ => zeroedTcb)
    (fun S : System TcbLinks => S.main) (b := .printed false 40) (by decide +kernel)
  exact ⟨S, hrun, hS, vectorMultiply_prints_verified (by decide) hrun hS⟩

/-- `parallelCal` prints the verified sum. -/
theorem parallelCal_prints_verified (hthreads : 0 < threadNum) {rSize cSize : ℕ}
    {a : ℕ → ℕ → CInt}
    (h : Run (System.Step (parallelCalProgram rSize cSize threadNum a) EventStep)
      (.initial (parallelCalProgram rSize cSize threadNum a) noLinks storage) actions S)
    (hprinted : S.main = .printed false sum) : sum = Verify.parallelCal rSize cSize a :=
  (printed_sum h hprinted).trans (parallelCalculate_verify hthreads rSize cSize a)

theorem parallelCal_prints_verified_smallRows : ∃ S : System TcbLinks,
    Run (System.Step smallRows EventStep) (.initial smallRows noLinks fun _ => zeroedTcb)
      (bursts [4, 9, 9, 9, 1, 3, 9, 4, 2]) S ∧ S.main = .printed false 14 ∧
      (14 : CInt) =
        Verify.parallelCal 2 2 fun j i => BitVec.ofNat 32 (10 * j + i + 1) := by
  obtain ⟨S, hrun, hS⟩ := Run.of_runAll (System.exec_step smallRows 5)
    (bursts [4, 9, 9, 9, 1, 3, 9, 4, 2]) (.initial smallRows noLinks fun _ => zeroedTcb)
    (fun S : System TcbLinks => S.main) (b := .printed false 14) (by decide +kernel)
  exact ⟨S, hrun, hS, parallelCal_prints_verified (by decide) hrun hS⟩

/-- A join that meets its thread in the queue of the mutex returns `-1`, and `main` prints a sum
that is not the verified one. -/
theorem parallelCal_missed : ∃ S : System TcbLinks,
    Run (System.Step smallRows EventStep) (.initial smallRows noLinks fun _ => zeroedTcb)
      (bursts [4, 7, 7, 1, 7, 2, 5, 3]) S ∧ S.main = .printed true 2 ∧
      Verify.parallelCal 2 2 (fun j i => BitVec.ofNat 32 (10 * j + i + 1)) ≠ 2 := by
  obtain ⟨S, hrun, hS⟩ := Run.of_runAll (System.exec_step smallRows 5)
    (bursts [4, 7, 7, 1, 7, 2, 5, 3]) (.initial smallRows noLinks fun _ => zeroedTcb)
    (fun S : System TcbLinks => S.main) (b := .printed true 2) (by decide +kernel)
  exact ⟨S, hrun, hS, by decide⟩

/-- `externalCal` prints the verified sum. -/
theorem externalCal_prints_verified (hthreads : 0 < threadNum) {recordNum itr : ℕ}
    {record : ℕ → List CInt}
    (h : Run (System.Step (externalCalProgram recordNum itr threadNum record) EventStep)
      (.initial (externalCalProgram recordNum itr threadNum record) noLinks storage) actions S)
    (hprinted : S.main = .printed false sum) : sum = Verify.externalCal recordNum itr record :=
  (printed_sum h hprinted).trans (externalCalculate_verify hthreads recordNum itr record)

def smallFiles : Program := externalCalProgram 2 1 2 fun k => [BitVec.ofNat 32 (k + 1), 5, 7]

theorem externalCal_prints_verified_smallFiles : ∃ S : System TcbLinks,
    Run (System.Step smallFiles EventStep) (.initial smallFiles noLinks fun _ => zeroedTcb)
      (bursts [4, 9, 9, 1, 9, 9, 9, 9, 3, 9, 9, 9, 9, 3, 4]) S ∧
      S.main = .printed false 27 ∧
      (27 : CInt) = Verify.externalCal 2 1 fun k => [BitVec.ofNat 32 (k + 1), 5, 7] := by
  obtain ⟨S, hrun, hS⟩ := Run.of_runAll (System.exec_step smallFiles 5)
    (bursts [4, 9, 9, 1, 9, 9, 9, 9, 3, 9, 9, 9, 9, 3, 4])
    (.initial smallFiles noLinks fun _ => zeroedTcb)
    (fun S : System TcbLinks => S.main) (b := .printed false 27) (by decide +kernel)
  exact ⟨S, hrun, hS, externalCal_prints_verified (by decide) hrun hS⟩

end Programs

end VirtualMemorySimulation.Benchmark

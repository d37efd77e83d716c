import VirtualMemorySimulation.Scheduler.TurnOrder

/-!
# Voluntary yields

`my_pthread_yield` raises the signal of the timer, and the handler treats it as any
other: inside the time slice it returns, and after an unlock it starts with the head
of the level, which is the thread that yields unless it has been blocked since its
last turn.
-/

namespace VirtualMemorySimulation.Scheduler

open Execution LinkedQueue

section Statement

variable {σ : Type} [QueueStore σ QueuePtr TcbPtr]

/-- `my_pthread_yield`: the signal is handled before `raise` returns. -/
def myPthreadYield (now start : Time) (fuel : ℕ) (s : State σ) : Except Stop (State σ) :=
  tick now start fuel s

/-- The yield ends with another live thread on the processor and in `current_tcb`. -/
def GivesWay (s : State σ) (now start : Time) : Prop :=
  ∃ fuel s' p, myPthreadYield now start fuel s = .ok s' ∧ s'.currentTcb = some p ∧
    s'.cpu.owner = p ∧ p ≠ s.cpu.owner ∧ (s.tcbs p).state ≠ .terminated

def FirstLive (s : State TcbLinks) (i : ℤ) (p : TcbPtr) : Prop :=
  ∃ l, Chain s.queues.next (s.queues.queue (.level i)).head l ∧
    l.find? (fun r => (s.tcbs r).state ≠ .terminated) = some p

end Statement

section Front

variable {t t' : State TcbLists} {o : OpenEvent}

/-- A thread on the processor that is in level 0 is named by `current_tcb`, and, with no unlock
pending, it is at the head; only an unlock of its own mutex brings it back elsewhere. -/
def Fronted (t : State TcbLists) : Prop :=
  t.cpu.owner ∈ t.queues (.level 0) → (∀ m, t.cpu.pc ≠ .unlockMark m) →
    t.currentTcb = some t.cpu.owner ∧
      (t.afterUnlockPriority = -1 → (t.queues (.level 0)).head? = some t.cpu.owner)

theorem Fronted.congr (h : Fronted t) (hpc : ∀ m, t.cpu.pc ≠ .unlockMark m)
    (hlevel : t'.queues (.level 0) = t.queues (.level 0)) (howner : t'.cpu.owner = t.cpu.owner)
    (hcur : t'.currentTcb = t.currentTcb)
    (hafter : t'.afterUnlockPriority = t.afterUnlockPriority) : Fronted t' := by
  intro hmem _
  rw [hlevel, howner] at hmem ⊢
  rw [hcur, hafter]
  exact h hmem hpc

theorem Fronted.append (h : Fronted t) (hpc : ∀ m, t.cpu.pc ≠ .unlockMark m) {f : TcbPtr}
    (hlevel : t'.queues (.level 0) = t.queues (.level 0) ++ [f]) (hf : t.cpu.owner ≠ f)
    (howner : t'.cpu.owner = t.cpu.owner) (hcur : t'.currentTcb = t.currentTcb)
    (hafter : t'.afterUnlockPriority = t.afterUnlockPriority) : Fronted t' := by
  intro hmem _
  rw [hlevel, howner] at hmem ⊢
  rw [hcur, hafter]
  have hold : t.cpu.owner ∈ t.queues (.level 0) := by simpa [hf] using hmem
  obtain ⟨hcur', hhead⟩ := h hold hpc
  refine ⟨hcur', fun hno => ?_⟩
  rw [List.head?_append, hhead hno, Option.some_or]

theorem Fronted.of_empty (hlevel : t.queues (.level 0) = []) : Fronted t := by
  intro hmem
  rw [hlevel] at hmem
  exact absurd hmem List.not_mem_nil

theorem Fronted.executes (h : Fronted t) (hp : Placed t) (hpc : SoundPc t t.cpu.pc)
    (he : Executes t t') : Fronted t' := by
  have hlevel : ∀ {m l}, (t.queues.set (.wait m) l) (.level 0) = t.queues (.level 0) :=
    Lists.set_of_ne (by simp)
  cases he with
  | @move m priority p l heq hq =>
    rw [heq] at hpc
    obtain ⟨-, rfl⟩ := hpc
    intro hmem _
    change t.cpu.owner ∈ (t.queues.move (.level 0) (.wait m) p l) (.level 0) at hmem
    rw [Lists.move_source (by simp)] at hmem
    have hold : t.cpu.owner ∈ t.queues (.level 0) := by rw [hq]; exact List.mem_cons_of_mem _ hmem
    obtain ⟨hcur, hhead⟩ := h hold (by simp [heq])
    refine ⟨hcur, fun hno => ?_⟩
    -- the head that is moved would be the thread itself
    have hp' := hhead hno
    rw [hq] at hp'
    obtain rfl : p = t.cpu.owner := Option.some.inj hp'
    have hnodup := hp.distinct.nodup (.level 0)
    rw [hq] at hnodup
    exact absurd hmem (List.nodup_cons.mp hnodup).1
  | waiter heq hq => exact h.congr (by simp [heq]) hlevel rfl rfl rfl
  | wake => exact fun _ hno => absurd rfl (hno _)
  | @mark m cur heq hcur =>
    intro _ _
    obtain ⟨hmem, rfl⟩ := hp.current cur hcur
    have hprio := hp.priority _ hmem
    exact ⟨hcur, fun hno => absurd (hprio.symm.trans hno) (by decide)⟩
  | start heq => exact h.congr (by simp [heq]) rfl rfl rfl rfl
  | test heq => exact h.congr (by simp [heq]) rfl rfl rfl rfl
  | park heq => exact h.congr (by simp [heq]) rfl rfl rfl rfl
  | acquire heq => exact h.congr (by simp [heq]) rfl rfl rfl rfl
  | release heq => exact h.congr (by simp [heq]) rfl rfl rfl rfl
  | noWaiter heq => exact h.congr (by simp [heq]) rfl rfl rfl rfl
  | pass heq => exact h.congr (by simp [heq]) rfl rfl rfl rfl
  | joined heq => exact h.congr (by simp [heq]) rfl rfl rfl rfl
  | exited heq => exact h.congr (by simp [heq]) rfl rfl rfl rfl
  | notExited heq => exact h.congr (by simp [heq]) rfl rfl rfl rfl
  | store heq => exact h.congr (by simp [heq]) rfl rfl rfl rfl
  | terminate heq => exact h.congr (by simp [heq]) rfl rfl rfl rfl

theorem Fronted.tick {now start : Time} {fuel : ℕ} (h : Fronted t) (hp : Placed t)
    (ht : tick now start fuel t = .ok t') : Fronted t' := by
  rcases hp.ticked ht with ⟨-, rfl⟩ | ⟨-, hidle | ⟨dead, p, rest, -, hturned⟩⟩
  · intro hmem hpc
    refine h hmem fun m heq => hpc m ?_
    change t.cpu.pc.interrupted = _
    rw [heq]
    rfl
  · refine .of_empty ?_
    obtain ⟨-, hf, -⟩ := tick_outcome hp ht
    exact List.perm_nil.mp (hidle.empty ▸ hf.queues (.level 0))
  · intro _ _
    rw [hturned.owner, hturned.level]
    exact ⟨hturned.current, fun _ => rfl⟩

theorem Fronted.begun (h : Fronted t) (hp : Placed t) : Fronted t.begun := by
  rcases hp.begun_eq with ⟨-, heq⟩ | ⟨hnone, heq⟩
  · rwa [heq]
  · refine .of_empty ?_
    rw [heq]
    exact hp.queues_nil hnone _

theorem Fronted.creates {ok : Bool} (h : Fronted t) (hs : Steady t)
    (hinit : t.schedulerInit = true) (hpc : t.cpu.pc = .body) (hc : Creates t ok t') :
    Fronted t' := by
  apply hs.creates_induction hinit hpc hc h
  · intro hnone _ _
    have hlevel : t.withMain.queues (.level 0) = [t.frontier] := by
      simp [State.withMain, State.created, hs.toPlaced.queues_nil hnone]
    rw [hlevel]
    exact ⟨rfl, fun _ => rfl⟩
  · exact fun u tid _ _ hbody hu => hu.congr (by simp [hbody]) rfl rfl rfl rfl
  · intro u routine hplaced _ hne hbody hu
    have howner := (hplaced.allocated _ (hplaced.running hne)).ne
    exact hu.append (by simp [hbody]) Lists.set_self howner rfl rfl rfl

theorem Fronted.called {c : ClientCall} (h : Fronted t) (hs : Steady t) (hpc : t.cpu.pc = .body)
    (hc : Called t c t') : Fronted t' := by
  have hmark : ∀ m, t.cpu.pc ≠ .unlockMark m := by simp [hpc]
  cases hc with
  | create hcreate =>
    have hbody : t.begun.cpu.pc = .body := by rw [hs.toPlaced.begun_threads.2.2.1, hpc]
    exact (h.begun hs.toPlaced).creates hs.begun hs.toPlaced.begun.2 hbody hcreate
  | mutexInit _ hu =>
    rcases hu with rfl | ⟨hnone, rfl⟩
    · exact h.congr hmark rfl rfl rfl rfl
    · exact .of_empty (hs.toPlaced.queues_nil hnone _)
  | exit => exact h.congr hmark rfl rfl rfl rfl
  | lock => exact h.congr hmark rfl rfl rfl rfl
  | unlock => exact h.congr hmark rfl rfl rfl rfl
  | notFound => exact h
  | join => exact h.congr hmark rfl rfl rfl rfl
  | functionReturn => exact h.congr hmark rfl rfl rfl rfl

theorem Fronted.step (h : Fronted t) (hr : Regular t) (hs : OpenStep t o t') : Fronted t' := by
  cases hr with
  | stranded hr => exact .of_empty ((hr.executes (hr.stepped hs).1).toPlaced.queues_nil
      (hr.executes (hr.stepped hs).1).noThread _)
  | steady hr =>
    cases hr.stepped hs with
    | tick _ ht => exact h.tick hr.toPlaced ht
    | call _ hpc hc => exact h.called hr hpc (ClientCall.called hr.toPlaced hc)
    | unlock _ hpc => exact h.congr (by simp [hpc]) rfl rfl rfl rfl
    | next he =>
      have hbody := he.not_body
      exact h.executes hr.toPlaced (hr.soundPc hbody) he

theorem run_fronted {storage : TcbPtr → Tcb} {os : List OpenEvent}
    (h : Run OpenStep (State.initial noLists storage) os t) : Fronted t := by
  have hinv := h.invariant (I := fun _ t => Regular t ∧ Fronted t)
    ⟨.steady (.initial storage), .of_empty rfl⟩
    fun _ u o u' hu hs => ⟨hu.1.step hs, hu.2.step hu.1 hs⟩
  exact hinv.2

end Front

section Yields

variable {t : State TcbLists} {now start : Time} {p : TcbPtr}

theorem firstLive_iff {L : TcbLinks} (hL : Agrees L t.queues) (i : ℤ) :
    FirstLive (t.withQueues L) i p ↔ (t.queues (.level i)).find? t.live = some p := by
  constructor
  · rintro ⟨l, hl, hfind⟩
    obtain rfl := (hL.denotes (.level i)).chain.unique hl
    exact hfind
  · exact fun hfind => ⟨_, (hL.denotes (.level i)).chain, hfind⟩

/-- A yield inside the time slice returns to the thread that yields. -/
theorem not_givesWay_within {σ : Type} [QueueStore σ QueuePtr TcbPtr] {s : State σ}
    (hcur : s.currentTcb = some s.cpu.owner) (hnot : ¬ PastSlice s s.cpu.owner now) :
    ¬ GivesWay s now start := by
  rintro ⟨fuel, s', p, hs', hp, -, hne, -⟩
  have hwithin := signalHandler_within (s := s.interrupt) hcur hnot start fuel
  obtain rfl := Except.ok.inj (hwithin.symm.trans hs')
  exact hne (Option.some.inj (hp.symm.trans hcur))

/-- Past the time slice the first live thread of the lineup decides. -/
theorem givesWay_past (h : Placed t) (hcur : t.currentTcb = some t.cpu.owner)
    (hpast : PastSlice t t.cpu.owner now) (hp : t.lineup.find? t.live = some p) :
    GivesWay t now start ↔ p ≠ t.cpu.owner := by
  obtain ⟨dead, rest, hfirst⟩ := exists_foremost hp
  obtain ⟨u, hu, hturned⟩ := h.settles hcur hpast hfirst start
  constructor
  · rintro ⟨fuel, t', r, ht', hr, -, hne, -⟩
    obtain rfl := Except.ok.inj (hu.eq_of_ok ht')
    obtain rfl := Option.some.inj (hturned.current.symm.trans hr)
    exact hne
  · intro hne
    obtain ⟨fuel, hfuel⟩ := hu.exists_ok
    exact ⟨fuel, u, p, hfuel, hturned.current, hturned.owner, hne, hfirst.live⟩

theorem lineup_other (h : Placed t) (hf : Fronted t) (hbody : t.cpu.pc = .body)
    (hmem : t.cpu.owner ∈ t.queues (.level 0)) (hno : t.afterUnlockPriority = -1)
    (hp : p ∈ t.queues (.level 0)) (hne : p ≠ t.cpu.owner) (hlive : t.live p = true) :
    ∃ r, t.lineup.find? t.live = some r ∧ r ≠ t.cpu.owner := by
  obtain ⟨-, hhead⟩ := hf hmem (by simp [hbody])
  obtain ⟨l, hq⟩ : ∃ l, t.queues (.level 0) = t.cpu.owner :: l := by
    cases hq : t.queues (.level 0) with
    | nil =>
      rw [hq] at hmem
      exact absurd hmem List.not_mem_nil
    | cons a l =>
      have ha := hhead hno
      rw [hq] at ha
      obtain rfl := Option.some.inj ha
      exact ⟨l, rfl⟩
  have hpl : p ∈ l := by
    rw [hq] at hp
    exact (List.mem_cons.mp hp).resolve_left hne
  have hnodup := h.distinct.nodup (.level 0)
  rw [hq] at hnodup
  have hline : t.lineup = l ++ [t.cpu.owner] := by
    rw [State.lineup, if_pos hno, hq, List.rotate_cons_succ, List.rotate_zero]
  cases hfind : l.find? t.live with
  | none => exact absurd hlive (by simpa using List.find?_eq_none.mp hfind p hpl)
  | some r =>
    refine ⟨r, by rw [hline, List.find?_append, hfind, Option.some_or], ?_⟩
    rintro rfl
    exact (List.nodup_cons.mp hnodup).1 (List.mem_of_find?_eq_some hfind)

theorem givesWay_refines {L : TcbLinks} (hL : Agrees L t.queues) :
    GivesWay (t.withQueues L) now start ↔ GivesWay t now start := by
  constructor
  · rintro ⟨fuel, s', p, hs', hcur, howner, hne, hlive⟩
    obtain ⟨t', ht', ⟨L', -, rfl⟩⟩ := (tick_refines hL now start fuel).of_ok hs'
    exact ⟨fuel, t', p, ht', hcur, howner, hne, hlive⟩
  · rintro ⟨fuel, t', p, ht', hcur, howner, hne, hlive⟩
    obtain ⟨s', hs', ⟨L', -, rfl⟩⟩ := (tick_refines hL now start fuel).of_ok_right ht'
    exact ⟨fuel, _, p, hs', hcur, howner, hne, hlive⟩

end Yields

/-- A thread that yields in client code gives way to another one if and only if its time slice
is over and, when an unlock is pending, it is not the first live thread of its level. -/
theorem gives_way_iff {storage : TcbPtr → Tcb} {os : List OpenEvent} {s : State TcbLinks}
    (h : Run OpenStep (State.initial noLinks storage) os s) (hpc : s.cpu.pc = .body)
    (hrun : ∃ i, InQueue s.queues (.level i) s.cpu.owner)
    (hother : ∃ i p, InQueue s.queues (.level i) p ∧ p ≠ s.cpu.owner ∧
      (s.tcbs p).state ≠ .terminated) (now start : Time) :
    GivesWay s now start ↔ PastSlice s s.cpu.owner now ∧
      (s.afterUnlockPriority = -1 ∨
        ¬ FirstLive s (s.tcbs s.cpu.owner).priority s.cpu.owner) := by
  obtain ⟨t, ht, ⟨L, hL, rfl⟩, hreg⟩ := run_regular h
  have hplaced := hreg.placed
  have hfront := run_fronted ht
  -- only level 0 is in use
  have hlevel : ∀ {i p}, InQueue L (.level i) p → p ∈ t.queues (.level 0) := by
    intro i p hp
    have hmem := (inQueue_iff hL).mp hp
    exact hplaced.level i p hmem ▸ hmem
  obtain ⟨i, howner⟩ := hrun
  obtain ⟨j, p, hp, hne, hlive⟩ := hother
  have hown : t.cpu.owner ∈ t.queues (.level 0) := hlevel howner
  have hcur := (hfront hown (by simp [show t.cpu.pc = .body from hpc])).1
  have hprio : (t.tcbs t.cpu.owner).priority = 0 := hplaced.priority _ (hplaced.known _ _ hown)
  rw [givesWay_refines hL, firstLive_iff hL, State.withQueues_tcbs, State.withQueues_cpu, hprio]
  change GivesWay t now start ↔ PastSlice t t.cpu.owner now ∧
    (t.afterUnlockPriority = -1 ∨ ¬ (t.queues (.level 0)).find? t.live = some t.cpu.owner)
  by_cases hpast : PastSlice t t.cpu.owner now
  · rw [and_iff_right hpast]
    by_cases hno : t.afterUnlockPriority = -1
    · obtain ⟨r, hr, hne'⟩ := lineup_other hplaced hfront hpc hown hno (hlevel hp) hne
        (live_iff.mpr hlive)
      exact iff_of_true ((givesWay_past hplaced hcur hpast hr).mpr hne') (Or.inl hno)
    · have hline : t.lineup = t.queues (.level 0) := if_neg hno
      rw [or_iff_right hno]
      cases hfind : (t.queues (.level 0)).find? t.live with
      | none =>
        have hdead := List.find?_eq_none.mp hfind p (hlevel hp)
        exact absurd (live_iff.mpr hlive) hdead
      | some r =>
        rw [givesWay_past hplaced hcur hpast (hline ▸ hfind)]
        simp
  · exact iff_of_false (not_givesWay_within hcur hpast) fun hcond => hpast hcond.1

def justCreated : List OpenEvent := [.event (.call (.create true true ⟨1, 0⟩))]

theorem gives_way_justCreated : ∃ s : State TcbLinks,
    Run OpenStep (State.initial noLinks fun _ => zeroedTcb) justCreated s ∧
      s.cpu.owner = 0 ∧ GivesWay s ⟨1, 0⟩ ⟨1, 0⟩ := by
  obtain ⟨s, hrun, hs⟩ := Run.of_runAll (OpenEvent.run_step 5) justCreated
    (State.initial noLinks fun _ => zeroedTcb)
    (fun s => ((s.cpu, s.afterUnlockPriority),
      ((s.queues.queue (.level 0)).head, s.queues.next 0, s.queues.next 1),
      (s.tcbs 1).state, decide (PastSlice s 0 ⟨1, 0⟩)))
    (b := ((⟨0, .body, []⟩, -1), (some 0, some 1, none), .ready, true)) (by decide +kernel)
  simp only [Prod.mk.injEq] at hs
  obtain ⟨⟨hcpu, hafter⟩, ⟨hhead, hnext, hlast⟩, hstate, hpast⟩ := hs
  have hchain : Chain s.queues.next (s.queues.queue (.level 0)).head [0, 1] :=
    .link hhead (.link hnext (.last hlast))
  have howner : s.cpu.owner = 0 := by rw [hcpu]
  have hgives := gives_way_iff hrun (by rw [hcpu]) ⟨0, [0, 1], hchain, by simp [howner]⟩
    ⟨0, 1, ⟨[0, 1], hchain, by simp⟩, by simp [howner], by simp [hstate]⟩ ⟨1, 0⟩ ⟨1, 0⟩
  exact ⟨s, hrun, howner, hgives.mpr ⟨howner ▸ of_decide_eq_true hpast, Or.inl hafter⟩⟩

/-- Thread 1 has just got the processor. -/
def justStarted : List OpenEvent :=
  [.event (.call (.create true true ⟨1, 0⟩)), .event (.tick ⟨1, 0⟩ ⟨1, 0⟩), .event .next]

theorem justStarted_keeps : ¬ ∀ (storage : TcbPtr → Tcb) (os : List OpenEvent)
    (s : State TcbLinks), Run OpenStep (State.initial noLinks storage) os s →
      s.cpu.pc = .body → (∃ i, InQueue s.queues (.level i) s.cpu.owner) →
        (∃ i p, InQueue s.queues (.level i) p ∧ p ≠ s.cpu.owner ∧
          (s.tcbs p).state ≠ .terminated) → ∀ now start, GivesWay s now start := by
  intro h
  obtain ⟨s, hrun, hs⟩ := Run.of_runAll (OpenEvent.run_step 5) justStarted
    (State.initial noLinks fun _ => zeroedTcb)
    (fun s => ((s.cpu, s.currentTcb),
      ((s.queues.queue (.level 0)).head, s.queues.next 1, s.queues.next 0),
      (s.tcbs 0).state, decide (PastSlice s 1 ⟨1, 0⟩)))
    (b := ((⟨1, .body, []⟩, some 1), (some 1, some 0, none), .ready, false)) (by decide +kernel)
  simp only [Prod.mk.injEq] at hs
  obtain ⟨⟨hcpu, hcur⟩, ⟨hhead, hnext, hlast⟩, hstate, hpast⟩ := hs
  have hchain : Chain s.queues.next (s.queues.queue (.level 0)).head [1, 0] :=
    .link hhead (.link hnext (.last hlast))
  have howner : s.cpu.owner = 1 := by rw [hcpu]
  have hgives := h _ _ s hrun (by rw [hcpu]) ⟨0, [1, 0], hchain, by simp [howner]⟩
    ⟨0, 0, ⟨[1, 0], hchain, by simp⟩, by simp [howner], by simp [hstate]⟩ ⟨1, 0⟩ ⟨1, 0⟩
  exact not_givesWay_within (howner ▸ hcur) (howner ▸ of_decide_eq_false hpast) hgives

end VirtualMemorySimulation.Scheduler

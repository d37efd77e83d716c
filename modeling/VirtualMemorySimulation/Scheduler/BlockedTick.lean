import VirtualMemorySimulation.Scheduler.VoluntaryYield

/-!
# Ticks on a blocked thread

A thread that has moved itself to a wait queue is still `current_tcb` when the next
signal comes. The helper takes the head of its level for it and sends that thread to
the end. Beside the run goes a record of the threads that have run since they were last
enqueued.
-/

namespace VirtualMemorySimulation.Scheduler

open Execution LinkedQueue

/-- For each thread whether it has run since it was last enqueued. -/
abbrev Served := TcbPtr → Bool

section Statement

variable {σ : Type} [QueueStore σ QueuePtr TcbPtr]

def OpenEvent.enqueues (fuel : ℕ) (s s' : State σ) : OpenEvent → List TcbPtr
  | .event (.tick now start) =>
    match tickSending now start fuel s with
    | .ok (sent, _) => sent
    | .error _ => []
  | .event (.call (.create ..)) => s'.threads.drop s.threads.length
  | .event .next =>
    match s.cpu.pc with
    | .lockMove _ priority => (QueueStore.peek (.level priority) s.queues).toList
    | .unlockSchedule _ node => node.toList
    | _ => []
  | _ => []

/-- The record after a step that has enqueued `added` and left `owner` on the processor. -/
def Served.after (served : Served) (added : List TcbPtr) (owner : TcbPtr) : Served := fun p =>
  p = owner || !added.contains p && served p

/-- A step executed with its entry in the record. -/
def OpenEvent.serve (fuel : ℕ) (o : OpenEvent) (x : State σ × Served) :
    Except Stop (State σ × Served) := do
  let s' ← o.run fuel x.1
  .ok (s', x.2.after (o.enqueues fuel x.1 s') s'.cpu.owner)

def ServedStep (x : State σ × Served) (o : OpenEvent) (y : State σ × Served) : Prop :=
  ∃ fuel, o.serve fuel x = .ok y

theorem OpenEvent.serve_step (fuel : ℕ) (x : State σ × Served) (o : OpenEvent)
    (y : State σ × Served) (h : o.serve fuel x = .ok y) : ServedStep x o y := ⟨fuel, h⟩

theorem ServedStep.open {x y : State σ × Served} {o : OpenEvent} (h : ServedStep x o y) :
    OpenStep x.1 o y.1 := by
  obtain ⟨fuel, h⟩ := h
  obtain ⟨s', hs', h⟩ := bind_eq_ok.mp h
  obtain rfl := Except.ok.inj h
  exact ⟨fuel, hs'⟩

/-- `current_tcb` has moved itself to the wait queue of a mutex and has not gone on. -/
structure Blocked (s : State TcbLinks) (m : MutexPtr) (cur : TcbPtr) : Prop where
  current : s.currentTcb = some cur
  waiting : InQueue s.queues (.wait m) cur
  moved : ∃ priority, s.cpu.pc = .lockPark m priority ∨ s.cpu.pc = .lockPause m priority

/-- The signal comes to an end, sends back only threads that have run since they were last
enqueued, and gives the processor to the first live thread of the level. -/
def CostsNoTurn (s : State TcbLinks) (served : Served) (now start : Time) : Prop :=
  ∃ fuel sent s' cur p, tickSending now start fuel s = .ok (sent, s') ∧
    (∀ r ∈ sent, served r = true) ∧ s.currentTcb = some cur ∧
      FirstLive s (s.tcbs cur).priority p ∧ s'.currentTcb = some p ∧ s'.cpu.owner = p

/-- The level is searched from its head on, over threads that have run; or every other thread
has terminated. -/
def Orderly (s : State TcbLinks) (served : Served) (i : ℤ) : Prop :=
  ∃ dead p rest, Chain s.queues.next (s.queues.queue (.level i)).head (dead ++ p :: rest) ∧
    (∀ r ∈ dead, (s.tcbs r).state = .terminated) ∧ (s.tcbs p).state ≠ .terminated ∧
      ((s.afterUnlockPriority ≠ -1 ∨ dead ≠ []) ∧ (∀ r ∈ dead, served r = true) ∨
        (∀ r ∈ rest, (s.tcbs r).state = .terminated) ∧
          ∀ r ∈ dead ++ p :: rest, served r = true)

end Statement

section Rotation

variable {t : State TcbLists} {dead rest : List TcbPtr} {p : TcbPtr}

theorem Foremost.pending (h : Foremost t (t.queues (.level 0)) dead p rest)
    (hafter : t.afterUnlockPriority ≠ -1) :
    Foremost t t.lineup dead p rest ∧ t.sentBack dead = dead := by
  unfold State.lineup State.sentBack
  rw [if_neg hafter, if_neg hafter]
  exact ⟨h, rfl⟩

theorem Foremost.rotated {d : TcbPtr} (h : Foremost t (t.queues (.level 0)) (d :: dead) p rest)
    (hafter : t.afterUnlockPriority = -1) :
    Foremost t t.lineup dead p (rest ++ [d]) ∧ t.sentBack dead = d :: dead := by
  have hq : t.queues (.level 0) = d :: (dead ++ p :: rest) := h.split
  unfold State.lineup State.sentBack
  rw [if_pos hafter, if_pos hafter, hq]
  refine ⟨⟨?_, fun r hr => h.dead r (List.mem_cons_of_mem d hr), h.live⟩, rfl⟩
  rw [List.rotate_cons_succ, List.rotate_zero, List.append_assoc, List.cons_append]

theorem Foremost.behind (h : Foremost t (t.queues (.level 0)) [] p rest)
    (hafter : t.afterUnlockPriority = -1) :
    t.lineup = rest ++ [p] ∧ ∀ dead, t.sentBack dead = p :: dead := by
  have hq : t.queues (.level 0) = p :: rest := h.split
  unfold State.lineup State.sentBack
  rw [if_pos hafter, hq]
  refine ⟨?_, fun dead => ?_⟩
  · rw [List.rotate_cons_succ, List.rotate_zero]
  · rw [if_pos hafter]
    rfl

end Rotation

section Ticks

variable {t : State TcbLists} {L : TcbLinks} {served : Served} {now start : Time} {cur p r : TcbPtr}
  {dead dead' rest rest' : List TcbPtr}

theorem Foremost.unique {l : List TcbPtr} (h : Foremost t l dead p rest)
    (h' : Foremost t l dead' r rest') : dead = dead' ∧ p = r ∧ rest = rest' := by
  induction dead generalizing l dead' with
  | nil =>
    cases dead' with
    | nil =>
      obtain ⟨hp, hrest⟩ := List.cons.inj (h.split.symm.trans h'.split)
      exact ⟨rfl, hp, hrest⟩
    | cons d' dead' =>
      obtain ⟨rfl, -⟩ := List.cons.inj (h.split.symm.trans h'.split)
      exact absurd (h'.dead p List.mem_cons_self) h.live
  | cons d dead ih =>
    cases dead' with
    | nil =>
      obtain ⟨rfl, -⟩ := List.cons.inj (h.split.symm.trans h'.split)
      exact absurd (h.dead d List.mem_cons_self) h'.live
    | cons d' dead' =>
      obtain ⟨rfl, htail⟩ := List.cons.inj (h.split.symm.trans h'.split)
      have hnext : Foremost t (dead ++ p :: rest) dead p rest :=
        ⟨rfl, fun q hq => h.dead q (List.mem_cons_of_mem d hq), h.live⟩
      have hnext' : Foremost t (dead ++ p :: rest) dead' r rest' :=
        ⟨htail, fun q hq => h'.dead q (List.mem_cons_of_mem d hq), h'.live⟩
      obtain ⟨rfl, hp, hrest⟩ := ih hnext hnext'
      exact ⟨rfl, hp, hrest⟩

/-- An expired signal does well if the lineup has the same first live thread as the level, and
the threads sent back have run. -/
theorem costsNoTurn_iff_lineup (hL : Agrees L t.queues) (h : Placed t)
    (hcur : t.currentTcb = some cur) (hpast : PastSlice t cur now)
    (hline : Foremost t t.lineup dead p rest)
    (hfirst : Foremost t (t.queues (.level 0)) dead' r rest') :
    CostsNoTurn (t.withQueues L) served now start ↔
      p = r ∧ ∀ q ∈ t.sentBack dead, served q = true := by
  obtain ⟨u, hu, hturned⟩ := h.settlesSending hcur hpast hline start
  have hprio : (t.tcbs cur).priority = 0 := h.priority cur (h.current cur hcur).1
  have hlive : ∀ q, FirstLive (t.withQueues L) (t.tcbs cur).priority q ↔ q = r := by
    intro q
    rw [hprio, firstLive_iff hL, hfirst.find]
    exact ⟨fun hq => (Option.some.inj hq).symm, fun hq => congrArg some hq.symm⟩
  constructor
  · rintro ⟨fuel, sent, s', cur', q, hs', hserved, hcur', hq, hp, -⟩
    obtain rfl := Option.some.inj (hcur.symm.trans hcur')
    obtain rfl := (hlive q).mp hq
    obtain ⟨⟨sent', t'⟩, ht', hsent, ⟨L', -, rfl⟩⟩ := (tickSending_refines hL now start fuel).of_ok hs'
    obtain ⟨rfl, rfl⟩ := Prod.mk.inj (Except.ok.inj (hu.eq_of_ok ht'))
    obtain rfl : sent = t.sentBack dead := hsent
    exact ⟨Option.some.inj (hturned.current.symm.trans hp), hserved⟩
  · rintro ⟨rfl, hserved⟩
    obtain ⟨fuel, hfuel⟩ := hu.exists_ok
    obtain ⟨⟨sent', s'⟩, hs', hsent, ⟨L', -, rfl⟩⟩ :=
      (tickSending_refines hL now start fuel).of_ok_right hfuel
    obtain rfl : sent' = t.sentBack dead := hsent
    exact ⟨fuel, _, _, cur, p, hs', hserved, hcur, (hlive p).mpr rfl, hturned.current,
      hturned.owner⟩

theorem orderly_iff (hL : Agrees L t.queues)
    (hfirst : Foremost t (t.queues (.level 0)) dead p rest) :
    Orderly (t.withQueues L) served 0 ↔
      (t.afterUnlockPriority ≠ -1 ∨ dead ≠ []) ∧ (∀ r ∈ dead, served r = true) ∨
        (∀ r ∈ rest, (t.tcbs r).state = .terminated) ∧
          ∀ r ∈ dead ++ p :: rest, served r = true := by
  have hchain := (hL.denotes (.level 0)).chain
  constructor
  · rintro ⟨dead', p', rest', hchain', hdead', hlive', hcond⟩
    obtain ⟨rfl, rfl, rfl⟩ := hfirst.unique ⟨hchain.unique hchain', hdead', hlive'⟩
    exact hcond
  · intro hcond
    rw [hfirst.split] at hchain
    exact ⟨dead, p, rest, hchain, hfirst.dead, hfirst.live, hcond⟩

/-- An expired signal costs nobody a turn in the orderly states and in no others. -/
theorem costsNoTurn_iff (hL : Agrees L t.queues) (h : Placed t) (hcur : t.currentTcb = some cur)
    (hpast : PastSlice t cur now) (hp : (t.queues (.level 0)).find? t.live = some p) :
    CostsNoTurn (t.withQueues L) served now start ↔ Orderly (t.withQueues L) served 0 := by
  obtain ⟨dead, rest, hfirst⟩ := exists_foremost hp
  rw [orderly_iff hL hfirst]
  by_cases hafter : t.afterUnlockPriority = -1
  · cases dead with
    | cons d dead =>
      obtain ⟨hline, hsent⟩ := hfirst.rotated hafter
      rw [costsNoTurn_iff_lineup hL h hcur hpast hline hfirst, hsent, and_iff_right rfl]
      constructor
      · exact fun hserved => Or.inl ⟨Or.inr (by simp), hserved⟩
      · rintro (⟨-, hserved⟩ | ⟨-, hserved⟩)
        · exact hserved
        · exact fun q hq => hserved q (List.mem_append_left _ hq)
    | nil =>
      obtain ⟨hline, hsent⟩ := hfirst.behind hafter
      have hnodup := h.distinct.nodup (.level 0)
      rw [hfirst.split] at hnodup
      have hnot : p ∉ rest := (List.nodup_cons.mp hnodup).1
      rw [or_iff_right (by simp [hafter])]
      -- the head comes up again only if nobody else is alive
      by_cases hrest : ∀ r ∈ rest, (t.tcbs r).state = .terminated
      · have hline' : Foremost t t.lineup rest p [] := ⟨hline, hrest, hfirst.live⟩
        rw [costsNoTurn_iff_lineup hL h hcur hpast hline' hfirst, hsent, and_iff_right rfl,
          and_iff_right hrest]
        rfl
      · obtain ⟨q, hq, hlive⟩ : ∃ q ∈ rest, (t.tcbs q).state ≠ .terminated := by simpa using hrest
        obtain ⟨r, hr⟩ := Option.isSome_iff_exists.mp
          (List.find?_isSome.mpr ⟨q, hq, live_iff.mpr hlive⟩)
        obtain ⟨dead', rest', hother⟩ := exists_foremost hr
        have hline' : Foremost t t.lineup dead' r (rest' ++ [p]) :=
          ⟨by rw [hline, hother.split]; simp, hother.dead, hother.live⟩
        rw [costsNoTurn_iff_lineup hL h hcur hpast hline' hfirst]
        refine iff_of_false (fun hcond => hnot ?_) fun hcond => hrest hcond.1
        exact hcond.1 ▸ List.mem_of_find?_eq_some hr
  · obtain ⟨hline, hsent⟩ := hfirst.pending hafter
    rw [costsNoTurn_iff_lineup hL h hcur hpast hline hfirst, hsent, and_iff_right rfl]
    constructor
    · exact fun hserved => Or.inl ⟨Or.inl hafter, hserved⟩
    · rintro (⟨-, hserved⟩ | ⟨-, hserved⟩)
      · exact hserved
      · exact fun q hq => hserved q (List.mem_append_left _ hq)

end Ticks

section Runs

theorem ServedStep.run {storage : TcbPtr → Tcb} {os : List OpenEvent} {x : State TcbLinks × Served}
    (h : Run ServedStep (State.initial noLinks storage, fun _ => false) os x) :
    Run OpenStep (State.initial noLinks storage) os x.1 := by
  have hsim : ∀ (x : State TcbLinks × Served) (o : OpenEvent) (y : State TcbLinks × Served)
      (s : State TcbLinks), x.1 = s → ServedStep x o y → ∃ s', OpenStep s o s' ∧ y.1 = s' :=
    fun x o y s hxs hs => ⟨y.1, hxs ▸ hs.open, rfl⟩
  obtain ⟨s, hrun, rfl⟩ := h.simulation hsim rfl
  exact hrun

/-- An expired signal that finds a thread which has moved itself to a wait queue costs nobody a
turn if and only if the search starts at the head of the level, or at the one thread alive. -/
theorem costs_no_turn_iff {storage : TcbPtr → Tcb} {os : List OpenEvent} {s : State TcbLinks}
    {served : Served}
    (h : Run ServedStep (State.initial noLinks storage, fun _ => false) os (s, served))
    {m : MutexPtr} {cur : TcbPtr} (hblocked : Blocked s m cur) {now : Time}
    (hpast : PastSlice s cur now)
    (hlive : ∃ i p, InQueue s.queues (.level i) p ∧ (s.tcbs p).state ≠ .terminated)
    (start : Time) :
    CostsNoTurn s served now start ↔ Orderly s served (s.tcbs cur).priority := by
  obtain ⟨t, -, ⟨L, hL, hs⟩, hreg⟩ := run_regular (ServedStep.run h)
  obtain rfl : s = t.withQueues L := hs
  have hplaced := hreg.placed
  have hcur : t.currentTcb = some cur := hblocked.current
  have hprio : (t.tcbs cur).priority = 0 := hplaced.priority cur (hplaced.current cur hcur).1
  obtain ⟨i, p, hp, hstate⟩ := hlive
  have hmem := (inQueue_iff hL).mp hp
  obtain rfl := hplaced.level i p hmem
  obtain ⟨r, hr⟩ := Option.isSome_iff_exists.mp
    (List.find?_isSome.mpr ⟨p, hmem, live_iff.mpr hstate⟩)
  rw [State.withQueues_tcbs, hprio]
  exact costsNoTurn_iff hL hplaced hcur hpast hr

/-- Main holds mutex 1. Thread 1 has unlocked mutex 2 and moved itself to the queue of mutex 1. -/
def blockedUnlocker : List OpenEvent :=
  [.event (.call (.create true true ⟨1, 0⟩)), .event (.call (.mutexInit 1)),
    .event (.call (.mutexInit 2)), .event (.call (.lock 1)), .event .next, .event .next,
    .event (.tick ⟨1, 0⟩ ⟨1, 0⟩), .event .next, .event (.call (.lock 2)), .event .next,
    .event .next, .event (.call (.unlock 2)), .event .next, .event .next, .event .next,
    .event .next, .event (.call (.lock 1)), .event .next, .event .next]

theorem costs_no_turn_blockedUnlocker : ∃ (s : State TcbLinks) (served : Served),
    Run ServedStep (State.initial noLinks fun _ => zeroedTcb, fun _ => false) blockedUnlocker
      (s, served) ∧ Blocked s 1 1 ∧ CostsNoTurn s served ⟨2, 0⟩ ⟨2, 0⟩ := by
  obtain ⟨⟨s, served⟩, hrun, hs⟩ := Run.of_runAll (OpenEvent.serve_step 5) blockedUnlocker
    (State.initial noLinks fun _ => zeroedTcb, fun _ => false)
    (fun x => ((x.1.cpu, x.1.currentTcb, x.1.afterUnlockPriority),
      [(x.1.queues.queue (.level 0)).head, x.1.queues.next 0, (x.1.queues.queue (.wait 1)).head,
        x.1.queues.next 1],
      ((x.1.tcbs 0).state, (x.1.tcbs 1).priority, decide (PastSlice x.1 1 ⟨2, 0⟩))))
    (b := ((⟨1, .lockPark 1 0, []⟩, some 1, 0), [some 0, none, some 1, none],
      (.ready, 0, true))) (by decide +kernel)
  simp only [Prod.mk.injEq, List.cons.injEq] at hs
  obtain ⟨⟨hcpu, hcur, hafter⟩, ⟨hhead, hnext, hwait, hlast, -⟩, hstate, hprio, hpast⟩ := hs
  have hlevel : Chain s.queues.next (s.queues.queue (.level 0)).head [0] :=
    .link hhead (.last hnext)
  have hwaits : Chain s.queues.next (s.queues.queue (.wait 1)).head [1] :=
    .link hwait (.last hlast)
  have hblocked : Blocked s 1 1 := ⟨hcur, ⟨[1], hwaits, by simp⟩, 0, Or.inl (by rw [hcpu])⟩
  have hiff := costs_no_turn_iff hrun hblocked (of_decide_eq_true hpast)
    ⟨0, 0, ⟨[0], hlevel, by simp⟩, by simp [hstate]⟩ ⟨2, 0⟩
  refine ⟨s, served, hrun, hblocked, hiff.mpr ?_⟩
  rw [hprio]
  exact ⟨[], 0, [], hlevel, by simp, by simp [hstate], Or.inl ⟨Or.inl (by simp [hafter]), by simp⟩⟩

/-- Main holds mutex 1. Thread 1 has moved itself to its queue, thread 2 has not run yet. -/
def blockedNext : List OpenEvent :=
  [.event (.call (.create true true ⟨1, 0⟩)), .event (.call (.create true true ⟨2, 0⟩)),
    .event (.call (.mutexInit 1)), .event (.call (.lock 1)), .event .next, .event .next,
    .event (.tick ⟨1, 0⟩ ⟨1, 0⟩), .event .next, .event (.call (.lock 1)), .event .next,
    .event .next]

/-- Thread 2 is sent back from the head of its level, and main has its turn. -/
theorem blockedNext_costs_turn : ¬ ∀ (storage : TcbPtr → Tcb) (os : List OpenEvent)
    (s : State TcbLinks) (served : Served),
    Run ServedStep (State.initial noLinks storage, fun _ => false) os (s, served) →
      ∀ m cur now, Blocked s m cur → PastSlice s cur now →
        (∃ i p, InQueue s.queues (.level i) p ∧ (s.tcbs p).state ≠ .terminated) →
          ∀ start, CostsNoTurn s served now start := by
  intro h
  obtain ⟨⟨s, served⟩, hrun, hs⟩ := Run.of_runAll (OpenEvent.serve_step 5) blockedNext
    (State.initial noLinks fun _ => zeroedTcb, fun _ => false)
    (fun x => ((x.1.cpu, x.1.currentTcb, x.1.afterUnlockPriority),
      [(x.1.queues.queue (.level 0)).head, x.1.queues.next 2, x.1.queues.next 0,
        (x.1.queues.queue (.wait 1)).head, x.1.queues.next 1],
      ((x.1.tcbs 0).state, (x.1.tcbs 2).state, decide (PastSlice x.1 1 ⟨2, 0⟩))))
    (b := ((⟨1, .lockPark 1 0, []⟩, some 1, -1), [some 2, some 0, none, some 1, none],
      (.ready, .ready, true))) (by decide +kernel)
  simp only [Prod.mk.injEq, List.cons.injEq] at hs
  obtain ⟨⟨hcpu, hcur, hafter⟩, ⟨hhead, hnext, hend, hwait, hlast, -⟩, hmain, hstate, hpast⟩ := hs
  have hlevel : Chain s.queues.next (s.queues.queue (.level 0)).head [2, 0] :=
    .link hhead (.link hnext (.last hend))
  have hwaits : Chain s.queues.next (s.queues.queue (.wait 1)).head [1] :=
    .link hwait (.last hlast)
  have hcosts := h _ _ s served hrun 1 1 ⟨2, 0⟩ ⟨hcur, ⟨[1], hwaits, by simp⟩, 0,
    Or.inl (by rw [hcpu])⟩ (of_decide_eq_true hpast) ⟨0, 2, ⟨[2, 0], hlevel, by simp⟩,
      by simp [hstate]⟩ ⟨2, 0⟩
  obtain ⟨t, -, ⟨L, hL, hst⟩, hreg⟩ := run_regular (ServedStep.run hrun)
  obtain rfl : s = t.withQueues L := hst
  have hq : t.queues (.level 0) = [2, 0] := (hL.denotes (.level 0)).chain.unique hlevel
  have hstate' : (t.tcbs 2).state = .ready := hstate
  have hmain' : (t.tcbs 0).state = .ready := hmain
  have hfirst : Foremost t (t.queues (.level 0)) [] 2 [0] :=
    ⟨hq, by simp, by simp [hstate']⟩
  have horderly := (costsNoTurn_iff hL hreg.placed hcur (of_decide_eq_true hpast)
    hfirst.find).mp hcosts
  have hafter' : t.afterUnlockPriority = -1 := hafter
  rw [orderly_iff hL hfirst] at horderly
  simp [hafter', hmain'] at horderly

end Runs

end VirtualMemorySimulation.Scheduler

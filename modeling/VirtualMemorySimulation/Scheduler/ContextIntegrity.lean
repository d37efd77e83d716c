import VirtualMemorySimulation.Scheduler.OpenRuns

/-!
# Saved contexts

A ledger follows a run beside the scheduler. It enters the interrupted context under
the thread that is on the processor, and a built context under the thread that it is
built for, and does not look at `current_tcb`. What `setcontext` restores is what the
ledger has for the thread.
-/

namespace VirtualMemorySimulation.Scheduler

open Execution LinkedQueue

/-- For each thread the context of its last preemption or, before that, the one built for it. -/
abbrev Ledger := TcbPtr → Option Context

section Statement

variable {σ : Type}

/-- The thread that `current_tcb` names has used up its time slice. -/
def Expired (s : State σ) (now : Time) : Prop := ∃ cur ∈ s.currentTcb, PastSlice s cur now

instance (s : State σ) (now : Time) : Decidable (Expired s now) :=
  inferInstanceAs (Decidable (∃ cur ∈ s.currentTcb, PastSlice s cur now))

/-- A context for its wrapper is entered for each of the new threads. -/
def Ledger.build (a : Ledger) (routine : Routine) (added : List TcbPtr) : Ledger := fun p =>
  if p ∈ added then some ⟨p, .start routine, []⟩ else a p

/-- The ledger after a step, given the states before and after it. -/
def Ledger.after (a : Ledger) (s : State σ) : OpenEvent → State σ → Ledger
  | .event (.tick now _), _ => fun p =>
    if p = s.cpu.owner ∧ Expired s now then some s.interrupt.cpu else a p
  | .event (.call (.create _ _ routine)), s' =>
    a.build routine ((s'.handles.drop s.handles.length).map Prod.snd)
  | _, _ => a

def LedgerStep [QueueStore σ QueuePtr TcbPtr] (x : State σ × Ledger) (o : OpenEvent)
    (y : State σ × Ledger) : Prop := OpenStep x.1 o y.1 ∧ y.2 = x.2.after x.1 o y.1

/-- A step executed with its entry in the ledger. -/
def OpenEvent.record [QueueStore σ QueuePtr TcbPtr] (fuel : ℕ) (o : OpenEvent)
    (x : State σ × Ledger) : Except Stop (State σ × Ledger) := do
  let s' ← o.run fuel x.1
  .ok (s', x.2.after x.1 o s')

theorem OpenEvent.record_step [QueueStore σ QueuePtr TcbPtr] (fuel : ℕ) (x : State σ × Ledger)
    (o : OpenEvent) (y : State σ × Ledger) (h : o.record fuel x = .ok y) : LedgerStep x o y := by
  obtain ⟨s', hs', h⟩ := bind_eq_ok.mp h
  obtain rfl := Except.ok.inj h
  exact ⟨⟨fuel, hs'⟩, rfl⟩

/-- A step that leaves contexts intact, given the ledger after it. -/
structure Intact (s : State σ) (o : OpenEvent) (s' : State σ) (a : Ledger) : Prop where
  /-- The handler stores what it has interrupted in one control block and nothing in others. -/
  stored : ∀ now start cur, o = .event (.tick now start) → s.currentTcb = some cur →
    PastSlice s cur now → (s'.tcbs cur).context = s.interrupt.cpu ∧
      ∀ p, p ≠ cur → (s'.tcbs p).context = (s.tcbs p).context
  /-- Nothing else stores a context in the control block of a thread. -/
  kept : (∀ now start, o = .event (.tick now start) → ¬ Expired s now) →
    ∀ p ∈ s.threads, (s'.tcbs p).context = (s.tcbs p).context
  /-- A dispatched thread has its own context from the ledger. -/
  restored : s'.dispatches = s.dispatches ∨ ∃ p, s'.dispatches = s.dispatches ++ [p] ∧
    a p = some s'.cpu ∧ s'.cpu.owner = p

end Statement

section Handler

variable {t t' : State TcbLists} {now start : Time} {cur : TcbPtr}

/-- The dispatched thread goes on with the context in its control block. -/
theorem Dispatched.restores (hd : Dispatched start t t') :
    (∀ p, (t'.tcbs p).context = (t.tcbs p).context) ∧
      ∃ p ∈ t.queues (.level 0), t'.dispatches = t.dispatches ++ [p] ∧
        t'.cpu = (t'.tcbs p).context := by
  obtain ⟨p, l, n, hperm, -, rfl⟩ := hd
  have hcontext : ∀ r, ((t.dispatch start p l n).tcbs r).context = (t.tcbs r).context := by
    intro r
    rw [State.dispatch_tcbs]
    by_cases hr : r = p
    · subst hr
      rw [Function.update_self]
    · rw [Function.update_of_ne hr]
  refine ⟨hcontext, p, hperm.mem_iff.mp List.mem_cons_self, rfl, ?_⟩
  rw [hcontext p]
  rfl

theorem rotate_context (t : State TcbLists) (p : TcbPtr) (l : List TcbPtr) (r : TcbPtr) :
    ((t.rotate p l).tcbs r).context = (t.tcbs r).context := preempt_context _ p r

/-- Past the time slice the handler stores one context and restores at most one. -/
theorem Handled.stores (hh : Handled now start t t') (hcur : t.currentTcb = some cur)
    (hpast : PastSlice t cur now) :
    (∀ p, (t'.tcbs p).context = ((t.save cur).tcbs p).context) ∧
      (t'.dispatches = t.dispatches ∨ ∃ p ∈ t.queues (.level 0),
        t'.dispatches = t.dispatches ++ [p] ∧ t'.cpu = (t'.tcbs p).context) := by
  cases hh with
  | within hcur' hnot =>
    obtain rfl := Option.some.inj (hcur.symm.trans hcur')
    exact absurd hpast hnot
  | @rotated cur' r l _ hcur' _ _ hq hd =>
    obtain rfl := Option.some.inj (hcur.symm.trans hcur')
    obtain ⟨hcontext, p, hp, hdispatches, hcpu⟩ := hd.restores
    refine ⟨fun p => (hcontext p).trans (rotate_context _ r l p), Or.inr ⟨p, ?_, ?_, hcpu⟩⟩
    · rw [rotate_level] at hp
      rw [hq]
      simpa [or_comm] using hp
    · rw [hdispatches, rotate_dispatches]
      rfl
  | resumed hcur' _ _ _ hd =>
    obtain rfl := Option.some.inj (hcur.symm.trans hcur')
    obtain ⟨hcontext, p, hp, hdispatches, hcpu⟩ := hd.restores
    exact ⟨hcontext, Or.inr ⟨p, hp, hdispatches, hcpu⟩⟩
  | idle hcur' =>
    obtain rfl := Option.some.inj (hcur.symm.trans hcur')
    exact ⟨fun _ => rfl, Or.inl rfl⟩

end Handler

section Invariant

variable {t t' : State TcbLists} {a : Ledger} {o : OpenEvent} {now start : Time}

/-- The ledger has the context of each thread that is not on the processor. -/
def Ledger.Keeps (a : Ledger) (t : State TcbLists) : Prop :=
  ∀ p ∈ t.threads, p ≠ t.cpu.owner → a p = some (t.tcbs p).context

theorem tick_within {fuel : ℕ} (ht : tick now start fuel t = .ok t') (hnot : ¬ Expired t now) :
    t' = t.interrupt := by
  obtain ⟨cur, hcur⟩ := tick_current ht
  have hpast : ¬ PastSlice t.interrupt cur now := fun hpast => hnot ⟨cur, hcur, hpast⟩
  rw [tick, signalHandler_within (s := t.interrupt) hcur hpast] at ht
  exact (Except.ok.inj ht).symm

/-- The handler's step, whatever `current_tcb` has been through before. -/
theorem Ledger.Keeps.tick {fuel : ℕ} (hk : a.Keeps t) (h : Steady t)
    (ht : tick now start fuel t = .ok t') :
    Intact t (.event (.tick now start)) t' (a.after t (.event (.tick now start)) t') ∧
      (a.after t (.event (.tick now start)) t').Keeps t' := by
  obtain ⟨cur, hcur⟩ := tick_current ht
  have howner : t.cpu.owner = cur := (h.current cur hcur).2
  by_cases hpast : PastSlice t cur now
  · have hexpired : Expired t now := ⟨cur, hcur, hpast⟩
    obtain ⟨hh, hf, houtcome⟩ := tick_outcome h.toPlaced ht
    obtain ⟨hcontext, hrestored⟩ := hh.stores hcur hpast
    have hself : (t'.tcbs cur).context = t.interrupt.cpu := by
      rw [hcontext, State.save, State.setTcb_tcbs, Function.update_self]
    have hother : ∀ p, p ≠ cur → (t'.tcbs p).context = (t.tcbs p).context := by
      intro p hp
      rw [hcontext, State.save, State.setTcb_tcbs, Function.update_of_ne hp]
      rfl
    -- the ledger has just entered what the handler has stored
    have hledger : ∀ p ∈ t.threads, a.after t (.event (.tick now start)) t' p =
        some (t'.tcbs p).context := by
      intro p hp
      change (if p = t.cpu.owner ∧ Expired t now then _ else _) = _
      by_cases heq : p = cur
      · subst heq
        rw [if_pos ⟨howner.symm, hexpired⟩, hself]
      · rw [if_neg fun hc => heq (hc.1.trans howner), hk p hp fun hc => heq (hc.trans howner),
          hother p heq]
    refine ⟨⟨?_, ?_, ?_⟩, fun p hp _ => hledger p (hf.threads ▸ hp)⟩
    · intro now' start' cur' ho hcur' hpast'
      obtain rfl := Option.some.inj (hcur.symm.trans hcur')
      exact ⟨hself, hother⟩
    · exact fun hnot => absurd hexpired (hnot now start rfl)
    · rcases hrestored with hsame | ⟨p, hp, hdispatches, hcpu⟩
      · exact Or.inl hsame
      · have hmem := h.known _ p hp
        have hown : (t'.contextOf p).owner = p := by
          rw [hf.context]
          exact h.toPlaced.interrupt.owner p hmem
        refine Or.inr ⟨p, hdispatches, ?_, ?_⟩
        · rw [hledger p hmem, hcpu]
        · unfold State.contextOf at hown
          split_ifs at hown with hc
          · exact hc
          · rw [hcpu]
            exact hown
  · have hnot : ¬ Expired t now := by
      rintro ⟨cur', hcur', hpast'⟩
      obtain rfl := Option.some.inj (hcur.symm.trans hcur')
      exact hpast hpast'
    obtain rfl := tick_within ht hnot
    have hsame : a.after t (.event (.tick now start)) t.interrupt = a :=
      funext fun p => if_neg fun hc => hnot hc.2
    rw [hsame]
    refine ⟨⟨?_, fun _ _ _ => rfl, Or.inl rfl⟩, hk⟩
    intro now' start' cur' ho hcur' hpast'
    obtain ⟨rfl, rfl⟩ := Event.tick.inj (OpenEvent.event.inj ho)
    exact absurd ⟨cur', hcur', hpast'⟩ hnot

theorem Intact.quiet (hno : ∀ now start, o ≠ .event (.tick now start))
    (hcontext : ∀ p ∈ t.threads, (t'.tcbs p).context = (t.tcbs p).context)
    (hdispatches : t'.dispatches = t.dispatches) : Intact t o t' a :=
  ⟨fun now start _ ho => absurd ho (hno now start), fun _ => hcontext, Or.inl hdispatches⟩

theorem Ledger.Keeps.congr (hk : a.Keeps t) (hthreads : t'.threads = t.threads)
    (howner : t'.cpu.owner = t.cpu.owner)
    (hcontext : ∀ p ∈ t.threads, (t'.tcbs p).context = (t.tcbs p).context) : a.Keeps t' := by
  intro p hp hne
  rw [hthreads] at hp
  rw [howner] at hne
  rw [hcontext p hp]
  exact hk p hp hne

theorem Ledger.Keeps.executes (hk : a.Keeps t) (he : Executes t t') :
    Intact t (.event .next) t' a ∧ a.Keeps t' := by
  have hl := he.local
  exact ⟨.quiet (by simp) (fun p _ => hl.contexts p) hl.dispatches,
    hk.congr hl.threads hl.owner fun p _ => hl.contexts p⟩

theorem createThreads_node {mainContext nodeContext ok : Bool} {routine : Routine}
    (h : createThreads mainContext nodeContext routine t = .ok (ok, t')) :
    t' = t.allocateTcb t.tid ∨ ∃ u, Entered t u ∧
      t' = if nodeContext then u.withNode routine else u.allocateTcb (u.tid + 1) := by
  have hnode : ∀ {u}, Entered t u → createNode nodeContext routine u = .ok (ok, t') →
      ∃ u, Entered t u ∧
        t' = if nodeContext then u.withNode routine else u.allocateTcb (u.tid + 1) := by
    intro u hu hn
    rw [createNode_lists] at hn
    obtain ⟨-, rfl⟩ := hn
    exact ⟨u, hu, rfl⟩
  unfold createThreads at h
  split_ifs at h with htid
  · rw [createMain_lists] at h
    cases mainContext with
    | false =>
      obtain ⟨-, rfl⟩ := h
      exact Or.inl rfl
    | true => exact Or.inr (hnode (.first htid) h)
  · exact Or.inr (hnode (.later htid) h)

theorem allocateTcb_context {p : TcbPtr} (hp : p ≠ t.frontier) (tid : ℕ) :
    ((t.allocateTcb tid).tcbs p).context = (t.tcbs p).context := by
  rw [State.allocateTcb, State.setTcb_tcbs, Function.update_of_ne hp]

theorem withNode_context {p : TcbPtr} (hp : p ≠ t.frontier) (routine : Routine) :
    ((t.withNode routine).tcbs p).context = (t.tcbs p).context :=
  congrArg Tcb.context (created_tcb_of_ne hp _ _)

theorem Ledger.Keeps.withNode (hk : a.Keeps t) (h : ∀ p ∈ t.threads, p < t.frontier)
    (routine : Routine) : (a.build routine [t.frontier]).Keeps (t.withNode routine) := by
  intro p hp hne
  have hp' : p ∈ t.threads ∨ p = t.frontier := by
    simpa [State.withNode, State.created] using hp
  rcases hp' with hp' | rfl
  · have hfrontier := (h p hp').ne
    rw [Ledger.build, if_neg (by simpa using hfrontier), withNode_context hfrontier]
    exact hk p hp' hne
  · rw [Ledger.build, if_pos (List.mem_singleton_self _)]
    exact congrArg (fun tcb : Tcb => some tcb.context) (created_tcb_frontier t _ _).symm

theorem Ledger.Keeps.entered {u : State TcbLists} (hk : a.Keeps t) (h : Placed t)
    (hcount : t.tid = 0 → t.threads = []) (hu : Entered t u) :
    a.Keeps u ∧ u.handles = t.handles ∧ u.dispatches = t.dispatches ∧
      (∀ p ∈ u.threads, p < u.frontier) ∧
        ∀ p ∈ t.threads, (u.tcbs p).context = (t.tcbs p).context ∧ p < u.frontier := by
  cases hu with
  | first htid =>
    have hnone := hcount htid
    have hmem : ∀ p ∈ t.withMain.threads, p = t.frontier := by
      intro p hp
      simpa [State.withMain, State.created, hnone] using hp
    refine ⟨fun p hp hne => absurd (hmem p hp) hne, rfl, rfl, fun p hp => ?_, by simp [hnone]⟩
    rw [hmem p hp]
    exact Nat.lt_succ_self _
  | later => exact ⟨hk, rfl, rfl, h.allocated, fun p hp => ⟨rfl, h.allocated p hp⟩⟩

theorem Ledger.Keeps.allocateTcb (hk : a.Keeps t) (h : ∀ p ∈ t.threads, p < t.frontier)
    (tid : ℕ) : a.Keeps (t.allocateTcb tid) :=
  hk.congr rfl rfl fun p hp => allocateTcb_context (h p hp).ne tid

theorem Ledger.Keeps.create {mainContext nodeContext ok : Bool} {routine : Routine}
    (hk : a.Keeps t) (h : Steady t)
    (hrun : myPthreadCreate mainContext nodeContext routine t = .ok (ok, t')) :
    (∀ p ∈ t.threads, (t'.tcbs p).context = (t.tcbs p).context) ∧ t'.dispatches = t.dispatches ∧
      (a.build routine ((t'.handles.drop t.handles.length).map Prod.snd)).Keeps t' := by
  obtain ⟨hthreads, htid, hcpu, htcbs, -, -, -, hdispatches⟩ := h.toPlaced.begun_threads
  have hhandles : t.begun.handles = t.handles := by
    unfold State.begun
    split_ifs <;> rfl
  have hbegun : a.Keeps t.begun :=
    hk.congr hthreads (by rw [hcpu]) fun p _ => by rw [htcbs]
  have halloc := h.toPlaced.begun.1.allocated
  have hcreate : createThreads mainContext nodeContext routine t.begun = .ok (ok, t') := hrun
  rcases createThreads_node hcreate with rfl | ⟨u, hu, rfl⟩
  · have hkeeps := hbegun.allocateTcb halloc t.begun.tid
    refine ⟨fun p hp => ?_, hdispatches, ?_⟩
    · rw [allocateTcb_context (halloc p (hthreads ▸ hp)).ne, htcbs]
    · have hnone : ((t.begun.allocateTcb t.begun.tid).handles.drop t.handles.length) = [] := by
        change t.begun.handles.drop t.handles.length = []
        rw [hhandles, List.drop_length]
      rw [hnone]
      exact hkeeps
  · obtain ⟨hku, huh, hud, hualloc, hold⟩ := hbegun.entered h.toPlaced.begun.1
      (fun h0 => by rw [hthreads]; exact h.counted.mp (htid ▸ h0)) hu
    rw [hthreads] at hold
    cases nodeContext with
    | false =>
      refine ⟨fun p hp => ?_, hud.trans hdispatches, ?_⟩
      · rw [if_neg (by simp), allocateTcb_context (hold p hp).2.ne, (hold p hp).1, htcbs]
      · have hnone : (u.allocateTcb (u.tid + 1)).handles.drop t.handles.length = [] := by
          change u.handles.drop t.handles.length = []
          rw [huh, hhandles, List.drop_length]
        rw [if_neg (by simp), hnone]
        exact hku.allocateTcb hualloc _
    | true =>
      refine ⟨fun p hp => ?_, hud.trans hdispatches, ?_⟩
      · rw [if_pos rfl, withNode_context (hold p hp).2.ne, (hold p hp).1, htcbs]
      · have hone : (u.withNode routine).handles.drop t.handles.length =
            [(u.tid + 1, u.frontier)] := by
          change (u.handles ++ [(u.tid + 1, u.frontier)]).drop t.handles.length = _
          rw [huh, hhandles, List.drop_left]
        rw [if_pos rfl, hone]
        exact hku.withNode hualloc routine

theorem Called.contexts {c : ClientCall} (hc : Called t c t')
    (hno : ∀ mainContext nodeContext routine, c ≠ .create mainContext nodeContext routine) :
    (∀ p, (t'.tcbs p).context = (t.tcbs p).context) ∧ t'.dispatches = t.dispatches ∧
      t'.threads = t.threads ∧ t'.cpu.owner = t.cpu.owner := by
  cases hc with
  | create => exact absurd rfl (hno _ _ _)
  | mutexInit _ hu =>
    rcases hu with rfl | ⟨-, rfl⟩
    · exact ⟨fun _ => rfl, rfl, rfl, rfl⟩
    · exact ⟨fun _ => rfl, rfl, rfl, rfl⟩
  | exit => exact ⟨setTcb_context rfl, rfl, rfl, rfl⟩
  | _ => exact ⟨fun _ => rfl, rfl, rfl, rfl⟩

theorem Ledger.Keeps.call {c : ClientCall} {fuel : ℕ} (hk : a.Keeps t) (h : Steady t)
    (hrun : c.run fuel t = .ok t') :
    Intact t (.event (.call c)) t' (a.after t (.event (.call c)) t') ∧
      (a.after t (.event (.call c)) t').Keeps t' := by
  -- only a creation makes a new entry
  have hquiet : (∀ mainContext nodeContext routine,
      c ≠ .create mainContext nodeContext routine) →
        Intact t (.event (.call c)) t' a ∧ a.Keeps t' := by
    intro hno
    obtain ⟨hcontext, hdispatches, hthreads, howner⟩ :=
      (ClientCall.called h.toPlaced hrun).contexts hno
    exact ⟨.quiet (by simp) (fun p _ => hcontext p) hdispatches,
      hk.congr hthreads howner fun p _ => hcontext p⟩
  cases c with
  | create mainContext nodeContext routine =>
    obtain ⟨⟨ok, u⟩, hcreate, hu⟩ := bind_eq_ok.mp hrun
    obtain rfl := Except.ok.inj hu
    obtain ⟨hcontext, hdispatches, hkeeps⟩ := hk.create h hcreate
    exact ⟨.quiet (by simp) hcontext hdispatches, hkeeps⟩
  | mutexInit m => exact hquiet (by simp)
  | lock m => exact hquiet (by simp)
  | unlock m => exact hquiet (by simp)
  | exit value => exact hquiet (by simp)
  | join tid => exact hquiet (by simp)
  | functionReturn value => exact hquiet (by simp)

/-- Every step of a regular state leaves contexts intact, and the ledger goes along. -/
theorem Ledger.Keeps.step (hk : a.Keeps t) (h : Regular t) (hs : OpenStep t o t') :
    Intact t o t' (a.after t o t') ∧ (a.after t o t').Keeps t' := by
  cases h.stepped hs with
  | tick hsteady ht => exact hk.tick hsteady ht
  | call hsteady _ hc => exact hk.call hsteady hc
  | unlock => exact ⟨.quiet (by simp) (fun _ _ => rfl) rfl, hk⟩
  | next he => exact hk.executes he

end Invariant

section Runs

structure Tracks (x : State TcbLinks × Ledger) (y : State TcbLists × Ledger) : Prop where
  refines : Refines x.1 y.1
  ledger : x.2 = y.2
  regular : Regular y.1
  keeps : y.2.Keeps y.1

theorem Ledger.after_refines {s s' : State TcbLinks} {t t' : State TcbLists} (hr : Refines s t)
    (hr' : Refines s' t') (a : Ledger) (o : OpenEvent) : a.after s o s' = a.after t o t' := by
  obtain ⟨L, -, rfl⟩ := hr
  obtain ⟨L', -, rfl⟩ := hr'
  cases o with
  | unlock m => rfl
  | event e =>
    cases e with
    | tick now start => rfl
    | next => rfl
    | call c => cases c <;> rfl

theorem Tracks.step {x x' : State TcbLinks × Ledger} {y : State TcbLists × Ledger} {o : OpenEvent}
    (h : Tracks x y) (hs : LedgerStep x o x') : ∃ y', LedgerStep y o y' ∧ Tracks x' y' := by
  obtain ⟨s, a⟩ := x
  obtain ⟨s', a'⟩ := x'
  obtain ⟨t, b⟩ := y
  obtain ⟨hr, hab, hreg, hk⟩ := h
  obtain ⟨hstep, ha'⟩ := hs
  dsimp only at hr hab hreg hk hstep ha'
  subst hab
  obtain ⟨t', ht', hr', hreg'⟩ := hstep.simulates hr hreg
  refine ⟨(t', a.after t o t'), ⟨ht', rfl⟩, hr', ?_, hreg', (hk.step hreg ht').2⟩
  exact ha'.trans (Ledger.after_refines hr hr' a o)

theorem Intact.of_refines {s s' : State TcbLinks} {t t' : State TcbLists} {o : OpenEvent}
    {a : Ledger} (hr : Refines s t) (hr' : Refines s' t') (h : Intact t o t' a) :
    Intact s o s' a := by
  obtain ⟨L, -, rfl⟩ := hr
  obtain ⟨L', -, rfl⟩ := hr'
  exact ⟨h.stored, h.kept, h.restored⟩

/-- In every run `current_tcb` names the thread that is on the processor, the handler stores the
interrupted context there, and what it dispatches goes on with the context of its last
preemption or, the first time, with the one that was built for it. -/
theorem contexts_intact {storage : TcbPtr → Tcb} {os : List OpenEvent} {s : State TcbLinks}
    {a : Ledger}
    (hrun : Run LedgerStep (State.initial noLinks storage, fun _ => none) os (s, a)) :
    (∀ cur ∈ s.currentTcb, cur = s.cpu.owner) ∧
      ∀ o s', OpenStep s o s' → Intact s o s' (a.after s o s') := by
  have hinit : Tracks (State.initial noLinks storage, fun _ => none)
      (State.initial noLists storage, fun _ => none) :=
    ⟨⟨noLinks, noLinks_agrees, rfl⟩, rfl, .steady (.initial storage),
      fun p hp => absurd hp List.not_mem_nil⟩
  have hsim : ∀ (x : State TcbLinks × Ledger) (o : OpenEvent) (x' : State TcbLinks × Ledger)
      (y : State TcbLists × Ledger), Tracks x y → LedgerStep x o x' →
        ∃ y', LedgerStep y o y' ∧ Tracks x' y' := fun x o x' y h hs => h.step hs
  obtain ⟨⟨t, b⟩, -, hr, hab, hreg, hk⟩ := hrun.simulation hsim hinit
  dsimp only at hr hab hreg hk
  subst hab
  constructor
  · obtain ⟨L, -, rfl⟩ := hr
    exact fun cur hcur => (hreg.placed.current cur hcur).2.symm
  · intro o s' hstep
    obtain ⟨t', ht', hr', -⟩ := hstep.simulates hr hreg
    rw [Ledger.after_refines hr hr']
    exact (hk.step hreg ht').1.of_refines hr hr'

/-- Thread 1 gets the processor, locks mutex 0 and is preempted. -/
def firstTurn : List OpenEvent :=
  [.event (.call (.create true true ⟨1, 0⟩)), .event (.call (.mutexInit 0)),
    .event (.tick ⟨1, 0⟩ ⟨1, 0⟩), .event .next, .event (.call (.lock 0)), .event .next,
    .event (.tick ⟨2, 0⟩ ⟨2, 0⟩)]

theorem contexts_intact_firstTurn : ∃ (s s' : State TcbLinks) (a : Ledger),
    Run LedgerStep (State.initial noLinks fun _ => zeroedTcb, fun _ => none) firstTurn (s, a) ∧
      OpenStep s (.event (.tick ⟨3, 0⟩ ⟨3, 0⟩)) s' ∧ s'.dispatches = [1, 0, 1] ∧
        s'.cpu = ⟨1, .lockWon 0, []⟩ ∧
          Intact s (.event (.tick ⟨3, 0⟩ ⟨3, 0⟩)) s'
            (a.after s (.event (.tick ⟨3, 0⟩ ⟨3, 0⟩)) s') := by
  obtain ⟨⟨s, a⟩, hrun, hs⟩ := Run.of_runAll (OpenEvent.record_step 5) firstTurn
    (State.initial noLinks fun _ => zeroedTcb, fun _ => none)
    (fun x => (OpenEvent.run (.event (.tick ⟨3, 0⟩ ⟨3, 0⟩)) 5 x.1).map
      fun s => (s.dispatches, s.cpu))
    (b := .ok ([1, 0, 1], ⟨1, .lockWon 0, []⟩)) (by decide +kernel)
  dsimp only at hs
  cases hstep : OpenEvent.run (.event (.tick ⟨3, 0⟩ ⟨3, 0⟩)) 5 s with
  | error e => simp [hstep, Except.map] at hs
  | ok s' =>
    rw [hstep] at hs
    obtain ⟨hdispatches, hcpu⟩ := Prod.mk.inj (Except.ok.inj hs)
    exact ⟨s, s', a, hrun, ⟨5, hstep⟩, hdispatches, hcpu, (contexts_intact hrun).2 _ s' ⟨5, hstep⟩⟩

end Runs

end VirtualMemorySimulation.Scheduler

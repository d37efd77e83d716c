import VirtualMemorySimulation.Scheduler.ContextIntegrity
import VirtualMemorySimulation.Scheduler.TurnOrder

/-!
# Turns after an unlock

After an unlock the first thread of the level is run instead of being scheduled again
behind the others, so a thread that unlocks before every signal keeps the processor. It
keeps it in no other way. From the first signal on that finds no unlock pending, a
thread that waits in the level is before it.
-/

namespace VirtualMemorySimulation.Scheduler

open Execution LinkedQueue

/-- The threads dispatched one after the other, each with whether an unlock was pending. -/
abbrev Turns := List (TcbPtr × Bool)

section Statement

variable {σ : Type}

def turnsOf (s s' : State σ) : Turns :=
  (s'.dispatches.drop s.dispatches.length).map fun p => (p, s.afterUnlockPriority ≠ -1)

/-- Two threads are in one level of the run queues, and the second has not terminated. -/
def Beside (s : State TcbLinks) (a b : TcbPtr) : Prop :=
  (∃ i, InQueue s.queues (.level i) a ∧ InQueue s.queues (.level i) b) ∧
    (s.tcbs b).state ≠ .terminated

/-- A step of a window in which two threads stay beside each other, with the turns so far. -/
structure WindowStep (a b : TcbPtr) (x : State TcbLinks × Turns) (o : OpenEvent)
    (y : State TcbLinks × Turns) : Prop where
  step : OpenStep x.1 o y.1
  turns : y.2 = x.2 ++ turnsOf x.1 y.1
  before : Beside x.1 a b
  after : Beside y.1 a b

/-- An expired signal with no unlock pending finds a thread at the head of the level of
`current_tcb`, and that is another one. -/
def PassesOver [QueueStore σ QueuePtr TcbPtr] (b : TcbPtr) (s : State σ) (o : OpenEvent) : Prop :=
  ∃ now start cur, o = .event (.tick now start) ∧ s.currentTcb = some cur ∧ PastSlice s cur now ∧
    s.afterUnlockPriority = -1 ∧ cur ≠ b ∧
      QueueStore.peek (.level (s.tcbs cur).priority) s.queues = some b

end Statement

/-- The first of two comes before the second, if that comes at all. -/
def Before (l : List TcbPtr) (b a : TcbPtr) : Prop :=
  ∃ pre post, l = pre ++ b :: post ∧ a ∉ pre

section Order

variable {t : State TcbLists} {l dead rest : List TcbPtr} {a b p q : TcbPtr}

theorem Before.of_not_mem (hb : b ∈ l) (ha : a ∉ l) : Before l b a := by
  obtain ⟨pre, post, rfl⟩ := List.append_of_mem hb
  exact ⟨pre, post, rfl, fun hmem => ha (List.mem_append_left _ hmem)⟩

theorem Before.append (h : Before l b a) (ks : List TcbPtr) : Before (l ++ ks) b a := by
  obtain ⟨pre, post, rfl, ha⟩ := h
  exact ⟨pre, post ++ ks, by simp, ha⟩

theorem Before.tail (h : Before (q :: l) b a) (hq : q ≠ b) : Before l b a := by
  obtain ⟨pre, post, hl, ha⟩ := h
  cases pre with
  | nil => exact absurd (List.cons.inj hl).1 hq
  | cons r pre =>
    obtain ⟨rfl, rfl⟩ := List.cons.inj hl
    exact ⟨pre, post, rfl, fun hmem => ha (List.mem_cons_of_mem _ hmem)⟩

theorem Foremost.mem_rest (h : Foremost t l dead p rest) (hb : b ∈ l)
    (hlive : (t.tcbs b).state ≠ .terminated) (hp : p ≠ b) : b ∈ rest := by
  rw [h.split] at hb
  rcases List.mem_append.mp hb with hb | hb
  · exact absurd (h.dead b hb) hlive
  · exact (List.mem_cons.mp hb).resolve_left (Ne.symm hp)

theorem Before.turned (h : Before l b a) (hfirst : Foremost t l dead p rest)
    (hlive : (t.tcbs b).state ≠ .terminated) (hp : p ≠ b) :
    p ≠ a ∧ Before (p :: (rest ++ dead)) b a := by
  obtain ⟨pre, post, hl, ha⟩ := h
  rcases List.append_eq_append_iff.mp (hl.symm.trans hfirst.split) with
    ⟨ks, hdead, hks⟩ | ⟨ks, rfl, hks⟩
  · -- the thread would be among the terminated ones, or the first live one itself
    cases ks with
    | nil => exact absurd (List.cons.inj hks).1.symm hp
    | cons r ks =>
      obtain ⟨rfl, -⟩ := List.cons.inj hks
      refine absurd (hfirst.dead b ?_) hlive
      rw [hdead]
      exact List.mem_append_right _ List.mem_cons_self
  · cases ks with
    | nil => exact absurd (List.cons.inj hks).1 hp
    | cons r ks =>
      obtain ⟨rfl, rfl⟩ := List.cons.inj hks
      have hks' : a ∉ p :: ks := fun hmem => ha (List.mem_append_right _ hmem)
      refine ⟨fun hpa => hks' (hpa ▸ List.mem_cons_self), p :: ks, post ++ dead, by simp, hks'⟩

end Order

section Levels

variable {t t' : State TcbLists} {o : OpenEvent}

/-- What a step other than a signal does to level 0: a thread comes to its end, or its head
leaves it. -/
inductive Shifted (t t' : State TcbLists) : Prop
  | same : t'.queues (.level 0) = t.queues (.level 0) → Shifted t t'
  | append {f : TcbPtr} : t'.queues (.level 0) = t.queues (.level 0) ++ [f] → Shifted t t'
  | pop {q : TcbPtr} : t.queues (.level 0) = q :: t'.queues (.level 0) → Shifted t t'

theorem Executes.shifted (he : Executes t t') (hpc : SoundPc t t.cpu.pc) : Shifted t t' := by
  cases he with
  | move heq hq =>
    rw [heq] at hpc
    obtain ⟨-, rfl⟩ := hpc
    refine .pop (hq.trans (congrArg (List.cons _) ?_))
    exact (Lists.move_source (by simp)).symm
  | waiter => exact .same (Lists.set_of_ne (by simp))
  | wake => exact .append Lists.set_self
  | _ => exact .same rfl

theorem Called.shifted {c : ClientCall} (h : Steady t) (hsome : t.threads ≠ []) (hc : Called t c t') :
    Shifted t t' ∧ t'.cpu.owner = t.cpu.owner ∧ t'.dispatches = t.dispatches := by
  have hbegun : t.begun = t := by
    rcases h.toPlaced.begun_eq with ⟨-, heq⟩ | ⟨hnone, -⟩
    · exact heq
    · exact absurd hnone hsome
  have hentered : ∀ {u}, Entered t u → u = t := by
    intro u hu
    cases hu with
    | first htid => exact absurd (h.counted.mp htid) hsome
    | later => rfl
  cases hc with
  | create hcreate =>
    rw [hbegun] at hcreate
    cases hcreate with
    | mainFails => exact ⟨.same rfl, rfl, rfl⟩
    | nodeFails hu =>
      obtain rfl := hentered hu
      exact ⟨.same rfl, rfl, rfl⟩
    | node hu =>
      obtain rfl := hentered hu
      exact ⟨.append Lists.set_self, rfl, rfl⟩
  | mutexInit _ hu =>
    rcases hu with rfl | ⟨hnone, -⟩
    · exact ⟨.same rfl, rfl, rfl⟩
    · exact absurd hnone hsome
  | exit => exact ⟨.same rfl, rfl, rfl⟩
  | lock => exact ⟨.same rfl, rfl, rfl⟩
  | unlock => exact ⟨.same rfl, rfl, rfl⟩
  | notFound => exact ⟨.same rfl, rfl, rfl⟩
  | join => exact ⟨.same rfl, rfl, rfl⟩
  | functionReturn => exact ⟨.same rfl, rfl, rfl⟩

/-- With a thread in level 0 a step gives a turn in the order of the lineup, or leaves the
processor to its thread. -/
theorem Regular.moves (h : Regular t) (hs : OpenStep t o t') {b : TcbPtr}
    (hb : b ∈ t.queues (.level 0)) :
    (Shifted t t' ∧ t'.cpu.owner = t.cpu.owner ∧ t'.dispatches = t.dispatches) ∨
      ∃ now start, o = .event (.tick now start) ∧ Expired t now ∧
        ∃ dead p rest, Foremost t t.lineup dead p rest ∧ Turned t t' p (rest ++ dead) := by
  have hsome : t.threads ≠ [] := List.ne_nil_of_mem (h.placed.known _ b hb)
  cases h.stepped hs with
  | @tick now start fuel _ hsteady ht =>
    rcases hsteady.toPlaced.ticked ht with ⟨-, rfl⟩ | ⟨hexpired, hidle | hturn⟩
    · exact Or.inl ⟨.same rfl, rfl, rfl⟩
    · have hempty : t.queues (.level 0) = [] := hidle.empty
      rw [hempty] at hb
      exact absurd hb List.not_mem_nil
    · exact Or.inr ⟨now, start, rfl, hexpired, hturn⟩
  | call hsteady _ hc => exact Or.inl ((ClientCall.called hsteady.toPlaced hc).shifted hsteady hsome)
  | unlock => exact Or.inl ⟨.same rfl, rfl, rfl⟩
  | next he =>
    have hbody := he.not_body
    have hpc : SoundPc t t.cpu.pc := by
      cases h with
      | steady h => exact h.soundPc hbody
      | stranded h => exact absurd h.noThread hsome
    exact Or.inl ⟨he.shifted hpc, he.local.owner, he.local.dispatches⟩

end Levels

/-- The first thread has the processor, at the head of its level or after the second. -/
structure Keeping (t : State TcbLists) (a b : TcbPtr) : Prop where
  owner : t.cpu.owner = a
  front : (t.queues (.level 0)).head? = some a ∨ Before (t.queues (.level 0)) b a

/-- The second thread comes before the first, and a third one may have the processor. -/
structure Passed (t : State TcbLists) (a b : TcbPtr) : Prop where
  owner : t.cpu.owner ≠ b
  before : Before (t.queues (.level 0)) b a

section Window

variable {t t' : State TcbLists} {a b p : TcbPtr} {dead rest : List TcbPtr}

/-- Two threads that stay in level 0 keep their order in it. -/
theorem Before.shift (h : Before (t.queues (.level 0)) b a) (hp : Placed t) (hs : Shifted t t')
    (hb : b ∈ t'.queues (.level 0)) : Before (t'.queues (.level 0)) b a := by
  cases hs with
  | same heq => rwa [heq]
  | append heq =>
    rw [heq]
    exact h.append _
  | @pop q heq =>
    have hnodup := hp.distinct.nodup (.level 0)
    rw [heq] at h hnodup
    refine h.tail fun hq => (List.nodup_cons.mp hnodup).1 ?_
    rwa [hq]

theorem Passed.shift (h : Passed t a b) (hp : Placed t) (hs : Shifted t t')
    (howner : t'.cpu.owner = t.cpu.owner) (hb : b ∈ t'.queues (.level 0)) : Passed t' a b :=
  ⟨howner ▸ h.owner, h.before.shift hp hs hb⟩

theorem Keeping.shift (h : Keeping t a b) (hp : Placed t) (hs : Shifted t t')
    (howner : t'.cpu.owner = t.cpu.owner) (ha : a ∈ t'.queues (.level 0))
    (hb : b ∈ t'.queues (.level 0)) : Keeping t' a b := by
  refine ⟨howner.trans h.owner, h.front.imp (fun hhead => ?_) fun hbefore => hbefore.shift hp hs hb⟩
  cases hs with
  | same heq => rwa [heq]
  | append heq => rw [heq, List.head?_append, hhead, Option.some_or]
  | @pop q heq =>
    -- the head does not leave the level
    have hnodup := hp.distinct.nodup (.level 0)
    rw [heq] at hhead hnodup
    obtain rfl : q = a := Option.some.inj hhead
    exact absurd ha (List.nodup_cons.mp hnodup).1

theorem Before.lineup (h : Before (t.queues (.level 0)) b a)
    (hno : t.afterUnlockPriority = -1 → (t.queues (.level 0)).head? ≠ some b) :
    Before t.lineup b a := by
  unfold State.lineup
  split_ifs with hafter
  · cases hq : t.queues (.level 0) with
    | nil =>
      rw [hq] at h
      obtain ⟨pre, post, hnil, -⟩ := h
      simp at hnil
    | cons q l =>
      have hhead := hno hafter
      rw [hq] at h hhead
      rw [List.rotate_cons_succ, List.rotate_zero]
      exact (h.tail fun hqb => hhead (congrArg some hqb)).append [q]
  · exact h

theorem Turned.passed (hturned : Turned t t' p (rest ++ dead)) (hp : p ≠ b)
    (h : Before (p :: (rest ++ dead)) b a) : Passed t' a b := by
  refine ⟨?_, ?_⟩
  · rwa [hturned.owner]
  · rwa [hturned.level]

theorem Turned.keeping (hturned : Turned t t' a (rest ++ dead)) : Keeping t' a b :=
  ⟨hturned.owner, Or.inl (by rw [hturned.level]; rfl)⟩

/-- Once the second thread is before the first, the first gets no turn before it. -/
theorem Passed.turn (h : Passed t a b) (hfirst : Foremost t t.lineup dead p rest)
    (hturned : Turned t t' p (rest ++ dead)) (hlive : (t.tcbs b).state ≠ .terminated)
    (hp : p ≠ b) (hno : t.afterUnlockPriority = -1 → (t.queues (.level 0)).head? ≠ some b) :
    p ≠ a ∧ Passed t' a b := by
  obtain ⟨hpa, hbefore⟩ := (h.before.lineup hno).turned hfirst hlive hp
  exact ⟨hpa, hturned.passed hp hbefore⟩

/-- A signal leaves the processor to its thread only if it finds an unlock pending. -/
theorem Keeping.turn (h : Keeping t a b) (hplaced : Placed t) (hne : a ≠ b)
    (hfirst : Foremost t t.lineup dead p rest) (hturned : Turned t t' p (rest ++ dead))
    (hb : b ∈ t.queues (.level 0)) (hlive : (t.tcbs b).state ≠ .terminated) (hp : p ≠ b)
    (hno : t.afterUnlockPriority = -1 → (t.queues (.level 0)).head? ≠ some b) :
    p = a ∧ t.afterUnlockPriority ≠ -1 ∨ p ≠ a ∧ Passed t' a b := by
  rcases h.front with hhead | hbefore
  · obtain ⟨l, hq⟩ : ∃ l, t.queues (.level 0) = a :: l := List.head?_eq_some_iff.mp hhead
    have hnodup := hplaced.distinct.nodup (.level 0)
    rw [hq] at hb hnodup
    have hbl : b ∈ l := (List.mem_cons.mp hb).resolve_left (Ne.symm hne)
    have hal : a ∉ l := (List.nodup_cons.mp hnodup).1
    by_cases hafter : t.afterUnlockPriority = -1
    · have hline : t.lineup = l ++ [a] := by
        rw [State.lineup, if_pos hafter, hq, List.rotate_cons_succ, List.rotate_zero]
      have hbefore : Before t.lineup b a := hline ▸ (Before.of_not_mem hbl hal).append [a]
      obtain ⟨hpa, hbefore'⟩ := hbefore.turned hfirst hlive hp
      exact Or.inr ⟨hpa, hturned.passed hp hbefore'⟩
    · have hline : t.lineup = a :: l := by rw [State.lineup, if_neg hafter, hq]
      have hmem := hfirst.mem_rest (hline ▸ List.mem_cons_of_mem a hbl) hlive hp
      have hsplit := hline.symm.trans hfirst.split
      cases dead with
      | nil => exact Or.inl ⟨(List.cons.inj hsplit).1.symm, hafter⟩
      | cons d dead =>
        -- the thread has terminated since its last turn
        obtain ⟨-, rfl⟩ := List.cons.inj hsplit
        have hrest : a ∉ p :: rest := fun ha => hal (List.mem_append_right _ ha)
        have hbefore : Before (p :: rest) b a :=
          Before.of_not_mem (List.mem_cons_of_mem p hmem) hrest
        refine Or.inr ⟨fun hpa => hrest (hpa ▸ List.mem_cons_self), hturned.passed hp ?_⟩
        exact hbefore.append _
  · obtain ⟨hpa, hbefore'⟩ := (hbefore.lineup hno).turned hfirst hlive hp
    exact Or.inr ⟨hpa, hturned.passed hp hbefore'⟩

end Window

/-- Since each turn of the first thread the second has had one, or the first has kept the
processor through pending unlocks, or the second has come before it. -/
structure Fair (a b : TcbPtr) (t : State TcbLists) (turns : Turns) : Prop where
  since : ∀ u v x, turns = u ++ (a, x) :: v → b ∉ v.map Prod.fst →
    (∀ e ∈ v, e = (a, true)) ∧ Keeping t a b ∨ Passed t a b
  between : ∀ u v w x y, turns = u ++ (a, x) :: v ++ (a, y) :: w → b ∉ v.map Prod.fst →
    ∀ e ∈ v ++ [(a, y)], e = (a, true)

section Runs

variable {t t' : State TcbLists} {a b p : TcbPtr} {dead rest : List TcbPtr} {turns : Turns}

theorem Fair.start (a b : TcbPtr) (t : State TcbLists) : Fair a b t [] :=
  ⟨fun u v x h => by simp at h, fun u v w x y h => by simp at h⟩

theorem Fair.shift (h : Fair a b t turns) (hp : Placed t) (hs : Shifted t t')
    (howner : t'.cpu.owner = t.cpu.owner) (ha : a ∈ t'.queues (.level 0))
    (hb : b ∈ t'.queues (.level 0)) : Fair a b t' turns := by
  refine ⟨fun u v x hturns hv => ?_, h.between⟩
  rcases h.since u v x hturns hv with ⟨hall, hkeep⟩ | hpassed
  · exact Or.inl ⟨hall, hkeep.shift hp hs howner ha hb⟩
  · exact Or.inr (hpassed.shift hp hs howner hb)

theorem Fair.turn (h : Fair a b t turns) (hplaced : Placed t) (hne : a ≠ b)
    (hfirst : Foremost t t.lineup dead p rest) (hturned : Turned t t' p (rest ++ dead))
    (hb : b ∈ t.queues (.level 0)) (hlive : (t.tcbs b).state ≠ .terminated)
    (hno : t.cpu.owner ≠ b → t.afterUnlockPriority = -1 →
      (t.queues (.level 0)).head? ≠ some b) :
    Fair a b t' (turns ++ [(p, decide (t.afterUnlockPriority ≠ -1))]) := by
  -- what the turn is, given those since a turn of the first thread
  have hnext : ∀ u v x, turns = u ++ (a, x) :: v → b ∉ v.map Prod.fst → p ≠ b →
      (∀ e ∈ v, e = (a, true)) ∧ p = a ∧ t.afterUnlockPriority ≠ -1 ∨ p ≠ a ∧ Passed t' a b := by
    intro u v x hturns hv hp
    rcases h.since u v x hturns hv with ⟨hall, hkeep⟩ | hpassed
    · have howner : t.cpu.owner ≠ b := fun howner => hne (hkeep.owner.symm.trans howner)
      exact (hkeep.turn hplaced hne hfirst hturned hb hlive hp (hno howner)).imp_left
        fun hturn => ⟨hall, hturn⟩
    · exact Or.inr (hpassed.turn hfirst hturned hlive hp (hno hpassed.owner))
  constructor
  · intro u v x hturns hv
    rcases List.eq_nil_or_concat v with rfl | ⟨v, e, rfl⟩
    · obtain ⟨-, hlast⟩ := List.append_inj' hturns rfl
      obtain ⟨rfl, -⟩ := Prod.mk.inj (List.cons.inj hlast).1
      exact Or.inl ⟨by simp, hturned.keeping⟩
    · rw [List.concat_eq_append, ← List.cons_append, ← List.append_assoc] at hturns
      obtain ⟨hprev, hlast⟩ := List.append_inj' hturns rfl
      obtain rfl := (List.cons.inj hlast).1
      have hv' : b ∉ v.map Prod.fst ∧ p ≠ b := by simpa [eq_comm] using hv
      rcases hnext u v x hprev hv'.1 hv'.2 with ⟨hall, rfl, hafter⟩ | ⟨-, hpassed⟩
      · refine Or.inl ⟨fun e he => ?_, hturned.keeping⟩
        rcases List.mem_append.mp (List.concat_eq_append ▸ he) with he | he
        · exact hall e he
        · rw [List.mem_singleton.mp he, decide_eq_true hafter]
      · exact Or.inr hpassed
  · intro u v w x y hturns hv
    rcases List.eq_nil_or_concat w with rfl | ⟨w, e, rfl⟩
    · obtain ⟨hprev, hlast⟩ := List.append_inj' hturns rfl
      obtain ⟨rfl, rfl⟩ := Prod.mk.inj (List.cons.inj hlast).1
      rcases hnext u v x hprev hv hne with ⟨hall, -, hafter⟩ | ⟨hpa, -⟩
      · intro e he
        rcases List.mem_append.mp he with he | he
        · exact hall e he
        · rw [List.mem_singleton.mp he, decide_eq_true hafter]
      · exact absurd rfl hpa
    · rw [List.concat_eq_append, ← List.cons_append, ← List.append_assoc] at hturns
      exact h.between u v w x y (List.append_inj' hturns rfl).1 hv

theorem turnsOf_quiet {σ : Type} {s s' : State σ} (h : s'.dispatches = s.dispatches) :
    turnsOf s s' = [] := by
  rw [turnsOf, h, List.drop_length]
  rfl

theorem turnsOf_turned {σ : Type} {s s' : State σ} (h : s'.dispatches = s.dispatches ++ [p]) :
    turnsOf s s' = [(p, decide (s.afterUnlockPriority ≠ -1))] := by
  rw [turnsOf, h, List.drop_left]
  rfl

theorem Beside.lists {L : TcbLinks} (hL : Agrees L t.queues) (hp : Placed t)
    (h : Beside (t.withQueues L) a b) : a ∈ t.queues (.level 0) ∧ b ∈ t.queues (.level 0) ∧
      (t.tcbs b).state ≠ .terminated := by
  obtain ⟨⟨i, ha, hb⟩, hlive⟩ := h
  have ha' := (inQueue_iff hL).mp ha
  obtain rfl := hp.level i a ha'
  exact ⟨ha', (inQueue_iff hL).mp hb, hlive⟩

/-- A step of the window on list states. -/
theorem Fair.step {s s' : State TcbLinks} {o : OpenEvent} {turns' : Turns} (h : Fair a b t turns)
    (hne : a ≠ b) (hr : Refines s t) (hreg : Regular t)
    (hs : WindowStep a b (s, turns) o (s', turns')) (hno : ¬ PassesOver b s o) :
    ∃ t', Refines s' t' ∧ Regular t' ∧ Fair a b t' turns' := by
  obtain ⟨t', ht', hr', hreg'⟩ := hs.step.simulates hr hreg
  refine ⟨t', hr', hreg', ?_⟩
  have hturns := hs.turns
  have hbefore := hs.before
  have hafter := hs.after
  obtain ⟨L, hL, rfl⟩ := hr
  obtain ⟨L', hL', rfl⟩ := hr'
  dsimp only at hturns hbefore hafter
  obtain ⟨-, hb, hlive⟩ := hbefore.lists hL hreg.placed
  obtain ⟨ha', hb', -⟩ := hafter.lists hL' hreg'.placed
  rcases hreg.moves ht' hb with ⟨hshift, howner, hdispatches⟩ |
    ⟨now, start, rfl, hexpired, dead, p, rest, hfirst, hturned⟩
  · have hnone : turnsOf (t.withQueues L) (t'.withQueues L') = [] := turnsOf_quiet hdispatches
    rw [hturns, hnone, List.append_nil]
    exact h.shift hreg.placed hshift howner ha' hb'
  · have hone : turnsOf (t.withQueues L) (t'.withQueues L') =
        [(p, decide (t.afterUnlockPriority ≠ -1))] := turnsOf_turned hturned.dispatches
    rw [hturns, hone]
    obtain ⟨cur, hcur, hpast⟩ := hexpired
    obtain ⟨hmem, rfl⟩ := hreg.placed.current cur hcur
    have hprio := hreg.placed.priority _ hmem
    refine h.turn hreg.placed hne hfirst hturned hb hlive fun howner hpending hhead => hno ?_
    refine ⟨now, start, t.cpu.owner, rfl, hcur, hpast, hpending, howner, ?_⟩
    rw [State.withQueues_tcbs, hprio]
    exact (hL.peek (.level 0)).trans hhead

/-- While two threads stay in one level, the second alive, and no signal passes over the second
with another thread in `current_tcb`, the first gets two turns without one of the second in
between only by a series of turns of its own, after signals that each find an unlock pending. -/
theorem bypassed_only_by_unlocks {storage : TcbPtr → Tcb} {os : List OpenEvent}
    {s₀ : State TcbLinks} (h : Run OpenStep (State.initial noLinks storage) os s₀) {a b : TcbPtr}
    (hne : a ≠ b) {ws : List OpenEvent} {s : State TcbLinks} {turns : Turns}
    (hwindow : Run (Guarded (fun x o => ¬ PassesOver b x.1 o) (WindowStep a b)) (s₀, []) ws
      (s, turns)) {u v w : Turns} {x y : Bool} (hturns : turns = u ++ (a, x) :: v ++ (a, y) :: w)
    (hb : b ∉ v.map Prod.fst) : ∀ e ∈ v ++ [(a, y)], e = (a, true) := by
  obtain ⟨t₀, -, hr₀, hreg₀⟩ := run_regular h
  have hinv := hwindow.invariant
    (I := fun _ x => ∃ t, Refines x.1 t ∧ Regular t ∧ Fair a b t x.2)
    ⟨t₀, hr₀, hreg₀, .start a b t₀⟩
    fun _ x o y hx hs => by
      obtain ⟨t, hr, hreg, hfair⟩ := hx
      exact hfair.step hne hr hreg hs.2 hs.1
  obtain ⟨t, -, -, hfair⟩ := hinv
  exact hfair.between u v w x y hturns hb

/-- Level 0 holds main, which runs, and then thread 1, which is ready. -/
structure OnlyTwo (s : State TcbLinks) : Prop where
  head : (s.queues.queue (.level 0)).head = some 0
  next : s.queues.next 0 = some 1
  last : s.queues.next 1 = none
  current : s.currentTcb = some 0
  priority : (s.tcbs 0).priority = 0
  ready : (s.tcbs 1).state = .ready

theorem onlyTwo_iff (s : State TcbLinks) : OnlyTwo s ↔
    [(s.queues.queue (.level 0)).head, s.queues.next 0, s.queues.next 1, s.currentTcb] =
        [some 0, some 1, none, some 0] ∧
      (s.tcbs 0).priority = 0 ∧ (s.tcbs 1).state = .ready := by
  simp only [List.cons.injEq, and_true]
  constructor
  · rintro ⟨hhead, hnext, hlast, hcur, hprio, hready⟩
    exact ⟨⟨hhead, hnext, hlast, hcur⟩, hprio, hready⟩
  · rintro ⟨⟨hhead, hnext, hlast, hcur⟩, hprio, hready⟩
    exact ⟨hhead, hnext, hlast, hcur, hprio, hready⟩

instance (s : State TcbLinks) : Decidable (OnlyTwo s) := decidable_of_iff _ (onlyTwo_iff s).symm

theorem OnlyTwo.beside {s : State TcbLinks} (h : OnlyTwo s) : Beside s 0 1 := by
  have hchain : Chain s.queues.next (s.queues.queue (.level 0)).head [0, 1] :=
    .link h.head (.link h.next (.last h.last))
  exact ⟨⟨0, ⟨[0, 1], hchain, by simp⟩, ⟨[0, 1], hchain, by simp⟩⟩, by simp [h.ready]⟩

theorem OnlyTwo.not_passesOver {s : State TcbLinks} (h : OnlyTwo s) (o : OpenEvent) :
    ¬ PassesOver 1 s o := by
  rintro ⟨now, start, cur, -, hcur, -, -, -, hpeek⟩
  obtain rfl := Option.some.inj (h.current.symm.trans hcur)
  rw [h.priority] at hpeek
  cases h.head.symm.trans hpeek

/-- A step between states in which main and thread 1 are the two threads of level 0. -/
def OpenEvent.inWindow (fuel : ℕ) (o : OpenEvent) (x : State TcbLinks × Turns) :
    Except Stop (State TcbLinks × Turns) := do
  let s' ← o.run fuel x.1
  if OnlyTwo x.1 ∧ OnlyTwo s' then .ok (s', x.2 ++ turnsOf x.1 s') else .error .notEnabled

theorem OpenEvent.inWindow_step (fuel : ℕ) (x : State TcbLinks × Turns) (o : OpenEvent)
    (y : State TcbLinks × Turns) (h : o.inWindow fuel x = .ok y) :
    Guarded (fun x o => ¬ PassesOver 1 x.1 o) (WindowStep 0 1) x o y := by
  obtain ⟨s', hs', h⟩ := bind_eq_ok.mp h
  split_ifs at h with htwo
  obtain rfl := Except.ok.inj h
  exact ⟨htwo.1.not_passesOver o, ⟨fuel, hs'⟩, rfl, htwo.1.beside, htwo.2.beside⟩

/-- Main has created thread 1, locked mutex 0 and unlocked it. -/
def unlockingMain : List OpenEvent :=
  [.event (.call (.create true true ⟨1, 0⟩)), .event (.call (.mutexInit 0)),
    .event (.call (.lock 0)), .event .next, .event .next, .event (.call (.unlock 0)),
    .event .next, .event .next, .event .next, .event .next]

/-- An expired signal, after which the running thread locks mutex 0 and unlocks it. -/
def signalAndUnlock (now : Time) : List OpenEvent :=
  [.event (.tick now now), .event (.call (.lock 0)), .event .next, .event .next,
    .event (.call (.unlock 0)), .event .next, .event .next, .event .next, .event .next]

def threeSignals : List OpenEvent :=
  signalAndUnlock ⟨1, 0⟩ ++ signalAndUnlock ⟨2, 0⟩ ++ signalAndUnlock ⟨3, 0⟩

theorem threeSignals_run : ∃ s₀ s : State TcbLinks,
    Run OpenStep (State.initial noLinks fun _ => zeroedTcb) unlockingMain s₀ ∧
      s₀.cpu.owner = 0 ∧ Run (Guarded (fun x o => ¬ PassesOver 1 x.1 o) (WindowStep 0 1))
        (s₀, []) threeSignals (s, [(0, true), (0, true), (0, true)]) := by
  obtain ⟨s₀, hrun, hs₀⟩ := Run.of_runAll (OpenEvent.run_step 5) unlockingMain
    (State.initial noLinks fun _ => zeroedTcb)
    (fun s => (s.cpu.owner, (runAll (OpenEvent.inWindow 5) threeSignals (s, [])).map Prod.snd))
    (b := (0, .ok [(0, true), (0, true), (0, true)])) (by decide +kernel)
  obtain ⟨howner, hturns⟩ := Prod.mk.inj hs₀
  obtain ⟨⟨s, turns⟩, hwindow, rfl⟩ :=
    Run.of_runAll (OpenEvent.inWindow_step 5) threeSignals (s₀, []) Prod.snd hturns
  exact ⟨s₀, s, hrun, howner, hwindow⟩

theorem bypassed_only_by_unlocks_main : ∃ s₀ s : State TcbLinks,
    Run OpenStep (State.initial noLinks fun _ => zeroedTcb) unlockingMain s₀ ∧
      Run (Guarded (fun x o => ¬ PassesOver 1 x.1 o) (WindowStep 0 1)) (s₀, []) threeSignals
        (s, [(0, true), (0, true), (0, true)]) ∧
          ∀ e ∈ [((0 : TcbPtr), true)] ++ [(0, true)], e = (0, true) := by
  obtain ⟨s₀, s, hrun, -, hwindow⟩ := threeSignals_run
  exact ⟨s₀, s, hrun, hwindow, bypassed_only_by_unlocks (u := []) (w := []) (x := true) hrun
    (by decide) hwindow rfl (by decide)⟩

/-- Two turns of one thread may follow each other with another one beside it. -/
theorem threeSignals_bypass : ¬ ∀ (storage : TcbPtr → Tcb) (os ws : List OpenEvent)
    (s₀ s : State TcbLinks) (a b : TcbPtr) (turns : Turns),
    Run OpenStep (State.initial noLinks storage) os s₀ → a ≠ b →
      Run (WindowStep a b) (s₀, []) ws (s, turns) →
        ∀ u v w x y, turns = u ++ (a, x) :: v ++ (a, y) :: w →
          b ∈ v.map Prod.fst ∨ s₀.cpu.owner = b := by
  intro h
  obtain ⟨s₀, s, hrun, howner, hwindow⟩ := threeSignals_run
  have hboth := h _ _ _ s₀ s 0 1 _ hrun (by decide) (hwindow.mono fun _ _ _ hs => hs.2)
    [] [] [(0, true)] true true rfl
  rw [howner] at hboth
  simp at hboth

end Runs

end VirtualMemorySimulation.Scheduler

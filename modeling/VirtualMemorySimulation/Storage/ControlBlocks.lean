import VirtualMemorySimulation.Storage.Process

/-!
# Ranges of the library and of the threads

What each step of the library allocates is set against what it counts: control blocks,
stacks and tids. Over a run the counts agree with the uses of the served ranges, and the
tid that a `malloc` asks for is that of the running thread.
-/

namespace VirtualMemorySimulation.Storage

open Execution LinkedQueue MemoryManager Scheduler SeparateBlocks

section Library

variable {t t' u : State TcbLists} {o : OpenEvent} {items : List Item}

/-- What the library counts goes with what it has allocated: control blocks, stacks and tids. -/
structure Allots (t t' : State TcbLists) (items : List Item) : Prop where
  frontier : t'.frontier = t.frontier + items.count .controlBlock
  handles : t'.handles.length = t.handles.length + items.count .stack
  tid_mono : t.tid ≤ t'.tid
  tid_le : t'.tid + t.frontier ≤ t.tid + t'.frontier

theorem Allots.of_same (hfrontier : t'.frontier = t.frontier) (hhandles : t'.handles = t.handles)
    (htid : t'.tid = t.tid) (hitems : ∀ x ∈ items, x ≠ .controlBlock ∧ x ≠ .stack) :
    Allots t t' items := by
  have hblocks : items.count .controlBlock = 0 :=
    List.count_eq_zero.mpr fun hmem => (hitems _ hmem).1 rfl
  have hstacks : items.count .stack = 0 :=
    List.count_eq_zero.mpr fun hmem => (hitems _ hmem).2 rfl
  exact ⟨by rw [hfrontier, hblocks, add_zero], by rw [hhandles, hstacks, add_zero], htid.ge,
    by rw [hfrontier, htid]⟩

theorem Allots.trans {items' : List Item} (h : Allots t u items) (h' : Allots u t' items') :
    Allots t t' (items ++ items') where
  frontier := by rw [h'.frontier, h.frontier, List.count_append, add_assoc]
  handles := by rw [h'.handles, h.handles, List.count_append, add_assoc]
  tid_mono := h.tid_mono.trans h'.tid_mono
  tid_le := by
    have hfirst := h.tid_le
    have hsecond := h'.tid_le
    omega

theorem initItems_ne (t : State TcbLists) :
    ∀ x ∈ initItems t, x ≠ .controlBlock ∧ x ≠ .stack := by
  unfold initItems
  split_ifs <;> simp

theorem timerItems_ne (t : State TcbLists) :
    ∀ x ∈ timerItems t, x ≠ .controlBlock ∧ x ≠ .stack := by
  unfold timerItems
  split_ifs <;> simp

theorem createNode_allots {nodeContext ok : Bool} {routine : Routine}
    (h : createNode nodeContext routine t = .ok (ok, t')) :
    Allots t t' (nodeItems nodeContext t) := by
  rw [createNode_lists] at h
  obtain ⟨-, rfl⟩ := Prod.mk.inj (Except.ok.inj h)
  cases nodeContext with
  | false =>
    refine ⟨rfl, rfl, Nat.le_succ _, ?_⟩
    simp only [State.allocateTcb, State.setTcb, Bool.false_eq_true, if_false]
    omega
  | true =>
    have hnode : Allots t (t.withNode routine) [.controlBlock, .returnValue, .stack] := by
      refine ⟨rfl, ?_, Nat.le_succ _, ?_⟩
      · simp [State.withNode, State.created]
      · simp only [State.withNode, State.created]
        omega
    exact hnode.trans (.of_same rfl rfl rfl (timerItems_ne t))

theorem createThreads_allots {mainContext nodeContext ok : Bool} {routine : Routine}
    (h : createThreads mainContext nodeContext routine t = .ok (ok, t')) :
    Allots t t' (if t.tid = 0 then
        [.controlBlock, .returnValue] ++ if mainContext then nodeItems nodeContext t else []
      else nodeItems nodeContext t) := by
  unfold createThreads at h
  split_ifs at h ⊢ with htid hmain
  · subst hmain
    rw [createMain_lists] at h
    have hentered : Allots t t.withMain [.controlBlock, .returnValue] := ⟨rfl, rfl, le_rfl, by
      simp only [State.withMain, State.created]
      omega⟩
    exact hentered.trans (createNode_allots h)
  · rw [createMain_lists, Bool.eq_false_iff.mpr hmain] at h
    obtain ⟨-, rfl⟩ := Prod.mk.inj (Except.ok.inj h)
    exact ⟨rfl, rfl, le_rfl, by simp [State.allocateTcb, State.setTcb]⟩
  · exact createNode_allots h

theorem create_allots {mainContext nodeContext ok : Bool} {routine : Routine} (h : Placed t)
    (hc : myPthreadCreate mainContext nodeContext routine t = .ok (ok, t')) :
    Allots t t' (createItems mainContext nodeContext t) := by
  have hbegun : Allots t t.begun (initItems t) ∧ t.begun.tid = t.tid ∧
      nodeItems nodeContext t.begun = nodeItems nodeContext t := by
    rcases h.begun_eq with ⟨-, heq⟩ | ⟨-, heq⟩ <;> rw [heq] <;>
      exact ⟨.of_same rfl rfl rfl (initItems_ne t), rfl, rfl⟩
  have hthreads := createThreads_allots (t := t.begun) hc
  rw [hbegun.2.1, hbegun.2.2] at hthreads
  exact hbegun.1.trans hthreads

theorem executes_allots (h : Executes t t') : Allots t t' (itemsOf t (.event .next)) := by
  have hitems : ∀ x ∈ itemsOf t (.event .next), x ≠ .controlBlock ∧ x ≠ .stack := by
    cases hpc : t.cpu.pc <;> simp [itemsOf, hpc]
  refine .of_same h.local.frontier ?_ h.local.tid hitems
  cases h <;> rfl

theorem step_allots (h : Regular t) (hs : OpenStep t o t') : Allots t t' (itemsOf t o) := by
  cases h.stepped hs with
  | tick hsteady ht =>
    obtain ⟨-, hf, -⟩ := tick_outcome hsteady.toPlaced ht
    exact .of_same hf.frontier hf.handles hf.tid (by simp [itemsOf])
  | @call c fuel _ hsteady hpc hc =>
    have hcalled := ClientCall.called hsteady.toPlaced hc
    cases hcalled with
    | create =>
      obtain ⟨⟨ok, v⟩, hcreate, hv⟩ := bind_eq_ok.mp hc
      obtain rfl := Except.ok.inj hv
      exact create_allots hsteady.toPlaced hcreate
    | mutexInit _ hu =>
      have hitems : ∀ x ∈ initItems t ++ [Item.waitQueue], x ≠ .controlBlock ∧ x ≠ .stack := by
        intro x hx
        rcases List.mem_append.mp hx with hx | hx
        · exact initItems_ne t x hx
        · rw [List.mem_singleton.mp hx]
          decide
      rcases hu with rfl | ⟨-, rfl⟩ <;> exact .of_same rfl rfl rfl hitems
    | _ => exact .of_same rfl rfl rfl (by simp [itemsOf])
  | unlock => exact .of_same rfl rfl rfl (by simp [itemsOf])
  | next he => exact executes_allots he

end Library

section Numbering

variable {t t' : State TcbLists} {o : OpenEvent}

theorem numbered_of_same (hn : Numbered t) (htid : ∀ p, (t'.tcbs p).tid = (t.tcbs p).tid)
    (hthreads : t'.threads = t.threads) (hhandles : t'.handles = t.handles)
    (hcount : t'.tid = t.tid) (hscheduler : t'.scheduler = t.scheduler)
    (hinit : t'.schedulerInit = t.schedulerInit) : Numbered t' :=
  hn.congr (fun p _ => htid p) hthreads hhandles hcount.ge fun h => by
    rw [hscheduler]
    exact hn.scheduler (hinit ▸ h)

theorem executes_numbered (hn : Numbered t) (h : Executes t t') : Numbered t' := by
  refine numbered_of_same hn (fun p => ?_) h.local.threads ?_ h.local.tid ?_ ?_
  · cases h with
    | start | store | terminate | wake =>
      refine update_kept Tcb.tid ?_ p
      rfl
    | _ => rfl
  all_goals cases h <;> rfl

theorem create_numbered {mainContext nodeContext ok : Bool} {routine : Routine} (hs : Steady t)
    (hn : Numbered t) (h : myPthreadCreate mainContext nodeContext routine t = .ok (ok, t')) :
    Numbered t' := by
  obtain ⟨hplaced, hinit⟩ := hs.toPlaced.begun
  have hbegun : Numbered t.begun := by
    rcases hs.toPlaced.begun_eq with ⟨-, heq⟩ | ⟨-, heq⟩
    · rwa [heq]
    · rw [heq]
      exact hn.congr (fun _ _ => rfl) rfl rfl le_rfl fun _ => rfl
  apply hplaced.creates_induction hinit hs.begun.counted (myPthreadCreate_creates h) hbegun
  · exact fun htid hnone => hbegun.withMain htid hnone
  · exact fun u tid hu hle hnu => hnu.allocateTcb hu hle
  · exact fun u routine hu _ hnu => hnu.withNode hu routine

/-- Every step keeps the numbering of the threads. -/
theorem step_numbered (h : Regular t) (hn : Numbered t) (hs : OpenStep t o t') : Numbered t' := by
  cases h.stepped hs with
  | tick hsteady ht =>
    obtain ⟨-, hf, -⟩ := tick_outcome hsteady.toPlaced ht
    exact numbered_of_same hn (fun p => (hf.tcbs p).tid) hf.threads hf.handles hf.tid hf.scheduler
      hf.schedulerInit
  | call hsteady hpc hc =>
    cases ClientCall.called hsteady.toPlaced hc with
    | create =>
      obtain ⟨⟨ok, v⟩, hcreate, hv⟩ := bind_eq_ok.mp hc
      obtain rfl := Except.ok.inj hv
      exact create_numbered hsteady hn hcreate
    | mutexInit _ hu =>
      rcases hu with rfl | ⟨-, rfl⟩
      · exact numbered_of_same hn (fun _ => rfl) rfl rfl rfl rfl rfl
      · exact hn.congr (fun _ _ => rfl) rfl rfl le_rfl fun _ => rfl
    | exit => exact hn.setTcb rfl
    | _ => exact numbered_of_same hn (fun _ => rfl) rfl rfl rfl rfl rfl
  | unlock => exact numbered_of_same hn (fun _ => rfl) rfl rfl rfl rfl rfl
  | next he => exact executes_numbered hn he

/-- `get_current_tid` answers with the tid of the thread on the processor. -/
theorem getCurrentTid_own (h : Placed t) {v : UInt32} (hv : getCurrentTid t = .ok v) :
    v = UInt32.ofNat (ownTid t) := by
  unfold getCurrentTid at hv
  unfold ownTid
  split_ifs at hv with hinit
  · obtain ⟨cur, hcur, hv⟩ := bind_eq_ok.mp hv
    obtain ⟨hmem, rfl⟩ := h.current cur (State.current_eq_ok.mp hcur)
    rw [if_neg (List.ne_nil_of_mem hmem)]
    exact (Except.ok.inj hv).symm
  · rw [if_pos (h.started (by simpa using hinit))]
    exact (Except.ok.inj hv).symm

theorem ownTid_le (h : Placed t) (hn : Numbered t) : ownTid t ≤ t.tid := by
  unfold ownTid
  split_ifs with hnone
  · exact Nat.zero_le _
  · exact hn.bounded _ (h.running hnone)

end Numbering

section Service

variable {P : Platform} {B : Layout} {sv sv' : Service}
  {actions : List (Action MemoryManager.Call UInt8)}

def requestsOf (actions : List (Action MemoryManager.Call UInt8)) : List MemoryManager.Request :=
  actions.filterMap fun
    | .call (.allocate r) => some r
    | _ => none

theorem served_requests (h : Run (manager P).Step sv actions sv') :
    sv'.served.map Prod.fst = sv.served.map Prod.fst ++ requestsOf actions := by
  induction h with
  | nil => simp [requestsOf]
  | @snoc actions s action s' _ hstep ih =>
    rw [requestsOf, List.filterMap_append, ← List.append_assoc]
    change _ = _ ++ requestsOf actions ++ _
    rw [← ih]
    cases hstep with
    | call hcall =>
      cases hcall with
      | allocate => simp
      | deallocate => simp
    | write => simp

def Use.Of (B : Layout) : Use → MemoryManager.Request → Prop
  | .library x, r => r = x.request B
  | .thread tid, r => r.requestId = .threadReq ∧ r.currTid = (UInt32.ofNat tid).toNat

theorem requestsOf_items (B : Layout) (items : List Item) : List.Forall₂ (Use.Of B)
    (items.map .library) (requestsOf (items.map fun x => .call (.allocate (x.request B)))) := by
  induction items with
  | nil => exact .nil
  | cons x xs ih => exact .cons rfl ih

theorem Deed.listed {t : State TcbLists} (h : Placed t) {d : Deed}
    (hactions : d.actions B t = .ok actions) :
    List.Forall₂ (Use.Of B) (d.uses t) (requestsOf actions) := by
  cases d with
  | event o =>
    obtain rfl := Except.ok.inj hactions
    exact requestsOf_items B _
  | malloc x =>
    simp only [Deed.actions] at hactions
    split_ifs at hactions
    obtain ⟨v, hv, hcall⟩ := bind_eq_ok.mp hactions
    obtain rfl := Except.ok.inj hcall
    rw [getCurrentTid_own h hv]
    exact .cons ⟨rfl, rfl⟩ .nil
  | free ptr =>
    simp only [Deed.actions] at hactions
    split_ifs at hactions
    obtain rfl := Except.ok.inj hactions
    exact .nil
  | write k i v =>
    obtain rfl := Except.ok.inj hactions
    exact .nil

end Service

section Runs

variable {P : Platform} {B : Layout} {x y : Process TcbLinks Service} {t : State TcbLists}
  {storage : TcbPtr → Tcb} {d : Deed} {ds : List Deed}

/-- The library's state is regular, the served requests are those of the uses, and control blocks,
stacks and tids are counted by them. -/
structure Sound (P : Platform) (B : Layout) (x : Process TcbLinks Service) (t : State TcbLists) :
    Prop where
  refines : Refines x.library t
  regular : Regular t
  numbered : Numbered t
  reached : ∃ actions, Run (manager P).Step .initial actions x.service
  listed : List.Forall₂ (Use.Of B) x.uses (x.service.served.map Prod.fst)
  blocks : x.uses.count (.library .controlBlock) = t.frontier
  handles : x.uses.count (.library .stack) = t.handles.length
  tid_le : t.tid ≤ t.frontier
  tids : ∀ tid, .thread tid ∈ x.uses → tid ≤ t.tid

theorem Sound.initial (P : Platform) (B : Layout) (storage : TcbPtr → Tcb) :
    Sound P B (.initial noLinks storage .initial) (.initial noLists storage) where
  refines := ⟨noLinks, noLinks_agrees, rfl⟩
  regular := .steady (.initial storage)
  numbered := .initial storage
  reached := ⟨[], .nil⟩
  listed := .nil
  blocks := rfl
  handles := rfl
  tid_le := le_rfl
  tids _ h := absurd h List.not_mem_nil

theorem Deed.actions_withQueues (B : Layout) (t : State TcbLists) (L : TcbLinks) (d : Deed) :
    d.actions B (t.withQueues L) = d.actions B t ∧ d.uses (t.withQueues L) = d.uses t := by
  cases d with
  | event o =>
    cases o with
    | unlock m => exact ⟨rfl, rfl⟩
    | event e =>
      cases e with
      | tick now start => exact ⟨rfl, rfl⟩
      | call c => cases c <;> exact ⟨rfl, rfl⟩
      | next => exact ⟨rfl, rfl⟩
  | _ => exact ⟨rfl, rfl⟩

theorem count_library (items : List Item) (x : Item) :
    (items.map Use.library).count (.library x) = items.count x :=
  List.count_map_of_injective _ _ (fun _ _ h => Use.library.inj h) _

theorem Sound.kept (h : Sound P B x t) {uses : List Use}
    {actions : List (Action MemoryManager.Call UInt8)} {sv : Service}
    (hrun : Run (manager P).Step x.service actions sv)
    (hlisted : List.Forall₂ (Use.Of B) uses (requestsOf actions))
    (huses : ∀ use ∈ uses, ∃ tid ≤ t.tid, use = .thread tid) :
    Sound P B ⟨x.library, sv, x.uses ++ uses⟩ t where
  refines := h.refines
  regular := h.regular
  numbered := h.numbered
  reached := by
    obtain ⟨before, hbefore⟩ := h.reached
    exact ⟨_, hbefore.append hrun⟩
  listed := by
    rw [served_requests hrun]
    exact List.rel_append h.listed hlisted
  blocks := by
    rw [List.count_append, h.blocks, List.count_eq_zero.mpr, add_zero]
    rintro hmem
    obtain ⟨tid, -, heq⟩ := huses _ hmem
    cases heq
  handles := by
    rw [List.count_append, h.handles, List.count_eq_zero.mpr, add_zero]
    rintro hmem
    obtain ⟨tid, -, heq⟩ := huses _ hmem
    cases heq
  tid_le := h.tid_le
  tids tid hmem := by
    rcases List.mem_append.mp hmem with hmem | hmem
    · exact h.tids tid hmem
    · obtain ⟨tid', hle, heq⟩ := huses _ hmem
      obtain rfl := Use.thread.inj heq
      exact hle

theorem Sound.event (h : Sound P B x t) {o : OpenEvent} {s : State TcbLinks} {sv : Service}
    (hs : OpenStep x.library o s) (hrun : Run (manager P).Step x.service
      ((itemsOf t o).map fun i => .call (.allocate (i.request B))) sv) :
    ∃ t', Sound P B ⟨s, sv, x.uses ++ (itemsOf t o).map .library⟩ t' := by
  obtain ⟨t', hstep, hrefines, hregular⟩ := hs.simulates h.refines h.regular
  have hallots := step_allots h.regular hstep
  obtain ⟨before, hbefore⟩ := h.reached
  refine ⟨t', hrefines, hregular, step_numbered h.regular h.numbered hstep,
    ⟨_, hbefore.append hrun⟩, ?_, ?_, ?_, ?_, fun tid hmem => ?_⟩
  · rw [served_requests hrun]
    exact List.rel_append h.listed (requestsOf_items B _)
  · rw [List.count_append, count_library, h.blocks, hallots.frontier]
  · rw [List.count_append, count_library, h.handles, hallots.handles]
  · have hle := h.tid_le
    have hmore := hallots.tid_le
    omega
  · rcases List.mem_append.mp hmem with hmem | hmem
    · exact (h.tids tid hmem).trans hallots.tid_mono
    · obtain ⟨i, -, heq⟩ := List.mem_map.mp hmem
      cases heq

theorem Sound.step (h : Sound P B x t) (hs : Step B (manager P).Step x d y) :
    ∃ t', Sound P B y t' := by
  obtain ⟨fuel, actions, hactions, hrun, hserved, huses⟩ := hs
  obtain ⟨L, hL, hlibrary⟩ := h.refines
  obtain ⟨library, service, uses⟩ := y
  dsimp only at hrun hserved huses
  rw [hlibrary, (d.actions_withQueues B t L).1] at hactions
  rw [hlibrary, (d.actions_withQueues B t L).2] at huses
  have hlisted := Deed.listed h.regular.placed hactions
  subst huses
  cases d with
  | event o =>
    obtain rfl := Except.ok.inj hactions
    exact h.event ⟨fuel, hrun⟩ hserved
  | malloc v =>
    obtain rfl := Except.ok.inj hrun
    refine ⟨t, h.kept hserved hlisted fun use huse => ?_⟩
    obtain rfl := List.mem_singleton.mp huse
    exact ⟨_, ownTid_le h.regular.placed h.numbered, rfl⟩
  | free ptr =>
    obtain rfl := Except.ok.inj hrun
    exact ⟨t, h.kept hserved hlisted fun use huse => absurd huse List.not_mem_nil⟩
  | write k i v =>
    obtain rfl := Except.ok.inj hrun
    exact ⟨t, h.kept hserved hlisted fun use huse => absurd huse List.not_mem_nil⟩

theorem run_sound (h : Run (Step B (manager P).Step) (.initial noLinks storage .initial) ds x) :
    ∃ t, Sound P B x t := by
  induction h with
  | nil => exact ⟨_, .initial P B storage⟩
  | snoc _ hs ih =>
    obtain ⟨t, ht⟩ := ih
    exact ht.step hs

end Runs

end VirtualMemorySimulation.Storage

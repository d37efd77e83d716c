import VirtualMemorySimulation.MemoryManager.Capacity
import VirtualMemorySimulation.MemoryManager.Narrowing
import VirtualMemorySimulation.Scheduler.Join
import VirtualMemorySimulation.Scheduler.OpenRuns

/-!
# The library on the memory manager

What the thread library works with lies in the simulated memory. Its calls of
`my_allocate` are requests to the memory manager among those of the threads, whose
`malloc` asks the library back which thread is running. A process is the library and
the manager together, with a note for each range that has been handed out. No signal
comes in the middle of a call of the manager, and `my_deallocate` does nothing.
-/

namespace VirtualMemorySimulation.Storage

open Execution LinkedQueue MemoryManager Scheduler SeparateBlocks

/-- What the library calls `my_allocate` for. -/
inductive Item where
  | scheduler
  | levels
  | timeSlices
  | controlBlock
  | returnValue
  | stack
  | signalStack
  | waitQueue
  | tmpReturn
  deriving DecidableEq, Repr

/-- `sizeof(tcb)`, with a `ucontext_t` of the C library in it, and the C library's `SIGSTKSZ`. -/
structure Layout where
  tcbSize : ℤ
  sigstksz : ℤ
  tcbSize_pos : 0 < tcbSize
  tcbSize_int : tcbSize < 2147483648
  sigstksz_pos : 0 < sigstksz
  sigstksz_int : sigstksz < 2147483648

def Item.size (B : Layout) : Item → ℤ
  | .scheduler => 40
  | .levels => 24 * numberLevels
  | .timeSlices => 4 * numberLevels
  | .controlBlock => B.tcbSize
  | .returnValue => 8
  | .stack => 8192
  | .signalStack => B.sigstksz
  | .waitQueue => 24
  | .tmpReturn => 8

theorem Item.size_int (B : Layout) (x : Item) :
    -2147483648 ≤ x.size B ∧ x.size B < 2147483648 := by
  have hpos := B.tcbSize_pos
  have hint := B.tcbSize_int
  have hstack_pos := B.sigstksz_pos
  have hstack_int := B.sigstksz_int
  cases x <;> simp only [Item.size, numberLevels] <;> omega

/-- The call `my_allocate(sizeof(..), __FILE__, __LINE__, LIBRARYREQ)`. -/
def Item.request (B : Layout) (x : Item) : MemoryManager.Request :=
  ⟨.libraryReq, 0, x.size B, currTid_zero, x.size_int B⟩

/-- What a range has been allocated for: an item of the library, or a `malloc` of the thread with
this tid. -/
inductive Use where
  | library (item : Item)
  | thread (tid : ℕ)
  deriving DecidableEq, Repr

section Library

variable {σ : Type}

/-- `init_scheduler`, on the first call that needs it. -/
def initItems (s : State σ) : List Item :=
  if s.schedulerInit then [] else [.scheduler, .levels, .timeSlices]

/-- `init_timer`, after the first thread that has been created. -/
def timerItems (s : State σ) : List Item := if s.handles = [] then [.signalStack] else []

/-- The part of `my_pthread_create` for the new thread. -/
def nodeItems (contextOk : Bool) (s : State σ) : List Item :=
  [.controlBlock, .returnValue] ++ if contextOk then .stack :: timerItems s else []

/-- What `my_pthread_create` allocates, in its order. -/
def createItems (mainContext nodeContext : Bool) (s : State σ) : List Item :=
  initItems s ++
    if s.tid = 0 then
      [.controlBlock, .returnValue] ++ if mainContext then nodeItems nodeContext s else []
    else nodeItems nodeContext s

/-- What a step of the library allocates. -/
def itemsOf (s : State σ) : OpenEvent → List Item
  | .event (.call (.create mainContext nodeContext _)) => createItems mainContext nodeContext s
  | .event (.call (.mutexInit _)) => initItems s ++ [.waitQueue]
  | .event .next =>
    match s.cpu.pc with
    | .start _ => [.tmpReturn]
    | _ => []
  | _ => []

def getCurrentTid (s : State σ) : Except Stop UInt32 :=
  if s.schedulerInit then do
    let cur ← s.current
    .ok (UInt32.ofNat (s.tcbs cur).tid)
  else .ok 0

/-- The tid of the thread on the processor; before the first creation, that of `main`. -/
def ownTid (s : State σ) : ℕ := if s.threads = [] then 0 else (s.tcbs s.cpu.owner).tid

end Library

/-- What happens in a process: a step of the library, a `malloc` or `free` of the thread on the
processor, and a write into a range that has been handed out. -/
inductive Deed where
  | event (o : OpenEvent)
  | malloc (x : UInt64)
  | free (ptr : ℤ)
  | write (k : ℕ) (i : ℤ) (v : UInt8)
  deriving DecidableEq, Repr

section Machine

variable {σ τ : Type}

/-- The library, the memory manager, and the use of each range that has been handed out. -/
structure Process (σ τ : Type) where
  library : State σ
  service : τ
  uses : List Use

def Process.initial (queues : σ) (storage : TcbPtr → Tcb) (service : τ) : Process σ τ :=
  ⟨.initial queues storage, service, []⟩

def Deed.actions (B : Layout) (s : State σ) :
    Deed → Except Stop (List (Action MemoryManager.Call UInt8))
  | .event o => .ok ((itemsOf s o).map fun x => .call (.allocate (x.request B)))
  | .malloc x =>
    if s.cpu.pc = .body then do
      let currTid ← getCurrentTid s
      .ok [.call (.allocate (mallocRequest currTid x))]
    else .error .notEnabled
  | .free ptr =>
    if s.cpu.pc = .body then .ok [.call (.deallocate ptr .threadReq)] else .error .notEnabled
  | .write k i v => .ok [.write k i v]

def Deed.uses (s : State σ) : Deed → List Use
  | .event o => (itemsOf s o).map .library
  | .malloc _ => [.thread (ownTid s)]
  | _ => []

variable [QueueStore σ QueuePtr TcbPtr]

def Deed.run (fuel : ℕ) (s : State σ) : Deed → Except Stop (State σ)
  | .event o => o.run fuel s
  | _ => .ok s

/-- A deed comes to an end when all its calls of the memory manager return. -/
def Step (B : Layout) (serve : τ → Action MemoryManager.Call UInt8 → τ → Prop)
    (x : Process σ τ) (d : Deed) (y : Process σ τ) : Prop :=
  ∃ fuel actions, d.actions B x.library = .ok actions ∧ d.run fuel x.library = .ok y.library ∧
    Run serve x.service actions y.service ∧ y.uses = x.uses ++ d.uses x.library

def exec (B : Layout) (fuel : ℕ) (serve : Action MemoryManager.Call UInt8 → τ → Except Stop τ)
    (d : Deed) (x : Process σ τ) : Except Stop (Process σ τ) := do
  let actions ← d.actions B x.library
  let library ← d.run fuel x.library
  let service ← runAll serve actions x.service
  .ok ⟨library, service, x.uses ++ d.uses x.library⟩

theorem exec_step {B : Layout} {fuel : ℕ}
    {serve : Action MemoryManager.Call UInt8 → τ → Except Stop τ} (x : Process σ τ) (d : Deed)
    (y : Process σ τ) (h : exec B fuel serve d x = .ok y) :
    Step B (fun s a s' => serve a s = .ok s') x d y := by
  obtain ⟨actions, hactions, h⟩ := bind_eq_ok.mp h
  obtain ⟨library, hlibrary, h⟩ := bind_eq_ok.mp h
  obtain ⟨service, hservice, h⟩ := bind_eq_ok.mp h
  obtain rfl := Except.ok.inj h
  obtain ⟨service', hrun, rfl⟩ := Run.of_runAll (fun _ _ _ hserve => hserve) actions x.service id
    (by rw [hservice]; rfl)
  exact ⟨fuel, actions, hactions, hlibrary, hrun, rfl⟩

end Machine

end VirtualMemorySimulation.Storage

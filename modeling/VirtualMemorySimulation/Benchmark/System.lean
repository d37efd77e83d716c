import VirtualMemorySimulation.Benchmark.Programs
import VirtualMemorySimulation.Scheduler.MutualExclusion

/-!
# Benchmarks on the library

`main` initialises the mutex, creates the threads, joins them and prints the sum. The
thread on the processor takes the steps, in the library or in its own code, and a
signal may come between any two of them. The three benchmarks differ in what their
threads do only. What a signal does is a parameter, so that a run can be one under
`signal_handler` or one under any scheduler.
-/

namespace VirtualMemorySimulation.Benchmark

open Execution LinkedQueue Scheduler SharedUpdates
open scoped BigOperators

/-- `thread_num`, what thread `n` does, and whose the cells are. -/
structure Program where
  threadNum : ℕ
  updates : ℕ → List (Update CInt)
  owner : ℕ → ℕ
  within : ∀ n ∈ Finset.range threadNum, ∀ update ∈ updates n, update.Within owner n

/-- How far `main` is. `missed` tells whether a `pthread_join` has returned `-1`. -/
inductive Main where
  | init
  | creating (i : ℕ)
  | joining (i : ℕ) (missed : Bool)
  | printed (missed : Bool) (sum : CInt)
  deriving DecidableEq, Repr

/-- The library, the shared memory, `main` with its array `thread`, and the local variables
of the threads, by their numbers. `number` is the local `n` of `thread_function`. -/
structure System (σ : Type) where
  library : State σ
  memory : Memory CInt
  main : Main
  thread : ℕ → ℕ
  workers : ℕ → Worker CInt
  number : TcbPtr → ℕ

inductive Action where
  | tick (now start : Time)
  | next
  deriving DecidableEq, Repr

def mutex : MutexPtr := 0

def System.initial {σ : Type} (P : Program) (queues : σ) (storage : TcbPtr → Tcb) : System σ where
  library := .initial queues storage
  memory := .zero
  main := .init
  thread _ := 0
  workers n := .start (P.updates n)
  number _ := 0

/-- The library call that a step of a thread's code makes. -/
def Request.event : Request → Option Event
  | .nothing => none
  | .lock => some (.call (.lock mutex))
  | .unlock => some (.call (.unlock mutex))
  | .finish => some (.call (.functionReturn 0))

namespace System

variable {σ : Type}

/-- The thread goes on in the library. At the start of its function it reads its number,
`counter[i]` being `i`. -/
def resume (S : System σ) (s : State σ) : System σ :=
  { S with
    library := s
    number := match S.library.cpu.pc with
      | .start routine => Function.update S.number S.library.cpu.owner routine.argument.toNat
      | _ => S.number }

/-- What `main` does next: the event in the library, if any, and what follows it. -/
def mainNext (P : Program) (S : System σ) : Except Stop (Option Event × (State σ → System σ)) :=
  match S.main with
  | .init => .ok (some (.call (.mutexInit mutex)), fun s =>
      { S with library := s, main := .creating 0 })
  | .creating i =>
    if i < P.threadNum then
      .ok (some (.call (.create true true ⟨0, i⟩)), fun s =>
        { S with
          library := s
          main := .creating (i + 1)
          thread := Function.update S.thread i s.tid })
    else .ok (none, fun s => { S with library := s, main := .joining 0 false })
  | .joining i missed =>
    if i < P.threadNum then
      .ok (some (.call (.join (S.thread i))), fun s =>
        { S with library := s, main := .joining (i + 1) (missed || s.cpu.pc = .body) })
    else .ok (none, fun s => { S with library := s, main := .printed missed S.memory.total })
  | .printed _ _ => .error .exit

/-- What a thread does next in its own code. -/
def workerNext (S : System σ) : Except Stop (Option Event × (State σ → System σ)) :=
  let n := S.number S.library.cpu.owner
  match (S.workers n).step S.memory with
  | none => .error .notEnabled
  | some (memory, w, request) => .ok (Request.event request, fun s =>
      { S with library := s, memory, workers := Function.update S.workers n w })

def next (P : Program) (S : System σ) : Except Stop (Option Event × (State σ → System σ)) :=
  if S.library.cpu.pc = .body then
    if S.library.onMain then S.mainNext P else S.workerNext
  else .ok (some .next, S.resume)

def event (P : Program) (S : System σ) : Action →
    Except Stop (Option Event × (State σ → System σ))
  | .tick now start => .ok (some (.tick now start), fun s => { S with library := s })
  | .next => S.next P

/-- A step on a library whose events are given. -/
def Step (P : Program) (lib : State σ → Event → State σ → Prop) (S : System σ) (a : Action)
    (S' : System σ) : Prop :=
  ∃ e after, S.event P a = .ok (e, after) ∧
    ∃ s, (∀ e' ∈ e, lib S.library e' s) ∧ (e = none → s = S.library) ∧ S' = after s

inductive Moves (P : Program) (lib : State σ → Event → State σ → Prop) (S : System σ) :
    System σ → Prop
  | tick {now start s} : lib S.library (.tick now start) s → Moves P lib S { S with library := s }
  | library {s} : S.library.cpu.pc ≠ .body → lib S.library .next s → Moves P lib S (S.resume s)
  | init {s} : S.library.onMain → S.main = .init → lib S.library (.call (.mutexInit mutex)) s →
      Moves P lib S { S with library := s, main := .creating 0 }
  | create {i s} : S.library.onMain → S.main = .creating i → i < P.threadNum →
      lib S.library (.call (.create true true ⟨0, i⟩)) s →
      Moves P lib S { S with
        library := s
        main := .creating (i + 1)
        thread := Function.update S.thread i s.tid }
  | created {i} : S.main = .creating i → ¬ i < P.threadNum →
      Moves P lib S { S with main := .joining 0 false }
  | join {i missed s} : S.library.cpu.pc = .body → S.library.onMain → S.main = .joining i missed →
      i < P.threadNum → lib S.library (.call (.join (S.thread i))) s →
      Moves P lib S { S with
        library := s
        main := .joining (i + 1) (missed || s.cpu.pc = .body) }
  | print {i missed} : S.library.cpu.pc = .body → S.library.onMain → S.main = .joining i missed →
      ¬ i < P.threadNum → Moves P lib S { S with main := .printed missed S.memory.total }
  | access {memory w} : S.library.cpu.pc = .body → ¬ S.library.onMain →
      (S.workers (S.number S.library.cpu.owner)).step S.memory = some (memory, w, .nothing) →
      Moves P lib S { S with
        memory
        workers := Function.update S.workers (S.number S.library.cpu.owner) w }
  | request {memory w r c s} : S.library.cpu.pc = .body → ¬ S.library.onMain →
      (S.workers (S.number S.library.cpu.owner)).step S.memory = some (memory, w, r) →
      Request.event r = some (.call c) → lib S.library (.call c) s →
      Moves P lib S { S with
        library := s
        memory
        workers := Function.update S.workers (S.number S.library.cpu.owner) w }

theorem Step.moves {P : Program} {lib : State σ → Event → State σ → Prop} {S S' : System σ}
    {a : Action} (h : Step P lib S a S') : Moves P lib S S' := by
  obtain ⟨e, after, he, s, hlib, hnone, rfl⟩ := h
  cases a with
  | tick now start =>
    obtain ⟨rfl, rfl⟩ := Prod.mk.inj (Except.ok.inj he)
    exact .tick (hlib _ rfl)
  | next =>
    change S.next P = _ at he
    unfold next at he
    split_ifs at he with hbody hmain
    · unfold mainNext at he
      cases hm : S.main with
      | init =>
        rw [hm] at he
        obtain ⟨rfl, rfl⟩ := Prod.mk.inj (Except.ok.inj he)
        exact .init hmain hm (hlib _ rfl)
      | creating i =>
        rw [hm] at he
        dsimp only at he
        split_ifs at he with hi
        · obtain ⟨rfl, rfl⟩ := Prod.mk.inj (Except.ok.inj he)
          exact .create hmain hm hi (hlib _ rfl)
        · obtain ⟨rfl, rfl⟩ := Prod.mk.inj (Except.ok.inj he)
          obtain rfl := hnone rfl
          exact .created hm hi
      | joining i missed =>
        rw [hm] at he
        dsimp only at he
        split_ifs at he with hi
        · obtain ⟨rfl, rfl⟩ := Prod.mk.inj (Except.ok.inj he)
          exact .join hbody hmain hm hi (hlib _ rfl)
        · obtain ⟨rfl, rfl⟩ := Prod.mk.inj (Except.ok.inj he)
          obtain rfl := hnone rfl
          exact .print hbody hmain hm hi
      | printed missed sum => simp [hm] at he
    · unfold workerNext at he
      dsimp only at he
      cases hstep : (S.workers (S.number S.library.cpu.owner)).step S.memory with
      | none => simp [hstep] at he
      | some res =>
        obtain ⟨memory, w, r⟩ := res
        rw [hstep] at he
        obtain ⟨rfl, rfl⟩ := Prod.mk.inj (Except.ok.inj he)
        cases r with
        | nothing =>
          obtain rfl := hnone rfl
          exact .access hbody hmain hstep
        | lock => exact .request hbody hmain hstep rfl (hlib _ rfl)
        | unlock => exact .request hbody hmain hstep rfl (hlib _ rfl)
        | finish => exact .request hbody hmain hstep rfl (hlib _ rfl)
    · obtain ⟨rfl, rfl⟩ := Prod.mk.inj (Except.ok.inj he)
      exact .library hbody (hlib _ rfl)

variable [QueueStore σ QueuePtr TcbPtr]

def exec (P : Program) (fuel : ℕ) (a : Action) (S : System σ) : Except Stop (System σ) := do
  let (e, after) ← S.event P a
  match e with
  | none => .ok (after S.library)
  | some e => do
    let s ← e.run fuel S.library
    .ok (after s)

theorem exec_step (P : Program) (fuel : ℕ) (S : System σ) (a : Action) (S' : System σ)
    (h : S.exec P fuel a = .ok S') : Step P EventStep S a S' := by
  obtain ⟨⟨e, after⟩, he, h⟩ := bind_eq_ok.mp h
  cases e with
  | none =>
    obtain rfl := Except.ok.inj h
    exact ⟨none, after, he, S.library, by simp, fun _ => rfl, rfl⟩
  | some e =>
    obtain ⟨s, hs, h⟩ := bind_eq_ok.mp h
    obtain rfl := Except.ok.inj h
    refine ⟨some e, after, he, s, ?_, by simp, rfl⟩
    rintro e' ⟨⟩
    exact ⟨fuel, hs⟩

end System

def vectorMultiplyProgram (vectorSize threadNum : ℕ) (r s : ℕ → CInt) : Program where
  threadNum
  updates := vectorMultiply vectorSize threadNum r s
  owner _ := 0
  within n _ := by simp [vectorMultiply, Update.Within]

/-- `parallelCal.c`. Row `j` is the business of thread `j % thread_num`. -/
def parallelCalProgram (rSize cSize threadNum : ℕ) (a : ℕ → ℕ → CInt) : Program where
  threadNum
  updates := parallelCalculate rSize cSize threadNum a
  owner j := j % threadNum
  within n hn update hupdate := by
    have hn := Finset.mem_range.mp hn
    have hrow : ∀ j ∈ indices n rSize threadNum, j % threadNum = n := fun j hj =>
      ((mem_indices (Nat.zero_lt_of_lt hn)).mp hj).2.2.trans (Nat.mod_eq_of_lt hn)
    simp only [parallelCalculate, addRow, List.mem_append, List.mem_flatMap, List.mem_map] at hupdate
    obtain ⟨j, hj, i, -, rfl⟩ | ⟨j, hj, rfl⟩ := hupdate
    · exact hrow j hj
    · exact hrow j hj

/-- `externalCal.c`. File `k` and its part of `mem` are the business of thread
`k % thread_num`. -/
def externalCalProgram (recordNum itr threadNum : ℕ) (record : ℕ → List CInt) : Program where
  threadNum
  updates := externalCalculate recordNum itr threadNum record
  owner c := c / 4 % threadNum
  within n hn update hupdate := by
    have hn := Finset.mem_range.mp hn
    obtain ⟨k, hk, hmem⟩ := List.mem_flatMap.mp hupdate
    have hrecord : k % threadNum = n :=
      ((mem_indices (Nat.zero_lt_of_lt hn)).mp hk).2.2.trans (Nat.mod_eq_of_lt hn)
    exact (addRecord_within itr record k update hmem).imp_owner fun c hc => by rw [hc, hrecord]

end VirtualMemorySimulation.Benchmark

import VirtualMemorySimulation.Foundations.ByteRecords
import VirtualMemorySimulation.Foundations.Execution

/-!
# Headers of the simulated physical memory

Block, page and metadata headers live in `PHYSICAL_MEMORY` itself, with the
field order and padding of the LP64 structures. Enumeration fields keep the raw
stored code, because a clobbered header may hold any. An access outside the
array is undefined in C and stops the execution here.
-/

namespace VirtualMemorySimulation.MemoryManager

open ByteRecords Execution

inductive RequestId where
  | unknown
  | libraryReq
  | threadReq
  deriving DecidableEq, Repr

inductive BlockState where
  | unallocated
  | allocated
  deriving DecidableEq, Repr

inductive PageState where
  | assigned
  | unassigned
  deriving DecidableEq, Repr

def RequestId.code : RequestId → ℤ
  | .unknown => 0
  | .libraryReq => 1
  | .threadReq => 2

def BlockState.code : BlockState → ℤ
  | .unallocated => 0
  | .allocated => 1

def PageState.code : PageState → ℤ
  | .assigned => 0
  | .unassigned => 1

theorem RequestId.code_injective : Function.Injective RequestId.code := by
  intro a b h
  cases a <;> cases b <;> simp_all [RequestId.code]

theorem BlockState.code_injective : Function.Injective BlockState.code := by
  intro s t h
  cases s <;> cases t <;> simp_all [BlockState.code]

structure Block where
  state : ℤ
  dataSize : ℤ
  totalSize : ℤ
  blockAddress : ℤ
  dataAddress : ℤ
  next : ℤ
  deriving DecidableEq, Repr

structure Page where
  state : ℤ
  requestId : ℤ
  tid : ℤ
  nextOwnerPage : ℤ
  sizeOfAllocated : ℤ
  startAddress : ℤ
  endAddress : ℤ
  blockListHead : ℤ
  next : ℤ
  deriving DecidableEq, Repr

structure MemoryMetadata where
  memoryMetadataInit : ℤ
  pageSize : ℤ
  numberPages : ℤ
  address : ℤ
  pageListHead : ℤ
  deriving DecidableEq, Repr

def intField : Field := ⟨4, true⟩

/-- An `enum`, a `uint`, or four bytes of padding. -/
def uintField : Field := ⟨4, false⟩

def pointerField : Field := ⟨8, false⟩

instance : Record Block where
  fields := [uintField, intField, intField, uintField, pointerField, pointerField, pointerField]
  values b := [b.state, b.dataSize, b.totalSize, 0, b.blockAddress, b.dataAddress, b.next]
  ofValues
    | [state, dataSize, totalSize, _, blockAddress, dataAddress, next] =>
        ⟨state, dataSize, totalSize, blockAddress, dataAddress, next⟩
    | _ => ⟨0, 0, 0, 0, 0, 0⟩
  length_values _ := rfl
  ofValues_values _ := rfl

instance : Record Page where
  fields := [uintField, uintField, uintField, uintField, pointerField, intField, uintField,
    pointerField, pointerField, pointerField, pointerField]
  values p := [p.state, p.requestId, p.tid, 0, p.nextOwnerPage, p.sizeOfAllocated, 0,
    p.startAddress, p.endAddress, p.blockListHead, p.next]
  ofValues
    | [state, requestId, tid, _, nextOwnerPage, sizeOfAllocated, _, startAddress, endAddress,
        blockListHead, next] =>
        ⟨state, requestId, tid, nextOwnerPage, sizeOfAllocated, startAddress, endAddress,
          blockListHead, next⟩
    | _ => ⟨0, 0, 0, 0, 0, 0, 0, 0, 0⟩
  length_values _ := rfl
  ofValues_values _ := rfl

instance : Record MemoryMetadata where
  fields := [intField, intField, intField, uintField, pointerField, pointerField]
  values d := [d.memoryMetadataInit, d.pageSize, d.numberPages, 0, d.address, d.pageListHead]
  ofValues
    | [memoryMetadataInit, pageSize, numberPages, _, address, pageListHead] =>
        ⟨memoryMetadataInit, pageSize, numberPages, address, pageListHead⟩
    | _ => ⟨0, 0, 0, 0, 0⟩
  length_values _ := rfl
  ofValues_values _ := rfl

@[simp] theorem recordSize_block : recordSize Block = 40 := rfl

@[simp] theorem recordSize_page : recordSize Page = 64 := rfl

@[simp] theorem recordSize_metadata : recordSize MemoryMetadata = 32 := rfl

theorem intField_holds {v : ℤ} (h : -2147483648 ≤ v) (h' : v < 2147483648) :
    intField.Holds v := by
  simp only [intField, Field.Holds, if_true]
  omega

theorem uintField_holds {v : ℤ} (h : 0 ≤ v) (h' : v < 4294967296) : uintField.Holds v := by
  simp only [uintField, Field.Holds, Bool.false_eq_true, if_false]
  omega

theorem pointerField_holds {v : ℤ} (h : 0 ≤ v) (h' : v < 18446744073709551616) :
    pointerField.Holds v := by
  simp only [pointerField, Field.Holds, Bool.false_eq_true, if_false]
  omega

theorem BlockState.code_holds (s : BlockState) : uintField.Holds s.code := by
  cases s <;> exact uintField_holds (by decide) (by decide)

theorem PageState.code_holds (s : PageState) : uintField.Holds s.code := by
  cases s <;> exact uintField_holds (by decide) (by decide)

theorem RequestId.code_holds (r : RequestId) : uintField.Holds r.code := by
  cases r <;> exact uintField_holds (by decide) (by decide)

theorem Block.fits {s d t b a n : ℤ} (hs : uintField.Holds s) (hd : intField.Holds d)
    (ht : intField.Holds t) (hb : pointerField.Holds b) (ha : pointerField.Holds a)
    (hn : pointerField.Holds n) : Fits (⟨s, d, t, b, a, n⟩ : Block) :=
  .cons hs <| .cons hd <| .cons ht <| .cons (uintField_holds le_rfl (by decide)) <|
    .cons hb <| .cons ha <| .cons hn .nil

theorem Page.fits {s r t o z a e b n : ℤ} (hs : uintField.Holds s) (hr : uintField.Holds r)
    (ht : uintField.Holds t) (ho : pointerField.Holds o) (hz : intField.Holds z)
    (ha : pointerField.Holds a) (he : pointerField.Holds e) (hb : pointerField.Holds b)
    (hn : pointerField.Holds n) : Fits (⟨s, r, t, o, z, a, e, b, n⟩ : Page) :=
  .cons hs <| .cons hr <| .cons ht <| .cons (uintField_holds le_rfl (by decide)) <| .cons ho <|
    .cons hz <| .cons (uintField_holds le_rfl (by decide)) <| .cons ha <| .cons he <|
    .cons hb <| .cons hn .nil

theorem MemoryMetadata.fits {i z n a h : ℤ} (hi : intField.Holds i) (hz : intField.Holds z)
    (hn : intField.Holds n) (ha : pointerField.Holds a) (hh : pointerField.Holds h) :
    Fits (⟨i, z, n, a, h⟩ : MemoryMetadata) :=
  .cons hi <| .cons hz <| .cons hn <| .cons (uintField_holds le_rfl (by decide)) <| .cons ha <|
    .cons hh .nil

theorem Page.fits_sizeOfAllocated {p : Page} (h : Fits p) {z : ℤ} (hz : intField.Holds z) :
    Fits { p with sizeOfAllocated := z } := by
  simp only [Fits, Record.fields, Record.values, List.forall₂_cons] at h ⊢
  exact ⟨h.1, h.2.1, h.2.2.1, h.2.2.2.1, h.2.2.2.2.1, hz, h.2.2.2.2.2.2⟩

theorem take_decode_holds (f : Field) (bs : List UInt8) : f.Holds (f.decode (bs.take f.width)) :=
  f.decode_holds (List.length_take_le _ _)

theorem load_block_fits (m : Store) (a : ℤ) : Fits (load Block m a) :=
  Block.fits (take_decode_holds ..) (take_decode_holds ..) (take_decode_holds ..)
    (take_decode_holds ..) (take_decode_holds ..) (take_decode_holds ..)

theorem load_page_fits (m : Store) (a : ℤ) : Fits (load Page m a) :=
  Page.fits (take_decode_holds ..) (take_decode_holds ..) (take_decode_holds ..)
    (take_decode_holds ..) (take_decode_holds ..) (take_decode_holds ..) (take_decode_holds ..)
    (take_decode_holds ..) (take_decode_holds ..)

def null : ℤ := 0

theorem null_holds : pointerField.Holds null := pointerField_holds le_rfl (by decide)

def physicalSize : ℤ := 8388608

/-- Conversion of an integer to the 32-bit `int` of the source. -/
def toInt (x : ℤ) : ℤ := Int.bmod x 4294967296

theorem toInt_of_range {x : ℤ} (h : -2147483648 ≤ x) (h' : x < 2147483648) : toInt x = x := by
  unfold toInt
  rw [Int.bmod_def]
  split <;> omega

theorem toInt_add_header {size : ℤ} (h : -2147483688 ≤ size) (h' : size < 2147483608) :
    toInt (size + recordSize Block) = size + 40 := by
  rw [recordSize_block]
  exact toInt_of_range (by omega) (by omega)

/-- What the program is given by its surroundings: where the array lies, what
`sysconf(_SC_PAGE_SIZE)` answers (a power of two, so a divisor of the 8 MB), and
what the locals of `assign_page` that are read without having been set hold. -/
structure Platform where
  physicalMemory : ℤ
  sysconfPageSize : ℤ
  staleTmpPrev : ℤ
  staleBlockNext : ℤ
  physicalMemory_pos : 0 < physicalMemory
  physicalMemory_top : physicalMemory + 16777216 < 9223372036854775808
  pageSize_large : 128 ≤ sysconfPageSize
  pageSize_dvd : sysconfPageSize ∣ 8388608

namespace Platform

variable (P : Platform)

def top : ℤ := P.physicalMemory + physicalSize

/-- Where the first page starts, right after the metadata. -/
def firstPage : ℤ := P.physicalMemory + recordSize MemoryMetadata

def Inside (a : ℤ) (n : ℤ) : Prop := P.physicalMemory ≤ a ∧ a + n ≤ P.top

instance (a n : ℤ) : Decidable (P.Inside a n) := inferInstanceAs (Decidable (_ ∧ _))

theorem pageSize_le : P.sysconfPageSize ≤ 8388608 := Int.le_of_dvd (by decide) P.pageSize_dvd

/-- An array at 64 KiB, 4096-byte pages, and locals that happen to be null. -/
def typical : Platform :=
  ⟨65536, 4096, 0, 0, by decide, by decide, by decide, ⟨2048, by decide⟩⟩

end Platform

/-- The array with the two globals that describe it. -/
structure Memory where
  bytes : Store
  metadata : MemoryMetadata
  initialized : Bool

/-- The zeroed static storage before the first request. -/
def Memory.initial : Memory := ⟨fun _ => 0, ⟨0, 0, 0, 0, 0⟩, false⟩

section Access

variable {α β : Type} [Record α] [Record β] (P : Platform)

/-- `memcpy` of a record out of the array. -/
def loadAt (α : Type) [Record α] (m : Memory) (a : ℤ) : Except Stop α :=
  if P.Inside a (recordSize α) then .ok (load α m.bytes a) else .error .outOfBounds

/-- `memcpy` of a record into the array. -/
def storeAt (m : Memory) (a : ℤ) (x : α) : Except Stop Memory :=
  if P.Inside a (recordSize α) then .ok { m with bytes := store m.bytes a x }
  else .error .outOfBounds

variable {P}

theorem loadAt_ok {m : Memory} {a : ℤ} (h : P.Inside a (recordSize α)) :
    loadAt P α m a = .ok (load α m.bytes a) := if_pos h

theorem inside_page {a : ℤ} :
    P.Inside a (recordSize Page) ↔ P.physicalMemory ≤ a ∧ a + 64 ≤ P.top := by
  rw [Platform.Inside, recordSize_page, Nat.cast_ofNat]

theorem inside_block {a : ℤ} :
    P.Inside a (recordSize Block) ↔ P.physicalMemory ≤ a ∧ a + 40 ≤ P.top := by
  rw [Platform.Inside, recordSize_block, Nat.cast_ofNat]

theorem storeAt_ok {m : Memory} {a : ℤ} {x : α} (h : P.Inside a (recordSize α)) :
    storeAt P m a x = .ok { m with bytes := store m.bytes a x } := if_pos h

theorem storeAt_error {m : Memory} {a : ℤ} {x : α} (h : ¬ P.Inside a (recordSize α)) :
    storeAt P m a x = .error .outOfBounds := if_neg h

theorem loadAt_eq_ok {m : Memory} {a : ℤ} {x : α} : loadAt P α m a = .ok x ↔
    P.Inside a (recordSize α) ∧ load α m.bytes a = x := by
  unfold loadAt
  split_ifs with hin <;> simp [hin]

theorem storeAt_eq_ok {m m' : Memory} {a : ℤ} {x : α} : storeAt P m a x = .ok m' ↔
    P.Inside a (recordSize α) ∧ { m with bytes := store m.bytes a x } = m' := by
  unfold storeAt
  split_ifs with hin <;> simp [hin]

theorem storeAt_metadata {m m' : Memory} {a : ℤ} {x : α} (h : storeAt P m a x = .ok m') :
    m'.metadata = m.metadata := by
  obtain ⟨-, rfl⟩ := storeAt_eq_ok.mp h
  rfl

end Access

end VirtualMemorySimulation.MemoryManager

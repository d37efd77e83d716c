import Mathlib.Tactic

/-!
# Records stored in a byte array

A record of fixed-width integer fields is laid out little-endian, field after
field and padding included, in a store of single bytes. The round trip needs
only that each value fits its field; records whose byte ranges are apart do not
see each other. Overlapping writes keep their bytewise meaning, so a clobbered
record decodes to whatever the bytes now say.
-/

namespace VirtualMemorySimulation.ByteRecords

/-- The `w` low bytes of `n`, least significant first. -/
def encodeBytes (w n : ℕ) : List UInt8 :=
  (List.range w).map fun i => UInt8.ofNat (n / 256 ^ i)

def decodeBytes : List UInt8 → ℕ
  | [] => 0
  | b :: bs => b.toNat + 256 * decodeBytes bs

@[simp] theorem length_encodeBytes (w n : ℕ) : (encodeBytes w n).length = w := by
  simp [encodeBytes]

theorem encodeBytes_succ (w n : ℕ) :
    encodeBytes (w + 1) n = UInt8.ofNat n :: encodeBytes w (n / 256) := by
  simp [encodeBytes, List.range_succ_eq_map, Function.comp_def, pow_succ', Nat.div_div_eq_div_mul]

theorem decodeBytes_encodeBytes (w n : ℕ) : decodeBytes (encodeBytes w n) = n % 256 ^ w := by
  induction w generalizing n with
  | zero => simp [encodeBytes, decodeBytes, Nat.mod_one]
  | succ w ih =>
    rw [encodeBytes_succ, decodeBytes, ih, UInt8.toNat_ofNat',
      show 256 ^ (w + 1) = 256 * 256 ^ w from pow_succ' 256 w]
    exact Nat.mod_mul.symm

/-- An integer field: its width in bytes and whether it is two's complement. -/
structure Field where
  width : ℕ
  signed : Bool

namespace Field

def Holds (f : Field) (v : ℤ) : Prop :=
  if f.signed then -(256 ^ f.width : ℤ) ≤ 2 * v ∧ 2 * v < 256 ^ f.width
  else 0 ≤ v ∧ v < 256 ^ f.width

def encode (f : Field) (v : ℤ) : List UInt8 :=
  encodeBytes f.width (v % 256 ^ f.width).toNat

def decode (f : Field) (bs : List UInt8) : ℤ :=
  let n : ℤ := decodeBytes bs
  if f.signed ∧ (256 ^ f.width : ℤ) ≤ 2 * n then n - 256 ^ f.width else n

@[simp] theorem length_encode (f : Field) (v : ℤ) : (f.encode v).length = f.width := by
  simp [encode]

theorem decode_encode (f : Field) {v : ℤ} (h : f.Holds v) : f.decode (f.encode v) = v := by
  have hpos : (0 : ℤ) < 256 ^ f.width := by positivity
  have hmod := Int.emod_nonneg v hpos.ne'
  have hlt := Int.emod_lt_of_pos v hpos
  have hn : (decodeBytes (f.encode v) : ℤ) = v % 256 ^ f.width := by
    rw [encode, decodeBytes_encodeBytes, Nat.mod_eq_of_lt]
    · exact Int.toNat_of_nonneg hmod
    · zify
      rw [Int.toNat_of_nonneg hmod]
      exact hlt
  unfold Holds at h
  unfold decode
  simp only [hn]
  cases hs : f.signed with
  | false =>
    simp only [hs, Bool.false_eq_true, if_false, false_and] at h ⊢
    exact Int.emod_eq_of_lt h.1 h.2
  | true =>
    simp only [hs, if_true, true_and] at h ⊢
    by_cases hv : 0 ≤ v
    · rw [Int.emod_eq_of_lt hv (by omega), if_neg (by omega)]
    · have hneg : v % 256 ^ f.width = v + 256 ^ f.width := by
        rw [← Int.add_emod_right, Int.emod_eq_of_lt (by omega) (by omega)]
      rw [hneg, if_pos (by omega)]
      omega

theorem decodeBytes_lt (bs : List UInt8) : decodeBytes bs < 256 ^ bs.length := by
  induction bs with
  | nil => simp [decodeBytes]
  | cons b bs ih =>
    have hb := b.toNat_lt
    rw [decodeBytes, List.length_cons, pow_succ']
    omega

theorem decode_holds (f : Field) {bs : List UInt8} (h : bs.length ≤ f.width) :
    f.Holds (f.decode bs) := by
  have hlt : (decodeBytes bs : ℤ) < 256 ^ f.width := by
    have hle : 256 ^ bs.length ≤ 256 ^ f.width := Nat.pow_le_pow_right (by decide) h
    exact_mod_cast (decodeBytes_lt bs).trans_le hle
  unfold Holds decode
  cases f.signed with
  | false => simp [hlt]
  | true =>
    simp only [if_true, true_and]
    split_ifs <;> omega

end Field

def layoutSize (fs : List Field) : ℕ := (fs.map Field.width).sum

def encodeFields : List Field → List ℤ → List UInt8
  | f :: fs, v :: vs => f.encode v ++ encodeFields fs vs
  | _, _ => []

def decodeFields : List Field → List UInt8 → List ℤ
  | [], _ => []
  | f :: fs, bs => f.decode (bs.take f.width) :: decodeFields fs (bs.drop f.width)

theorem length_encodeFields {fs : List Field} {vs : List ℤ} (h : fs.length = vs.length) :
    (encodeFields fs vs).length = layoutSize fs := by
  induction fs generalizing vs with
  | nil => cases vs <;> rfl
  | cons f fs ih =>
    cases vs with
    | nil => simp at h
    | cons v vs => simp [encodeFields, layoutSize, ih (by simpa using h)]

theorem decodeFields_encodeFields {fs : List Field} {vs : List ℤ}
    (h : List.Forall₂ Field.Holds fs vs) : decodeFields fs (encodeFields fs vs) = vs := by
  induction h with
  | nil => rfl
  | @cons f v fs vs hv _ ih =>
    have htake : (f.encode v ++ encodeFields fs vs).take f.width = f.encode v :=
      List.take_left' (f.length_encode v)
    have hdrop : (f.encode v ++ encodeFields fs vs).drop f.width = encodeFields fs vs :=
      List.drop_left' (f.length_encode v)
    simp only [encodeFields, decodeFields]
    rw [htake, hdrop, ih, f.decode_encode hv]

/-- A store of bytes at integer addresses. -/
abbrev Store := ℤ → UInt8

namespace Store

def read (m : Store) (a : ℤ) (n : ℕ) : List UInt8 := (List.range n).map fun i : ℕ => m (a + i)

def write (m : Store) (a : ℤ) (bs : List UInt8) : Store := fun x =>
  if a ≤ x ∧ x < a + bs.length then bs.getD (x - a).toNat 0 else m x

theorem read_congr {m m' : Store} {a : ℤ} {n : ℕ} (h : ∀ x, a ≤ x → x < a + n → m x = m' x) :
    m.read a n = m'.read a n := by
  apply List.map_congr_left
  intro i hi
  have := List.mem_range.mp hi
  exact h _ (by omega) (by omega)

theorem write_outside (m : Store) (a : ℤ) (bs : List UInt8) {x : ℤ}
    (h : x < a ∨ a + bs.length ≤ x) : m.write a bs x = m x := by
  unfold write
  rw [if_neg (by omega)]

theorem read_write (m : Store) (a : ℤ) (bs : List UInt8) :
    (m.write a bs).read a bs.length = bs := by
  apply List.ext_getElem
  · simp [read]
  · intro i hi hi'
    simp [read, write, hi']

end Store

class Record (α : Type) where
  fields : List Field
  values : α → List ℤ
  ofValues : List ℤ → α
  length_values : ∀ x, fields.length = (values x).length
  ofValues_values : ∀ x, ofValues (values x) = x

section Records

variable {α β : Type} [Record α] [Record β]

def recordSize (α : Type) [Record α] : ℕ := layoutSize (Record.fields α)

def Fits (x : α) : Prop := List.Forall₂ Field.Holds (Record.fields α) (Record.values x)

def load (α : Type) [Record α] (m : Store) (a : ℤ) : α :=
  Record.ofValues (decodeFields (Record.fields α) (m.read a (recordSize α)))

def store (m : Store) (a : ℤ) (x : α) : Store :=
  m.write a (encodeFields (Record.fields α) (Record.values x))

theorem load_store (m : Store) (a : ℤ) {x : α} (h : Fits x) : load α (store m a x) a = x := by
  have hlen := length_encodeFields (Record.length_values x)
  unfold load store
  rw [recordSize, ← hlen, Store.read_write, decodeFields_encodeFields h, Record.ofValues_values]

theorem load_congr {m m' : Store} {a : ℤ}
    (h : ∀ x, a ≤ x → x < a + recordSize α → m x = m' x) : load α m a = load α m' a := by
  unfold load
  rw [Store.read_congr h]

theorem store_outside (m : Store) (a : ℤ) (x : α) {y : ℤ}
    (h : y < a ∨ a + recordSize α ≤ y) : store m a x y = m y := by
  apply Store.write_outside
  rw [length_encodeFields (Record.length_values x)]
  exact h

theorem store_congr {m m' : Store} {a : ℤ} {x : α} {y : ℤ}
    (h : y < a ∨ a + recordSize α ≤ y → m y = m' y) : store m a x y = store m' a x y := by
  unfold store Store.write
  rw [length_encodeFields (Record.length_values x)]
  split_ifs with hin
  · rfl
  · apply h
    unfold recordSize
    omega

/-- Records whose ranges are apart do not see each other. -/
theorem load_store_of_apart (m : Store) {a b : ℤ} (x : α)
    (h : b + recordSize β ≤ a ∨ a + recordSize α ≤ b) : load β (store m a x) b = load β m b := by
  apply load_congr
  intro y hy hy'
  exact store_outside m a x (by omega)

end Records

section Links

variable {α : Type} [Record α] {next : α → ℤ} {m : Store}

/-- The records met by following `next` from a link up to the null pointer, each
with its address. -/
inductive Linked (next : α → ℤ) (m : Store) : ℤ → List (ℤ × α) → Prop
  | nil : Linked next m 0 []
  | cons {a : ℤ} {x : α} {items : List (ℤ × α)} :
      a ≠ 0 → load α m a = x → Linked next m (next x) items → Linked next m a ((a, x) :: items)

theorem Linked.exists_cons {a : ℤ} {items : List (ℤ × α)} (h : Linked next m a items)
    (ha : a ≠ 0) :
    ∃ rest, items = (a, load α m a) :: rest ∧ Linked next m (next (load α m a)) rest := by
  cases h with
  | nil => exact absurd rfl ha
  | cons _ hload htail =>
    subst hload
    exact ⟨_, rfl, htail⟩

theorem Linked.unique {a : ℤ} {items items' : List (ℤ × α)} (h : Linked next m a items)
    (h' : Linked next m a items') : items = items' := by
  induction h generalizing items' with
  | nil =>
    cases h' with
    | nil => rfl
    | cons hne => exact absurd rfl hne
  | cons hne hload _ ih =>
    cases h' with
    | nil => exact absurd rfl hne
    | cons _ hload' htail =>
      obtain rfl := hload.symm.trans hload'
      rw [ih htail]

theorem Linked.suffix {a : ℤ} {pre post : List (ℤ × α)} {b : ℤ × α}
    (h : Linked next m a (pre ++ b :: post)) : Linked next m b.1 (b :: post) := by
  induction pre generalizing a with
  | nil =>
    cases h with
    | cons hne hload htail => exact .cons hne hload htail
  | cons c pre ih =>
    cases h with
    | cons _ _ htail => exact ih htail

/-- A linked list that reaches null is acyclic. -/
theorem Linked.nodup {a : ℤ} {items : List (ℤ × α)} (h : Linked next m a items) :
    (items.map Prod.fst).Nodup := by
  induction h with
  | nil => simp
  | @cons a x items hne hload htail ih =>
    rw [List.map_cons, List.nodup_cons]
    refine ⟨fun hmem => ?_, ih⟩
    obtain ⟨b, hb, hba⟩ := List.mem_map.mp hmem
    obtain ⟨pre, post, rfl⟩ := List.append_of_mem hb
    have hagain : Linked next m a (b :: post) := by
      have := htail.suffix
      rwa [hba] at this
    have hlen := congrArg List.length ((Linked.cons hne hload htail).unique hagain)
    simp at hlen
    omega

end Links

end VirtualMemorySimulation.ByteRecords

import VirtualMemorySimulation.Foundations.SharedUpdates
import Mathlib.Data.BitVec

/-!
# The benchmark programs

The functions that the threads of `vectorMultiply.c`, `parallelCal.c` and
`externalCal.c` run, as the lists of their accesses to shared memory, and the
`verify` function of each. Every thread starts its loop at its
own number and goes on in steps of `thread_num`.
-/

namespace VirtualMemorySimulation.Benchmark

open SharedUpdates
open scoped BigOperators

/-- `int`. -/
abbrev CInt := BitVec 32

/-- The indices of `for (j = n; j < bound; j += step)`, while the fuel lasts. -/
def indicesFrom (bound step : ℕ) : ℕ → ℕ → List ℕ
  | 0, _ => []
  | fuel + 1, j => if j < bound then j :: indicesFrom bound step fuel (j + step) else []

/-- The indices of a whole loop; it has at most `bound` passes. -/
def indices (n bound step : ℕ) : List ℕ := indicesFrom bound step bound n

/-- `vector_multiply`. -/
def vectorMultiply (vectorSize threadNum : ℕ) (r s : ℕ → CInt) (n : ℕ) : List (Update CInt) :=
  (indices n vectorSize threadNum).map fun i => .collect (.value (r i * s i))

def addRow (cSize : ℕ) (a : ℕ → ℕ → CInt) (j : ℕ) : List (Update CInt) :=
  (List.range cSize).map fun i => .add j (a j i * BitVec.ofNat 32 i)

def parallelCalculate (rSize cSize threadNum : ℕ) (a : ℕ → ℕ → CInt) (n : ℕ) : List (Update CInt) :=
  (indices n rSize threadNum).flatMap (addRow cSize a) ++
    (indices n rSize threadNum).map fun j => .collect (.cell j)

/-- `fscanf` of the next number of a record. At the end of the file nothing is stored. -/
def scan (record : List CInt) (position cell : ℕ) : List (Update CInt) :=
  (record[position]?.map fun v => Update.assign cell v).toList

/-- The loops of `external_calculate` over the file `k`. -/
def addRecord (itr : ℕ) (record : ℕ → List CInt) (k : ℕ) : List (Update CInt) :=
  (List.range itr).flatMap fun i => (List.range 4).flatMap fun j =>
    scan (record k) (4 * i + j) (4 * k + j) ++ [.collect (.cell (4 * k + j))]

/-- `external_calculate`, for files that can be opened. -/
def externalCalculate (recordNum itr threadNum : ℕ) (record : ℕ → List CInt) (n : ℕ) :
    List (Update CInt) :=
  (indices n recordNum threadNum).flatMap (addRecord itr record)

namespace Verify

/-- `verify` of `vectorMultiply.c`. -/
def vectorMultiply (vectorSize : ℕ) (r s : ℕ → CInt) : CInt :=
  (List.range vectorSize).foldl (fun res i => res + r i * s i) 0

/-- `verify` of `parallelCal.c`. -/
def parallelCal (rSize cSize : ℕ) (a : ℕ → ℕ → CInt) : CInt :=
  let pSum j := (List.range cSize).foldl (fun x i => x + a j i * BitVec.ofNat 32 i) 0
  (List.range rSize).foldl (fun sum j => sum + pSum j) 0

/-- `verify` of `externalCal.c`: the loops of the threads over all files in a row. -/
def externalCal (recordNum itr : ℕ) (record : ℕ → List CInt) : CInt :=
  (runUpdates ((List.range recordNum).flatMap (addRecord itr record))).total

end Verify

section Indices

variable {bound step n j : ℕ}

theorem mem_indicesFrom (hstep : 0 < step) {fuel : ℕ} (hfuel : bound ≤ n + fuel) :
    j ∈ indicesFrom bound step fuel n ↔ n ≤ j ∧ j < bound ∧ j % step = n % step := by
  induction fuel generalizing n with
  | zero =>
    simp only [indicesFrom, List.not_mem_nil, false_iff]
    omega
  | succ fuel ih =>
    unfold indicesFrom
    split_ifs with hn
    · rw [List.mem_cons, ih (by omega), Nat.add_mod_right]
      constructor
      · rintro (rfl | ⟨hj, hbound, hmod⟩)
        · exact ⟨le_rfl, hn, rfl⟩
        · exact ⟨by omega, hbound, hmod⟩
      · rintro ⟨hj, hbound, hmod⟩
        by_cases heq : j = n
        · exact Or.inl heq
        · -- two numbers with one remainder are a step apart at least
          refine Or.inr ⟨?_, hbound, hmod⟩
          have hdvd : step ∣ j - n := (Nat.modEq_iff_dvd' hj).mp hmod.symm
          have := Nat.le_of_dvd (by omega) hdvd
          omega
    · simp only [List.not_mem_nil, false_iff]
      omega

theorem mem_indices (hstep : 0 < step) :
    j ∈ indices n bound step ↔ n ≤ j ∧ j < bound ∧ j % step = n % step :=
  mem_indicesFrom hstep (by omega)

theorem indicesFrom_nodup (hstep : 0 < step) {fuel : ℕ} (hfuel : bound ≤ n + fuel) :
    (indicesFrom bound step fuel n).Nodup := by
  induction fuel generalizing n with
  | zero => exact .nil
  | succ fuel ih =>
    unfold indicesFrom
    split_ifs with hn
    · refine List.nodup_cons.mpr ⟨fun hmem => ?_, ih (by omega)⟩
      have := (mem_indicesFrom hstep (by omega)).mp hmem
      omega
    · exact .nil

theorem indices_nodup (hstep : 0 < step) : (indices n bound step).Nodup :=
  indicesFrom_nodup hstep (by omega)

theorem sum_indices {M : Type} [AddCommMonoid M] (f : ℕ → M) (bound : ℕ) {threadNum : ℕ}
    (h : 0 < threadNum) :
    ∑ n ∈ Finset.range threadNum, ((indices n bound threadNum).map f).sum =
      ∑ j ∈ Finset.range bound, f j := by
  have hmaps : ∀ j ∈ Finset.range bound, j % threadNum ∈ Finset.range threadNum :=
    fun j _ => Finset.mem_range.mpr (Nat.mod_lt j h)
  rw [← Finset.sum_fiberwise_of_maps_to hmaps f]
  apply Finset.sum_congr rfl
  intro n hn
  rw [← List.sum_toFinset f (indices_nodup h)]
  apply Finset.sum_congr _ fun _ _ => rfl
  ext j
  have hn' := Nat.mod_eq_of_lt (Finset.mem_range.mp hn)
  simp only [List.mem_toFinset, mem_indices h, Finset.mem_filter, Finset.mem_range, hn']
  constructor
  · rintro ⟨-, hbound, hmod⟩
    exact ⟨hbound, hmod⟩
  · rintro ⟨hbound, hmod⟩
    exact ⟨hmod ▸ Nat.mod_le j threadNum, hbound, hmod⟩

end Indices

section Shares

variable {M : Type} [AddCommMonoid M]

theorem foldl_add_eq_sum (f : ℕ → M) (n : ℕ) :
    (List.range n).foldl (fun x i => x + f i) 0 = ∑ i ∈ Finset.range n, f i := by
  induction n with
  | zero => rfl
  | succ n ih => rw [List.range_succ, List.foldl_append, ih, Finset.sum_range_succ]; rfl

theorem foldl_collect (operand : ℕ → Operand M) (js : List ℕ) (m : Memory M) :
    ((js.map fun j => Update.collect (operand j)).foldl Update.apply m) =
      { m with total := m.total + (js.map fun j => (operand j).read m).sum } := by
  induction js generalizing m with
  | nil => simp
  | cons j js ih =>
    rw [List.map_cons, List.foldl_cons, ih]
    have hread : ∀ (o : Operand M) (total : M), o.read { m with total } = o.read m := by
      intro o total
      cases o <;> rfl
    simp only [Update.apply, hread, List.map_cons, List.sum_cons, add_assoc]

theorem foldl_adds (c : ℕ) (f : ℕ → M) (n : ℕ) :
    runUpdates ((List.range n).map fun i => Update.add c (f i)) =
      Memory.zero.write c (∑ i ∈ Finset.range n, f i) := by
  induction n with
  | zero =>
    ext c'
    · by_cases hc : c' = c <;> simp [Memory.write, Memory.zero, hc]
    · rfl
  | succ n ih =>
    rw [List.range_succ, List.map_append, List.map_singleton, runUpdates_append, ih,
      Finset.sum_range_succ]
    ext c'
    · by_cases hc : c' = c <;> simp [Update.apply, Memory.write, Memory.zero, hc]
    · rfl

end Shares

section Totals

variable {threadNum : ℕ}

theorem vectorMultiply_total (vectorSize threadNum : ℕ) (r s : ℕ → CInt) (n : ℕ) :
    (runUpdates (vectorMultiply vectorSize threadNum r s n)).total =
      ((indices n vectorSize threadNum).map fun i => r i * s i).sum := by
  rw [runUpdates, vectorMultiply, foldl_collect]
  exact zero_add _

/-- What the threads collect is what `verify` computes. -/
theorem vectorMultiply_verify (h : 0 < threadNum) (vectorSize : ℕ) (r s : ℕ → CInt) :
    ∑ n ∈ Finset.range threadNum,
        (runUpdates (vectorMultiply vectorSize threadNum r s n)).total =
      Verify.vectorMultiply vectorSize r s := by
  simp only [vectorMultiply_total]
  rw [sum_indices (fun i => r i * s i) vectorSize h, Verify.vectorMultiply, foldl_add_eq_sum]

theorem addRow_within (cSize : ℕ) (a : ℕ → ℕ → CInt) (j : ℕ) :
    ∀ update ∈ addRow cSize a j, update.Within id j := by
  simp [addRow, Update.Within]

theorem parallelCalculate_total (hthreads : 0 < threadNum) (rSize cSize : ℕ) (a : ℕ → ℕ → CInt)
    (n : ℕ) : (runUpdates (parallelCalculate rSize cSize threadNum a n)).total =
      ((indices n rSize threadNum).map fun j =>
        ∑ i ∈ Finset.range cSize, a j i * BitVec.ofNat 32 i).sum := by
  have hrow : ∀ j, runUpdates (addRow cSize a j) =
      Memory.zero.write j (∑ i ∈ Finset.range cSize, a j i * BitVec.ofNat 32 i) :=
    fun j => foldl_adds j (fun i => a j i * BitVec.ofNat 32 i) cSize
  have hnodup : (indices n rSize threadNum).Nodup := indices_nodup hthreads
  have hwithin : ∀ j, ∀ update ∈ addRow cSize a j, update.Within id j := addRow_within cSize a
  obtain ⟨htotal, hcells⟩ := runUpdates_flatMap hnodup hwithin
  have hzero : (runUpdates ((indices n rSize threadNum).flatMap (addRow cSize a))).total = 0 := by
    rw [htotal]
    simp [hrow, Memory.write, Memory.zero]
  rw [parallelCalculate, runUpdates, List.foldl_append, foldl_collect]
  change (runUpdates _).total + _ = _
  rw [hzero, zero_add]
  apply congrArg List.sum
  apply List.map_congr_left
  intro j hj
  change (runUpdates _).cells j = _
  rw [hcells, id, if_pos hj, hrow]
  exact Function.update_self ..

theorem parallelCalculate_verify (h : 0 < threadNum) (rSize cSize : ℕ) (a : ℕ → ℕ → CInt) :
    ∑ n ∈ Finset.range threadNum,
        (runUpdates (parallelCalculate rSize cSize threadNum a n)).total =
      Verify.parallelCal rSize cSize a := by
  simp only [parallelCalculate_total h]
  rw [sum_indices _ rSize h, Verify.parallelCal]
  simp only [foldl_add_eq_sum]

theorem addRecord_within (itr : ℕ) (record : ℕ → List CInt) (k : ℕ) :
    ∀ update ∈ addRecord itr record k, update.Within (· / 4) k := by
  intro update hupdate
  simp only [addRecord, scan, List.mem_flatMap, List.mem_range, List.mem_append,
    Option.mem_toList, Option.map_eq_some_iff, List.mem_singleton] at hupdate
  obtain ⟨i, -, j, hj, ⟨v, -, rfl⟩ | rfl⟩ := hupdate
  · change (4 * k + j) / 4 = k
    omega
  · change (4 * k + j) / 4 = k
    omega

theorem externalCalculate_total (hthreads : 0 < threadNum) (recordNum itr : ℕ)
    (record : ℕ → List CInt) (n : ℕ) :
    (runUpdates (externalCalculate recordNum itr threadNum record n)).total =
      ((indices n recordNum threadNum).map fun k =>
        (runUpdates (addRecord itr record k)).total).sum :=
  (runUpdates_flatMap (indices_nodup hthreads) (addRecord_within itr record)).1

theorem externalCalculate_verify (h : 0 < threadNum) (recordNum itr : ℕ)
    (record : ℕ → List CInt) :
    ∑ n ∈ Finset.range threadNum,
        (runUpdates (externalCalculate recordNum itr threadNum record n)).total =
      Verify.externalCal recordNum itr record := by
  simp only [externalCalculate_total h]
  rw [sum_indices _ recordNum h, Verify.externalCal,
    (runUpdates_flatMap List.nodup_range (addRecord_within itr record)).1]
  rw [← List.sum_toFinset _ List.nodup_range, List.toFinset_range]

end Totals

end VirtualMemorySimulation.Benchmark

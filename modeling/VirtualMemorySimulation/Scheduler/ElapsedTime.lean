import VirtualMemorySimulation.Scheduler.Dispatch

/-!
# Elapsed time against a gap

`time_compare` compares the seconds and the microseconds of two times one after the
other with two parts of the gap. It borrows nothing between them, and the part that
it takes for the seconds of a gap of a second or more is in microseconds.
-/

namespace VirtualMemorySimulation.Scheduler

/-- A time whose microseconds are less than a second and whose seconds are an `int`. -/
structure Time.Normalised (t : Time) : Prop where
  sec_low : -2147483648 ≤ t.sec
  sec_high : t.sec < 2147483648
  usec_low : 0 ≤ t.usec
  usec_high : t.usec < 1000000

def elapsed (start stop : Time) : ℤ :=
  (stop.sec - start.sec) * 1000000 + (stop.usec - start.usec)

/-- What the comment on `time_compare` promises to return. -/
def compareElapsed (start stop : Time) (gap : ℤ) : ℤ :=
  if gap < elapsed start stop then 1 else if elapsed start stop = gap then 0 else -1

/-- The microseconds before the last whole second of the gap. -/
def wholeSeconds (gap : ℤ) : ℤ := gap - gap % 1000000

/-- The difference in seconds is an `int`. A gap of less than a second does not fall between
the two sides of the only second boundary crossed. With a longer gap, fewer seconds than it
has microseconds are not longer than it, and as many have the greater microseconds. -/
def SplitsSoundly (start stop : Time) (gap : ℤ) : Prop :=
  stop.sec - start.sec < 2147483648 ∧
    if stop.sec - start.sec < -2147483648 then
      999999 < gap ∧ (stop.sec - start.sec + 4294967296 < wholeSeconds gap ∨
        stop.sec - start.sec + 4294967296 = wholeSeconds gap ∧
          stop.usec - start.usec < gap % 1000000)
    else if gap ≤ 999999 then stop.sec - start.sec = 1 → gap < elapsed start stop
    else (stop.sec - start.sec < wholeSeconds gap → elapsed start stop < gap) ∧
      (stop.sec - start.sec = wholeSeconds gap → gap % 1000000 < stop.usec - start.usec)

section Comparison

variable {start stop : Time} {gap a b : ℤ}

theorem intDifference_of_range (ha : -2147483648 ≤ a) (ha' : a < 2147483648)
    (hb : -2147483648 ≤ b) (hb' : b < 2147483648) :
    intDifference a b =
      if a - b < -2147483648 then a - b + 4294967296
      else if a - b < 2147483648 then a - b else a - b - 4294967296 := by
  simp only [intDifference, Int.bmod_def]
  split_ifs <;> omega

theorem usec_difference (hstart : start.Normalised) (hstop : stop.Normalised) :
    intDifference stop.usec start.usec = stop.usec - start.usec := by
  obtain ⟨-, -, hs, hs'⟩ := hstart
  obtain ⟨-, -, ht, ht'⟩ := hstop
  rw [intDifference_of_range (by omega) (by omega) (by omega) (by omega), if_neg (by omega),
    if_pos (by omega)]

/-- Times too far apart are compared by a difference that has wrapped. -/
theorem timeCompare_wrapped (hstart : start.Normalised) (hstop : stop.Normalised)
    (hgap : 0 ≤ gap) (hint : gap < 2147483648)
    (hfar : stop.sec - start.sec < -2147483648 ∨ 2147483648 ≤ stop.sec - start.sec) :
    timeCompare start stop gap = compareElapsed start stop gap ↔ SplitsSoundly start stop gap := by
  have husec := usec_difference hstart hstop
  obtain ⟨hs1, hs2, hs3, hs4⟩ := hstart
  obtain ⟨ht1, ht2, ht3, ht4⟩ := hstop
  simp only [timeCompare, compareElapsed, SplitsSoundly, wholeSeconds, elapsed, husec,
    intDifference_of_range ht1 ht2 hs1 hs2]
  rcases hfar with hfar | hfar
  · simp only [if_pos hfar]
    split_ifs <;> omega
  · simp only [if_neg (show ¬ stop.sec - start.sec < -2147483648 by omega),
      if_neg (show ¬ stop.sec - start.sec < 2147483648 by omega)]
    split_ifs <;> omega

theorem timeCompare_short (hstart : start.Normalised) (hstop : stop.Normalised) (hgap : 0 ≤ gap)
    (hshort : gap ≤ 999999) (hlow : -2147483648 ≤ stop.sec - start.sec)
    (hhigh : stop.sec - start.sec < 2147483648) :
    timeCompare start stop gap = compareElapsed start stop gap ↔ SplitsSoundly start stop gap := by
  have husec := usec_difference hstart hstop
  obtain ⟨hs1, hs2, hs3, hs4⟩ := hstart
  obtain ⟨ht1, ht2, ht3, ht4⟩ := hstop
  simp only [timeCompare, compareElapsed, SplitsSoundly, elapsed, husec,
    intDifference_of_range ht1 ht2 hs1 hs2, if_neg (not_lt.mpr hlow), if_pos hhigh, if_pos hshort,
    if_neg (not_lt.mpr hshort)]
  split_ifs <;> omega

theorem timeCompare_long (hstart : start.Normalised) (hstop : stop.Normalised)
    (hlong : 999999 < gap) (hlow : -2147483648 ≤ stop.sec - start.sec)
    (hhigh : stop.sec - start.sec < 2147483648) :
    timeCompare start stop gap = compareElapsed start stop gap ↔ SplitsSoundly start stop gap := by
  have husec := usec_difference hstart hstop
  obtain ⟨hs1, hs2, hs3, hs4⟩ := hstart
  obtain ⟨ht1, ht2, ht3, ht4⟩ := hstop
  simp only [timeCompare, compareElapsed, SplitsSoundly, wholeSeconds, elapsed, husec,
    intDifference_of_range ht1 ht2 hs1 hs2, if_neg (not_lt.mpr hlow), if_pos hhigh, if_pos hlong,
    if_neg (not_le.mpr hlong)]
  split_ifs <;> omega

/-- `time_compare` does what its comment says exactly on such times. -/
theorem timeCompare_iff (hstart : start.Normalised) (hstop : stop.Normalised) (hgap : 0 ≤ gap)
    (hint : gap < 2147483648) :
    timeCompare start stop gap = compareElapsed start stop gap ↔ SplitsSoundly start stop gap := by
  by_cases hlow : stop.sec - start.sec < -2147483648
  · exact timeCompare_wrapped hstart hstop hgap hint (Or.inl hlow)
  by_cases hhigh : stop.sec - start.sec < 2147483648
  · rcases le_or_gt gap 999999 with hshort | hlong
    · exact timeCompare_short hstart hstop hgap hshort (not_lt.mp hlow) hhigh
    · exact timeCompare_long hstart hstop hlong (not_lt.mp hlow) hhigh
  · exact timeCompare_wrapped hstart hstop hgap hint (Or.inr (not_lt.mp hhigh))

theorem timeCompare_iff_slice :
    timeCompare ⟨3, 0⟩ ⟨3, 5000⟩ 5000 = compareElapsed ⟨3, 0⟩ ⟨3, 5000⟩ 5000 ↔
      SplitsSoundly ⟨3, 0⟩ ⟨3, 5000⟩ 5000 :=
  timeCompare_iff ⟨by decide, by decide, by decide, by decide⟩
    ⟨by decide, by decide, by decide, by decide⟩ (by decide) (by decide)

/-- Two milliseconds that cross a second count as more than the five of the first slice. -/
theorem timeCompare_crosses_second :
    timeCompare ⟨0, 999000⟩ ⟨1, 1000⟩ (priorityTimeSlice 0) = 1 ∧
      elapsed ⟨0, 999000⟩ ⟨1, 1000⟩ = 2000 ∧
      compareElapsed ⟨0, 999000⟩ ⟨1, 1000⟩ (priorityTimeSlice 0) = -1 := by decide

/-- The defect errs on one side: a used up slice is seen as used up. -/
theorem pastSlice_of_elapsed {σ : Type} {s : State σ} {cur : TcbPtr} {now : Time}
    (hstart : (s.tcbs cur).recentStartTime.Normalised) (hnow : now.Normalised)
    (hhigh : now.sec - (s.tcbs cur).recentStartTime.sec < 2147483648)
    (hpriority : 0 ≤ (s.tcbs cur).priority) (hpriority' : (s.tcbs cur).priority ≤ 2)
    (hused : priorityTimeSlice (s.tcbs cur).priority ≤
      elapsed (s.tcbs cur).recentStartTime now) : PastSlice s cur now := by
  have husec := usec_difference hstart hnow
  have hslice : 0 ≤ priorityTimeSlice (s.tcbs cur).priority ∧
      priorityTimeSlice (s.tcbs cur).priority ≤ 999999 := by
    unfold priorityTimeSlice
    omega
  obtain ⟨hs1, hs2, hs3, hs4⟩ := hstart
  obtain ⟨ht1, ht2, ht3, ht4⟩ := hnow
  unfold elapsed at hused
  have hseconds : 0 ≤ now.sec - (s.tcbs cur).recentStartTime.sec := by omega
  simp only [PastSlice, timeCompare, husec, intDifference_of_range ht1 ht2 hs1 hs2,
    if_neg (show ¬ now.sec - (s.tcbs cur).recentStartTime.sec < -2147483648 by omega),
    if_pos hhigh, if_neg (not_lt.mpr hslice.2)]
  split_ifs <;> omega

end Comparison

end VirtualMemorySimulation.Scheduler

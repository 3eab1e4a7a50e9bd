import Mathlib.Data.List.Range
import Mathlib.Tactic.Ring

/-! # Calendar dates

`date_to_epoch` of `time/mod.rs` sums the days of years and months up, `epoch_to_ymd` of the
`date` program takes them away again.
-/

namespace Qunix.Time

open List

def isLeap (y : Nat) : Bool := y % 400 = 0 ∨ (y % 4 = 0 ∧ y % 100 ≠ 0)

def daysInMonth (m y : Nat) : Nat :=
  if m ∈ [1, 3, 5, 7, 8, 10, 12] then 31
  else if m ∈ [4, 6, 9, 11] then 30
  else if m = 2 then if isLeap y then 29 else 28
  else 30

def daysInYear (y : Nat) : Nat := if isLeap y then 366 else 365

/-- Seconds since 1970. With years of 32 bits they are far below `2 ^ 63`. -/
def dateToEpoch (year month day h m s : UInt32) : Nat :=
  let years := (range' 1970 (year.toNat - 1970)).map daysInYear
  let months := (range' 1 (month.toNat - 1)).map (daysInMonth · year.toNat)
  (years.sum + months.sum + (day - 1).toNat) * 86400 + h.toNat * 3600 + m.toNat * 60 + s.toNat

def yearLoop (y d : Nat) : Nat × Nat :=
  if d < daysInYear y then (y, d) else yearLoop (y + 1) (d - daysInYear y)
termination_by d
decreasing_by grind [daysInYear]

def monthLoop : List Nat → (m d : Nat) → Nat × Nat
  | [], m, d => (m, d)
  | dm :: rest, m, d => if d < dm then (m, d) else monthLoop rest (m + 1) (d - dm)

/-- Year, month, day and day of the week, for seconds since 1970 and later. -/
def epochToYmd (e : Nat) : Nat × Nat × Nat × Nat :=
  let (y, d) := yearLoop 1970 (e / 86400)
  let (m, d) := monthLoop [31, if isLeap y then 29 else 28, 31, 30, 31, 30, 31, 31, 30, 31, 30, 31]
    1 d
  (y, m, d + 1, (e / 86400 + 4) % 7)

theorem yearLoop_spec (y d : Nat) : ∃ years rest, yearLoop y d = (y + years, rest) ∧
    rest < daysInYear (y + years) ∧ ((range' y years).map daysInYear).sum + rest = d := by
  fun_induction yearLoop y d with
  | case1 y d short => exact ⟨0, d, rfl, short, by simp⟩
  | case2 y d long induction =>
    rcases induction with ⟨years, rest, isEnd, short, total⟩
    rw [add_right_comm] at isEnd short
    refine ⟨years + 1, rest, isEnd, short, ?_⟩
    rw [range'_succ, map_cons, sum_cons]
    omega

theorem monthLoop_spec (lengths : List Nat) : ∀ {m d}, d < lengths.sum →
    ∃ months rest, ∃ _ : months < lengths.length, monthLoop lengths m d = (m + months, rest) ∧
      rest < lengths[months] ∧ (lengths.take months).sum + rest = d := by
  induction lengths with
  | nil => simp
  | cons length rest induction =>
    intro m d inside
    rw [monthLoop]
    split
    next short => exact ⟨0, d, by simp, rfl, short, by simp⟩
    next long =>
      rw [sum_cons] at inside
      rcases @induction (m + 1) (d - length) (by omega) with
        ⟨months, left, small, isEnd, short, total⟩
      rw [add_right_comm] at isEnd
      refine ⟨months + 1, left, by simpa using small, isEnd, short, ?_⟩
      rw [take_succ_cons, sum_cons]
      omega

theorem months_eq (y : Nat) :
    [31, if isLeap y then 29 else 28, 31, 30, 31, 30, 31, 31, 30, 31, 30, 31] =
      (range' 1 12).map (daysInMonth · y) := by
  cases leap : isLeap y <;> simp [daysInMonth, leap, range']

theorem dateToEpoch_epochToYmd {e y m d wday : Nat} (isDate : epochToYmd e = (y, m, d, wday))
    (fits : y < 4294967296) :
    (1 ≤ m ∧ m ≤ 12) ∧ (1 ≤ d ∧ d ≤ daysInMonth m y) ∧
      dateToEpoch (.ofNat y) (.ofNat m) (.ofNat d) (.ofNat (e % 86400 / 3600 % 24))
        (.ofNat (e % 86400 / 60 % 60)) (.ofNat (e % 86400 % 60)) = e := by
  rcases yearLoop_spec 1970 (e / 86400) with ⟨years, rest, isYear, inYear, total⟩
  have whole : rest < ((range' 1 12).map (daysInMonth · (1970 + years))).sum := by
    rw [← months_eq]
    rw [daysInYear] at inYear
    split at inYear <;> simp_all
  rcases @monthLoop_spec _ 1 _ whole with ⟨months, day, small, isMonth, inMonth, days⟩
  simp only [epochToYmd, isYear, months_eq, isMonth, Prod.mk.injEq] at isDate
  rcases isDate with ⟨rfl, rfl, rfl, _⟩
  rw [length_map, length_range'] at small
  rw [getElem_map, getElem_range', one_mul] at inMonth
  rw [← map_take, take_range'_of_length_ge (by omega)] at days
  have short : daysInMonth (1 + months) (1970 + years) ≤ 31 := by grind [daysInMonth]
  refine ⟨by omega, by omega, ?_⟩
  simp only [dateToEpoch, UInt32.toNat_sub, UInt32.toNat_ofNat', UInt32.reduceToNat,
    Nat.mod_eq_of_lt fits, add_tsub_cancel_left]
  rw [Nat.mod_eq_of_lt (show 1 + months < 2 ^ 32 by omega), add_tsub_cancel_left]
  omega

/-- The day after a 29th of February. -/
theorem dateToEpoch_epochToYmd_leap : dateToEpoch 1972 3 1 12 34 56 = 68301296 := by
  have isDate : epochToYmd 68301296 = (1972, 3, 1, 3) := by
    simp [epochToYmd, yearLoop, daysInYear, isLeap, monthLoop]
  exact (dateToEpoch_epochToYmd isDate (by decide)).2.2

end Qunix.Time

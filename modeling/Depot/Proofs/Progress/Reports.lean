import Mathlib.Algebra.Ring.Nat
import Depot.Progress

/-!
# What a logging tracker reports

A line is due when an increment completes an interval. In numbers without bound this depends on the
positions alone (`Progress.milestones`). The quotient of the position by the interval is the
potential of the argument: it never falls, and every line raises it by at least one
(`length_milestones_le`). A hundred times the total bounds every number that a tracker computes, so
where it fits a word nothing wraps around (`toNat_position_run`, `lines_increment`) and the log
consists of the lines that are due (`log_increments`). `log_is_short_and_true` says what that means
for a whole run.
-/

namespace Depot.Progress

/-! ## Positions at which a line is due -/

/-- The positions at which increments, made one after the other from a position on, complete an
interval. -/
def milestones (interval : Nat) : (position : Nat) → (amounts : List Nat) → List Nat
  | _, [] => []
  | position, amount :: rest =>
    if position / interval < (position + amount) / interval then
      (position + amount) :: milestones interval (position + amount) rest
    else milestones interval (position + amount) rest

/-- How far a position is, in percent of a total. -/
def share (total position : Nat) : Nat := position * 100 / total

theorem share_mono (total : Nat) {position later : Nat} (h : position ≤ later) :
    share total position ≤ share total later :=
  Nat.div_le_div_right (Nat.mul_le_mul_right 100 h)

theorem share_le {total position : Nat} (h : position ≤ total) : share total position ≤ 100 := by
  apply Nat.div_le_of_le_mul
  omega

section

variable (interval : Nat) {position : Nat} {amounts : List Nat}

theorem milestones_cons (position amount : Nat) (rest : List Nat) :
    milestones interval position (amount :: rest) =
      milestones interval position [amount] ++ milestones interval (position + amount) rest := by
  simp only [milestones]
  split <;> rfl

theorem length_milestones_le (position : Nat) (amounts : List Nat) :
    position / interval + (milestones interval position amounts).length ≤
      (position + amounts.sum) / interval := by
  induction amounts generalizing position with
  | nil => simp [milestones]
  | cons amount rest ih =>
    have hrest := ih (position + amount)
    have hgrows : position / interval ≤ (position + amount) / interval :=
      Nat.div_le_div_right (Nat.le_add_right position amount)
    rw [List.sum_cons, ← Nat.add_assoc]
    simp only [milestones]
    split
    · rw [List.length_cons]
      omega
    · omega

theorem bounds_of_mem_milestones {reached : Nat}
    (h : reached ∈ milestones interval position amounts) :
    position ≤ reached ∧ reached ≤ position + amounts.sum := by
  induction amounts generalizing position with
  | nil => simp [milestones] at h
  | cons amount rest ih =>
    rw [List.sum_cons]
    simp only [milestones] at h
    split at h
    · rcases List.mem_cons.1 h with rfl | hmem
      · omega
      · have hrest := ih hmem
        omega
    · have hrest := ih h
      omega

theorem pairwise_milestones (position : Nat) (amounts : List Nat) :
    (milestones interval position amounts).Pairwise (· ≤ ·) := by
  induction amounts generalizing position with
  | nil => exact .nil
  | cons amount rest ih =>
    simp only [milestones]
    split
    · refine List.pairwise_cons.2 ⟨fun reached hmem => ?_, ih (position + amount)⟩
      exact (bounds_of_mem_milestones interval hmem).1
    · exact ih (position + amount)

end

/-- The positions at which lines are due when the work of a total begins. -/
def due (total : Nat) (amounts : List Nat) : List Nat := milestones (max 1 (total / 10)) 0 amounts

section

variable {total : Nat} {amounts : List Nat} (h : amounts.sum ≤ total)

theorem length_due_le (total : Nat) (amounts : List Nat) :
    (due total amounts).length ≤ amounts.sum / max 1 (total / 10) := by
  have hpotential := length_milestones_le (max 1 (total / 10)) 0 amounts
  rwa [Nat.zero_div, Nat.zero_add, Nat.zero_add] at hpotential

include h

theorem intervals_lt : amounts.sum / max 1 (total / 10) < 20 := by
  rw [Nat.div_lt_iff_lt_mul (by omega)]
  omega

theorem intervals_le_of_dvd (htenth : 10 ∣ total) : amounts.sum / max 1 (total / 10) ≤ 10 := by
  apply Nat.div_le_of_le_mul
  omega

theorem share_le_of_mem_due {position : Nat} (hposition : position ∈ due total amounts) :
    share total position ≤ 100 := by
  have hbounds := bounds_of_mem_milestones _ hposition
  exact share_le (by omega)

end

theorem pairwise_share_due (total : Nat) (amounts : List Nat) :
    ((due total amounts).map (share total)).Pairwise (· ≤ ·) := by
  rw [List.pairwise_map]
  exact (pairwise_milestones _ 0 amounts).imp (share_mono total)

/-! ## Words that do not wrap around -/

theorem toNat_add_of_lt {a b : UInt64} (h : a.toNat + b.toNat < 2 ^ 64) :
    (a + b).toNat = a.toNat + b.toNat := by
  rw [UInt64.toNat_add, Nat.mod_eq_of_lt h]

theorem toNat_interval (length : UInt64) :
    (interval length).toNat = max 1 (length.toNat / 10) := by
  have htenth : (length / 10).toNat = length.toNat / 10 := UInt64.toNat_div length 10
  show (if 1 ≤ length / 10 then length / 10 else 1).toNat = max 1 (length.toNat / 10)
  split
  · next h =>
    have hle : 1 ≤ (length / 10).toNat := UInt64.le_iff_toNat_le.1 h
    omega
  · next h =>
    have hlt : ¬1 ≤ (length / 10).toNat := fun hle => h (UInt64.le_iff_toNat_le.2 hle)
    rw [UInt64.toNat_one]
    omega

theorem toNat_percent {position length : UInt64} (h : position.toNat * 100 < 2 ^ 64) :
    (percent position length).toNat = share length.toNat position.toNat := by
  unfold percent share
  rw [UInt64.toNat_div, UInt64.toNat_mul]
  congr 1
  exact Nat.mod_eq_of_lt h

/-- Work that is done is done to 100 percent if its hundredfold fits a word. For the next total the
product wraps around, and the percentage starts again. -/
example : percent 184467440737095516 184467440737095516 = 100 ∧
    percent 184467440737095517 184467440737095517 = 0 := by decide

/-! ## The log of some increments -/

/-- The line that reports a position. -/
def report (name : String) (total position : Nat) : Line :=
  ⟨.info, name ++ ": " ++ toString (share total position) ++ "% (" ++ toString position ++ "/" ++
    toString total ++ ")"⟩

/-- The lines that a tracker writes while some events happen to it. -/
def log (p : Progress) : List Event → List Line
  | [] => []
  | e :: rest => p.lines e ++ (p.step e).log rest

/-- The numbers that a tracker computes for an increment fit a word. -/
def Fits (p : Progress) (amount : UInt64) : Prop :=
  p.position.toNat + amount.toNat < 2 ^ 64 ∧ (p.position + amount).toNat * 100 < 2 ^ 64

theorem fits_of_lt {p : Progress} {amount : UInt64}
    (h : (p.position.toNat + amount.toNat) * 100 < 2 ^ 64) : p.Fits amount := by
  have hsum : p.position.toNat + amount.toNat < 2 ^ 64 := by omega
  refine ⟨hsum, ?_⟩
  rwa [toNat_add_of_lt hsum]

theorem length_lines_increment_le (p : Progress) (amount : UInt64) :
    (p.lines (.increment amount)).length ≤ 1 := by
  unfold lines
  split
  · exact Option.length_toList_le
  · simp

theorem lines_increment {p : Progress} {name : String} {amount : UInt64}
    (hstyle : p.style = .log name) (hlength : 0 < p.length) (hfits : p.Fits amount) :
    p.lines (.increment amount) =
      (milestones (interval p.length).toNat p.position.toNat [amount.toNat]).map
        (report name p.length.toNat) := by
  have hreached : (p.position + amount).toNat = p.position.toNat + amount.toNat :=
    toNat_add_of_lt hfits.1
  have hdue : p.position / interval p.length < (p.position + amount) / interval p.length ↔
      p.position.toNat / (interval p.length).toNat <
        (p.position.toNat + amount.toNat) / (interval p.length).toNat := by
    rw [UInt64.lt_iff_toNat_lt, UInt64.toNat_div, UInt64.toNat_div, hreached]
  have hline : (⟨.info, name ++ ": " ++ toString (percent (p.position + amount) p.length) ++
        "% (" ++ toString (p.position + amount) ++ "/" ++ toString p.length ++ ")"⟩ : Line) =
      report name p.length.toNat (p.position.toNat + amount.toNat) := by
    rw [← hreached, report, ← toNat_percent hfits.2]
    rfl
  simp only [lines, hstyle, advanceLine?, hlength, true_and, hdue, hline, milestones]
  split <;> rfl

/-- The position is the sum of the increments. -/
theorem toNat_position_run (p : Progress) (amounts : List UInt64)
    (h : p.position.toNat + (amounts.map UInt64.toNat).sum < 2 ^ 64) :
    (p.run (amounts.map .increment)).position.toNat =
      p.position.toNat + (amounts.map UInt64.toNat).sum := by
  induction amounts generalizing p with
  | nil => rfl
  | cons amount rest ih =>
    rw [List.map_cons, List.sum_cons] at h
    have hstep : (p.step (.increment amount)).position.toNat =
        p.position.toNat + amount.toNat := toNat_add_of_lt (by omega)
    rw [List.map_cons, List.map_cons, List.sum_cons, run, List.foldl_cons, ← run,
      ih _ (by omega), hstep, Nat.add_assoc]

/-- The log of increments that a word has room for has a line for each milestone. -/
theorem log_increments {p : Progress} {name : String} {amounts : List UInt64}
    (hstyle : p.style = .log name) (hlength : 0 < p.length)
    (h : (p.position.toNat + (amounts.map UInt64.toNat).sum) * 100 < 2 ^ 64) :
    p.log (amounts.map .increment) =
      (milestones (interval p.length).toNat p.position.toNat (amounts.map UInt64.toNat)).map
        (report name p.length.toNat) := by
  induction amounts generalizing p with
  | nil => rfl
  | cons amount rest ih =>
    rw [List.map_cons, List.sum_cons] at h
    have hfits : p.Fits amount := fits_of_lt (by omega)
    have hstep : (p.step (.increment amount)).position.toNat =
        p.position.toNat + amount.toNat := toNat_add_of_lt hfits.1
    have hrest := ih (p := p.step (.increment amount)) hstyle hlength (by omega)
    rw [hstep] at hrest
    rw [List.map_cons, List.map_cons, log, milestones_cons, List.map_append,
      lines_increment hstyle hlength hfits, hrest]
    rfl

/-! ## Whole runs -/

/-- A logging tracker at its start. -/
def logging (name : String) (length : UInt64) : Progress := { style := .log name, length }

theorem fits_run (name : String) (length : UInt64) (before : List UInt64) (amount : UInt64)
    (h : ((before.map UInt64.toNat).sum + amount.toNat) * 100 < 2 ^ 64) :
    ((logging name length).run (before.map .increment)).position.toNat =
        (before.map UInt64.toNat).sum ∧
      ((logging name length).run (before.map .increment)).Fits amount := by
  have hstart : (logging name length).position.toNat = 0 := rfl
  have hposition := toNat_position_run (logging name length) before (by omega)
  rw [hstart, Nat.zero_add] at hposition
  refine ⟨hposition, fits_of_lt ?_⟩
  rwa [hposition]

theorem log_logging {name : String} {length : UInt64} {amounts : List UInt64}
    (hlength : 1 ≤ length.toNat) (h : (amounts.map UInt64.toNat).sum * 100 < 2 ^ 64) :
    (logging name length).log (amounts.map .increment) =
      (due length.toNat (amounts.map UInt64.toNat)).map (report name length.toNat) := by
  have hstart : (logging name length).position.toNat = 0 := rfl
  rw [due, ← toNat_interval]
  exact log_increments rfl (UInt64.lt_iff_toNat_lt.2 hlength) (by omega)

/-- A logging tracker is told of increments within its total, which is not zero and whose
hundredfold fits a word. Then the position is always the sum of the increments so far and no number
on the way is too large for a word. An increment writes at most one line, and that when it completes
an interval, which is a tenth of the total or one. So there are no more lines than intervals, fewer
than twenty, and at most ten where the tenth is exact. Each line gives the position that was reached
and how many percent of the total it is, at most 100 and never less than in the line before. -/
theorem log_is_short_and_true (name : String) {length : UInt64} {amounts : List UInt64}
    (hlength : 1 ≤ length.toNat) (hroom : length.toNat ≤ (2 ^ 64 - 1) / 100)
    (hwithin : (amounts.map UInt64.toNat).sum ≤ length.toNat) :
    (∀ before amount after, amounts = before ++ amount :: after →
        ((logging name length).run (before.map .increment)).position.toNat =
            (before.map UInt64.toNat).sum ∧
          ((logging name length).run (before.map .increment)).Fits amount ∧
          (((logging name length).run (before.map .increment)).lines
            (.increment amount)).length ≤ 1) ∧
      ((logging name length).log (amounts.map .increment)).length ≤
        (amounts.map UInt64.toNat).sum / max 1 (length.toNat / 10) ∧
      ((logging name length).log (amounts.map .increment)).length < 20 ∧
      (10 ∣ length.toNat → ((logging name length).log (amounts.map .increment)).length ≤ 10) ∧
      (logging name length).log (amounts.map .increment) =
        (due length.toNat (amounts.map UInt64.toNat)).map (report name length.toNat) ∧
      (∀ position ∈ due length.toNat (amounts.map UInt64.toNat),
        share length.toNat position ≤ 100) ∧
      ((due length.toNat (amounts.map UInt64.toNat)).map (share length.toNat)).Pairwise
        (· ≤ ·) := by
  have hlog : (logging name length).log (amounts.map .increment) =
      (due length.toNat (amounts.map UInt64.toNat)).map (report name length.toNat) :=
    log_logging hlength (by omega)
  have hcount : ((logging name length).log (amounts.map .increment)).length ≤
      (amounts.map UInt64.toNat).sum / max 1 (length.toNat / 10) := by
    rw [hlog, List.length_map]
    exact length_due_le length.toNat _
  refine ⟨?_, hcount, ?_, fun htenth => ?_, hlog, ?_, pairwise_share_due _ _⟩
  · intro before amount after hsplit
    rw [hsplit, List.map_append, List.map_cons, List.sum_append, List.sum_cons] at hwithin
    have hposition := fits_run name length before amount (by omega)
    exact ⟨hposition.1, hposition.2, length_lines_increment_le _ amount⟩
  · exact Nat.lt_of_le_of_lt hcount (intervals_lt hwithin)
  · exact Nat.le_trans hcount (intervals_le_of_dvd hwithin htenth)
  · exact fun position => share_le_of_mem_due hwithin

/-- Nineteen steps of nineteen write nineteen lines, the most that there can be. -/
theorem log_is_short_and_true_nineteen :
    (1 ≤ (19 : UInt64).toNat ∧ (19 : UInt64).toNat ≤ (2 ^ 64 - 1) / 100 ∧
        ((List.replicate 19 1).map UInt64.toNat).sum ≤ (19 : UInt64).toNat) ∧
      ((logging "fetch" 19).log ((List.replicate 19 1).map .increment)).length = 19 ∧
      ((logging "fetch" 19).log ((List.replicate 19 1).map .increment)).length < 20 := by
  have hlength : 1 ≤ (19 : UInt64).toNat := by decide
  have hroom : (19 : UInt64).toNat ≤ (2 ^ 64 - 1) / 100 := by decide
  have hwithin : ((List.replicate 19 1).map UInt64.toNat).sum ≤ (19 : UInt64).toNat := by decide
  obtain ⟨-, -, hshort, -⟩ := log_is_short_and_true "fetch" hlength hroom hwithin
  exact ⟨⟨hlength, hroom, hwithin⟩, rfl, hshort⟩

end Depot.Progress

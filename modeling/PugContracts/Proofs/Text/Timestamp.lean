import Mathlib.Data.List.TakeWhile
import Mathlib.Data.Nat.Digits.Defs
import Mathlib.Order.Monotone.Basic
import PugContracts.Text.Timestamp

/-!
# A time that is written can be read

The reader tells years up to 262142, and has room for two digits in each other number. So there are
two things to see: the date that is written exists (`isDate_dateAfter`), with a year that is not too
late (`year_dateAfter_le`), and a number that is filled up with zeros is the number that is read
where it was written (`fieldNumber?_zeroPadded`).

## Main results

* `Text.isTimestamp_timestamp` — what is written is a point in time, until the end of the last year
  that can be told
-/

namespace PugContracts.Text

/-! ### The calendar -/

/-- The number of days from the start of the year zero to the start of a year. -/
def daysBefore (year : Nat) : Nat :=
  365 * year + (year + 3) / 4 - (year + 99) / 100 + (year + 399) / 400

theorem daysBefore_succ (year : Nat) :
    daysBefore (year + 1) = daysBefore year + yearLength year := by
  have hfour : (year + 4) / 4 = (year + 3) / 4 + if 4 ∣ year + 4 then 1 else 0 := Nat.succ_div
  have hcentury : (year + 100) / 100 = (year + 99) / 100 + if 100 ∣ year + 100 then 1 else 0 :=
    Nat.succ_div
  have hcycle : (year + 400) / 400 = (year + 399) / 400 + if 400 ∣ year + 400 then 1 else 0 :=
    Nat.succ_div
  have hleap : isLeapYear year = true ↔ 4 ∣ year ∧ (¬100 ∣ year ∨ 400 ∣ year) := by
    simp only [isLeapYear, Bool.and_eq_true, Bool.or_eq_true, beq_iff_eq, bne_iff_ne]
    omega
  simp only [Nat.dvd_add_self_right] at hfour hcentury hcycle
  simp only [daysBefore, yearLength, hleap, Nat.add_right_comm year 1, Nat.add_assoc year,
    Nat.reduceAdd, hfour, hcentury, hcycle]
  have hfewer : (year + 99) / 100 ≤ 365 * year + (year + 3) / 4 := by omega
  clear hfour hcentury hcycle hleap
  by_cases h4 : 4 ∣ year <;> by_cases h100 : 100 ∣ year <;> by_cases h400 : 400 ∣ year <;>
    simp [h4, h100, h400] <;> omega

theorem daysBefore_monotone : Monotone daysBefore :=
  monotone_nat_of_le_succ fun year => (daysBefore_succ year).ge.trans' (Nat.le_add_right _ _)

/-- The year of a date has started on its day. -/
theorem daysBefore_dateAfter_le (year days : Nat) :
    daysBefore (dateAfter year days).1 ≤ daysBefore year + days := by
  induction year, days using dateAfter.induct with
  | case1 year days hday =>
    rw [dateAfter, if_pos hday]
    exact Nat.le_add_right _ _
  | case2 year days hday ih =>
    rw [dateAfter, if_neg hday]
    rw [daysBefore_succ] at ih
    omega

/-- The first millisecond that is too late to be told. -/
def timeLimit : Nat := 8210266876800000

/-- A point in time that is not too late has a year that can be told. -/
theorem year_dateAfter_le {milliseconds : Nat} (h : milliseconds < timeLimit) :
    (dateAfter 1970 (milliseconds / 1000 / 86400)).1 ≤ 262142 := by
  have hdays := daysBefore_dateAfter_le 1970 (milliseconds / 1000 / 86400)
  by_contra hlate
  have hstarted : daysBefore 262143 ≤ daysBefore (dateAfter 1970 (milliseconds / 1000 / 86400)).1 :=
    daysBefore_monotone (by omega)
  have hfirst : daysBefore 262143 = daysBefore 1970 + timeLimit / 1000 / 86400 := by decide
  rw [timeLimit] at *
  omega

/-- A day is in one of the months, which start with the month after `month`. -/
theorem monthAndDay_mem {lengths : List Nat} {day : Nat} (month : Nat) (h : day < lengths.sum) :
    ∃ i length, lengths[i]? = some length ∧ (monthAndDay month day lengths).1 = month + i ∧
      1 ≤ (monthAndDay month day lengths).2 ∧ (monthAndDay month day lengths).2 ≤ length := by
  induction lengths generalizing month day with
  | nil => exact absurd h (Nat.not_lt_zero _)
  | cons length rest ih =>
    rw [monthAndDay]
    split
    · next hhere => exact ⟨0, length, rfl, rfl, Nat.le_add_left _ _, hhere⟩
    · next hlater =>
      rw [List.sum_cons] at h
      have hrest : day - length < rest.sum := by omega
      obtain ⟨i, length', hlength, hmonth, hday⟩ := ih (month + 1) hrest
      exact ⟨i + 1, length', hlength, by omega, hday⟩

theorem sum_monthLengths (year : Nat) : (monthLengths (isLeapYear year)).sum = yearLength year := by
  rw [yearLength]
  cases isLeapYear year <;> rfl

/-- **Every date that is written exists.** -/
theorem isDate_dateAfter (year days : Nat) :
    isDate (dateAfter year days).1 (dateAfter year days).2.1 (dateAfter year days).2.2 = true := by
  induction year, days using dateAfter.induct with
  | case1 year days hday =>
    rw [← sum_monthLengths] at hday
    obtain ⟨i, length, hlength, hmonth, hfirst, hlast⟩ := monthAndDay_mem 1 hday
    rw [dateAfter, if_pos (sum_monthLengths year ▸ hday), hmonth, Nat.add_comm, isDate]
    simp [hlength, hfirst, hlast]
  | case2 year days hday ih =>
    rwa [dateAfter, if_neg hday]

/-- The months and the days of dates have two digits. -/
theorem lt_of_isDate {year : Int} {month day : Nat} (h : isDate year month day = true) :
    month < 10 ^ 2 ∧ day < 10 ^ 2 := by
  cases month with
  | zero => exact absurd h Bool.false_ne_true
  | succ month =>
    rw [isDate] at h
    split at h
    · exact absurd h Bool.false_ne_true
    · next length hlength =>
      simp only [Bool.and_eq_true, decide_eq_true_eq] at h
      have hmonth : month < 12 := (List.getElem?_eq_some_iff.mp hlength).1
      have hshort : ∀ leap, ∀ length ∈ monthLengths leap, length ≤ 31 := by decide
      have := hshort _ _ (List.mem_of_getElem? hlength)
      omega

/-! ### Numbers -/

section Numbers

variable {width n : Nat} {c : Char} {rest : List Char}

theorem toList_zeroPadded (width n : Nat) : (zeroPadded width n).toList =
    List.replicate (width - (Nat.toDigits 10 n).length) '0' ++ Nat.toDigits 10 n := by
  rw [zeroPadded, String.toList_append, String.toList_ofList, Nat.toString_eq_ofList_toDigits,
    String.toList_ofList, String.length_ofList]

theorem isDigit_of_mem_zeroPadded (h : c ∈ (zeroPadded width n).toList) : c.isDigit = true := by
  rw [toList_zeroPadded, List.mem_append] at h
  rcases h with hzero | hdigit
  · rw [List.eq_of_mem_replicate hzero]
    rfl
  · exact Nat.isDigit_of_mem_toDigits (by decide) (by decide) hdigit

theorem length_zeroPadded (hwidth : 0 < width) (h : n < 10 ^ width) :
    (zeroPadded width n).toList.length = width := by
  have hdigits := Nat.toDigits_length 10 n width hwidth h
  rw [toList_zeroPadded, List.length_append, List.length_replicate]
  omega

theorem zeroPadded_ne_nil (width n : Nat) : (zeroPadded width n).toList ≠ [] := by
  rw [toList_zeroPadded]
  exact List.append_ne_nil_of_right_ne_nil _ Nat.toDigits_ne_nil

/-- Zeros in front do not change a number. -/
theorem digitsValue_zeros (count : Nat) (digits : List Char) :
    digitsValue (List.replicate count '0' ++ digits) = digitsValue digits := by
  induction count with
  | zero => rfl
  | succ count ih => exact ih

theorem digitsValue_zeroPadded (width n : Nat) : digitsValue (zeroPadded width n).toList = n := by
  rw [toList_zeroPadded, digitsValue_zeros]
  exact Nat.ofDigitChars_ten_toDigits

theorem isBlank_of_isDigit (h : c.isDigit = true) : isBlank c = false := by
  obtain ⟨hlow, hhigh⟩ := Char.isDigit_iff_toNat.mp h
  have hlow : 48 ≤ c.toNat := hlow
  have hhigh : c.toNat ≤ 57 := hhigh
  simp only [isBlank, Bool.or_eq_false_iff, Bool.and_eq_false_iff, decide_eq_false_iff_not,
    beq_eq_false_iff_ne]
  omega

/-- No blanks are in front of a number. -/
theorem trimStart_zeroPadded (width n : Nat) (rest : List Char) :
    trimStart ((zeroPadded width n).toList ++ rest) = (zeroPadded width n).toList ++ rest := by
  obtain ⟨digit, digits, hdigits⟩ := List.exists_cons_of_ne_nil (zeroPadded_ne_nil width n)
  rw [hdigits]
  exact trimStart_of_not_isBlank
    (isBlank_of_isDigit (isDigit_of_mem_zeroPadded (hdigits ▸ List.mem_cons_self)))

/-- **A number is read where it was written**, whatever comes after it. -/
theorem fieldNumber?_zeroPadded (hwidth : 0 < width) (h : n < 10 ^ width) (rest : List Char) :
    fieldNumber? width ((zeroPadded width n).toList ++ rest) = some (n, rest) := by
  have hlength := length_zeroPadded hwidth h
  have hall : (zeroPadded width n).toList.takeWhile Char.isDigit = (zeroPadded width n).toList :=
    List.takeWhile_eq_self_iff.mpr fun _ => isDigit_of_mem_zeroPadded
  have htake : ((zeroPadded width n).toList ++ rest).take width = (zeroPadded width n).toList :=
    List.take_left' hlength
  rw [fieldNumber?, trimStart_zeroPadded]
  simp only [htake, hall]
  rw [List.drop_left, digitsValue_zeroPadded, if_neg]
  simpa [List.isEmpty_iff] using zeroPadded_ne_nil width n

/-- A year is read where it was written if a dash comes after it. -/
theorem year?_zeroPadded (year : Nat) (rest : List Char) :
    year? ((if year < 10000 then "" else "+").toList ++
        ((zeroPadded 4 year).toList ++ '-' :: rest)) =
      some ((year : Int), '-' :: rest) := by
  split
  · next hshort =>
    have hfield := fieldNumber?_zeroPadded (by decide) (by omega : year < 10 ^ 4)
      ('-' :: rest)
    have hdigits : ∀ c ∈ (zeroPadded 4 year).toList, c.isDigit = true := fun _ =>
      isDigit_of_mem_zeroPadded
    rw [String.toList_empty, List.nil_append, year?, trimStart_zeroPadded]
    split
    · next hsign =>
      obtain ⟨digit, digits, hcons⟩ := List.exists_cons_of_ne_nil (zeroPadded_ne_nil 4 year)
      rw [hcons] at hsign hdigits
      obtain rfl := (List.cons.inj hsign).1
      exact absurd (hdigits '-' List.mem_cons_self) (by decide)
    · next hsign =>
      obtain ⟨digit, digits, hcons⟩ := List.exists_cons_of_ne_nil (zeroPadded_ne_nil 4 year)
      rw [hcons] at hsign hdigits
      obtain rfl := (List.cons.inj hsign).1
      exact absurd (hdigits '+' List.mem_cons_self) (by decide)
    · rw [hfield]
      rfl
  · have hall : ((zeroPadded 4 year).toList ++ '-' :: rest).takeWhile Char.isDigit =
        (zeroPadded 4 year).toList := by
      rw [List.takeWhile_append_of_pos fun _ => isDigit_of_mem_zeroPadded]
      exact List.append_nil _
    have hplus : "+".toList = ['+'] := rfl
    rw [hplus, List.singleton_append, year?, trimStart_of_not_isBlank (by decide)]
    simp only [hall, List.drop_left, digitsValue_zeroPadded, one_mul]
    rw [if_neg]
    simpa [List.isEmpty_iff] using zeroPadded_ne_nil 4 year

end Numbers

/-! ### Texts -/

theorem afterMark?_cons {mark : Char} (h : isBlank mark = false) (rest : List Char) :
    afterMark? mark (mark :: rest) = some rest := by
  rw [afterMark?, trimStart_of_not_isBlank h]
  exact afterPrefix?_eq_some_iff.mpr rfl

/-- A fraction of a second is passed over, up to the letter after it. -/
theorem afterFraction?_zeroPadded (fraction : Nat) :
    afterFraction? ((if fraction = 0 then "" else "." ++ zeroPadded 3 fraction).toList ++ ['Z']) =
      some ['Z'] := by
  split
  · rfl
  · obtain ⟨digit, digits, hdigits⟩ := List.exists_cons_of_ne_nil (zeroPadded_ne_nil 3 fraction)
    have hall : ∀ c ∈ digit :: digits, c.isDigit = true := fun c hc =>
      isDigit_of_mem_zeroPadded (hdigits ▸ hc)
    have hdrop : ((digit :: digits) ++ ['Z']).dropWhile Char.isDigit = ['Z'] := by
      rw [List.dropWhile_append_of_pos hall]
      rfl
    rw [String.toList_append, hdigits]
    show (if digit.isDigit then
      some (((digit :: digits) ++ ['Z']).dropWhile Char.isDigit) else none) = _
    rw [if_pos (hall digit List.mem_cons_self), hdrop]

/-- A date is read where it was written. -/
theorem afterDate?_zeroPadded {year month day : Nat} (hyear : isYear year = true)
    (hdate : isDate year month day = true) (rest : List Char) :
    afterDate? ((if year < 10000 then "" else "+").toList ++ ((zeroPadded 4 year).toList ++
      '-' :: ((zeroPadded 2 month).toList ++ '-' :: ((zeroPadded 2 day).toList ++ rest)))) =
        some rest := by
  obtain ⟨hmonth, hday⟩ := lt_of_isDate hdate
  rw [afterDate?, year?_zeroPadded, Option.bind_eq_bind, Option.bind_some]
  simp only [afterMark?_cons (by decide : isBlank '-' = false),
    fieldNumber?_zeroPadded Nat.two_pos hmonth, fieldNumber?_zeroPadded Nat.two_pos hday, hyear,
    hdate, Option.bind_eq_bind, Option.bind_some, Bool.and_self, if_true]
  rfl

/-- A time of the day is read where it was written. -/
theorem afterTime?_zeroPadded {hour minute second : Nat} (hhour : hour < 24) (hminute : minute < 60)
    (hsecond : second < 60) (fraction : Nat) :
    afterTime? ((zeroPadded 2 hour).toList ++ ':' :: ((zeroPadded 2 minute).toList ++
      ':' :: ((zeroPadded 2 second).toList ++
        ((if fraction = 0 then "" else "." ++ zeroPadded 3 fraction).toList ++ ['Z'])))) =
      some ['Z'] := by
  have hvalid : (hour < 24 && minute < 60 && second ≤ 60) = true := by simp; omega
  rw [afterTime?, fieldNumber?_zeroPadded Nat.two_pos (by omega), Option.bind_eq_bind,
    Option.bind_some]
  simp only [afterMark?_cons (by decide : isBlank ':' = false),
    fieldNumber?_zeroPadded Nat.two_pos (by omega : minute < 10 ^ 2),
    fieldNumber?_zeroPadded Nat.two_pos (by omega : second < 10 ^ 2), afterFraction?_zeroPadded,
    hvalid, Option.bind_eq_bind, Option.bind_some, if_true]
  rfl

/-- What makes a text with a date in front a point in time. -/
theorem isTimestamp_of_afterDate? {text : String} {rest : List Char}
    (h : afterDate? text.toList = some ('T' :: rest)) :
    isTimestamp text =
      ((afterTime? rest).bind fun rest => afterOffset? (trimStart rest)).any isAllBlank := by
  rw [isTimestamp, h]
  rfl

/-- **A time that is written is a time that can be read.** -/
theorem isTimestamp_timestamp {milliseconds : Nat} (h : milliseconds < timeLimit) :
    isTimestamp (timestamp milliseconds) = true := by
  have hyear := year_dateAfter_le h
  have hdate := isDate_dateAfter 1970 (milliseconds / 1000 / 86400)
  rw [timestamp]
  generalize dateAfter 1970 (milliseconds / 1000 / 86400) = date at hyear hdate ⊢
  obtain ⟨year, month, day⟩ := date
  dsimp only at hyear hdate ⊢
  have htold : isYear year = true := by
    simp only [isYear, Bool.and_eq_true, decide_eq_true_eq]
    omega
  have hhour : milliseconds / 1000 / 3600 % 24 < 24 := Nat.mod_lt _ (by decide)
  have hminute : milliseconds / 1000 / 60 % 60 < 60 := Nat.mod_lt _ (by decide)
  have hsecond : milliseconds / 1000 % 60 < 60 := Nat.mod_lt _ (by decide)
  have htime := afterTime?_zeroPadded hhour hminute hsecond (milliseconds % 1000)
  have hmarks : "-".toList = ['-'] ∧ "T".toList = ['T'] ∧ ":".toList = [':'] ∧ "Z".toList = ['Z'] :=
    ⟨rfl, rfl, rfl, rfl⟩
  rw [isTimestamp_of_afterDate?, htime]
  · rfl
  · simp only [String.toList_append, List.append_assoc, hmarks, List.cons_append, List.nil_append]
    exact afterDate?_zeroPadded htold hdate _

end PugContracts.Text

/-
Dates, from `date.hpp` and `date.cpp`: the tables of the calendar and the functions that convert days into years,
months, days of the month and ISO weeks.
-/
import Haybarn.Temporal.Numbers

namespace Haybarn.Temporal

open Lib

/-! ## Tables -/

def normalDays : List Int :=
  [0, 31, 28, 31, 30, 31, 30, 31, 31, 30, 31, 30, 31]

def cumulativeDays : List Int :=
  [0, 31, 59, 90, 120, 151, 181, 212, 243, 273, 304, 334, 365]

def leapDays : List Int :=
  [0, 31, 29, 31, 30, 31, 30, 31, 31, 30, 31, 30, 31]

def cumulativeLeapDays : List Int :=
  [0, 31, 60, 91, 121, 152, 182, 213, 244, 274, 305, 335, 366]

def monthPerDayOfYear : List Int :=
  [1, 1, 1, 1, 1, 1, 1, 1, 1, 1, 1, 1, 1, 1, 1, 1, 1, 1, 1, 1, 1, 1, 1, 1, 1, 1, 1, 1, 1, 1, 1, 2, 2, 2, 2, 2, 2, 2,
    2, 2, 2, 2, 2, 2, 2, 2, 2, 2, 2, 2, 2, 2, 2, 2, 2, 2, 2, 2, 2, 3, 3, 3, 3, 3, 3, 3, 3, 3, 3, 3, 3, 3, 3, 3, 3, 3,
    3, 3, 3, 3, 3, 3, 3, 3, 3, 3, 3, 3, 3, 3, 4, 4, 4, 4, 4, 4, 4, 4, 4, 4, 4, 4, 4, 4, 4, 4, 4, 4, 4, 4, 4, 4, 4, 4,
    4, 4, 4, 4, 4, 4, 5, 5, 5, 5, 5, 5, 5, 5, 5, 5, 5, 5, 5, 5, 5, 5, 5, 5, 5, 5, 5, 5, 5, 5, 5, 5, 5, 5, 5, 5, 5, 6,
    6, 6, 6, 6, 6, 6, 6, 6, 6, 6, 6, 6, 6, 6, 6, 6, 6, 6, 6, 6, 6, 6, 6, 6, 6, 6, 6, 6, 6, 7, 7, 7, 7, 7, 7, 7, 7, 7,
    7, 7, 7, 7, 7, 7, 7, 7, 7, 7, 7, 7, 7, 7, 7, 7, 7, 7, 7, 7, 7, 7, 8, 8, 8, 8, 8, 8, 8, 8, 8, 8, 8, 8, 8, 8, 8, 8,
    8, 8, 8, 8, 8, 8, 8, 8, 8, 8, 8, 8, 8, 8, 8, 9, 9, 9, 9, 9, 9, 9, 9, 9, 9, 9, 9, 9, 9, 9, 9, 9, 9, 9, 9, 9, 9, 9,
    9, 9, 9, 9, 9, 9, 9, 10, 10, 10, 10, 10, 10, 10, 10, 10, 10, 10, 10, 10, 10, 10, 10, 10, 10, 10, 10, 10, 10, 10,
    10, 10, 10, 10, 10, 10, 10, 10, 11, 11, 11, 11, 11, 11, 11, 11, 11, 11, 11, 11, 11, 11, 11, 11, 11, 11, 11, 11,
    11, 11, 11, 11, 11, 11, 11, 11, 11, 11, 12, 12, 12, 12, 12, 12, 12, 12, 12, 12, 12, 12, 12, 12, 12, 12, 12, 12,
    12, 12, 12, 12, 12, 12, 12, 12, 12, 12, 12, 12, 12]

def leapMonthPerDayOfYear : List Int :=
  [1, 1, 1, 1, 1, 1, 1, 1, 1, 1, 1, 1, 1, 1, 1, 1, 1, 1, 1, 1, 1, 1, 1, 1, 1, 1, 1, 1, 1, 1, 1, 2, 2, 2, 2, 2, 2, 2,
    2, 2, 2, 2, 2, 2, 2, 2, 2, 2, 2, 2, 2, 2, 2, 2, 2, 2, 2, 2, 2, 2, 3, 3, 3, 3, 3, 3, 3, 3, 3, 3, 3, 3, 3, 3, 3, 3,
    3, 3, 3, 3, 3, 3, 3, 3, 3, 3, 3, 3, 3, 3, 3, 4, 4, 4, 4, 4, 4, 4, 4, 4, 4, 4, 4, 4, 4, 4, 4, 4, 4, 4, 4, 4, 4, 4,
    4, 4, 4, 4, 4, 4, 4, 5, 5, 5, 5, 5, 5, 5, 5, 5, 5, 5, 5, 5, 5, 5, 5, 5, 5, 5, 5, 5, 5, 5, 5, 5, 5, 5, 5, 5, 5, 5,
    6, 6, 6, 6, 6, 6, 6, 6, 6, 6, 6, 6, 6, 6, 6, 6, 6, 6, 6, 6, 6, 6, 6, 6, 6, 6, 6, 6, 6, 6, 7, 7, 7, 7, 7, 7, 7, 7,
    7, 7, 7, 7, 7, 7, 7, 7, 7, 7, 7, 7, 7, 7, 7, 7, 7, 7, 7, 7, 7, 7, 7, 8, 8, 8, 8, 8, 8, 8, 8, 8, 8, 8, 8, 8, 8, 8,
    8, 8, 8, 8, 8, 8, 8, 8, 8, 8, 8, 8, 8, 8, 8, 8, 9, 9, 9, 9, 9, 9, 9, 9, 9, 9, 9, 9, 9, 9, 9, 9, 9, 9, 9, 9, 9, 9,
    9, 9, 9, 9, 9, 9, 9, 9, 10, 10, 10, 10, 10, 10, 10, 10, 10, 10, 10, 10, 10, 10, 10, 10, 10, 10, 10, 10, 10, 10,
    10, 10, 10, 10, 10, 10, 10, 10, 10, 11, 11, 11, 11, 11, 11, 11, 11, 11, 11, 11, 11, 11, 11, 11, 11, 11, 11, 11,
    11, 11, 11, 11, 11, 11, 11, 11, 11, 11, 11, 12, 12, 12, 12, 12, 12, 12, 12, 12, 12, 12, 12, 12, 12, 12, 12, 12,
    12, 12, 12, 12, 12, 12, 12, 12, 12, 12, 12, 12, 12, 12]

def cumulativeYearDays : List Int :=
  [0, 365, 730, 1096, 1461, 1826, 2191, 2557, 2922, 3287, 3652, 4018, 4383, 4748, 5113, 5479, 5844, 6209, 6574, 6940,
    7305, 7670, 8035, 8401, 8766, 9131, 9496, 9862, 10227, 10592, 10957, 11323, 11688, 12053, 12418, 12784, 13149,
    13514, 13879, 14245, 14610, 14975, 15340, 15706, 16071, 16436, 16801, 17167, 17532, 17897, 18262, 18628, 18993,
    19358, 19723, 20089, 20454, 20819, 21184, 21550, 21915, 22280, 22645, 23011, 23376, 23741, 24106, 24472, 24837,
    25202, 25567, 25933, 26298, 26663, 27028, 27394, 27759, 28124, 28489, 28855, 29220, 29585, 29950, 30316, 30681,
    31046, 31411, 31777, 32142, 32507, 32872, 33238, 33603, 33968, 34333, 34699, 35064, 35429, 35794, 36160, 36525,
    36890, 37255, 37621, 37986, 38351, 38716, 39082, 39447, 39812, 40177, 40543, 40908, 41273, 41638, 42004, 42369,
    42734, 43099, 43465, 43830, 44195, 44560, 44926, 45291, 45656, 46021, 46387, 46752, 47117, 47482, 47847, 48212,
    48577, 48942, 49308, 49673, 50038, 50403, 50769, 51134, 51499, 51864, 52230, 52595, 52960, 53325, 53691, 54056,
    54421, 54786, 55152, 55517, 55882, 56247, 56613, 56978, 57343, 57708, 58074, 58439, 58804, 59169, 59535, 59900,
    60265, 60630, 60996, 61361, 61726, 62091, 62457, 62822, 63187, 63552, 63918, 64283, 64648, 65013, 65379, 65744,
    66109, 66474, 66840, 67205, 67570, 67935, 68301, 68666, 69031, 69396, 69762, 70127, 70492, 70857, 71223, 71588,
    71953, 72318, 72684, 73049, 73414, 73779, 74145, 74510, 74875, 75240, 75606, 75971, 76336, 76701, 77067, 77432,
    77797, 78162, 78528, 78893, 79258, 79623, 79989, 80354, 80719, 81084, 81450, 81815, 82180, 82545, 82911, 83276,
    83641, 84006, 84371, 84736, 85101, 85466, 85832, 86197, 86562, 86927, 87293, 87658, 88023, 88388, 88754, 89119,
    89484, 89849, 90215, 90580, 90945, 91310, 91676, 92041, 92406, 92771, 93137, 93502, 93867, 94232, 94598, 94963,
    95328, 95693, 96059, 96424, 96789, 97154, 97520, 97885, 98250, 98615, 98981, 99346, 99711, 100076, 100442,
    100807, 101172, 101537, 101903, 102268, 102633, 102998, 103364, 103729, 104094, 104459, 104825, 105190, 105555,
    105920, 106286, 106651, 107016, 107381, 107747, 108112, 108477, 108842, 109208, 109573, 109938, 110303, 110669,
    111034, 111399, 111764, 112130, 112495, 112860, 113225, 113591, 113956, 114321, 114686, 115052, 115417, 115782,
    116147, 116513, 116878, 117243, 117608, 117974, 118339, 118704, 119069, 119435, 119800, 120165, 120530, 120895,
    121260, 121625, 121990, 122356, 122721, 123086, 123451, 123817, 124182, 124547, 124912, 125278, 125643, 126008,
    126373, 126739, 127104, 127469, 127834, 128200, 128565, 128930, 129295, 129661, 130026, 130391, 130756, 131122,
    131487, 131852, 132217, 132583, 132948, 133313, 133678, 134044, 134409, 134774, 135139, 135505, 135870, 136235,
    136600, 136966, 137331, 137696, 138061, 138427, 138792, 139157, 139522, 139888, 140253, 140618, 140983, 141349,
    141714, 142079, 142444, 142810, 143175, 143540, 143905, 144271, 144636, 145001, 145366, 145732, 146097]

/-! ## Dates -/

/-- `date_t`: days since 1970-01-01. -/
structure Date where
  days : BitVec 32
deriving DecidableEq, Repr

namespace Date

def toInt (date : Date) : Int := date.days.toInt

/-- `date_t(days)`, where the days are an `int32_t`. -/
def ofInt (days : Int) : Date := ⟨BitVec.ofInt 32 days⟩

def infinity : Date := ofInt (2 ^ 31 - 1)

def ninfinity : Date := ofInt (-(2 ^ 31 - 1))

def isFinite (date : Date) : Bool := date != infinity && date != ninfinity

/-- `DATE_MIN_YEAR`, `DATE_MIN_MONTH` and `DATE_MIN_DAY`. -/
def minYear : Int := -5877641
def minMonth : Int := 6
def minDay : Int := 25

/-- `DATE_MAX_YEAR`, `DATE_MAX_MONTH` and `DATE_MAX_DAY`. -/
def maxYear : Int := 5881580
def maxMonth : Int := 7
def maxDay : Int := 10

def epochYear : Int := 1970

def yearInterval : Int := 400

def daysPerYearInterval : Int := 146097

def isLeapYear (year : Int) : Bool := year.tmod 4 = 0 && (year.tmod 100 ≠ 0 || year.tmod 400 = 0)

def isValid (year month day : Int) : Bool :=
  if month < 1 ∨ month > 12 then false
  else if day < 1 then false
  else if year < minYear ∨ year = minYear ∧ (month < minMonth ∨ month = minMonth ∧ day < minDay) then false
  else if year > maxYear ∨ year = maxYear ∧ (month > maxMonth ∨ month = maxMonth ∧ day > maxDay) then false
  else decide (day ≤ (if isLeapYear year then leapDays else normalDays).getD month.toNat 0)

/-- The loop of `ExtractYearOffset` that decrements the year offset until the year starts by the day `n`. -/
def lowerYearOffset (n : Int) : Nat → Outcome Int
  | 0 => do
    let days ← lookup cumulativeYearDays 0
    -- the entry before the first one would be read
    if n < days then .fault else .done 0
  | yearOffset + 1 => do
    let days ← lookup cumulativeYearDays (yearOffset + 1)
    if n < days then lowerYearOffset n yearOffset else .done (yearOffset + 1)

/-- `ExtractYearOffset`: the day within 400 years, the year and its offset. -/
def extractYearOffset (n : Int) : Outcome (Int × Int × Int) := do
  -- normalize to the years from 1970 to 2370
  let (n, year) ← Outcome.loop (fun s => decide (s.1 < 0)) (fun s => do
    let n ← int32 (s.1 + daysPerYearInterval)
    let year ← int32 (s.2 - yearInterval)
    .done (n, year)) (n.natAbs + 1) (n, epochYear)
  let (n, year) ← Outcome.loop (fun s => decide (s.1 ≥ daysPerYearInterval)) (fun s => do
    let n ← int32 (s.1 - daysPerYearInterval)
    let year ← int32 (s.2 + yearInterval)
    .done (n, year)) (n.natAbs + 1) (n, year)
  -- each year has at least 365 days
  let yearOffset := n.tdiv 365
  if yearOffset < 0 then .fault
  else do
    let yearOffset ← lowerYearOffset n yearOffset.toNat
    let year ← int32 (year + yearOffset)
    .done (n, year, yearOffset)

/-- `Convert`: the year, the month and the day. -/
def convert (date : Date) : Outcome (Int × Int × Int) := do
  let (n, year, yearOffset) ← extractYearOffset date.toInt
  let start ← lookup cumulativeYearDays yearOffset
  let next ← lookup cumulativeYearDays (yearOffset + 1)
  let day ← int32 (n - start)
  if next - start = 366 then do
    let month ← lookup leapMonthPerDayOfYear day
    let first ← lookup cumulativeLeapDays (month - 1)
    .done (year, month, day - first + 1)
  else do
    let month ← lookup monthPerDayOfYear day
    let first ← lookup cumulativeDays (month - 1)
    .done (year, month, day - first + 1)

def tryFromDate (year month day : Int) : Outcome (Option Date) :=
  if isValid year month day then do
    let first ← lookup (if isLeapYear year then cumulativeLeapDays else cumulativeDays) (month - 1)
    let n ← int32 (first + (day - 1))
    if year < 1970 then do
      let diffFromBase ← int32 (1970 - year)
      let yearIndex := 400 - diffFromBase.tmod 400
      let fractions := diffFromBase.tdiv 400
      let start ← lookup cumulativeYearDays yearIndex
      let n ← int32 (n + start)
      let n ← int32 (n - daysPerYearInterval)
      let shift ← int32 (fractions * daysPerYearInterval)
      let n ← int32 (n - shift)
      .done (some (ofInt n))
    else if year ≥ 2370 then do
      let diffFromBase ← int32 (year - 2370)
      let yearIndex := diffFromBase.tmod 400
      let fractions := diffFromBase.tdiv 400
      let start ← lookup cumulativeYearDays yearIndex
      let n ← int32 (n + start)
      let n ← int32 (n + daysPerYearInterval)
      let shift ← int32 (fractions * daysPerYearInterval)
      let n ← int32 (n + shift)
      .done (some (ofInt n))
    else do
      let start ← lookup cumulativeYearDays (year - 1970)
      let n ← int32 (n + start)
      .done (some (ofInt n))
  else .done none

def fromDate (year month day : Int) : Outcome Date := do
  match ← tryFromDate year month day with
  | some result => .done result
  | none => .error s!"Date out of range: {year}-{month}-{day}"

/-- `ExtractDayOfTheYear`. The day is normalized in place by `ExtractYearOffset`. -/
def extractDayOfTheYear (date : Date) : Outcome Int := do
  let (days, _, yearOffset) ← extractYearOffset date.toInt
  let start ← lookup cumulativeYearDays yearOffset
  int32 (days - start + 1)

def extractISODayOfTheWeek (date : Date) : Int :=
  if date.toInt < 0 then 7 - (-date.toInt + 3).tmod 7
  else (date.toInt + 3).tmod 7 + 1

/-- `PythonDivMod`, where the divisor is positive. -/
def pythonDivMod (x y : Int) : Int × Int :=
  let quo := x.tdiv y
  let r := x - quo * y
  if r < 0 then (quo - 1, r + y) else (quo, r)

/-- `GetISOWeekOne`: the Monday of the first week. -/
def getISOWeekOne (year : Int) : Outcome Date := do
  let firstDay ← fromDate year 1 1
  -- 0 if it is a Monday
  let firstWeekday := extractISODayOfTheWeek firstDay - 1
  let week1Monday ← int32 (firstDay.toInt - firstWeekday)
  -- if it is a Friday, a Saturday or a Sunday
  if firstWeekday > 3 then do
    let week1Monday ← int32 (week1Monday + 7)
    .done (ofInt week1Monday)
  else .done (ofInt week1Monday)

/-- `GetISOYearWeek` and `ExtractISOYearWeek`: the year and the week. -/
def extractISOYearWeek (date : Date) : Outcome (Int × Int) := do
  let (year, _, _) ← date.convert
  let week1Monday ← getISOWeekOne year
  let days ← int32 (date.toInt - week1Monday.toInt)
  let week := (pythonDivMod days 7).1
  if week < 0 then do
    let week1Monday ← getISOWeekOne (year - 1)
    let days ← int32 (date.toInt - week1Monday.toInt)
    .done (year - 1, (pythonDivMod days 7).1 + 1)
  else if week ≥ 52 then do
    let nextMonday ← getISOWeekOne (year + 1)
    if date.toInt ≥ nextMonday.toInt then .done (year + 1, 1)
    else .done (year, week + 1)
  else .done (year, week + 1)

end Date

end Haybarn.Temporal

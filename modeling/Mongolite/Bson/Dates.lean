import Mathlib.Algebra.Order.Round
import Mongolite.Bson.Convert
import Mongolite.Library.IsoTime
import Mongolite.Library.Quotients

/-! # Dates as text and as numbers

`ConvertDate` splits the milliseconds with the division of C, which rounds towards
zero. Before 1970 the remainder is negative, and its sign ends up in the text. As
a number a date is a double of seconds, which is near enough to tell the
millisecond.
-/

namespace Mongolite

/-- The text of a date: the seconds as calendar fields, and the milliseconds as `%03d`. -/
def dateText (epoch : ℤ) : List Char :=
  let ms := epoch.tmod 1000
  let secs := epoch.tdiv 1000
  strftime (gmtime secs) ++ '.' :: (decimal 3 ms ++ ['Z'])

/-- The seconds of a `POSIXct`, where the cast and the division by `1000.0` both round. -/
def posixctSeconds (ms : ℤ) : ℚ := ratToDouble ((toDouble ms : ℚ) / 1000)

def RValue.instant : RValue → Option ℤ
  | .posixct ms => some (round (posixctSeconds ms * 1000))
  | .timeText ms => isoInstant (dateText ms)
  | _ => none

structure DenotesInstant (it : BsonIter) (epoch : ℤ) : Prop where
  text : ∃ v, (convertScalar ⟨false, true⟩ it) = some v ∧ v.instant = some epoch
  number : ∃ v, (convertScalar ⟨false, false⟩ it) = some v ∧ v.instant = some epoch

/-- The years 1000 to 9999, and before 1970 only whole seconds. -/
def HasDateText (epoch : ℤ) : Prop :=
  -30610224000000 ≤ epoch ∧ epoch ≤ 253402300799999 ∧ (0 ≤ epoch ∨ epoch % 1000 = 0)

instance (epoch : ℤ) : Decidable (HasDateText epoch) :=
  inferInstanceAs (Decidable (_ ∧ _))

theorem tdiv_tmod_thousand (epoch : ℤ) :
    epoch.tdiv 1000 * 1000 + epoch.tmod 1000 = epoch ∧ -1000 < epoch.tmod 1000 ∧
      epoch.tmod 1000 < 1000 ∧ (0 ≤ epoch.tmod 1000 ↔ 0 ≤ epoch ∨ epoch % 1000 = 0) := by
  have hsum := Int.tdiv_mul_add_tmod epoch 1000
  have hmod := Int.tmod_eq_emod (a := epoch) (b := 1000)
  split_ifs at hmod <;> omega

/-- Below `2 ^ 52` milliseconds the seconds are off by less than half a millisecond. -/
theorem round_posixctSeconds {ms : ℤ} (h : ms.natAbs < 2 ^ 52) :
    round (posixctSeconds ms * 1000) = ms := by
  have hexact : toDouble ms = ms := toDouble_of_natAbs_le (by omega)
  have hms : |(ms : ℚ)| < 2 ^ 52 := by
    rw [← Int.cast_abs, Int.abs_eq_natAbs]
    exact_mod_cast h
  have hnear := abs_ratToDouble_sub_le ((ms : ℚ) / 1000)
  rw [abs_div, abs_of_pos (show (0 : ℚ) < 1000 by norm_num)] at hnear
  have hhalf : |(ms : ℚ)| / 1000 / 2 ^ 53 < 1 / 2000 := by
    rw [div_div, div_lt_div_iff₀ (by norm_num) (by norm_num)]
    linarith
  obtain ⟨hlow, hhigh⟩ := abs_lt.mp (hnear.trans_lt hhalf)
  rw [posixctSeconds, hexact, round_eq, Int.floor_eq_iff]
  constructor <;> linarith

theorem isoInstant_dateText_iff (epoch : ℤ) :
    isoInstant (dateText epoch) = some epoch ↔ HasDateText epoch := by
  obtain ⟨hsum, hlow, hhigh, hsign⟩ := tdiv_tmod_thousand epoch
  have h1000 := le_year_gmtime_iff 1000 (epoch.tdiv 1000)
  have h10000 := le_year_gmtime_iff 10000 (epoch.tdiv 1000)
  have hd1000 : daysBeforeYear 1000 = 364877 := rfl
  have hd10000 : daysBeforeYear 10000 = 3652059 := rfl
  rw [hd1000] at h1000
  rw [hd10000] at h10000
  unfold HasDateText dateText isoInstant
  simp only
  by_cases hyear : 1000 ≤ (gmtime (epoch.tdiv 1000)).year ∧ (gmtime (epoch.tdiv 1000)).year < 10000
  · rw [readTime_strftime (gmtime_valid _) hyear.1 hyear.2]
    simp only [Option.bind_eq_bind, Option.bind_some, readChar_cons]
    by_cases hms : 0 ≤ epoch.tmod 1000
    · obtain ⟨n, hn⟩ := Int.eq_ofNat_of_zero_le hms
      rw [hn, readDigits_decimal (by decide) (by omega)]
      simp only [Option.bind_some, gmtime_valid, and_self, if_true, seconds_gmtime,
        Option.some.injEq]
      omega
    · rw [readDigits_of_neg (by decide) (Int.not_le.mp hms)]
      simp only [Option.bind_none, reduceCtorEq, false_iff]
      omega
  · rw [readTime_strftime_of_year (by omega)]
    simp only [Option.bind_eq_bind, Option.bind_none, reduceCtorEq, false_iff]
    omega

/-- A date becomes a text and a number that denote its instant iff it is in the years 1000 to 9999,
and before 1970 a whole number of seconds. -/
theorem denotesInstant_iff {it : BsonIter} (h : bsonIterType it = some .dateTime) :
    DenotesInstant it (readI64le (it.data.drop it.d1)) ↔
      HasDateText (readI64le (it.data.drop it.d1)) := by
  have htext : convertScalar ⟨false, true⟩ it =
      some (.timeText (readI64le (it.data.drop it.d1))) := by
    simp [convertScalar, h, convertDate]
  have hnumber : convertScalar ⟨false, false⟩ it =
      some (.posixct (readI64le (it.data.drop it.d1))) := by
    simp [convertScalar, h, convertDate]
  rw [← isoInstant_dateText_iff]
  constructor
  · rintro ⟨⟨v, hv, hinstant⟩, -⟩
    obtain rfl := Option.some.inj (htext.symm.trans hv)
    exact hinstant
  · intro hinstant
    have hdate : HasDateText (readI64le (it.data.drop it.d1)) :=
      (isoInstant_dateText_iff _).mp hinstant
    have hsmall : (readI64le (it.data.drop it.d1)).natAbs < 2 ^ 52 := by
      obtain ⟨hlow, hhigh, -⟩ := hdate
      omega
    refine ⟨⟨_, htext, hinstant⟩, ⟨_, hnumber, ?_⟩⟩
    rw [RValue.instant, round_posixctSeconds hsmall]

/-- The element of `{"t": <date>}`, a number of milliseconds with these bytes. -/
def dateElement (bits : List UInt8) : BsonIter :=
  (bsonIterNext (iterOver ([16, 0, 0, 0, 0x09, 0x74, 0] ++ bits ++ [0]))).2

theorem denotesInstant_one_second :
    DenotesInstant (dateElement [0xE8, 3, 0, 0, 0, 0, 0, 0]) 1000 ↔ HasDateText 1000 :=
  @denotesInstant_iff (dateElement [0xE8, 3, 0, 0, 0, 0, 0, 0]) rfl

/-- The millisecond before 1970 becomes `1970-01-01T00:00:00.-01Z`. -/
theorem not_denotesInstant_before_1970 :
    ¬ DenotesInstant (dateElement (List.replicate 8 0xFF)) (-1) := by
  rintro ⟨⟨v, hv, hinstant⟩, -⟩
  have htext : convertScalar ⟨false, true⟩ (dateElement (List.replicate 8 0xFF)) =
      some (.timeText (-1)) := rfl
  obtain rfl := Option.some.inj (htext.symm.trans hv)
  have hchars : dateText (-1) = "1970-01-01T00:00:00.-01Z".toList := by decide
  rw [RValue.instant, hchars] at hinstant
  revert hinstant
  decide

end Mongolite

import Mathlib

/-!
# Scheduling by thread context

The model of `__hlt_thread_mgr_schedule_tcontext` in `threading.c` up to the virtual thread that it
picks.  Ids have 64 bits and a sign, and arithmetic wraps around; the overflow of a negation is
undefined in C.
-/

namespace Hilti.Scheduler

set_option autoImplicit false

/-! ## The functions -/

/-- The part of `hlt_config` that bounds the ids. -/
structure Config where
  vidScheduleMin : Int64
  vidScheduleMax : Int64

/-- The id that comes from the hash of a thread context, or from a null pointer. -/
def contextVid (hash : Option UInt64) : Int64 :=
  let vid := (hash.map UInt64.toInt64).getD 0
  if vid < 0 then -vid else vid

/-- The number of ids in the configured range. -/
def Config.size (cfg : Config) : Int64 :=
  cfg.vidScheduleMax - cfg.vidScheduleMin + 1

/-- `scaled_vid` of `__hlt_thread_mgr_schedule_tcontext`, which ends the program for an invalid
configuration. -/
def scaledVid (cfg : Config) (hash : Option UInt64) : Option Int64 :=
  if cfg.size ≤ 0 then none else some (contextVid hash % cfg.size + cfg.vidScheduleMin)

/-! ## The range -/

section

variable {cfg : Config} {hash : Option UInt64}

/-- The number of ids in the range, without a bound. -/
def Config.width (cfg : Config) : ℤ :=
  cfg.vidScheduleMax.toInt - cfg.vidScheduleMin.toInt + 1

theorem bmod_of_lt {x : ℤ} (hlow : -2 ^ 63 ≤ x) (hhigh : x < 2 ^ 63) : x.bmod (2 ^ 64) = x :=
  Int.bmod_eq_of_le (by omega) (by omega)

theorem size_toInt : cfg.size.toInt = cfg.width.bmod (2 ^ 64) := by
  rw [Config.size, Int64.toInt_add, Int64.toInt_sub, Int.bmod_add_bmod]
  rfl

theorem size_nonpos_iff (hle : cfg.vidScheduleMin ≤ cfg.vidScheduleMax) :
    cfg.size ≤ 0 ↔ 2 ^ 63 ≤ cfg.width := by
  have hmin := cfg.vidScheduleMin.le_toInt
  have hmax := cfg.vidScheduleMax.toInt_lt
  have hle : cfg.vidScheduleMin.toInt ≤ cfg.vidScheduleMax.toInt := Int64.le_iff_toInt_le.mp hle
  have hwidth : cfg.width = cfg.vidScheduleMax.toInt - cfg.vidScheduleMin.toInt + 1 := rfl
  rw [Int64.le_iff_toInt_le, size_toInt, Int64.toInt_zero]
  have hbmod := Int.bmod_def cfg.width (2 ^ 64)
  split at hbmod <;> omega

theorem contextVid_nonneg (h : hash ≠ some 0x8000000000000000) : 0 ≤ (contextVid hash).toInt := by
  unfold contextVid
  set vid := (hash.map UInt64.toInt64).getD 0 with hvid
  have hne : vid ≠ Int64.minValue := by
    intro heq
    cases hash with
    | none => exact absurd (hvid.symm.trans heq) (by decide)
    | some x =>
      have hx : x.toInt64 = Int64.minValue := hvid.symm.trans heq
      apply h
      rw [← x.toUInt64_toInt64, hx]
      rfl
  have hlow := vid.le_toInt
  have hlt : vid.toInt ≠ -2 ^ 63 := fun heq => hne (Int64.toInt_inj.mp heq)
  dsimp only
  split
  · rename_i hneg
    have hneg : vid.toInt < 0 := Int64.lt_iff_toInt_lt.mp hneg
    rw [Int64.toInt_neg, bmod_of_lt (by omega) (by omega)]
    omega
  · rename_i hneg
    apply Int.not_lt.mp
    intro hlt
    exact hneg (Int64.lt_iff_toInt_lt.mpr hlt)

theorem contextVid_extreme : (contextVid (some 0x8000000000000000)).toInt = -2 ^ 63 := by
  decide

/-- The id that is scheduled to lies in the configured range. -/
def Config.InRange (cfg : Config) (vid : Int64) : Prop :=
  cfg.vidScheduleMin ≤ vid ∧ vid ≤ cfg.vidScheduleMax

instance (vid : Int64) : Decidable (cfg.InRange vid) :=
  inferInstanceAs (Decidable (_ ∧ _))

theorem scaled_toInt (vid : Int64) : (vid % cfg.size + cfg.vidScheduleMin).toInt =
    (vid.toInt.tmod cfg.size.toInt + cfg.vidScheduleMin.toInt).bmod (2 ^ 64) := by
  rw [Int64.toInt_add]
  congr 2
  exact BitVec.toInt_srem vid.toBitVec cfg.size.toBitVec

theorem inRange_iff (hsize : 0 < cfg.size.toInt) (hwidth : cfg.width = cfg.size.toInt) (vid : Int64) :
    cfg.InRange (vid % cfg.size + cfg.vidScheduleMin) ↔ 0 ≤ vid.toInt.tmod cfg.size.toInt := by
  have hmin := cfg.vidScheduleMin.le_toInt
  have hmax := cfg.vidScheduleMax.toInt_lt
  have hdef : cfg.width = cfg.vidScheduleMax.toInt - cfg.vidScheduleMin.toInt + 1 := rfl
  set r := vid.toInt.tmod cfg.size.toInt with hr
  have hlow : -cfg.size.toInt < r := Int.lt_tmod_of_pos _ hsize
  have hhigh : r < cfg.size.toInt := Int.tmod_lt_of_pos _ hsize
  have hlt := cfg.size.toInt_lt
  rw [Config.InRange, Int64.le_iff_toInt_le, Int64.le_iff_toInt_le, scaled_toInt, ← hr]
  have hbmod := Int.bmod_def (r + cfg.vidScheduleMin.toInt) (2 ^ 64)
  split at hbmod <;> omega

theorem size_of_scaled (hle : cfg.vidScheduleMin ≤ cfg.vidScheduleMax) (hsize : ¬ cfg.size ≤ 0) :
    0 < cfg.size.toInt ∧ cfg.width = cfg.size.toInt := by
  have hwidth : ¬ 2 ^ 63 ≤ cfg.width := fun h => hsize ((size_nonpos_iff hle).mpr h)
  have hle : cfg.vidScheduleMin.toInt ≤ cfg.vidScheduleMax.toInt := Int64.le_iff_toInt_le.mp hle
  have hdef : cfg.width = cfg.vidScheduleMax.toInt - cfg.vidScheduleMin.toInt + 1 := rfl
  have heq : cfg.width = cfg.size.toInt := by
    rw [size_toInt, bmod_of_lt (by omega) (by omega)]
  exact ⟨by omega, heq⟩

theorem scaledVid_inRange (hle : cfg.vidScheduleMin ≤ cfg.vidScheduleMax)
    (hhash : hash ≠ some 0x8000000000000000) {vid : Int64} (h : scaledVid cfg hash = some vid) :
    cfg.InRange vid := by
  unfold scaledVid at h
  split at h
  · cases h
  · rename_i hsize
    obtain ⟨hpos, heq⟩ := size_of_scaled hle hsize
    cases h
    apply (inRange_iff hpos heq _).mpr
    exact Int.tmod_nonneg _ (contextVid_nonneg hhash)

/-- The range has so many ids that it counts as invalid, or the hash is not the one for which
negation overflows, or the number of ids divides it. -/
theorem scaledVid_inRange_iff (hle : cfg.vidScheduleMin ≤ cfg.vidScheduleMax) :
    (∀ vid, scaledVid cfg hash = some vid → cfg.InRange vid) ↔
      2 ^ 63 ≤ cfg.width ∨ hash ≠ some 0x8000000000000000 ∨ cfg.width ∣ 2 ^ 63 := by
  by_cases hhash : hash = some 0x8000000000000000
  · rw [or_iff_right (not_not.mpr hhash), hhash]
    by_cases hsize : cfg.size ≤ 0
    · rw [scaledVid, if_pos hsize]
      exact iff_of_true (fun vid hvid => nomatch hvid) (.inl ((size_nonpos_iff hle).mp hsize))
    · obtain ⟨hpos, heq⟩ := size_of_scaled hle hsize
      have hvalid : ¬ 2 ^ 63 ≤ cfg.width := fun h => hsize ((size_nonpos_iff hle).mpr h)
      have hnonneg : 0 ≤ (2 ^ 63 : ℤ).tmod cfg.size.toInt := Int.tmod_nonneg _ (by decide)
      have hone : (∀ vid, scaledVid cfg (some 0x8000000000000000) = some vid → cfg.InRange vid) ↔
          0 ≤ (contextVid (some 0x8000000000000000)).toInt.tmod cfg.size.toInt := by
        rw [← inRange_iff hpos heq, scaledVid, if_neg hsize]
        exact ⟨fun h => h _ rfl, fun h vid hvid => Option.some.inj hvid ▸ h⟩
      rw [or_iff_right hvalid, hone, contextVid_extreme, Int.neg_tmod, heq, Int.dvd_iff_tmod_eq_zero]
      omega
  · exact iff_of_true (fun vid => scaledVid_inRange hle hhash) (.inr (.inl hhash))

/-- What `hlt_config` has by default. -/
def defaultConfig : Config :=
  ⟨1, 101⟩

theorem scaledVid_inRange_default :
    ∃ vid, scaledVid defaultConfig (some 5) = some vid ∧ defaultConfig.InRange vid := by
  have h : (∀ vid, scaledVid defaultConfig (some 5) = some vid → defaultConfig.InRange vid) ↔ _ :=
    scaledVid_inRange_iff (by decide)
  exact ⟨6, by decide, h.mpr (.inr (.inl (by decide))) 6 (by decide)⟩

/-- With the default configuration the hash 2^63 leads to an id below 0. -/
theorem scaledVid_below : ∃ vid, scaledVid defaultConfig (some 0x8000000000000000) = some vid ∧
    vid < 0 ∧ ¬ defaultConfig.InRange vid := by
  refine ⟨-89, ?_, ?_, ?_⟩
  all_goals decide

end

end Hilti.Scheduler

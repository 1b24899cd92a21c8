import Mathlib.Algebra.Order.Ring.Int
import Mathlib.Algebra.Order.Ring.Nat
import Mathlib.Data.List.Basic

/-!
# The two copies of the super block

`pmfs_check_integrity` repairs the super block from its redundant copy, first when the magic number
is wrong and then when the checksum is. The repair locks the super block again, which computes the
checksum anew and writes both copies: after the first repair the second test cannot fail.
-/

namespace Wpmfs.Mount

/-- `PMFS_SUPER_MAGIC`. -/
def pmfsSuperMagic : UInt16 := 0xEFFC

/-- The static fields of `struct pmfs_super_block` that the checksum is over. -/
structure Statics where
  sMagic : UInt16
  sBlocksize : UInt32
  sSize : UInt64
  sVolumeName : Vector UInt8 16
  sJournalOffset : UInt64
  sInodeTableOffset : UInt64
deriving DecidableEq

/-- `struct pmfs_super_block`, with the one dynamic field that is stored to here. -/
structure SuperBlock where
  sSum : UInt16
  statics : Statics
  sWtime : UInt32
deriving DecidableEq

/-- The super block and its redundant copy. -/
structure Copies where
  super : SuperBlock
  superRedund : SuperBlock
deriving DecidableEq

section Check

-- `crc16(~0, …)` of the bytes of the static fields
variable (crc16 : Statics → UInt16)

/-- `pmfs_calc_checksum`: whether the checksum is wrong. -/
def pmfsCalcChecksum (ps : SuperBlock) : Bool := ps.sSum != crc16 ps.statics

/-- `pmfs_sync_super`, at the time `seconds`. -/
def pmfsSyncSuper (seconds : UInt32) (c : Copies) : Copies :=
  let ps := { c.super with sWtime := seconds }
  let ps := { ps with sSum := 0 }
  let ps := { ps with sSum := crc16 ps.statics }
  ⟨ps, ps⟩

/-- The super block becomes what the redundant copy is. It is unlocked before and locked after if
`sb` is there; the lock itself does nothing to the bytes. -/
def repair (sb : Bool) (seconds : UInt32) (c : Copies) : Copies :=
  let c := { c with super := c.superRedund }
  if sb then pmfsSyncSuper crc16 seconds c else c

/-- The test of the checksum in `pmfs_check_integrity`. -/
def checkSum (sb : Bool) (seconds : UInt32) (c : Copies) : Bool × Copies :=
  if pmfsCalcChecksum crc16 c.super then
    if pmfsCalcChecksum crc16 c.superRedund then (false, c)
    else (true, repair crc16 sb seconds c)
  else (true, c)

/-- `pmfs_check_integrity`: whether it returns 1, and what it leaves. -/
def pmfsCheckIntegrity (sb : Bool) (seconds : UInt32) (c : Copies) : Bool × Copies :=
  if c.super.statics.sMagic ≠ pmfsSuperMagic then
    if c.superRedund.statics.sMagic ≠ pmfsSuperMagic then (false, c)
    else checkSum crc16 sb seconds (repair crc16 sb seconds c)
  else checkSum crc16 sb seconds c

/-- What the check answers and leaves: static fields with the right magic number of a copy that had
a genuine checksum; and such a copy is enough for it. -/
structure Genuine (c : Copies) (r : Bool × Copies) : Prop where
  sound : r.1 = true → r.2.super.statics.sMagic = pmfsSuperMagic ∧
    ∃ ps, (ps = c.super ∨ ps = c.superRedund) ∧ pmfsCalcChecksum crc16 ps = false ∧
      r.2.super.sSum = ps.sSum ∧ r.2.super.statics = ps.statics
  complete : ∀ ps, (ps = c.super ∨ ps = c.superRedund) → ps.statics.sMagic = pmfsSuperMagic →
    pmfsCalcChecksum crc16 ps = false → r.1 = true

end Check

variable {crc16 : Statics → UInt16} {sb : Bool} {seconds : UInt32} {c : Copies} {ps : SuperBlock}

theorem pmfsCalcChecksum_eq_false :
    pmfsCalcChecksum crc16 ps = false ↔ ps.sSum = crc16 ps.statics := by
  simp [pmfsCalcChecksum]

@[simp] theorem pmfsSyncSuper_statics :
    (pmfsSyncSuper crc16 seconds c).super.statics = c.super.statics := rfl

@[simp] theorem pmfsSyncSuper_sSum :
    (pmfsSyncSuper crc16 seconds c).super.sSum = crc16 c.super.statics := rfl

theorem repair_statics : (repair crc16 sb seconds c).super.statics = c.superRedund.statics := by
  unfold repair
  split <;> rfl

/-- A repair of a locked super block leaves a checksum that is right. -/
theorem repair_checksum : pmfsCalcChecksum crc16 (repair crc16 sb seconds c).super = false ↔
    sb = true ∨ pmfsCalcChecksum crc16 c.superRedund = false := by
  cases sb <;> simp [repair, pmfsCalcChecksum_eq_false]

/-- A genuine checksum is still the one it was. -/
theorem repair_sSum (h : pmfsCalcChecksum crc16 c.superRedund = false) :
    (repair crc16 sb seconds c).super.sSum = c.superRedund.sSum := by
  rw [pmfsCalcChecksum_eq_false] at h
  cases sb <;> simp [repair, h]

/-! ## The test of the checksum, and the test of the magic number -/

/-- With the right magic number in the super block only a redundant copy of another kind can be
mistaken for one. -/
theorem checkSum_genuine_iff (hmagic : c.super.statics.sMagic = pmfsSuperMagic) :
    Genuine crc16 c (checkSum crc16 sb seconds c) ↔
      ¬(pmfsCalcChecksum crc16 c.super = true ∧ pmfsCalcChecksum crc16 c.superRedund = false ∧
        c.superRedund.statics.sMagic ≠ pmfsSuperMagic) := by
  unfold checkSum
  split
  case isTrue hbad =>
    split
    case isTrue hbad' =>
      refine iff_of_true ⟨fun h => by simp at h, ?_⟩ (by simp [hbad'])
      rintro ps (rfl | rfl) - hsum <;> simp_all
    case isFalse hgood =>
      have hsum : pmfsCalcChecksum crc16 c.superRedund = false := by simpa using hgood
      constructor
      · rintro h ⟨-, -, hmagic'⟩
        exact hmagic' (repair_statics ▸ (h.sound rfl).1)
      · intro h
        have hmagic' : c.superRedund.statics.sMagic = pmfsSuperMagic := by simp_all
        exact ⟨fun _ => ⟨by rw [repair_statics, hmagic'], c.superRedund, .inr rfl, hsum,
          repair_sSum hsum, repair_statics⟩, fun _ _ _ _ => rfl⟩
  case isFalse hgood =>
    have hsum : pmfsCalcChecksum crc16 c.super = false := by simpa using hgood
    exact iff_of_true ⟨fun _ => ⟨hmagic, c.super, .inl rfl, hsum, rfl, rfl⟩, fun _ _ _ _ => rfl⟩
      (by simp [hsum])

/-- A super block without the right magic number is replaced by the redundant copy, and that by
itself if `sb` is there. -/
theorem checkSum_repair_genuine_iff (hmagic : c.super.statics.sMagic ≠ pmfsSuperMagic)
    (hmagic' : c.superRedund.statics.sMagic = pmfsSuperMagic) :
    Genuine crc16 c (checkSum crc16 sb seconds (repair crc16 sb seconds c)) ↔
      ¬(sb = true ∧ pmfsCalcChecksum crc16 c.superRedund = true) := by
  have hcheck := @repair_checksum crc16 sb seconds c
  by_cases hsum : pmfsCalcChecksum crc16 c.superRedund = false
  · have hgood := hcheck.2 (.inr hsum)
    rw [checkSum, if_neg (by simp [hgood])]
    exact iff_of_true ⟨fun _ => ⟨by rw [repair_statics, hmagic'], c.superRedund, .inr rfl, hsum,
      repair_sSum hsum, repair_statics⟩, fun _ _ _ _ => rfl⟩ (by simp [hsum])
  cases hsb : sb with
  | true =>
    rw [hsb] at hcheck
    rw [checkSum, if_neg (by simp [hcheck])]
    refine iff_of_false (fun h => ?_) (by simpa using hsum)
    -- the copy it is from is the redundant one, by the magic number
    obtain ⟨-, ps, rfl | rfl, hps, -, hstatics⟩ := h.sound rfl
    · have hsame : c.super.statics = c.superRedund.statics := hstatics.symm.trans repair_statics
      exact hmagic (hsame ▸ hmagic')
    · exact hsum hps
  | false =>
    rw [hsb] at hcheck
    have hredund : (repair crc16 false seconds c).superRedund = c.superRedund := rfl
    rw [checkSum, if_pos (by simpa [hsum] using hcheck), hredund, if_pos (by simpa using hsum)]
    refine iff_of_true ⟨fun h => by simp at h, ?_⟩ (by simp)
    rintro ps (rfl | rfl) h hps
    · exact absurd h hmagic
    · exact absurd hps hsum

/-- The check takes no super block for a genuine one, except where a redundant copy with the wrong
magic number has the better checksum, and where one with a wrong checksum has the better magic
number. -/
theorem pmfsCheckIntegrity_genuine_iff (crc16 : Statics → UInt16) (sb : Bool) (seconds : UInt32)
    (c : Copies) : Genuine crc16 c (pmfsCheckIntegrity crc16 sb seconds c) ↔
      ¬(c.super.statics.sMagic = pmfsSuperMagic ∧ pmfsCalcChecksum crc16 c.super = true ∧
        pmfsCalcChecksum crc16 c.superRedund = false ∧
        c.superRedund.statics.sMagic ≠ pmfsSuperMagic) ∧
      ¬(sb = true ∧ c.super.statics.sMagic ≠ pmfsSuperMagic ∧
        c.superRedund.statics.sMagic = pmfsSuperMagic ∧
        pmfsCalcChecksum crc16 c.superRedund = true) := by
  unfold pmfsCheckIntegrity
  by_cases hmagic : c.super.statics.sMagic = pmfsSuperMagic
  · rw [if_neg (not_not.2 hmagic), checkSum_genuine_iff hmagic]
    simp [hmagic]
  · rw [if_pos hmagic]
    by_cases hmagic' : c.superRedund.statics.sMagic = pmfsSuperMagic
    · rw [if_neg (not_not.2 hmagic'), checkSum_repair_genuine_iff hmagic hmagic']
      simp [hmagic, hmagic']
    · rw [if_pos hmagic']
      refine iff_of_true ⟨fun h => by simp at h, ?_⟩ ⟨by simp [hmagic], by simp [hmagic']⟩
      rintro ps (rfl | rfl) h - <;> contradiction

/-- The super block is all zeroes, and the redundant copy has the right magic number but a checksum
that is one too high: whatever the checksums are, the check computes the one of this copy anew and
takes it. -/
theorem not_genuine_zeroes : ¬∃ crc16 : Statics → UInt16, ∀ (sb : Bool) (seconds : UInt32)
    (c : Copies), Genuine crc16 c (pmfsCheckIntegrity crc16 sb seconds c) := by
  rintro ⟨crc16, h⟩
  let zeroes : Statics := ⟨0, 0, 0, Vector.replicate 16 0, 0, 0⟩
  let redund : Statics := { zeroes with sMagic := 0xEFFC }
  let c : Copies := ⟨⟨0, zeroes, 0⟩, ⟨crc16 redund + 1, redund, 0⟩⟩
  have hmagic : zeroes.sMagic ≠ pmfsSuperMagic := by decide
  have hmagic' : redund.sMagic = pmfsSuperMagic := rfl
  have hrun : pmfsCheckIntegrity crc16 true 0 c = (true, repair crc16 true 0 c) := by
    have hsum := (@repair_checksum crc16 true 0 c).2 (.inl rfl)
    rw [pmfsCheckIntegrity, if_pos hmagic, if_neg (not_not.2 hmagic'), checkSum,
      if_neg (by simp [hsum])]
  have hgenuine := h true 0 c
  rw [hrun] at hgenuine
  obtain ⟨-, ps, rfl | rfl, hsum, -, hstatics⟩ := hgenuine.sound rfl
  · have hzeroes : zeroes = redund := hstatics.symm.trans repair_statics
    exact hmagic (hzeroes ▸ hmagic')
  · have hstep : crc16 redund + 1 = crc16 redund := pmfsCalcChecksum_eq_false.1 hsum
    have hnat := congrArg UInt16.toNat hstep
    rw [UInt16.toNat_add] at hnat
    have hlt := (crc16 redund).toNat_lt
    simp only [UInt16.reduceToNat] at hnat
    omega

end Wpmfs.Mount

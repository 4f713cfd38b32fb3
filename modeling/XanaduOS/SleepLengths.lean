import Mathlib.Tactic
import XanaduOS.Word32

/-!
# Lengths of sleeps

A delay is converted to timer ticks by 32-bit multiplication and division. The
conversion rounds down, drops what is below a unit before it multiplies, and
wraps; it covers the delay exactly when nothing is lost.
-/

namespace XanaduOS.SleepLengths

open Word32

/-- Frequency of the oscillator. -/
abbrev XTAL_FREQ : ℕ := 1193182

/-- Frequencies of the timer. -/
structure Freq where
  /-- Ticks in a second. -/
  val : ℕ
  /-- Not zero. -/
  pos : 0<val
  /-- Not above the oscillator. -/
  le : val≤XTAL_FREQ

/-- Frequency after setting up the timer, when accepted; zero keeps the old one. -/
def pitInit (freq : ℕ) (pitFreq : Freq) : Option Freq :=
  if hle : freq≤XTAL_FREQ then
    some (if hpos : 0<freq then ⟨freq,hpos,hle⟩ else pitFreq)
  else none

/-- Ticks of a number of microseconds. -/
def usTicks (pitFreq delay : ℕ) : ℕ :=
  if delay<1000 then wmul delay pitFreq/(1000*1000)
  else if delay<1000*1000 then wmul (delay/1000) pitFreq/1000
  else wmul (delay/(1000*1000)) pitFreq

/-- Ticks waited for by a sleep of microseconds; without delay there is no wait. -/
def sleepUs (pitFreq delay : ℕ) : Option ℕ :=
  if delay=0 then none
  else
    let minDelay := 1000*1000/pitFreq
    let delay := if delay < minDelay then minDelay else delay
    some (usTicks pitFreq delay)

/-- Ticks waited for by a sleep of milliseconds. -/
def sleepMs (pitFreq delay : ℕ) : Option ℕ :=
  if delay=0 then none
  else
    let delayTicks := wmul delay pitFreq/1000
    if delayTicks=1 then sleepUs pitFreq (wmul delay 1000) else some delayTicks

/-- Ticks waited for by a sleep of seconds. -/
def sleepSec (pitFreq delay : ℕ) : Option ℕ :=
  if delay=0 then none
  else
    let delayTicks := wmul delay pitFreq
    if delayTicks=1 then sleepMs pitFreq (wmul delay 1000) else some delayTicks

/-- Units of delays. -/
inductive SleepUnit
  /-- Microseconds. -/
  | us
  /-- Milliseconds. -/
  | ms
  /-- Seconds. -/
  | sec

/-- Units in a second. -/
def SleepUnit.perSec : SleepUnit → ℕ
  | .us => 1000000
  | .ms => 1000
  | .sec => 1

/-- The sleep in a unit. -/
def SleepUnit.sleep : SleepUnit → ℕ → ℕ → Option ℕ
  | .us => sleepUs
  | .ms => sleepMs
  | .sec => sleepSec

/-- The exact number of ticks of a delay fits in 32 bits. -/
def Fits (u : SleepUnit) (pitFreq delay : ℕ) : Prop := divUp (delay*pitFreq) u.perSec<2^32

/-- A sleep waits, and for no less than its delay, if that can be counted. -/
def Covers (u : SleepUnit) (pitFreq delay : ℕ) : Prop :=
  Fits u pitFreq delay →
    ∃ ticks,u.sleep pitFreq delay=some ticks ∧ delay*pitFreq≤ticks*u.perSec

/-- A number of microseconds is a whole number of ticks, and of the units that it
is counted in. -/
def WholeTicks (pitFreq delay : ℕ) : Prop :=
  if delay<1000 then 1000*1000∣delay*pitFreq
  else if delay<1000*1000 then 1000∣delay ∧ 1000*1000∣delay*pitFreq
  else 1000*1000∣delay

/-- A delay in microseconds is a whole number of ticks. A delay below a tick becomes
a tick, which is a whole number of milliseconds, or of microseconds if it is less. -/
def WholeUs (pitFreq delay : ℕ) : Prop :=
  if delay<1000*1000/pitFreq then
    if pitFreq≤1000 then pitFreq∣1000 else pitFreq∣1000*1000
  else WholeTicks pitFreq delay

/-- A delay in milliseconds is a whole number of ticks. Where the product wraps to
one tick, the delay is converted again, from microseconds. -/
def WholeMs (pitFreq delay : ℕ) : Prop :=
  if delay*pitFreq<2^32 then 1000∣delay*pitFreq
  else delay*pitFreq%2^32/1000=1 ∧ delay*1000<2^32 ∧ 1000∣delay

/-- A delay is a whole number of ticks. -/
def Whole : SleepUnit → ℕ → ℕ → Prop
  | .us => WholeUs
  | .ms => WholeMs
  | .sec => fun _ _ => True

/-! ## Rounding -/

/-- The exact number of ticks fits if the product is below the largest multiple. -/
theorem fits_iff (u : SleepUnit) (pitFreq delay : ℕ) :
    Fits u pitFreq delay ↔ delay*pitFreq≤(2^32-1)*u.perSec := by
  have hpos : 0<u.perSec := by cases u <;> decide
  rw [←divUp_le_iff hpos,Fits]
  omega

/-- Dividing before and after a multiplication never gains. -/
theorem div_mul_div_le (delay b freq c : ℕ) : delay/b*freq/c*(b*c)≤delay*freq :=
  calc delay/b*freq/c*(b*c)=delay/b*freq/c*c*b := by ring
    _≤delay/b*freq*b := Nat.mul_le_mul_right b (Nat.div_mul_le_self _ c)
    _=delay/b*b*freq := by ring
    _≤delay*freq := Nat.mul_le_mul_right freq (Nat.div_mul_le_self delay b)

/-- Nothing is lost if both divisions are exact. -/
theorem div_mul_div_eq_iff {delay b freq c : ℕ} (hb : 0<b) (hfreq : 0<freq) :
    delay/b*freq/c*(b*c)=delay*freq ↔ b∣delay ∧ b*c∣delay*freq := by
  constructor
  · intro heq
    refine ⟨?_,Dvd.intro_left _ heq⟩
    have hfirst : delay*freq≤delay/b*b*freq :=
      calc delay*freq=delay/b*freq/c*c*b := by rw [←heq]; ring
        _≤delay/b*freq*b := Nat.mul_le_mul_right b (Nat.div_mul_le_self _ c)
        _=delay/b*b*freq := by ring
    have hle := Nat.le_of_mul_le_mul_right hfirst hfreq
    exact Dvd.intro_left _ (Nat.le_antisymm (Nat.div_mul_le_self delay b) hle)
  · rintro ⟨⟨q,rfl⟩,hprod⟩
    have hc : c∣q*freq := by
      rw [Nat.mul_assoc] at hprod
      exact Nat.dvd_of_mul_dvd_mul_left hb hprod
    rw [Nat.mul_div_cancel_left q hb]
    calc q*freq/c*(b*c)=q*freq/c*c*b := by ring
      _=q*freq*b := by rw [Nat.div_mul_cancel hc]
      _=b*q*freq := by ring

/-! ## Microseconds -/

section

variable {pitFreq delay : ℕ}

/-- Conversion from microseconds never rounds up. -/
theorem usTicks_le (pitFreq delay : ℕ) : usTicks pitFreq delay*1000000≤delay*pitFreq := by
  unfold usTicks
  split
  · calc wmul delay pitFreq/(1000*1000)*1000000≤wmul delay pitFreq := Nat.div_mul_le_self _ _
      _≤delay*pitFreq := Nat.mod_le _ _
  · split
    · have hwrap : wmul (delay/1000) pitFreq≤delay/1000*pitFreq := Nat.mod_le _ _
      exact (Nat.mul_le_mul_right _ (Nat.div_le_div_right hwrap)).trans
        (div_mul_div_le delay 1000 pitFreq 1000)
    · have hwrap : wmul (delay/(1000*1000)) pitFreq≤delay/(1000*1000)*pitFreq := Nat.mod_le _ _
      have hle := div_mul_div_le delay (1000*1000) pitFreq 1
      rw [Nat.div_one] at hle
      exact (Nat.mul_le_mul_right _ hwrap).trans hle

/-- It loses nothing if the delay is a whole number of ticks. -/
theorem usTicks_eq_iff (hpos : 0<pitFreq) (hfreq : pitFreq≤XTAL_FREQ)
    (hfits : delay*pitFreq≤(2^32-1)*1000000) :
    usTicks pitFreq delay*1000000=delay*pitFreq ↔ WholeTicks pitFreq delay := by
  unfold usTicks WholeTicks
  split
  · rename_i hlt
    have hprod : delay*pitFreq≤999*1193182 := Nat.mul_le_mul (by omega) hfreq
    rw [wmul_eq (by omega)]
    exact (Nat.dvd_iff_div_mul_eq _ _).symm
  · split
    · rename_i hlt
      have hprod : delay/1000*pitFreq≤999*1193182 := Nat.mul_le_mul (by omega) hfreq
      rw [wmul_eq (by omega)]
      exact div_mul_div_eq_iff (by norm_num) hpos
    · have hle := div_mul_div_le delay (1000*1000) pitFreq 1
      have heq := @div_mul_div_eq_iff delay (1000*1000) pitFreq 1 (by norm_num) hpos
      rw [Nat.div_one,Nat.mul_one] at hle heq
      rw [wmul_eq (by omega)]
      exact heq.trans ⟨And.left,fun h => ⟨h,h.mul_right _⟩⟩

/-- A tick is a whole number of ticks if a second has a whole number of its
milliseconds, or microseconds. -/
theorem wholeTicks_tick (hpos : 0<pitFreq) :
    WholeTicks pitFreq (1000*1000/pitFreq) ∧ pitFreq∣1000*1000 ↔
      if pitFreq≤1000 then pitFreq∣1000 else pitFreq∣1000*1000 := by
  split
  · rename_i hle
    have hlo : ¬1000*1000/pitFreq<1000 := by
      rw [Nat.not_lt,Nat.le_div_iff_mul_le hpos]
      exact Nat.mul_le_mul_left 1000 hle
    constructor
    · rintro ⟨hwhole,hdvd⟩
      rw [WholeTicks,if_neg hlo] at hwhole
      have htick : 1000∣1000*1000/pitFreq := by
        split at hwhole
        · exact hwhole.1
        · exact (Dvd.intro 1000 rfl).trans hwhole
      obtain ⟨k,hk⟩ := htick
      have hprod : 1000*(k*pitFreq)=1000*1000 := by
        rw [←Nat.mul_assoc,←hk,Nat.div_mul_cancel hdvd]
      exact Dvd.intro_left k (Nat.eq_of_mul_eq_mul_left (by norm_num) hprod)
    · rintro ⟨k,hk⟩
      have htick : 1000*1000/pitFreq=1000*k := by
        refine Nat.div_eq_of_eq_mul_left hpos ?_
        calc 1000*1000=1000*(pitFreq*k) := by rw [←hk]
          _=1000*k*pitFreq := by ring
      have hdvd : pitFreq∣1000*1000 := Dvd.dvd.mul_right (Dvd.intro k hk.symm) 1000
      refine ⟨?_,hdvd⟩
      rw [WholeTicks,if_neg hlo,Nat.div_mul_cancel hdvd]
      split
      · exact ⟨Dvd.intro k htick.symm,dvd_rfl⟩
      · rename_i hhi
        have hone : pitFreq=1 := by
          have hmul : 1000*1000*pitFreq≤1000*1000*1 :=
            calc 1000*1000*pitFreq≤1000*1000/pitFreq*pitFreq :=
                  Nat.mul_le_mul_right _ (Nat.not_lt.mp hhi)
              _=1000*1000*1 := Nat.div_mul_cancel hdvd
          exact Nat.le_antisymm (Nat.le_of_mul_le_mul_left hmul (by norm_num)) hpos
        rw [hone,Nat.div_one]
  · rename_i hlt
    have hlo : 1000*1000/pitFreq<1000 := by
      rw [Nat.div_lt_iff_lt_mul hpos]
      exact Nat.mul_lt_mul_of_pos_left (Nat.not_le.mp hlt) (by norm_num)
    constructor
    · exact And.right
    · intro hdvd
      rw [WholeTicks,if_pos hlo,Nat.div_mul_cancel hdvd]
      exact ⟨dvd_rfl,hdvd⟩

/-- Ticks of a delay that is not zero. -/
theorem sleepUs_eq (hdelay : delay≠0) :
    sleepUs pitFreq delay=some (usTicks pitFreq
      (if delay<1000*1000/pitFreq then 1000*1000/pitFreq else delay)) := by
  rw [sleepUs,if_neg hdelay]

/-- A delay below a tick is covered if the tick is not lost. -/
theorem usTicks_tick_iff (hpos : 0<pitFreq) (hfreq : pitFreq≤XTAL_FREQ) (hdelay : 0<delay)
    (hlt : delay<1000*1000/pitFreq) :
    delay*pitFreq≤usTicks pitFreq (1000*1000/pitFreq)*1000000 ↔
      if pitFreq≤1000 then pitFreq∣1000 else pitFreq∣1000*1000 := by
  have hsec : 1000*1000/pitFreq*pitFreq≤1000*1000 := Nat.div_mul_le_self _ _
  have hfits : 1000*1000/pitFreq*pitFreq≤(2^32-1)*1000000 := hsec.trans (by norm_num)
  have hle := usTicks_le pitFreq (1000*1000/pitFreq)
  have hone : 0<delay*pitFreq := Nat.mul_pos hdelay hpos
  have hshort : delay*pitFreq≤1000*1000/pitFreq*pitFreq := Nat.mul_le_mul_right _ hlt.le
  rw [←wholeTicks_tick hpos,←usTicks_eq_iff hpos hfreq hfits]
  constructor
  · intro hcover
    have hticks : 1≤usTicks pitFreq (1000*1000/pitFreq) := by
      by_contra hzero
      rw [Nat.lt_one_iff.mp (Nat.not_le.mp hzero)] at hcover
      omega
    have hwhole : 1000*1000≤usTicks pitFreq (1000*1000/pitFreq)*1000000 :=
      calc 1000*1000=1*1000000 := by norm_num
        _≤_ := Nat.mul_le_mul_right 1000000 hticks
    have hsec' := Nat.le_antisymm hsec (hwhole.trans hle)
    exact ⟨Nat.le_antisymm hle (hsec.trans hwhole),Dvd.intro_left _ hsec'⟩
  · rintro ⟨heq,-⟩
    rw [heq]
    exact hshort

/-- A sleep of microseconds covers its delay if that is a whole number of ticks. -/
theorem sleepUs_iff (hpos : 0<pitFreq) (hfreq : pitFreq≤XTAL_FREQ) (hdelay : 0<delay)
    (hfits : delay*pitFreq≤(2^32-1)*1000000) :
    (∃ ticks,sleepUs pitFreq delay=some ticks ∧ delay*pitFreq≤ticks*1000000) ↔
      WholeUs pitFreq delay := by
  have hsome : (∃ ticks,sleepUs pitFreq delay=some ticks ∧ delay*pitFreq≤ticks*1000000) ↔
      delay*pitFreq≤usTicks pitFreq
        (if delay<1000*1000/pitFreq then 1000*1000/pitFreq else delay)*1000000 := by
    simp only [sleepUs_eq hdelay.ne',Option.some.injEq,exists_eq_left']
  rw [hsome,WholeUs]
  split
  · rename_i hlt
    exact usTicks_tick_iff hpos hfreq hdelay hlt
  · have hle := usTicks_le pitFreq delay
    rw [←usTicks_eq_iff hpos hfreq hfits]
    exact ⟨Nat.le_antisymm hle,Eq.ge⟩

/-! ## Milliseconds and seconds -/

/-- A delay of at least a tick, in milliseconds, is a whole number of ticks. -/
theorem wholeUs_ms (htick : 1000≤delay*pitFreq) :
    WholeUs pitFreq (delay*1000) ↔ if delay<1000 then 1000∣delay*pitFreq else 1000∣delay := by
  have hlong : ¬delay*1000<1000*1000/pitFreq := by
    rw [Nat.not_lt]
    refine Nat.div_le_of_le_mul ?_
    calc 1000*1000≤delay*pitFreq*1000 := Nat.mul_le_mul_right 1000 htick
      _=pitFreq*(delay*1000) := by ring
  have hprod : delay*1000*pitFreq=1000*(delay*pitFreq) := by ring
  have hdvd : 1000*1000∣delay*1000 ↔ 1000∣delay := by
    rw [Nat.mul_comm delay]
    exact Nat.mul_dvd_mul_iff_left (by norm_num)
  have hdvd' : 1000*1000∣delay*1000*pitFreq ↔ 1000∣delay*pitFreq := by
    rw [hprod]
    exact Nat.mul_dvd_mul_iff_left (by norm_num)
  have hlo : ¬delay*1000<1000 := by
    intro hlt
    have hzero : delay=0 := by omega
    rw [hzero,Nat.zero_mul] at htick
    omega
  have hhi : delay*1000<1000*1000 ↔ delay<1000 := by omega
  rw [WholeUs,if_neg hlong,WholeTicks,if_neg hlo,hdvd,hdvd']
  simp only [hhi,Dvd.intro_left delay rfl,true_and]

/-- Converting again from microseconds covers a delay of at least a tick if that is
a whole number of ticks. -/
theorem sleepUs_ms_iff (hpos : 0<pitFreq) (hfreq : pitFreq≤XTAL_FREQ) (hdelay : 0<delay)
    (htick : 1000≤delay*pitFreq) (hfits : delay*pitFreq≤(2^32-1)*1000) :
    (∃ ticks,sleepUs pitFreq (delay*1000)=some ticks ∧ delay*pitFreq≤ticks*1000) ↔
      if delay<1000 then 1000∣delay*pitFreq else 1000∣delay := by
  have hprod : delay*1000*pitFreq=delay*pitFreq*1000 := by ring
  have hmicro := @sleepUs_iff pitFreq (delay*1000) hpos hfreq (by omega) (by omega)
  have hscale : ∀ ticks,delay*pitFreq*1000≤ticks*1000000 ↔ delay*pitFreq≤ticks*1000 := by
    intro ticks
    calc delay*pitFreq*1000≤ticks*1000000 ↔ delay*pitFreq*1000≤ticks*1000*1000 := by
          rw [Nat.mul_assoc ticks]
      _ ↔ delay*pitFreq≤ticks*1000 := Nat.mul_le_mul_right_iff (by norm_num)
  rw [←wholeUs_ms htick,←hmicro,hprod]
  simp only [hscale]

/-- A delay that wraps as microseconds is not covered. -/
theorem not_covers_wrapped (hpos : 0<pitFreq) (hwrap : 2^32≤delay*1000) :
    ¬∃ ticks,sleepUs pitFreq (wmul delay 1000)=some ticks ∧ delay*pitFreq≤ticks*1000 := by
  rintro ⟨ticks,hsome,hcover⟩
  by_cases hzero : wmul delay 1000=0
  · rw [sleepUs,if_pos hzero] at hsome
    cases hsome
  · rw [sleepUs_eq hzero] at hsome
    obtain rfl := Option.some.inj hsome
    have hshort : (if wmul delay 1000<1000*1000/pitFreq then 1000*1000/pitFreq
        else wmul delay 1000)<delay*1000 := by
      split
      · exact ((Nat.div_le_self _ _).trans_lt (by norm_num)).trans_le hwrap
      · exact (Nat.mod_lt _ (by norm_num)).trans_le hwrap
    have hticks := usTicks_le pitFreq
      (if wmul delay 1000<1000*1000/pitFreq then 1000*1000/pitFreq else wmul delay 1000)
    have hless := Nat.mul_lt_mul_of_pos_right hshort hpos
    have hmore := Nat.mul_le_mul_right 1000 hcover
    rw [Nat.mul_right_comm] at hless
    rw [Nat.mul_assoc (usTicks _ _)] at hmore
    exact absurd (hmore.trans hticks) (Nat.not_le.mpr hless)

/-- A sleep of milliseconds covers its delay if that is a whole number of ticks. -/
theorem sleepMs_iff (hpos : 0<pitFreq) (hfreq : pitFreq≤XTAL_FREQ) (hdelay : 0<delay)
    (hfits : delay*pitFreq≤(2^32-1)*1000) :
    (∃ ticks,sleepMs pitFreq delay=some ticks ∧ delay*pitFreq≤ticks*1000) ↔
      WholeMs pitFreq delay := by
  have hprod : wmul delay pitFreq=delay*pitFreq%2^32 := rfl
  have hdelay' : delay≤delay*pitFreq := Nat.le_mul_of_pos_right delay hpos
  rw [sleepMs,if_neg hdelay.ne',WholeMs,hprod]
  by_cases hword : delay*pitFreq<2^32
  · rw [if_pos hword,Nat.mod_eq_of_lt hword]
    by_cases hone : delay*pitFreq/1000=1
    · have hsmall : wmul delay 1000=delay*1000 := wmul_eq (by omega)
      simp only [if_pos hone,hsmall]
      rw [sleepUs_ms_iff hpos hfreq hdelay (by omega) hfits]
      split
      · exact Iff.rfl
      · -- one tick a second
        have hfreq1 : pitFreq=1 := by
          by_contra hne
          have htwo : delay*2≤delay*pitFreq := Nat.mul_le_mul_left delay (by omega)
          omega
        rw [hfreq1,Nat.mul_one]
    · simp only [if_neg hone,Option.some.injEq,exists_eq_left']
      rw [Nat.dvd_iff_div_mul_eq]
      exact ⟨Nat.le_antisymm (Nat.div_mul_le_self _ _),Eq.ge⟩
  · rw [if_neg hword]
    by_cases hone : delay*pitFreq%2^32/1000=1
    · simp only [if_pos hone]
      by_cases hmicro : delay*1000<2^32
      · have hlong : ¬delay<1000 := by
          intro hlt
          have hle : delay*pitFreq≤999*1193182 := Nat.mul_le_mul (by omega) hfreq
          omega
        rw [wmul_eq hmicro,sleepUs_ms_iff hpos hfreq hdelay (by omega) hfits,if_neg hlong]
        exact ⟨fun h => ⟨hone,hmicro,h⟩,fun h => h.2.2⟩
      · refine ⟨fun h => absurd h (not_covers_wrapped hpos (Nat.not_lt.mp hmicro)),?_⟩
        exact fun h => absurd h.2.1 hmicro
    · simp only [if_neg hone,Option.some.injEq,exists_eq_left']
      refine ⟨fun h => ?_,fun h => absurd h.1 hone⟩
      have hlt : delay*pitFreq%2^32<2^32 := Nat.mod_lt _ (by norm_num)
      have hback : delay*pitFreq%2^32/1000*1000≤delay*pitFreq%2^32 := Nat.div_mul_le_self _ _
      omega

/-- A sleep of seconds covers its delay. -/
theorem sleepSec_covers (hpos : 0<pitFreq) (hdelay : 0<delay)
    (hfits : delay*pitFreq<2^32) :
    ∃ ticks,sleepSec pitFreq delay=some ticks ∧ delay*pitFreq≤ticks := by
  have hprod : wmul delay pitFreq=delay*pitFreq := wmul_eq hfits
  rw [sleepSec,if_neg hdelay.ne',hprod]
  by_cases hone : delay*pitFreq=1
  · -- one second at one tick a second, through the smaller units
    obtain rfl := Nat.eq_one_of_mul_eq_one_right hone
    obtain rfl := Nat.eq_one_of_mul_eq_one_left hone
    exact ⟨1,by decide,by decide⟩
  · exact ⟨_,if_neg hone,le_rfl⟩

/-- Setting up the timer puts an accepted frequency in force. -/
theorem pitInit_accepts (freq : ℕ) (pitFreq : Freq) :
    (pitInit freq pitFreq).map Freq.val=
      if freq≤XTAL_FREQ then some (if 0<freq then freq else pitFreq.val) else none := by
  unfold pitInit
  split
  · rw [Option.map_some]
    congr 1
    split <;> rfl
  · rfl

end

/-- A sleep covers its delay if and only if the delay is a whole number of ticks, as
far as the conversion in its unit can tell. -/
theorem covers_iff_whole (u : SleepUnit) (pitFreq : Freq) (delay : ℕ) (h0 : 0<delay) :
    Covers u pitFreq.val delay ↔ (Fits u pitFreq.val delay → Whole u pitFreq.val delay) := by
  rw [Covers,fits_iff]
  refine imp_congr_right fun hfits => ?_
  cases u with
  | us => exact sleepUs_iff pitFreq.pos pitFreq.le h0 hfits
  | ms => exact sleepMs_iff pitFreq.pos pitFreq.le h0 hfits
  | sec =>
    have hprod : delay*pitFreq.val<2^32 := by
      rw [SleepUnit.perSec,Nat.mul_one] at hfits
      omega
    have hcover : ∃ ticks,SleepUnit.sec.sleep pitFreq.val delay=some ticks ∧
        delay*pitFreq.val≤ticks*SleepUnit.sec.perSec := by
      have hsec := sleepSec_covers pitFreq.pos h0 hprod
      simpa only [SleepUnit.sleep,SleepUnit.perSec,Nat.mul_one] using hsec
    exact ⟨fun _ => trivial,fun _ => hcover⟩

/-- A millisecond at the frequency in force at first. -/
theorem covers_iff_whole_ms :
    Covers .ms 1000 1 ↔ (Fits .ms 1000 1 → Whole .ms 1000 1) :=
  covers_iff_whole .ms ⟨1000,by decide,by decide⟩ 1 (by decide)

/-- At a million ticks a second, the product for 4295 milliseconds wraps to 32 ticks. -/
theorem not_covers_overflow : ¬Covers .ms 1000000 4295 := by
  intro h
  obtain ⟨ticks,hsome,hcover⟩ := h ((fits_iff .ms 1000000 4295).mpr (by decide))
  obtain rfl : 32=ticks := Option.some.inj hsome
  exact absurd hcover (by decide)

end XanaduOS.SleepLengths

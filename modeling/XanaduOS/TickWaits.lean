import XanaduOS.Word32

/-!
# Waiting for ticks

The timer interrupt may run between any two reads of its counter. A wait first
asks whether the counter is already past its end, which is how it recognizes
that the sum of start and delay wrapped around, and then reads the counter
until it reaches the end. An interrupt that comes before that question, or
between two of the reads behind it, can carry the counter past an end that is
never seen again, so a wait keeps its time only where none comes then.
-/

namespace XanaduOS.TickWaits

open Word32

/-- The handler of the timer interrupt: `tick += tick_inc_factor`. -/
def pitHandler (tick : ℕ) : ℕ := wadd tick 1

/-- What each read of `tick` finds, where the handler runs at most once between
two of them. -/
def tickAt (start : ℕ) (adv : ℕ → Bool) : ℕ → ℕ
  | 0 => start
  | k+1 => if adv k then pitHandler (tickAt start adv k) else tickAt start adv k

/-- Runs of the handler before a read. -/
def advances (adv : ℕ → Bool) : ℕ → ℕ
  | 0 => 0
  | k+1 => advances adv k+(adv k).toNat

/-- A loop that halts while the counter is within bounds, from a read on: the
read that ends it. -/
def haltWhile (within : ℕ → Bool) (tick : ℕ → ℕ) : ℕ → ℕ → Option ℕ
  | 0,_ => none
  | fuel+1,k => if within (tick k) then haltWhile within tick fuel (k+1) else some k

/-- The local variables of a wait and the next read it makes. -/
structure Wait where
  /-- Tick that the wait counts from. -/
  initTick : ℕ
  /-- Ticks to wait for. -/
  delay : ℕ
  /-- Index of the next read. -/
  read : ℕ

/-- The first half of `wait_ticks`: where the end seems to lie behind a
wrap-around, the counter is read until it falls below its start. -/
def waitWrap (tick : ℕ → ℕ) (delay fuel : ℕ) : Option Wait :=
  if wadd (tick 0) delay<tick 1 then do
    let k ← haltWhile (fun t => decide (tick 0≤t)) tick fuel 2
    some ⟨tick (k+1),wsub delay (wsub (2^32-1) (tick 0)),k+2⟩
  else some ⟨tick 0,delay,2⟩

/-- `wait_ticks`: the index of the last read, which ends the wait. -/
def waitTicks (tick : ℕ → ℕ) (delay fuel : ℕ) : Option ℕ := do
  let w ← waitWrap tick delay fuel
  haltWhile (fun t => decide (t<wadd w.initTick w.delay)) tick fuel w.read

/-- No interrupt comes where it would carry the counter past the end of a wait. -/
structure Undisturbed (start delay : ℕ) (adv : ℕ → Bool) : Prop where
  /-- A wait for nothing asks before the next tick. -/
  asked : delay=0 → adv 0=false
  /-- A wait for nothing from the last tick also ends before the next one. -/
  ended : delay=0 → start=2^32-1 → adv 1=false
  /-- A wait for the last tick reads it. -/
  reached : delay=1 → start=2^32-2 → ¬(adv 0=true ∧ adv 1=true)
  /-- The longest wait from the last tick sees the counter fall and reads it
  again before the next tick. -/
  resumed : delay=2^32-1 → start=2^32-1 → ∀ m,1 ≤ m → (∀ j < m,adv j=false) → adv m=true →
    adv (m+1)=false

/-- A loop read the counter from one read to another, which ended it. -/
structure Ended (within : ℕ → Bool) (tick : ℕ → ℕ) (k n : ℕ) : Prop where
  /-- The reads are in order. -/
  le : k≤n
  /-- The last one is not within bounds. -/
  last : within (tick n)=false
  /-- Those before are. -/
  before : ∀ j,k≤j → j<n → within (tick j)=true

variable {start delay fuel k n : ℕ} {adv : ℕ → Bool} {within : ℕ → Bool} {tick : ℕ → ℕ}

/-! ## The counter -/

/-- The counter is a word. -/
theorem tickAt_eq (hs : start<2^32) : ∀ k,tickAt start adv k=(start+advances adv k)%2^32
  | 0 => (Nat.mod_eq_of_lt hs).symm
  | k+1 => by
    rw [tickAt,advances,tickAt_eq hs k]
    cases adv k with
    | false => rfl
    | true =>
      rw [if_pos rfl,pitHandler,wadd,Bool.toNat_true]
      omega

/-- One interval, one tick at most. -/
theorem advances_succ (adv : ℕ → Bool) (k : ℕ) :
    advances adv k≤advances adv (k+1) ∧ advances adv (k+1)≤advances adv k+1 := by
  have hone := Bool.toNat_le (adv k)
  rw [advances]
  omega

/-- Ticks before the second read. -/
theorem advances_one : advances adv 1=(adv 0).toNat := Nat.zero_add _

/-- Ticks before the third one. -/
theorem advances_two (adv : ℕ → Bool) : advances adv 2=(adv 0).toNat+(adv 1).toNat := by
  rw [advances,advances_one]

/-- No tick at all before a read. -/
theorem advances_eq_zero : ∀ {k : ℕ},advances adv k=0 ↔ ∀ j<k,adv j=false
  | 0 => ⟨fun _ _ hj => absurd hj (Nat.not_lt_zero _),fun _ => rfl⟩
  | k+1 => by
    rw [advances,Nat.add_eq_zero_iff,advances_eq_zero,Bool.toNat_eq_zero]
    refine ⟨fun ⟨hbefore,hk⟩ j hj => ?_,
      fun h => ⟨fun j hj => h j (by omega),h k (Nat.lt_succ_self k)⟩⟩
    rcases Nat.lt_succ_iff_lt_or_eq.mp hj with hlt|rfl
    · exact hbefore j hlt
    · exact hk

/-! ## Loops -/

/-- A loop that ends has read the counter up to its end. -/
theorem haltWhile_some : ∀ {fuel k : ℕ},haltWhile within tick fuel k=some n → Ended within tick k n
  | 0,_,h => nomatch h
  | fuel+1,k,h => by
    rw [haltWhile] at h
    split at h
    · rename_i hk
      have ih := haltWhile_some h
      refine ⟨(Nat.le_succ k).trans ih.le,ih.last,fun j hkj hjn => ?_⟩
      rcases hkj.eq_or_lt with rfl|hlt
      · exact hk
      · exact ih.before j hlt hjn
    · rename_i hk
      cases h
      exact ⟨le_rfl,Bool.eq_false_iff.mpr hk,fun j hkj hjn => absurd hkj (Nat.not_le.mpr hjn)⟩

/-- What a read within bounds hands on to the next one holds at the end. -/
theorem Ended.invariant (h : Ended within tick k n) {P : ℕ → Prop} (h0 : P k)
    (hstep : ∀ j,within (tick j)=true → P j → P (j+1)) : P n := by
  have hupto : ∀ i,k+i≤n → P (k+i) := by
    intro i
    induction i with
    | zero => exact fun _ => h0
    | succ i ih =>
      intro hi
      exact hstep (k+i) (h.before _ (Nat.le_add_right k i) (by omega)) (ih (by omega))
  have hn := hupto (n-k) (by have := h.le; omega)
  rwa [Nat.add_sub_cancel' h.le] at hn

/-- A loop from below its end within one turn of the counter ends at it. -/
theorem Ended.climb {stop : ℕ} (turn : ℕ) (hs : start<2^32) (hstop : stop<2^32)
    (h : Ended (fun t => decide (t<stop)) (tickAt start adv) k n)
    (hturn : turn*2^32 ≤ start+advances adv k) (hbelow : start+advances adv k≤turn*2^32+stop) :
    start+advances adv n=turn*2^32+stop := by
  have hinv := h.invariant (P:=fun j => turn*2^32 ≤ start+advances adv j ∧
    start+advances adv j≤turn*2^32+stop) ⟨hturn,hbelow⟩ ?_
  · have hlast := h.last
    simp only [tickAt_eq hs,decide_eq_false_iff_not] at hlast
    omega
  · intro j hj hP
    have hnext := advances_succ adv j
    simp only [tickAt_eq hs,decide_eq_true_eq] at hj
    omega

/-- A loop that waits for the counter to fall ends where it turns. -/
theorem Ended.fall (hs : start<2^32) (hk : start+advances adv k≤2^32)
    (h : Ended (fun t => decide (start≤t)) (tickAt start adv) k n) :
    start+advances adv n=2^32 := by
  have hlast := h.last
  simp only [tickAt_eq hs,decide_eq_false_iff_not] at hlast
  have hinv := h.invariant (P:=fun j => start+advances adv j≤2^32) hk ?_
  · omega
  · intro j hj hP
    have hnext := advances_succ adv j
    simp only [tickAt_eq hs,decide_eq_true_eq] at hj
    omega

/-- A loop whose first read is out of bounds makes no other. -/
theorem Ended.eq (h : Ended within tick k n) (hk : within (tick k)=false) : n=k := by
  rcases h.le.eq_or_lt with heq|hlt
  · exact heq.symm
  · exact absurd (h.before k le_rfl hlt) (by rw [hk]; decide)

/-- A loop that starts past its end within one turn of the counter ends there. -/
theorem Ended.past {stop : ℕ} (turn : ℕ) (hs : start<2^32)
    (h : Ended (fun t => decide (t<stop)) (tickAt start adv) k n)
    (hturn : start+advances adv k<turn*2^32+2^32)
    (hpast : turn*2^32+stop ≤ start+advances adv k) :
    n=k := by
  refine h.eq ?_
  rw [tickAt_eq hs,decide_eq_false_iff_not]
  omega

/-! ## Waits -/

/-- A wait is its first half and one more loop. -/
theorem waitTicks_some (h : waitTicks tick delay fuel=some n) :
    ∃ w,waitWrap tick delay fuel=some w ∧
      Ended (fun t => decide (t<wadd w.initTick w.delay)) tick w.read n := by
  obtain ⟨w,hw,hloop⟩ := Option.bind_eq_some_iff.mp h
  exact ⟨w,hw,haltWhile_some hloop⟩

/-- An end that is not behind the counter is waited for. -/
theorem waitWrap_straight {w : Wait} (hno : ¬wadd (tick 0) delay<tick 1)
    (h : waitWrap tick delay fuel=some w) : w=⟨tick 0,delay,2⟩ := by
  rw [waitWrap,if_neg hno] at h
  exact (Option.some.inj h).symm

/-- An end behind the counter is waited for when the counter has fallen. -/
theorem waitWrap_fallen {w : Wait} (hover : wadd (tick 0) delay<tick 1)
    (h : waitWrap tick delay fuel=some w) : ∃ m,Ended (fun t => decide (tick 0≤t)) tick 2 m ∧
      w=⟨tick (m+1),wsub delay (wsub (2^32-1) (tick 0)),m+2⟩ := by
  rw [waitWrap,if_pos hover] at h
  obtain ⟨m,hm,hw⟩ := Option.bind_eq_some_iff.mp h
  exact ⟨m,haltWhile_some hm,(Option.some.inj hw).symm⟩

/-- A wait for nothing that sees no wrap-around: one turn too long where a tick
came before a read that should have ended it. -/
theorem straight_zero (hs : start<2^32) (hno : ¬wadd start 0<tickAt start adv 1)
    (h : Ended (fun t => decide (t<wadd start 0)) (tickAt start adv) 2 n) :
    (advances adv n≤2) ↔ Undisturbed start 0 adv := by
  have hend : wadd start 0=start := Nat.mod_eq_of_lt hs
  rw [hend] at hno h
  rw [tickAt_eq hs] at hno
  have h0 := Bool.toNat_le (adv 0)
  have h1 := Bool.toNat_le (adv 1)
  rw [advances_one] at hno
  by_cases hturned : 2^32 ≤ start+advances adv 2
  · have htotal := h.climb 1 hs hs (by omega) (by rw [advances_two]; omega)
    rw [advances_two] at hturned
    refine ⟨fun hle => by omega,fun hu => ?_⟩
    have hasked := Bool.toNat_eq_zero.mpr (hu.asked rfl)
    have hended := Bool.toNat_eq_zero.mpr (hu.ended rfl (by omega))
    omega
  · obtain rfl := h.past 0 hs (by omega) (by omega)
    rw [advances_two] at hturned ⊢
    exact ⟨fun _ => ⟨fun _ => Bool.toNat_eq_zero.mp (by omega),
      fun _ hlast => Bool.toNat_eq_zero.mp (by omega),by omega,by omega⟩,fun _ => by omega⟩

/-- A wait whose end lies before a wrap-around. -/
theorem straight_short (hs : start<2^32) (hpos : 0<delay) (hshort : start+delay<2^32)
    (h : Ended (fun t => decide (t<wadd start delay)) (tickAt start adv) 2 n) :
    (delay≤advances adv n ∧ advances adv n≤delay+2) ↔ Undisturbed start delay adv := by
  rw [wadd_eq hshort] at h
  have h0 := Bool.toNat_le (adv 0)
  have h1 := Bool.toNat_le (adv 1)
  have htwo := advances_two adv
  by_cases hreach : advances adv 2≤delay
  · have htotal := h.climb 0 hs hshort (by simp) (by omega)
    refine ⟨fun _ => ⟨by omega,by omega,fun hd _ ⟨ht0,ht1⟩ => ?_,
      fun _ _ => by omega⟩,fun _ => by omega⟩
    rw [ht0,ht1,Bool.toNat_true] at htwo
    omega
  · -- two ticks came before the first comparison with an end one tick away
    by_cases hturned : 2^32 ≤ start+advances adv 2
    · have htotal := h.climb 1 hs hshort (by omega) (by omega)
      refine ⟨fun hle => by omega,fun hu => absurd ⟨?_,?_⟩ (hu.reached (by omega) (by omega))⟩
      · exact Bool.toNat_eq_one.mp (by omega)
      · exact Bool.toNat_eq_one.mp (by omega)
    · obtain rfl := h.past 0 hs (by omega) (by omega)
      exact ⟨fun _ => ⟨by omega,by omega,by omega,fun _ _ => by omega⟩,
        fun _ => by omega⟩

/-- The end of a wait that lies behind a wrap-around. -/
theorem end_turned (hs : start<2^32) (hd : delay<2^32) (hturn : 2^32 ≤ start+delay) :
    wadd start delay=start+delay-2^32 := by
  rw [wadd]
  omega

/-- A wait whose start wrapped around before it was compared. -/
theorem straight_turned (hs : start<2^32) (hd : delay<2^32) (hpos : 0<delay)
    (hturn : 2^32 ≤ start+delay) (hno : ¬wadd start delay<tickAt start adv 1)
    (h : Ended (fun t => decide (t<wadd start delay)) (tickAt start adv) 2 n) :
    (delay≤advances adv n ∧ advances adv n≤delay+2) ↔ Undisturbed start delay adv := by
  have hend := end_turned hs hd hturn
  have h0 := Bool.toNat_le (adv 0)
  have h1 := Bool.toNat_le (adv 1)
  have htwo := advances_two adv
  rw [hend,tickAt_eq hs,advances_one] at hno
  rw [hend] at h
  have hlast : start=2^32-1 ∧ (adv 0).toNat=1 := by omega
  have hu : Undisturbed start delay adv := by
    refine ⟨by omega,by omega,by omega,fun _ _ m hm hbefore _ => ?_⟩
    rw [hbefore 0 hm] at hlast
    exact absurd hlast.2 (by decide)
  refine ⟨fun _ => hu,fun _ => ?_⟩
  by_cases hreach : advances adv 2≤delay
  · have htotal := h.climb 1 hs (by omega) (by omega) (by omega)
    omega
  · obtain rfl := h.past 1 hs (by omega) (by omega)
    omega

/-- What is left of a delay when the counter has fallen. -/
theorem delay_left (hs : start<2^32) :
    wsub delay (wsub (2^32-1) start)=(delay+start+1)%2^32 := by
  have hleft : wsub (2^32-1) start=2^32-1-start := wsub_eq (by omega) (by decide)
  rw [hleft,wsub]
  omega

/-- A wait for nothing that takes the tick behind its start for a wrap-around
lasts for a turn more, or for a tick more from the last tick but one. -/
theorem fallen_zero {m : ℕ} (hs : start<2^32) (hover : wadd start 0<tickAt start adv 1)
    (hfall : Ended (fun t => decide (start≤t)) (tickAt start adv) 2 m)
    (h : Ended (fun t => decide (t<wadd (tickAt start adv (m+1)) (wsub 0 (wsub (2^32-1) start))))
      (tickAt start adv) (m+2) n) : adv 0=true ∧ 2<advances adv n := by
  have hend : wadd start 0=start := Nat.mod_eq_of_lt hs
  have h0 := Bool.toNat_le (adv 0)
  have h1 := Bool.toNat_le (adv 1)
  have htwo := advances_two adv
  rw [hend,tickAt_eq hs,advances_one] at hover
  have hfirst : (adv 0).toNat=1 ∧ start<2^32-1 := by omega
  refine ⟨Bool.toNat_eq_one.mp hfirst.1,?_⟩
  have hm := hfall.fall hs (by omega)
  have hm1 := advances_succ adv m
  have hm2 : advances adv (m+1)≤advances adv (m+2) ∧ advances adv (m+2)≤advances adv (m+1)+1 :=
    advances_succ adv (m+1)
  rw [delay_left hs,tickAt_eq hs] at h
  have hstop : wadd ((start+advances adv (m+1))%2^32) ((0+start+1)%2^32)=
      (advances adv (m+1)-advances adv m+start+1)%2^32 := by
    rw [wadd]
    omega
  rw [hstop] at h
  by_cases hfits : advances adv (m+1)-advances adv m+start+1<2^32
  · rw [Nat.mod_eq_of_lt hfits] at h
    have htotal := h.climb 1 hs hfits (by omega) (by omega)
    omega
  · have hmod : (advances adv (m+1)-advances adv m+start+1)%2^32=0 := by omega
    rw [hmod] at h
    obtain rfl := h.past 1 hs (by omega) (by omega)
    omega

/-- From the last tick the counter falls with the first tick that comes. -/
theorem fall_first {m : ℕ} (hs : start=2^32-1) (h0 : adv 0=false)
    (h : Ended (fun t => decide (start≤t)) (tickAt start adv) 2 m) :
    ∃ i,m=i+1 ∧ 1 ≤ i ∧ (∀ j < i,adv j=false) ∧ adv i=true := by
  have hword : start<2^32 := by omega
  have hone : advances adv 1=0 := by rw [advances_one,h0,Bool.toNat_false]
  have htwo : advances adv 2≤advances adv 1+1 := (advances_succ adv 1).2
  have hm := h.fall hword (by omega)
  obtain ⟨i,rfl⟩ := Nat.exists_eq_add_of_le' (Nat.one_le_of_lt h.le)
  have hi : 1 ≤ i := Nat.le_of_succ_le_succ h.le
  have hnone : advances adv i=0 := by
    rcases hi.eq_or_lt with rfl|hlt
    · exact hone
    · have hbefore := h.before i hlt (Nat.lt_succ_self i)
      simp only [tickAt_eq hword,decide_eq_true_eq] at hbefore
      have hnext := advances_succ adv i
      omega
  refine ⟨i,rfl,hi,advances_eq_zero.mp hnone,Bool.toNat_eq_one.mp ?_⟩
  rw [advances,hnone] at hm
  omega

/-- A wait whose end lies behind a wrap-around lasts for the tick that the fall
takes and the one between the two reads behind it more, unless its end wraps
around once more. -/
theorem fallen_turned {m : ℕ} (hs : start<2^32) (hd : delay<2^32) (hturn : 2^32 ≤ start+delay)
    (hover : wadd start delay<tickAt start adv 1)
    (hfall : Ended (fun t => decide (start≤t)) (tickAt start adv) 2 m)
    (h : Ended (fun t => decide (t<wadd (tickAt start adv (m+1))
      (wsub delay (wsub (2^32-1) start)))) (tickAt start adv) (m+2) n) :
    (delay≤advances adv n ∧ advances adv n≤delay+2) ↔ Undisturbed start delay adv := by
  have hend := end_turned hs hd hturn
  have h0 := Bool.toNat_le (adv 0)
  have h1 := Bool.toNat_le (adv 1)
  have htwo := advances_two adv
  rw [hend,tickAt_eq hs,advances_one] at hover
  have hfirst : start+(adv 0).toNat<2^32 := by omega
  have hm := hfall.fall hs (by omega)
  have hm1 : advances adv (m+1)=advances adv m+(adv m).toNat := rfl
  have hm2 : advances adv (m+1)≤advances adv (m+2) ∧ advances adv (m+2)≤advances adv (m+1)+1 :=
    advances_succ adv (m+1)
  have hone := Bool.toNat_le (adv m)
  have hinit : (start+advances adv (m+1))%2^32=(adv m).toNat := by omega
  have hdelay : (delay+start+1)%2^32=delay+start+1-2^32 := by omega
  rw [delay_left hs,tickAt_eq hs,hinit,hdelay] at h
  by_cases hfits : (adv m).toNat+(delay+start+1-2^32)<2^32
  · rw [wadd_eq hfits] at h
    have htotal := h.climb 1 hs hfits (by omega) (by omega)
    refine ⟨fun _ => ⟨by omega,by omega,by omega,fun hlong hlast i hi hbefore hadv => ?_⟩,
      fun _ => by omega⟩
    obtain ⟨k,rfl,-,hnone,hsome⟩ := fall_first hlast (hbefore 0 hi) hfall
    have hki : k=i := by
      rcases Nat.lt_trichotomy k i with hlt|heq|hlt
      · exact absurd hsome (by rw [hbefore k hlt]; decide)
      · exact heq
      · exact absurd hadv (by rw [hnone i hlt]; decide)
    rw [←hki]
    exact Bool.toNat_eq_zero.mp (by omega)
  · have hstop : wadd (adv m).toNat (delay+start+1-2^32)=0 := by
      rw [wadd]
      omega
    rw [hstop] at h
    obtain rfl := h.past 1 hs (by omega) (by omega)
    refine ⟨fun hle => by omega,fun hu => ?_⟩
    have hlast : start=2^32-1 := by omega
    obtain ⟨k,rfl,hk,hnone,hsome⟩ := fall_first hlast (Bool.toNat_eq_zero.mp (by omega)) hfall
    have hquiet := Bool.toNat_eq_zero.mpr (hu.resumed (by omega) hlast k hk hnone hsome)
    omega

/-! ## The wait as a whole -/

/-- A wait that returns has lasted for its delay, and for two ticks more at most,
exactly where no interrupt carried the counter past its end. -/
theorem waitTicks_timely (hs : start<2^32) (hd : delay<2^32)
    (h : waitTicks (tickAt start adv) delay fuel=some n) :
    (delay≤advances adv n ∧ advances adv n≤delay+2) ↔ Undisturbed start delay adv := by
  obtain ⟨w,hw,hend⟩ := waitTicks_some h
  by_cases hover : wadd start delay<tickAt start adv 1
  · obtain ⟨m,hfall,rfl⟩ := waitWrap_fallen hover hw
    by_cases hturn : 2^32 ≤ start+delay
    · exact fallen_turned hs hd hturn hover hfall hend
    · -- an end that does not wrap around is behind the counter only without a delay
      have hzero : delay=0 := by
        rw [wadd_eq (by omega),tickAt_eq hs,advances_one] at hover
        have h0 := Bool.toNat_le (adv 0)
        omega
      subst hzero
      obtain ⟨hadv,htotal⟩ := fallen_zero hs hover hfall hend
      refine ⟨fun hle => by omega,fun hu => ?_⟩
      exact absurd (hu.asked rfl) (by rw [hadv]; decide)
  · obtain rfl := waitWrap_straight hover hw
    rcases Nat.eq_zero_or_pos delay with rfl|hpos
    · rw [←straight_zero hs hover hend]
      exact ⟨fun hle => hle.2,fun hle => ⟨Nat.zero_le _,hle⟩⟩
    · rcases Nat.lt_or_ge (start+delay) (2^32) with hshort|hturn
      · exact straight_short hs hpos hshort hend
      · exact straight_turned hs hd hpos hturn hover hend

/-- A wait for three ticks from the last one takes two more. -/
theorem waitTicks_sample : waitTicks (tickAt (2^32-1) fun k => decide (k ≠ 0)) 3 8=some 6 ∧
    Undisturbed (2^32-1) 3 fun k => decide (k ≠ 0) := by
  have hrun : waitTicks (tickAt (2^32-1) fun k => decide (k ≠ 0)) 3 8=some 6 := by decide +kernel
  exact ⟨hrun,(waitTicks_timely (by decide) (by decide) hrun).mp (by decide)⟩

/-- The longest wait from the last tick returns after two ticks where one comes
in each of the two intervals that follow the question. -/
theorem waitTicks_early : ¬∀ start delay fuel n adv,start<2^32 → delay<2^32 →
    waitTicks (tickAt start adv) delay fuel=some n →
    delay≤advances adv n ∧ advances adv n≤delay+2 := by
  intro h
  have hrun : waitTicks (tickAt (2^32-1) fun k => decide (k=1 ∨ k=2)) (2^32-1) 8=some 4 := by
    decide +kernel
  have htotal : advances (fun k => decide (k=1 ∨ k=2)) 4=2 := by decide
  have hlong := (h _ _ _ _ _ (by decide) (by decide) hrun).1
  rw [htotal] at hlong
  exact absurd hlong (by decide)

/-! ## Returning -/

/-- A loop returns where some read lies out of bounds, with any fuel that
reaches there. -/
theorem haltWhile_returns (within : ℕ → Bool) (tick : ℕ → ℕ) : ∀ {i k : ℕ},
    within (tick (k+i))=false → ∃ n,∀ fuel,i<fuel → haltWhile within tick fuel k=some n
  | i,k,h => by
    induction i generalizing k with
    | zero =>
      refine ⟨k,fun fuel hfuel => ?_⟩
      obtain ⟨f,rfl⟩ := Nat.exists_eq_add_of_le' hfuel
      exact if_neg (Bool.eq_false_iff.mp h)
    | succ i ih =>
      obtain ⟨n,hn⟩ := ih (k:=k+1) (by rwa [Nat.add_right_comm])
      by_cases hk : within (tick k)=true
      · refine ⟨n,fun fuel hfuel => ?_⟩
        obtain ⟨f,rfl⟩ := Nat.exists_eq_add_of_le' (Nat.one_le_of_lt hfuel)
        rw [haltWhile,if_pos hk]
        exact hn f (by omega)
      · refine ⟨k,fun fuel hfuel => ?_⟩
        obtain ⟨f,rfl⟩ := Nat.exists_eq_add_of_le' (Nat.one_le_of_lt hfuel)
        rw [haltWhile,if_neg hk]

/-- Where ticks keep coming, every word is read again and again. -/
theorem tickAt_recurs (hs : start<2^32) (hadv : ∀ total,∃ k,total≤advances adv k) {word : ℕ}
    (hword : word<2^32) (k : ℕ) : ∃ i,tickAt start adv (k+i)=word := by
  obtain ⟨total,hmod,hlater⟩ : ∃ total,(start+total)%2^32=word ∧ advances adv k<total :=
    ⟨2^32*(advances adv k+1)+word-start+2^32,by omega,by omega⟩
  have hmono : Monotone (advances adv) := monotone_nat_of_le_succ fun j => (advances_succ adv j).1
  have hfind : ∃ i,total≤advances adv (k+i) := by
    obtain ⟨j,hj⟩ := hadv total
    exact ⟨j,hj.trans (hmono (Nat.le_add_left j k))⟩
  refine ⟨Nat.find hfind,?_⟩
  have hreached := Nat.find_spec hfind
  rcases hi : Nat.find hfind with _|i
  · rw [hi] at hreached
    exact absurd hreached (by rw [Nat.add_zero]; omega)
  · -- the read before has not got there yet
    have hbefore := Nat.find_min hfind (by omega : i<Nat.find hfind)
    have hnext : advances adv (k+(i+1))≤advances adv (k+i)+1 := (advances_succ adv (k+i)).2
    rw [hi] at hreached
    have htotal : advances adv (k+(i+1))=total := by omega
    rw [tickAt_eq hs,htotal,hmod]

/-- From zero, only a wait for nothing finds the counter past its end. -/
theorem past_zero (hd : delay<2^32) :
    wadd 0 delay<tickAt 0 adv 1 ↔ delay=0 ∧ adv 0=true := by
  have h0 := Bool.toNat_le (adv 0)
  rw [tickAt_eq (by decide),advances_one,wadd,←Bool.toNat_eq_one]
  omega

/-- Where ticks keep coming a wait returns, but for a wait for nothing that
starts at zero and asks behind a tick: the counter never falls below zero. -/
theorem waitTicks_returns (hs : start<2^32) (hd : delay<2^32)
    (hadv : ∀ total,∃ k,total≤advances adv k) :
    (∃ fuel n,waitTicks (tickAt start adv) delay fuel=some n) ↔
      ¬(start=0 ∧ delay=0 ∧ adv 0=true) := by
  constructor
  · rintro ⟨fuel,n,h⟩ ⟨rfl,hasked⟩
    obtain ⟨w,hw,-⟩ := waitTicks_some h
    obtain ⟨m,hfall,-⟩ := waitWrap_fallen ((past_zero hd).mpr hasked) hw
    exact absurd hfall.last (by simp [tickAt])
  · intro hfalls
    have hloop : ∀ stop k,stop<2^32 → ∃ n bound,∀ fuel,bound<fuel →
        haltWhile (fun t => decide (t<stop)) (tickAt start adv) fuel k=some n := by
      intro stop k hstop
      obtain ⟨i,hi⟩ := tickAt_recurs hs hadv hstop k
      obtain ⟨n,hn⟩ := haltWhile_returns (fun t => decide (t<stop)) (tickAt start adv)
        (by rw [hi]; exact decide_eq_false (lt_irrefl stop))
      exact ⟨n,i,hn⟩
    by_cases hover : wadd start delay<tickAt start adv 1
    · have hpos : 0<start := by
        rcases Nat.eq_zero_or_pos start with rfl|hpos
        · exact absurd ⟨rfl,(past_zero hd).mp hover⟩ hfalls
        · exact hpos
      obtain ⟨i,hi⟩ := tickAt_recurs hs hadv (Nat.two_pow_pos 32) 2
      obtain ⟨m,hm⟩ := haltWhile_returns (fun t => decide (start≤t)) (tickAt start adv)
        (by rw [hi]; exact decide_eq_false (Nat.not_le.mpr hpos))
      obtain ⟨n,bound,hn⟩ := hloop _ (m+2) (wadd_lt (tickAt start adv (m+1))
        (wsub delay (wsub (2^32-1) start)))
      have hwrap : waitWrap (tickAt start adv) delay (i+bound+1)=
          some ⟨tickAt start adv (m+1),wsub delay (wsub (2^32-1) start),m+2⟩ :=
        (if_pos hover).trans (Option.bind_eq_some_iff.mpr ⟨m,hm _ (by omega),rfl⟩)
      exact ⟨i+bound+1,n,Option.bind_eq_some_iff.mpr ⟨_,hwrap,hn _ (by omega)⟩⟩
    · obtain ⟨n,bound,hn⟩ := hloop _ 2 (wadd_lt start delay)
      exact ⟨bound+1,n,Option.bind_eq_some_iff.mpr ⟨_,if_neg hover,hn _ (Nat.lt_succ_self bound)⟩⟩

end XanaduOS.TickWaits

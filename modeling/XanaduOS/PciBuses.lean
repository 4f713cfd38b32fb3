import Mathlib.Tactic

/-!
# Numbering the PCI buses

A bus is scanned slot by slot up to the first empty one. A bridge gets the
next number, is told that number and the last one that the scan behind it
returned, and the scan goes on from the bridge's own number: the returned
one is not taken over. So the numbers behind a bridge are given again to what
follows it. A multifunction device, whose header byte is nonzero too, takes a
number like a bridge.
-/

namespace XanaduOS.PciBuses

/-- The slots of a bus in order. Slots behind the last one are empty. -/
inductive Bus
  /-- No further slot is used. -/
  | nil
  /-- A slot whose vendor number reads 0xFFFF. -/
  | empty (rest : Bus)
  /-- An end point, with the multifunction bit of its header byte. -/
  | device (multi : Bool) (rest : Bus)
  /-- A bridge, with the timer of its bus register and the bus behind it. -/
  | bridge (timer : ℕ) (sub rest : Bus)
  deriving DecidableEq

/-- The bus register of a bridge. -/
structure BridgeBusData where
  /-- Bus that the bridge is on. -/
  primaryBus : ℕ
  /-- Bus directly behind the bridge. -/
  secondaryBus : ℕ
  /-- Last bus behind the bridge. -/
  subBusNum : ℕ
  /-- Left as it was read. -/
  timer : ℕ
  deriving DecidableEq

/-- What a scan leaves in the bridges, if it writes them at all. -/
inductive Config
  /-- No further slot is used. -/
  | nil
  /-- A slot without a bridge. -/
  | slot (rest : Config)
  /-- A bridge, with its register when written and what is behind it. -/
  | bridge (info : Option BridgeBusData) (sub rest : Config)
  deriving DecidableEq

namespace Bus

/-- Slots up to the last used one. -/
def slots : Bus → ℕ
  | nil => 0
  | empty rest => rest.slots+1
  | device _ rest => rest.slots+1
  | bridge _ _ rest => rest.slots+1

/-- Bridges on the bus and behind its bridges. -/
def bridges : Bus → ℕ
  | nil => 0
  | empty rest => rest.bridges
  | device _ rest => rest.bridges
  | bridge _ sub rest => 1+sub.bridges+rest.bridges

/-- No device has more than one function. -/
def Single : Bus → Prop
  | nil => True
  | empty rest => rest.Single
  | device multi rest => multi=false ∧ rest.Single
  | bridge _ sub rest => sub.Single ∧ rest.Single

/-- No bus has more than 32 slots. -/
def Valid : Bus → Prop
  | nil => True
  | empty rest => rest.slots<32 ∧ rest.Valid
  | device _ rest => rest.slots<32 ∧ rest.Valid
  | bridge _ sub rest => rest.slots<32 ∧ sub.Valid ∧ rest.Valid

instance : DecidablePred Valid
  | nil => isTrue trivial
  | empty rest => haveI := instDecidablePredValid rest; inferInstanceAs (Decidable (_ ∧ _))
  | device _ rest => haveI := instDecidablePredValid rest; inferInstanceAs (Decidable (_ ∧ _))
  | bridge _ sub rest =>
    haveI := instDecidablePredValid sub
    haveI := instDecidablePredValid rest
    inferInstanceAs (Decidable (_ ∧ _ ∧ _))

/-- Slots in front of the first empty one that take a number: bridges and
multifunction devices. -/
def numbered : Bus → ℕ
  | nil => 0
  | empty _ => 0
  | device multi rest => if multi then rest.numbered+1 else rest.numbered
  | bridge _ _ rest => rest.numbered+1

/-- The bridges of a bus before any scan. -/
def unscanned : Bus → Config
  | nil => .nil
  | empty rest => .slot rest.unscanned
  | device _ rest => .slot rest.unscanned
  | bridge _ sub rest => .bridge none sub.unscanned rest.unscanned

end Bus

namespace Config

/-- Numbers given to bridges. -/
def secondaries : Config → List ℕ
  | nil => []
  | slot rest => rest.secondaries
  | bridge none sub rest => sub.secondaries++rest.secondaries
  | bridge (some info) sub rest => info.secondaryBus::(sub.secondaries++rest.secondaries)

/-- Every bridge is written, with a range that holds exactly the bus behind it
and the buses behind that one. -/
def Routed : Config → Prop
  | nil => True
  | slot rest => rest.Routed
  | bridge none _ _ => False
  | bridge (some info) sub rest =>
    (∀ k, info.secondaryBus≤k ∧ k ≤ info.subBusNum ↔
      k=info.secondaryBus ∨ k ∈ sub.secondaries) ∧ sub.Routed ∧ rest.Routed

end Config

/-- Adding one to a byte. -/
def u8Incr (n : ℕ) : ℕ := (n+1)%256

/-- Header byte of an end point. -/
def endPointHeader (multi : Bool) : ℕ := if multi then 0x80 else 0

/-- Scan the slots of `bus` from the running maximum `maxBus` on. The number of
a bridge reaches the bus behind it. The number of a multifunction device
reaches no bus, or one that is already scanned under that number, whose
bridges keep what they have. -/
def enumerateFrom (incr : ℕ → ℕ) (bus : ℕ) : ℕ → Bus → ℕ × Config
  | maxBus,.nil => (maxBus,.nil)
  | maxBus,.empty rest => (maxBus,.slot rest.unscanned)
  | maxBus,.device multi rest =>
    let r := enumerateFrom incr bus (if endPointHeader multi=0 then maxBus else incr maxBus) rest
    (r.1,.slot r.2)
  | maxBus,.bridge timer sub rest =>
    let below := enumerateFrom incr (incr maxBus) (incr maxBus) sub
    let r := enumerateFrom incr bus (incr maxBus) rest
    (r.1,.bridge (some ⟨bus,incr maxBus,below.1,timer⟩) below.2 r.2)

/-- Number the buses behind `bus`, whose slots are `b`; the result is the
number returned and the registers left behind. -/
def pciEnumerateBus (bus : ℕ) (b : Bus) : ℕ × Config := enumerateFrom u8Incr bus bus b

/-- The bridges have numbers of their own, ranges that hold exactly the buses
below them, and the number returned is the highest one. -/
structure Numbered (r : ℕ × Config) : Prop where
  /-- Every bridge is written and has the right range. -/
  routed : r.2.Routed
  /-- No bridge has the number of the first bus. -/
  nonzero : 0 ∉ r.2.secondaries
  /-- No two bridges share a number. -/
  nodup : r.2.secondaries.Nodup
  /-- The number returned is the highest of all buses. -/
  greatest : IsGreatest {k | k=0 ∨ k ∈ r.2.secondaries} r.1

/-- Buses that are numbered correctly. `due` numbers were given behind the
bridge before and are given again: each must go to a multifunction device. On
an inner bus nothing else may go to one. On the first bus a number of its own
may, when a bridge follows. Behind an empty slot there is no bridge. -/
def Tidy : Bool → ℕ → Bus → Prop
  | _,due,.nil => due=0
  | _,due,.empty rest => due=0 ∧ rest.bridges=0
  | root,due,.device false rest => Tidy root due rest
  | root,due,.device true rest =>
    (0<due ∧ Tidy root (due-1) rest) ∨
      (root=true ∧ due=0 ∧ 0 < rest.bridges ∧ Tidy root 0 rest)
  | root,due,.bridge _ sub rest => due=0 ∧ Tidy false 0 sub ∧ Tidy root sub.numbered rest

/-- Numbers given from `low` on: all of them on an inner bus, the last of them
on the first bus. -/
structure Covers (root : Bool) (low top : ℕ) (numbers : List ℕ) : Prop where
  /-- Numbers start behind `low`. -/
  above : ∀ k ∈ numbers, low<k
  /-- Numbers end at `top`. -/
  below : ∀ k ∈ numbers, k≤top
  /-- The bounds are in order. -/
  low_le : low≤top
  /-- On an inner bus there are no gaps. -/
  full : root=false → ∀ k, low<k → k≤top → k ∈ numbers
  /-- The last number is given when any is. -/
  last : top ∈ numbers ∨ (numbers=[] ∧ top=low)

/-- A scan without an overflow that numbers its bridges correctly. -/
@[mk_iff]
structure Settled (root : Bool) (low : ℕ) (r : ℕ × Config) : Prop where
  /-- Ranges are right. -/
  routed : r.2.Routed
  /-- Numbers differ. -/
  nodup : r.2.secondaries.Nodup
  /-- Numbers follow each other. -/
  covers : Covers root low r.1 r.2.secondaries

/-- A bus has at most 32 slots. -/
theorem slots_le {b : Bus} (h : b.Valid) : b.slots≤32 := by
  cases b with
  | nil => exact Nat.zero_le _
  | empty rest => exact h.1
  | device multi rest => exact h.1
  | bridge timer sub rest => exact h.1

/-- No more numbers are given on a bus than it has slots. -/
theorem numbered_le_slots (b : Bus) : b.numbered≤b.slots := by
  induction b with
  | nil => exact le_rfl
  | empty rest hrest => exact Nat.zero_le _
  | device multi rest hrest =>
    simp only [Bus.numbered,Bus.slots]
    split <;> omega
  | bridge timer sub rest hsub hrest => exact Nat.succ_le_succ hrest

/-- Nothing is written before a scan. -/
@[simp] theorem secondaries_unscanned (b : Bus) : b.unscanned.secondaries=[] := by
  induction b with
  | nil => rfl
  | empty rest hrest => exact hrest
  | device multi rest hrest => exact hrest
  | bridge timer sub rest hsub hrest => simp [Bus.unscanned,Config.secondaries,hsub,hrest]

/-- Unscanned slots are right only without bridges. -/
@[simp] theorem routed_unscanned (b : Bus) : b.unscanned.Routed ↔ b.bridges=0 := by
  induction b with
  | nil => simp [Bus.unscanned,Config.Routed,Bus.bridges]
  | empty rest hrest => exact hrest
  | device multi rest hrest => exact hrest
  | bridge timer sub rest hsub hrest =>
    simp only [Bus.unscanned,Config.Routed,Bus.bridges,false_iff]
    omega

/-- Without an overflow the number returned counts the numbers given. -/
theorem enumerateFrom_fst (bus maxBus : ℕ) (b : Bus) :
    (enumerateFrom Nat.succ bus maxBus b).1=maxBus+b.numbered := by
  induction b generalizing maxBus with
  | nil => rfl
  | empty rest hrest => rfl
  | device multi rest hrest =>
    cases multi with
    | false => exact hrest maxBus
    | true =>
      refine (hrest (maxBus+1)).trans ?_
      simp only [Bus.numbered,if_true]
      omega
  | bridge timer sub rest hsub hrest =>
    refine (hrest (maxBus+1)).trans ?_
    simp only [Bus.numbered]
    omega

/-- Without an overflow every number is above the running maximum. -/
theorem lt_of_mem_secondaries {bus maxBus k : ℕ} {b : Bus}
    (hk : k ∈ (enumerateFrom Nat.succ bus maxBus b).2.secondaries) : maxBus<k := by
  induction b generalizing bus maxBus with
  | nil => simp [enumerateFrom,Config.secondaries] at hk
  | empty rest hrest => simp [enumerateFrom,Config.secondaries] at hk
  | device multi rest hrest =>
    have h := hrest hk
    split at h <;> omega
  | bridge timer sub rest hsub hrest =>
    rcases List.mem_cons.mp hk with h | h
    · simp only at h
      omega
    · rcases List.mem_append.mp h with h | h
      · exact (Nat.lt_succ_self _).trans (hsub h)
      · exact (Nat.lt_succ_self _).trans (hrest h)

/-- When all bridges are written, as many numbers are given. -/
theorem length_secondaries {incr : ℕ → ℕ} {bus maxBus : ℕ} {b : Bus}
    (h : (enumerateFrom incr bus maxBus b).2.Routed) :
    (enumerateFrom incr bus maxBus b).2.secondaries.length=b.bridges := by
  induction b generalizing bus maxBus with
  | nil => rfl
  | empty rest hrest =>
    have hb : rest.bridges=0 := (routed_unscanned rest).mp h
    simp [enumerateFrom,Config.secondaries,Bus.bridges,hb]
  | device multi rest hrest => exact hrest h
  | bridge timer sub rest hsub hrest =>
    obtain ⟨-,hs,hr⟩ := h
    simp only [enumerateFrom,Config.secondaries,List.length_cons,List.length_append,
      hsub hs,hrest hr,Bus.bridges]
    omega

/-- The range of a bridge is right when the numbers behind it follow its own. -/
theorem range_iff {s top : ℕ} {numbers : List ℕ} (h : ∀ k ∈ numbers, s<k) :
    (∀ k, s≤k ∧ k≤top ↔ k=s ∨ k ∈ numbers) ↔ Covers false s top numbers := by
  constructor
  · intro hrange
    have hle : s≤top := ((hrange s).mpr (Or.inl rfl)).2
    have hfull : ∀ k, s<k → k≤top → k ∈ numbers := by
      intro k hk htop
      rcases (hrange k).mp ⟨hk.le,htop⟩ with h' | h'
      · omega
      · exact h'
    refine ⟨h,fun k hk => ((hrange k).mpr (Or.inr hk)).2,hle,fun _ => hfull,?_⟩
    rcases Nat.lt_or_ge s top with hlt | hge
    · exact Or.inl (hfull top hlt le_rfl)
    · have htop : top=s := by omega
      refine Or.inr ⟨List.eq_nil_iff_forall_not_mem.mpr fun k hk => ?_,htop⟩
      have h1 := h k hk
      have h2 := ((hrange k).mpr (Or.inr hk)).2
      omega
  · intro hc k
    constructor
    · rintro ⟨hk,htop⟩
      rcases Nat.eq_or_lt_of_le hk with h' | h'
      · exact Or.inl h'.symm
      · exact Or.inr (hc.full rfl k h' htop)
    · rintro (rfl | hk)
      · exact ⟨le_rfl,hc.low_le⟩
      · exact ⟨(h k hk).le,hc.below k hk⟩

/-- Behind a bridge that has the numbers from `maxBus+1` to `top` below it, the
scan settles its numbers exactly when they start behind `top`. -/
theorem covers_bridge {root : Bool} {maxBus due top last : ℕ} {inner outer : List ℕ}
    (hsub : Covers false (maxBus+1) top inner) (houter : ∀ k ∈ outer, maxBus+1<k) :
    ((maxBus+1)::(inner++outer)).Nodup ∧
        Covers root (maxBus+due) last ((maxBus+1)::(inner++outer)) ↔
      due=0 ∧ inner.Nodup ∧ outer.Nodup ∧ Covers root top last outer := by
  have htop : top=maxBus+1 ∨ top ∈ inner := by
    rcases hsub.last with h | h
    · exact Or.inr h
    · exact Or.inl h.2
  have hlow := hsub.low_le
  constructor
  · rintro ⟨hn,hc⟩
    obtain ⟨hself,hnodup⟩ := List.nodup_cons.mp hn
    obtain ⟨hni,hno,hdisjoint⟩ := List.nodup_append.mp hnodup
    have hdue := hc.above (maxBus+1) List.mem_cons_self
    have habove : ∀ k ∈ outer, top<k := by
      intro k hk
      by_contra hle
      exact hdisjoint k (hsub.full rfl k (houter k hk) (by omega)) k hk rfl
    have hle : top≤last := by
      rcases htop with h | h
      · exact h ▸ hc.below (maxBus+1) List.mem_cons_self
      · exact hc.below top (List.mem_cons_of_mem _ (List.mem_append_left _ h))
    have hbelow : ∀ k ∈ outer, k≤last := fun k hk =>
      hc.below k (List.mem_cons_of_mem _ (List.mem_append_right _ hk))
    refine ⟨by omega,hni,hno,habove,hbelow,hle,?_,?_⟩
    · intro hroot k hk hklast
      rcases List.mem_cons.mp (hc.full hroot k (by omega) hklast) with h | h
      · omega
      · rcases List.mem_append.mp h with h | h
        · have := hsub.below k h
          omega
        · exact h
    · by_cases ho : last ∈ outer
      · exact Or.inl ho
      · have hlast : last≤top := by
          rcases hc.last with h | h
          · rcases List.mem_cons.mp h with h | h
            · omega
            · rcases List.mem_append.mp h with h | h
              · exact hsub.below last h
              · exact absurd h ho
          · exact absurd h.1 (List.cons_ne_nil _ _)
        refine Or.inr ⟨List.eq_nil_iff_forall_not_mem.mpr fun k hk => ?_,by omega⟩
        have h1 := habove k hk
        have h2 := hbelow k hk
        omega
  · rintro ⟨rfl,hni,hno,hc⟩
    have hle := hc.low_le
    refine ⟨?_,?_,?_,by omega,?_,?_⟩
    · refine List.nodup_cons.mpr ⟨?_,List.nodup_append.mpr ⟨hni,hno,?_⟩⟩
      · intro h
        rcases List.mem_append.mp h with h | h
        · exact absurd (hsub.above _ h) (lt_irrefl _)
        · exact absurd (houter _ h) (lt_irrefl _)
      · rintro k hk j hj rfl
        have h1 := hsub.below k hk
        have h2 := hc.above k hj
        omega
    · intro k hk
      rcases List.mem_cons.mp hk with rfl | hk
      · omega
      · rcases List.mem_append.mp hk with hk | hk
        · have := hsub.above k hk
          omega
        · have := houter k hk
          omega
    · intro k hk
      rcases List.mem_cons.mp hk with rfl | hk
      · omega
      · rcases List.mem_append.mp hk with hk | hk
        · exact (hsub.below k hk).trans hle
        · exact hc.below k hk
    · intro hroot k hk hlast
      rcases Nat.lt_or_ge top k with h | h
      · exact List.mem_cons_of_mem _ (List.mem_append_right _ (hc.full hroot k h hlast))
      · rcases Nat.lt_or_ge (maxBus+1) k with h' | h'
        · exact List.mem_cons_of_mem _ (List.mem_append_left _ (hsub.full rfl k h' h))
        · exact List.mem_cons.mpr (Or.inl (by omega))
    · refine Or.inl ?_
      rcases hc.last with h | ⟨-,rfl⟩
      · exact List.mem_cons_of_mem _ (List.mem_append_right _ h)
      · rcases htop with h | h
        · exact List.mem_cons.mpr (Or.inl h)
        · exact List.mem_cons_of_mem _ (List.mem_append_left _ h)

/-- A number that no bridge has is left out, on the first bus with a bridge to
follow and elsewhere as one that is due. -/
theorem covers_device {root : Bool} {maxBus due last : ℕ} {numbers : List ℕ}
    (h : ∀ k ∈ numbers, maxBus+1<k) (hlast : maxBus+1≤last) :
    Covers root (maxBus+due) last numbers ↔
      (0<due ∧ Covers root (maxBus+1+(due-1)) last numbers) ∨
        (root=true ∧ due=0 ∧ numbers≠[] ∧ Covers root (maxBus+1+0) last numbers) := by
  rcases Nat.eq_zero_or_pos due with rfl | hdue
  · simp only [lt_irrefl,false_and,false_or,true_and]
    constructor
    · intro hc
      have hmem : last ∈ numbers := by
        rcases hc.last with h' | h'
        · exact h'
        · omega
      have hroot : root=true := by
        by_contra hr
        exact absurd (h _ (hc.full (by simpa using hr) (maxBus+1) (by omega) hlast)) (lt_irrefl _)
      exact ⟨hroot,List.ne_nil_of_mem hmem,h,hc.below,hlast,
        fun h' => by simp [hroot] at h',Or.inl hmem⟩
    · rintro ⟨hroot,hne,hc⟩
      refine ⟨fun k hk => ?_,hc.below,by omega,fun h' => by simp [hroot] at h',
        hc.last.imp_right fun h' => absurd h'.1 hne⟩
      have := h k hk
      omega
  · have hd : maxBus+1+(due-1)=maxBus+due := by omega
    rw [hd]
    constructor
    · exact fun hc => Or.inl ⟨hdue,hc⟩
    · rintro (h' | h')
      · exact h'.2
      · omega

/-- No number is given exactly when the bounds meet. -/
theorem covers_nil {root : Bool} {low top : ℕ} : Covers root low top [] ↔ top=low := by
  constructor
  · intro hc
    rcases hc.last with h | h
    · simp at h
    · exact h.2
  · rintro rfl
    exact ⟨by simp,by simp,le_rfl,fun _ k h1 h2 => absurd h1 (by omega),Or.inr ⟨rfl,rfl⟩⟩

/-- Without an overflow the scan is correct exactly on tidy buses. -/
theorem settled_iff_tidy (root : Bool) (due maxBus bus : ℕ) (b : Bus) :
    Settled root (maxBus+due) (enumerateFrom Nat.succ bus maxBus b) ↔ Tidy root due b := by
  induction b generalizing root due maxBus bus with
  | nil =>
    rw [settled_iff]
    simp only [enumerateFrom,Config.Routed,Config.secondaries,List.nodup_nil,covers_nil,
      true_and,Tidy]
    omega
  | empty rest hrest =>
    rw [settled_iff]
    simp only [enumerateFrom,Config.Routed,Config.secondaries,routed_unscanned,
      secondaries_unscanned,List.nodup_nil,covers_nil,true_and,Tidy]
    omega
  | device multi rest hrest =>
    cases multi with
    | false =>
      have hr := hrest root due maxBus bus
      rw [settled_iff] at hr ⊢
      exact hr
    | true =>
      have hfst := enumerateFrom_fst bus (maxBus+1) rest
      have hdev := @covers_device root maxBus due _ _
        (fun k hk => @lt_of_mem_secondaries bus (maxBus+1) k rest hk)
        (hfst ▸ Nat.le_add_right (maxBus+1) rest.numbered)
      have hstep : enumerateFrom Nat.succ bus maxBus (.device true rest)=
          ((enumerateFrom Nat.succ bus (maxBus+1) rest).1,
            .slot (enumerateFrom Nat.succ bus (maxBus+1) rest).2) := rfl
      rw [hstep]
      rw [settled_iff]
      simp only [Config.Routed,Config.secondaries,Tidy]
      rw [hdev,←hrest root (due-1) (maxBus+1) bus,←hrest root 0 (maxBus+1) bus,
        settled_iff,settled_iff]
      have hne : (enumerateFrom Nat.succ bus (maxBus+1) rest).2.Routed →
          ((enumerateFrom Nat.succ bus (maxBus+1) rest).2.secondaries≠[] ↔ 0 < rest.bridges) := by
        intro h
        rw [←length_secondaries h,List.length_pos_iff]
      tauto
  | bridge timer sub rest hsub hrest =>
    have hinner := fun k hk => @lt_of_mem_secondaries (maxBus+1) (maxBus+1) k sub hk
    have houter := fun k hk => @lt_of_mem_secondaries bus (maxBus+1) k rest hk
    have hs := hsub false 0 (maxBus+1) (maxBus+1)
    have hr := hrest root sub.numbered (maxBus+1) bus
    rw [←enumerateFrom_fst (maxBus+1) (maxBus+1) sub] at hr
    rw [settled_iff]
    simp only [enumerateFrom,Config.Routed,Config.secondaries,Nat.succ_eq_add_one,Tidy]
    rw [range_iff hinner,←hs,←hr,settled_iff,settled_iff]
    constructor
    · rintro ⟨⟨hc,hsr,hrr⟩,hn,hcov⟩
      obtain ⟨hdue,hni,hno,hc'⟩ := (covers_bridge hc houter).mp ⟨hn,hcov⟩
      exact ⟨hdue,⟨hsr,hni,hc⟩,hrr,hno,hc'⟩
    · rintro ⟨hdue,⟨hsr,hni,hc⟩,hrr,hno,hc'⟩
      obtain ⟨hn,hcov⟩ := (covers_bridge hc houter).mpr ⟨hdue,hni,hno,hc'⟩
      exact ⟨⟨hc,hsr,hrr⟩,hn,hcov⟩

/-- Additions that agree on small numbers give the same scan when the numbers
given are small. -/
theorem enumerateFrom_congr {incr incr' : ℕ → ℕ} (h : ∀ n<255, incr n=n+1)
    (h' : ∀ n<255, incr' n=n+1) {bus maxBus : ℕ} {b : Bus} (hvalid : b.Valid)
    (hmax : maxBus+b.slots≤255)
    (hsmall : ∀ k ∈ (enumerateFrom incr bus maxBus b).2.secondaries, k≤32) :
    enumerateFrom incr' bus maxBus b=enumerateFrom incr bus maxBus b := by
  induction b generalizing bus maxBus with
  | nil => rfl
  | empty rest hrest => rfl
  | device multi rest hrest =>
    simp only [Bus.slots] at hmax
    have hincr : incr' maxBus=incr maxBus := by rw [h _ (by omega),h' _ (by omega)]
    simp only [enumerateFrom,hincr] at hsmall ⊢
    rw [hrest hvalid.2 ?_ hsmall]
    split
    · omega
    · rw [h _ (by omega)]
      omega
  | bridge timer sub rest hsub hrest =>
    simp only [Bus.slots] at hmax
    have hincr : incr maxBus=maxBus+1 := h _ (by omega)
    have hincr' : incr' maxBus=maxBus+1 := h' _ (by omega)
    simp only [enumerateFrom,hincr,hincr',Config.secondaries,List.mem_cons,List.mem_append,
      forall_eq_or_imp] at hsmall ⊢
    obtain ⟨hown,hsmall⟩ := hsmall
    have hslots : sub.slots≤32 := slots_le hvalid.2.1
    rw [hsub hvalid.2.1 (by omega) fun k hk => hsmall k (Or.inl hk),
      hrest hvalid.2.2 (by omega) fun k hk => hsmall k (Or.inr hk)]

/-- The number returned is at most the count of the numbers given. -/
theorem enumerateFrom_fst_le {incr : ℕ → ℕ} (h : ∀ n, incr n≤n+1) (bus maxBus : ℕ) (b : Bus) :
    (enumerateFrom incr bus maxBus b).1 ≤ maxBus+b.numbered := by
  induction b generalizing maxBus with
  | nil => exact le_rfl
  | empty rest hrest => exact le_rfl
  | device multi rest hrest =>
    cases multi with
    | false => exact hrest maxBus
    | true =>
      have hr := hrest (incr maxBus)
      have hi := h maxBus
      change (enumerateFrom incr bus (incr maxBus) rest).1≤_
      simp only [Bus.numbered,if_true]
      omega
  | bridge timer sub rest hsub hrest =>
    have hr := hrest (incr maxBus)
    have hi := h maxBus
    simp only [enumerateFrom,Bus.numbered]
    omega

/-- On the first bus a settled scan is a correct numbering. -/
theorem settled_iff_numbered (r : ℕ × Config) : Settled true 0 r ↔ Numbered r := by
  constructor
  · rintro ⟨hrouted,hnodup,hc⟩
    refine ⟨hrouted,fun h => absurd (hc.above 0 h) (lt_irrefl _),hnodup,?_,?_⟩
    · exact hc.last.symm.imp (fun h => h.2) id
    · rintro k (rfl | hk)
      · exact hc.low_le
      · exact hc.below k hk
  · rintro ⟨hrouted,hzero,hnodup,hmem,hmax⟩
    have habove : ∀ k ∈ r.2.secondaries, 0<k := fun k hk =>
      Nat.pos_of_ne_zero fun h => hzero (h ▸ hk)
    have hbelow : ∀ k ∈ r.2.secondaries, k ≤ r.1 := fun k hk => hmax (Or.inr hk)
    refine ⟨hrouted,hnodup,habove,hbelow,Nat.zero_le _,fun h => by simp at h,?_⟩
    rcases hmem with h | h
    · refine Or.inr ⟨List.eq_nil_iff_forall_not_mem.mpr fun k hk => ?_,h⟩
      have h1 := habove k hk
      have h2 := hbelow k hk
      omega
    · exact Or.inl h

/-- Adding one to a byte that is not full. -/
theorem u8Incr_of_lt (n : ℕ) (h : n<255) : u8Incr n=n+1 := Nat.mod_eq_of_lt (by omega)

/-- Adding one to a byte is at most adding one. -/
theorem u8Incr_le (n : ℕ) : u8Incr n≤n+1 := Nat.mod_le _ _

/-- The buses are numbered correctly exactly when they are tidy. -/
theorem numbered_iff_tidy (b : Bus) (hvalid : b.Valid) :
    Numbered (pciEnumerateBus 0 b) ↔ Tidy true 0 b := by
  have hslots := slots_le hvalid
  have hnumbered := numbered_le_slots b
  have hsettled := settled_iff_tidy true 0 0 0 b
  rw [settled_iff_numbered] at hsettled
  constructor
  · intro h
    have hle : (pciEnumerateBus 0 b).1≤0+b.numbered := enumerateFrom_fst_le u8Incr_le 0 0 b
    have heq : enumerateFrom Nat.succ 0 0 b=pciEnumerateBus 0 b :=
      enumerateFrom_congr u8Incr_of_lt (fun _ _ => rfl) hvalid (by omega) fun k hk =>
        (h.greatest.2 (Or.inr hk)).trans (by omega)
    rw [←hsettled,heq]
    exact h
  · intro h
    have hfst := enumerateFrom_fst 0 0 b
    have hn := hsettled.mpr h
    have heq : pciEnumerateBus 0 b=enumerateFrom Nat.succ 0 0 b :=
      enumerateFrom_congr (fun _ _ => rfl) u8Incr_of_lt hvalid (by omega) fun k hk =>
        (hn.greatest.2 (Or.inr hk)).trans (by omega)
    rw [heq]
    exact hn

/-- Bridges side by side on the first bus are numbered. -/
theorem numbered_siblings :
    (Bus.bridge 0 (.device false .nil) (.device false (.bridge 0 .nil .nil))).Valid ∧
      Numbered (pciEnumerateBus 0
        (.bridge 0 (.device false .nil) (.device false (.bridge 0 .nil .nil)))) :=
  ⟨by decide,(numbered_iff_tidy _ (by decide)).mpr (by simp [Tidy,Bus.numbered])⟩

/-- A bridge behind a bridge: the number of the inner one is not returned. -/
theorem nested_not_numbered :
    (Bus.bridge 0 (.bridge 0 .nil .nil) .nil).Valid ∧
      ¬Numbered (pciEnumerateBus 0 (.bridge 0 (.bridge 0 .nil .nil) .nil)) := by
  refine ⟨by decide,fun h => ?_⟩
  have hle := h.greatest.2 (Or.inr (show 2 ∈ _ by decide))
  exact absurd hle (by decide)

/-- Without multifunction devices only bridges take a number. -/
theorem numbered_le_bridges {b : Bus} (h : b.Single) : b.numbered≤b.bridges := by
  induction b with
  | nil => exact le_rfl
  | empty rest hrest => exact Nat.zero_le _
  | device multi rest hrest =>
    obtain ⟨rfl,h⟩ := h
    exact hrest h
  | bridge timer sub rest hsub hrest =>
    have := hrest h.2
    simp only [Bus.numbered,Bus.bridges]
    omega

/-- Without multifunction devices the tidy buses are those whose bridges are
all on the first bus, in front of its first empty slot. -/
theorem tidy_iff_of_single {root : Bool} {due : ℕ} {b : Bus} (h : b.Single) :
    Tidy root due b ↔ due=0 ∧ b.bridges=b.numbered := by
  induction b generalizing root due with
  | nil => simp [Tidy,Bus.bridges,Bus.numbered]
  | empty rest hrest => simp [Tidy,Bus.bridges,Bus.numbered]
  | device multi rest hrest =>
    obtain ⟨rfl,h⟩ := h
    simpa [Tidy,Bus.bridges,Bus.numbered] using hrest h
  | bridge timer sub rest hsub hrest =>
    have hs := numbered_le_bridges h.1
    have hr := numbered_le_bridges h.2
    rw [Tidy,@hsub false 0 h.1,@hrest root sub.numbered h.2]
    simp only [Bus.bridges,Bus.numbered,true_and]
    omega

end XanaduOS.PciBuses

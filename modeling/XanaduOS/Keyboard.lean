import Mathlib.Data.List.GetD
import Mathlib.Tactic

/-!
# The keyboard

The interrupt translates a scan code through a table of 128 entries and hands keys
that the table knows to every receiver in the order in which they were added. The
array of receivers ends with a null pointer, which has to stand inside the array.
The table is read at whatever index the controller sends: a release, whose code is 128
above, reads one of the words that the linker puts behind the table.
-/

namespace XanaduOS.Keyboard

/-! ## Arrays that end with a null -/

/-- Entries of an array up to a null, from a slot on, within the slots left. -/
def untilNull (entry : ℕ → ℕ) : ℕ → ℕ → Option (List ℕ)
  | 0,_ => none
  | slots+1,i =>
    if entry i=0 then some []
    else do
      let rest ← untilNull entry slots (i+1)
      some (entry i::rest)

/-- When the entries of a list stand in an array and a null follows inside the array, the
list is read. -/
theorem untilNull_eq {entry : ℕ → ℕ} {entries : List ℕ} {slots i : ℕ}
    (hentry : ∀ k < i+slots,entry k=entries.getD k 0) (hnull : ∀ x∈entries,x≠0)
    (hi : i≤entries.length) (hroom : entries.length < i+slots) :
    untilNull entry slots i=some (entries.drop i) := by
  induction slots generalizing i with
  | zero => omega
  | succ slots ih =>
    rw [untilNull,hentry i (by omega)]
    rcases hi.lt_or_eq with hlt|rfl
    · have hget : entries.getD i 0=entries[i] := List.getD_eq_getElem _ _ hlt
      rw [hget,if_neg (hnull _ (List.getElem_mem hlt)),
        ih (fun k hk => hentry k (by omega)) hlt (by omega),List.drop_eq_getElem_cons hlt]
      rfl
    · rw [List.getD_eq_default _ _ le_rfl,if_pos rfl,List.drop_length]

/-! ## The driver -/

/-- Slots for receivers. -/
abbrev KBD_INT_REC_NUM : ℕ := 256

/-- The delete key. -/
abbrev KBD_DEL : ℕ := 127

/-- Key codes are below. -/
abbrev KBD_LAYOUT_MAX_CODE : ℕ := 512

/-- The arrow up. -/
abbrev UP_ARROW : ℕ := 344

/-- The arrow down. -/
abbrev DOWN_ARROW : ℕ := 345

/-- The US layout by scan code. -/
def kbdUS : List ℕ := [
  0,27,49,50,51,52,53,54,55,56,57,48,45,61,8,9,
  113,119,101,114,116,121,117,105,111,112,91,93,10,0,97,115,
  100,102,103,104,106,107,108,59,39,96,0,92,122,120,99,118,
  98,110,109,44,46,47,0,42,0,32,0,0,0,0,0,0,
  0,0,0,0,0,0,0,0,UP_ARROW,0,45,0,0,0,43,0,
  DOWN_ARROW,0,0,KBD_DEL,0,0,0,0,0,0,0,0,0,0,0,0,
  0,0,0,0,0,0,0,0,0,0,0,0,0,0,0,0,
  0,0,0,0,0,0,0,0,0,0,0,0,0,0,0,0]

/-- The keyboard driver, with the calls of receivers so far. -/
structure Kbd where
  /-- Pointers to receivers, null from the first free slot on. -/
  receiverF : ℕ → ℕ
  /-- Receivers added. -/
  receiverNum : ℕ
  /-- The last key. -/
  kbdBuf : ℕ
  /-- Receivers called, each with its key. -/
  calls : List (ℕ×ℕ)

/-- Before the first receiver. -/
def kbdStart : Kbd := ⟨fun _ => 0,0,0,[]⟩

/-- Add a receiver. Behind the array there is no slot. -/
def kbdAddReceiver (k : Kbd) (f : ℕ) : Option Kbd :=
  if k.receiverNum<KBD_INT_REC_NUM then
    some {k with
      receiverF := Function.update k.receiverF k.receiverNum f
      receiverNum := k.receiverNum+1}
  else none

/-- Call the receivers in order, up to the null pointer. -/
def callReceivers (receiverF : ℕ → ℕ) (keycode : ℕ) : Option (List (ℕ×ℕ)) := do
  let receivers ← untilNull receiverF KBD_INT_REC_NUM 0
  some (receivers.map fun f => (f,keycode))

/-- Read a scan code, with the words behind the table. -/
def readScanCode (behind : ℕ → ℕ) (data : ℕ) : ℕ := (kbdUS[data]?).getD (behind data)

/-- The interrupt, with what the controller's ports read. -/
def kbdInterrupt (behind : ℕ → ℕ) (k : Kbd) (stat data : ℕ) : Option Kbd :=
  if stat&&&1≠0 then
    let keycode := readScanCode behind data
    if keycode≠0 ∧ keycode<KBD_LAYOUT_MAX_CODE then do
      let calls ← callReceivers k.receiverF keycode
      some {k with kbdBuf := keycode,calls := k.calls++calls}
    else some k
  else some k

/-- The last key. -/
def kbdRead (k : Kbd) : ℕ := k.kbdBuf

/-- What a program reads: as many words as it asks for, each the last key. -/
def sysRead (k : Kbd) (count : ℕ) : List ℕ×ℕ := (List.replicate count (kbdRead k),count)

/-- What happens to the driver. -/
inductive Event
  /-- A receiver is added. -/
  | addReceiver (f : ℕ)
  /-- The keyboard interrupts. -/
  | interrupt (stat data : ℕ)

/-- One event. -/
def apply (behind : ℕ → ℕ) (k : Kbd) : Event → Option Kbd
  | .addReceiver f => kbdAddReceiver k f
  | .interrupt stat data => kbdInterrupt behind k stat data

/-! ## What is delivered -/

/-- The key that an interrupt brings. -/
def pressed (behind : ℕ → ℕ) (stat data : ℕ) : Option ℕ :=
  if stat&&&1≠0 then
    (some (readScanCode behind data)).filter fun key => key≠0 ∧ key<KBD_LAYOUT_MAX_CODE
  else none

/-- Receivers added by a list of events. -/
def added : List Event → List ℕ
  | [] => []
  | .addReceiver f::events => f::added events
  | .interrupt _ _::events => added events

/-- Keys brought by a list of events. -/
def keys (behind : ℕ → ℕ) : List Event → List ℕ
  | [] => []
  | .addReceiver _::events => keys behind events
  | .interrupt stat data::events => (pressed behind stat data).toList++keys behind events

/-- Each key goes to each receiver there is, in the order of their addition. -/
def deliveries (behind : ℕ → ℕ) : List ℕ → List Event → List (ℕ×ℕ)
  | _,[] => []
  | receivers,.addReceiver f::events => deliveries behind (receivers++[f]) events
  | receivers,.interrupt stat data::events =>
    (pressed behind stat data).toList.flatMap (fun key => receivers.map fun f => (f,key))++
      deliveries behind receivers events

/-- The array holds the receivers, and null pointers behind them. -/
structure Registered (k : Kbd) (receivers : List ℕ) : Prop where
  /-- Their number. -/
  count : k.receiverNum=receivers.length
  /-- The slots. -/
  slots : ∀ id,k.receiverF id=receivers.getD id 0
  /-- No receiver is null. -/
  notNull : ∀ f∈receivers,f≠0

variable {k : Kbd} {receivers : List ℕ}

/-- Adding a receiver. -/
theorem Registered.add (h : Registered k receivers) {f : ℕ} (hf : f≠0)
    (hroom : receivers.length<KBD_INT_REC_NUM) :
    ∃ k',kbdAddReceiver k f=some k' ∧ Registered k' (receivers++[f]) ∧
      k'.kbdBuf=k.kbdBuf ∧ k'.calls=k.calls := by
  refine ⟨_,if_pos (h.count▸hroom),⟨?_,fun id => ?_,?_⟩,rfl,rfl⟩
  · rw [List.length_append,List.length_singleton,←h.count]
  · change Function.update k.receiverF k.receiverNum f id=_
    rw [Function.update_apply,h.count,h.slots id]
    rcases Nat.lt_trichotomy id receivers.length with hlt|rfl|hgt
    · rw [if_neg hlt.ne,List.getD_append _ _ _ _ hlt]
    · rw [if_pos rfl,List.getD_append_right _ _ _ _ le_rfl,Nat.sub_self]
      rfl
    · rw [if_neg hgt.ne',List.getD_eq_default _ _ hgt.le,List.getD_eq_default]
      rw [List.length_append,List.length_singleton]
      exact hgt
  · intro g hg
    rcases List.mem_append.mp hg with hg|hg
    · exact h.notNull g hg
    · rw [List.mem_singleton.mp hg]
      exact hf

/-- The receivers are called in order, if the array has a slot left behind them. -/
theorem Registered.call (h : Registered k receivers) (keycode : ℕ)
    (hroom : receivers.length<KBD_INT_REC_NUM) :
    callReceivers k.receiverF keycode=some (receivers.map fun f => (f,keycode)) := by
  rw [callReceivers,untilNull_eq (fun id _ => h.slots id) h.notNull (Nat.zero_le _)
    (hroom.trans_eq (Nat.zero_add _).symm)]
  rfl

/-- An interrupt calls every receiver with the key it brings. -/
theorem Registered.interrupt (h : Registered k receivers)
    (hroom : receivers.length<KBD_INT_REC_NUM) (behind : ℕ → ℕ) (stat data : ℕ) :
    ∃ k',kbdInterrupt behind k stat data=some k' ∧ Registered k' receivers ∧
      k'.kbdBuf=(pressed behind stat data).getD k.kbdBuf ∧
      k'.calls=k.calls++
        (pressed behind stat data).toList.flatMap fun key => receivers.map fun f => (f,key) := by
  unfold kbdInterrupt pressed
  generalize readScanCode behind data=key
  by_cases hstat : stat&&&1≠0
  · rw [if_pos hstat,if_pos hstat]
    by_cases hkey : key≠0 ∧ key<KBD_LAYOUT_MAX_CODE
    · have hfilter : (some key).filter (fun key => decide (key≠0 ∧ key<KBD_LAYOUT_MAX_CODE))=
          some key := by simp [Option.filter,hkey]
      refine ⟨{k with kbdBuf := key,calls := k.calls++receivers.map fun f => (f,key)},?_,
        ⟨h.count,h.slots,h.notNull⟩,?_,?_⟩
      · rw [if_pos hkey,h.call key hroom]
        rfl
      · rw [hfilter]
        rfl
      · rw [hfilter]
        simp
    · rw [if_neg hkey,Option.filter_some_neg (by simpa using hkey)]
      exact ⟨k,rfl,h,rfl,(List.append_nil _).symm⟩
  · rw [if_neg hstat,if_neg hstat]
    exact ⟨k,rfl,h,rfl,(List.append_nil _).symm⟩

/-- The driver before the first receiver. -/
theorem kbdStart_registered : Registered kbdStart [] :=
  ⟨rfl,fun _ => rfl,fun _ hf => absurd hf List.not_mem_nil⟩

/-- From receivers in place, a run delivers each key to each receiver once, in the order
of their addition. -/
theorem Registered.run (h : Registered k receivers) (behind : ℕ → ℕ) {events : List Event}
    (hnull : ∀ f∈added events,f≠0)
    (hroom : receivers.length+(added events).length<KBD_INT_REC_NUM) :
    ∃ k',events.foldlM (apply behind) k=some k' ∧ Registered k' (receivers++added events) ∧
      k'.kbdBuf=(keys behind events).getLastD k.kbdBuf ∧
      k'.calls=k.calls++deliveries behind receivers events := by
  induction events generalizing k receivers with
  | nil =>
    refine ⟨k,rfl,?_,rfl,(List.append_nil _).symm⟩
    rw [added,List.append_nil]
    exact h
  | cons e events ih =>
    rw [List.foldlM_cons]
    cases e with
    | addReceiver f =>
      rw [added,List.length_cons] at hroom
      rw [added,List.forall_mem_cons] at hnull
      obtain ⟨k',hadd,hk',hbuf,hcalls⟩ := h.add hnull.1 (by omega)
      obtain ⟨k'',hrun,hk'',hbuf'',hcalls''⟩ := ih hk' hnull.2 (by
        rw [List.length_append,List.length_singleton]
        omega)
      refine ⟨k'',?_,?_,?_,?_⟩
      · rw [apply,hadd]
        exact hrun
      · rw [List.append_assoc] at hk''
        exact hk''
      · rw [hbuf'',hbuf,keys]
      · rw [hcalls'',hcalls,deliveries]
    | interrupt stat data =>
      rw [added] at hroom hnull
      obtain ⟨k',hint,hk',hbuf,hcalls⟩ := h.interrupt (by omega) behind stat data
      obtain ⟨k'',hrun,hk'',hbuf'',hcalls''⟩ := ih hk' hnull hroom
      refine ⟨k'',?_,hk'',?_,?_⟩
      · rw [apply,hint]
        exact hrun
      · rw [hbuf'',hbuf,keys]
        cases pressed behind stat data with
        | none => rfl
        | some key => cases keys behind events <;> rfl
      · rw [hcalls'',hcalls,deliveries,List.append_assoc]

/-- Deliveries of one list of events after another. -/
theorem deliveries_append (behind : ℕ → ℕ) (receivers : List ℕ) (before after : List Event) :
    deliveries behind receivers (before++after)=deliveries behind receivers before++
      deliveries behind (receivers++added before) after := by
  induction before generalizing receivers with
  | nil => rw [added,List.append_nil]; rfl
  | cons e before ih =>
    cases e with
    | addReceiver f =>
      rw [List.cons_append,deliveries,deliveries,ih,added,List.append_assoc]
      rfl
    | interrupt stat data =>
      rw [List.cons_append,deliveries,deliveries,ih,added,List.append_assoc]

/-- Keys that a receiver is called with. -/
def keysOf (f : ℕ) (calls : List (ℕ×ℕ)) : List ℕ := (calls.filter fun call => call.1=f).map Prod.snd

/-- Keys that a receiver is called with, of one list of calls after another. -/
theorem keysOf_append (f : ℕ) (calls calls' : List (ℕ×ℕ)) :
    keysOf f (calls++calls')=keysOf f calls++keysOf f calls' := by
  rw [keysOf,List.filter_append,List.map_append]
  rfl

/-- One key for every receiver. -/
theorem keysOf_map (f key : ℕ) (receivers : List ℕ) :
    keysOf f (receivers.map fun g => (g,key))=List.replicate (receivers.count f) key := by
  induction receivers with
  | nil => rfl
  | cons g receivers ih =>
    rw [keysOf] at ih ⊢
    rw [List.map_cons,List.filter_cons,List.count_cons]
    by_cases hg : g=f
    · simp [hg,ih,List.replicate_succ]
    · simp [hg,ih]

/-- A receiver gets every key as often as it is registered. -/
theorem keysOf_deliveries (behind : ℕ → ℕ) {f : ℕ} (receivers : List ℕ) {events : List Event}
    (hf : f∉added events) : keysOf f (deliveries behind receivers events)=
      (keys behind events).flatMap (List.replicate (receivers.count f)) := by
  induction events generalizing receivers with
  | nil => rfl
  | cons e events ih =>
    cases e with
    | addReceiver g =>
      rw [added,List.mem_cons,not_or] at hf
      rw [deliveries,keys,ih _ hf.2,List.count_append,List.count_singleton,
        if_neg (by simpa using Ne.symm hf.1),Nat.add_zero]
    | interrupt stat data =>
      rw [deliveries,keys,keysOf_append,ih _ hf,List.flatMap_append]
      cases pressed behind stat data with
      | none => rfl
      | some key => simp [keysOf_map]

/-- From the start of the driver, as long as the array has a slot left behind the
receivers, every key is delivered exactly once to every receiver added before it, in
the order of their addition, and programs read the last key. -/
theorem run_delivers (behind : ℕ → ℕ) {events : List Event} (hnull : ∀ f∈added events,f≠0)
    (hroom : (added events).length<KBD_INT_REC_NUM) (count : ℕ) :
    ∃ k,events.foldlM (apply behind) kbdStart=some k ∧ k.calls=deliveries behind [] events ∧
      sysRead k count=(List.replicate count ((keys behind events).getLastD 0),count) := by
  obtain ⟨k,hrun,-,hbuf,hcalls⟩ := kbdStart_registered.run behind hnull
    ((Nat.zero_add _).trans_lt hroom)
  refine ⟨k,hrun,hcalls,?_⟩
  rw [sysRead,kbdRead,hbuf]
  rfl

/-- Two receivers, and the keys of the scan codes 30 and 48. -/
theorem run_delivers_two : ∃ k,
    [Event.addReceiver 7,.interrupt 1 30,.addReceiver 8,.interrupt 1 48].foldlM
      (apply fun _ => 0) kbdStart=some k ∧
    k.calls=[(7,97),(7,98),(8,98)] ∧ sysRead k 2=([98,98],2) :=
  run_delivers (fun _ => 0) (by decide) (by decide) 2

end XanaduOS.Keyboard

import Mathlib.Data.BitVec
import Mathlib.Tactic

/-!
# Words in a memory of bytes

Words of four bytes are read and written at any address of a memory of bytes,
the lowest byte first, and addresses go round. A word written is read back;
words read apart from a range of addresses are the same in memories that differ
within the range only.
-/

namespace XanaduOS.WordMemory

/-- A machine word. -/
abbrev Word := BitVec 32

/-- Bytes by address. -/
abbrev Memory := Word → BitVec 8

/-- The word at an address. -/
def load (m : Memory) (a : Word) : Word := m (a+3)++m (a+2)++m (a+1)++m a

/-- Write a word at an address. -/
def store (m : Memory) (a w : Word) : Memory := fun b =>
  if (b-a).toNat<4 then w.extractLsb' (8*(b-a).toNat) 8 else m b

/-- Write words below an address, each one below the last. -/
def storeBelow (m : Memory) (a : Word) : List Word → Memory
  | [] => m
  | w::ws => storeBelow (store m (a-4) w) (a-4) ws

/-- Bytes from an address on lie outside of a range. -/
def Outside (low : Word) (size : ℕ) (a : Word) (n : ℕ) : Prop :=
  ∀ i<n,size≤(a+BitVec.ofNat 32 i-low).toNat

/-- Memories are the same outside of a range. -/
def Agrees (low : Word) (size : ℕ) (m m' : Memory) : Prop :=
  ∀ b,size≤(b-low).toNat → m' b=m b

variable {m m' m'' : Memory} {low a b w : Word} {size n : ℕ}

instance (low : Word) (size : ℕ) (a : Word) (n : ℕ) : Decidable (Outside low size a n) :=
  inferInstanceAs (Decidable (∀ i<n,_))

/-- A word is its four bytes. -/
theorem load_congr (h : ∀ i<4,m' (a+BitVec.ofNat 32 i)=m (a+BitVec.ofNat 32 i)) :
    load m' a=load m a := by
  have h0 := h 0 (by decide)
  have h1 := h 1 (by decide)
  have h2 := h 2 (by decide)
  have h3 := h 3 (by decide)
  rw [BitVec.add_zero] at h0
  change m' (a+1)=m (a+1) at h1
  change m' (a+2)=m (a+2) at h2
  change m' (a+3)=m (a+3) at h3
  rw [load,load,h0,h1,h2,h3]

/-- A word written is read back. -/
theorem load_store (m : Memory) (a w : Word) : load (store m a w) a=w := by
  have hbyte : ∀ i : Word,i.toNat<4 → store m a w (a+i)=w.extractLsb' (8*i.toNat) 8 := by
    intro i hi
    have hoff : a+i-a=i := by ring
    rw [store,hoff,if_pos hi]
  have h0 : store m a w a=w.extractLsb' 0 8 := by simpa using hbyte 0 (by decide)
  have h1 : store m a w (a+1)=w.extractLsb' 8 8 := hbyte 1 (by decide)
  have h2 : store m a w (a+2)=w.extractLsb' 16 8 := hbyte 2 (by decide)
  have h3 : store m a w (a+3)=w.extractLsb' 24 8 := hbyte 3 (by decide)
  rw [load,h3,h2,h1,h0,
    BitVec.extractLsb'_append_extractLsb'_eq_extractLsb' (show 24=16+8 from rfl),
    BitVec.extractLsb'_append_extractLsb'_eq_extractLsb' (show 16=8+8 from rfl),
    BitVec.extractLsb'_append_extractLsb'_eq_extractLsb' (show 8=0+8 from rfl)]
  exact BitVec.extractLsb'_eq_self

/-- Words apart from the one written stay. -/
theorem load_store_of_apart (h : 4≤(b-a).toNat) (h' : (b-a).toNat≤2^32-4) :
    load (store m a w) b=load m b := by
  refine load_congr fun i hi => ?_
  rw [store,if_neg]
  bv_omega

/-- Memories agree with themselves. -/
theorem Agrees.refl (m : Memory) : Agrees low size m m := fun _ _ => rfl

/-- Agreement goes on. -/
theorem Agrees.trans (h : Agrees low size m m') (h' : Agrees low size m' m'') :
    Agrees low size m m'' := fun b hb => (h' b hb).trans (h b hb)

/-- Words outside of the range are the same. -/
theorem Agrees.load (h : Agrees low size m m') (ho : Outside low size a 4) :
    load m' a=load m a := load_congr fun i hi => h _ (ho i hi)

/-- Words written inside the range leave the rest. -/
theorem Agrees.store (h : Agrees low size m m') (ha : (a-low).toNat+4 ≤ size) :
    Agrees low size m (store m' a w) := by
  intro b hb
  rw [WordMemory.store,if_neg,h b hb]
  bv_omega

/-- Words written below an address inside the range leave the rest. -/
theorem Agrees.storeBelow {ws : List Word} (h : Agrees low size m m')
    (hroom : 4*ws.length≤(a-low).toNat) (htop : (a-low).toNat ≤ size) :
    Agrees low size m (storeBelow m' a ws) := by
  induction ws generalizing m' a with
  | nil => exact h
  | cons w ws ih =>
    rw [List.length_cons] at hroom
    have hnext : (a-4-low).toNat+4=(a-low).toNat := by bv_omega
    exact ih (h.store (by omega)) (by omega) (by omega)

/-- Words written below the ones already written. -/
theorem storeBelow_append (m : Memory) (a : Word) (ws ws' : List Word) :
    storeBelow m a (ws++ws')=
      storeBelow (storeBelow m a ws) (a-4*BitVec.ofNat 32 ws.length) ws' := by
  induction ws generalizing m a with
  | nil => simp [storeBelow]
  | cons w ws ih =>
    have hlen : BitVec.ofNat 32 (ws.length+1)=BitVec.ofNat 32 ws.length+1 := BitVec.ofNat_add _ 1
    have haddr : a-4-4*BitVec.ofNat 32 ws.length=a-4*(BitVec.ofNat 32 ws.length+1) := by ring
    rw [List.cons_append,storeBelow,ih,haddr,storeBelow,List.length_cons,hlen]

/-- A word among bytes outside of the range. -/
theorem Outside.word (h : Outside low size a n) {i : ℕ} (hi : i+4≤n) :
    Outside low size (a+BitVec.ofNat 32 i) 4 := by
  intro j hj
  have hij := h (i+j) (by omega)
  rwa [BitVec.ofNat_add,←BitVec.add_assoc] at hij

/-- Bytes outside of a range are outside of a smaller one. -/
theorem Outside.mono (h : Outside low size a n) {size' : ℕ} (hs : size' ≤ size) :
    Outside low size' a n := fun i hi => hs.trans (h i hi)

end XanaduOS.WordMemory

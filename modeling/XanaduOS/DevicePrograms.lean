import Mathlib.Tactic

/-!
# Programs that talk to devices

A program gives commands and goes on with the answers. A protocol says, from a
state of its own, which commands may be given and which answers may come. A
program is safe when it keeps to the protocol as long as the answers do. Safety
goes through the steps of a program, and what is safe keeps to the protocol in
every conversation. Commands may have a cost, and a program stays within a
bound when all its conversations do.
-/

namespace XanaduOS.DevicePrograms

/-- A program that gives commands and goes on with the answers. -/
inductive Prog (C : Type*) (A : C → Type) (α : Type)
  /-- The program has ended. -/
  | done (a : α)
  /-- It gives a command. -/
  | call (c : C) (next : A c → Prog C A α)

variable {C : Type*} {A : C → Type} {α β σ : Type}

/-- One program after another. -/
def Prog.bind : Prog C A α → (α → Prog C A β) → Prog C A β
  | done a,f => f a
  | call c next,f => call c fun a => (next a).bind f

instance : Monad (Prog C A) where
  pure := Prog.done
  bind := Prog.bind

/-- Give one command. -/
def ask (c : C) : Prog C A (A c) := .call c .done

/-- A command and its answer. -/
abbrev Exchange (C : Type*) (A : C → Type) := Σ c : C,A c

/-- A conversation leads from a program to what is left of it. -/
inductive Talk : Prog C A α → List (Exchange C A) → Prog C A α → Prop
  /-- Nothing was said. -/
  | nil (p : Prog C A α) : Talk p [] p
  /-- A command was given and answered. -/
  | cons {c : C} {next : A c → Prog C A α} {a : A c} {es : List (Exchange C A)}
      {q : Prog C A α} (tail : Talk (next a) es q) : Talk (.call c next) (⟨c,a⟩::es) q

/-- What a program and the devices may say. -/
structure Protocol (C : Type*) (A : C → Type) (σ : Type) where
  /-- Commands that the program may give. -/
  allowed : σ → C → Prop
  /-- Answers that may come. -/
  answered : σ → (c : C) → A c → Prop
  /-- The state after an exchange. -/
  next : σ → (c : C) → A c → σ

/-- The program keeps to the protocol while the answers do, and ends as asked. -/
def Safe (m : Protocol C A σ) : Prog C A α → σ → (α → σ → Prop) → Prop
  | .done a,s,post => post a s
  | .call c next,s,post =>
    m.allowed s c ∧ ∀ a,m.answered s c a → Safe m (next a) (m.next s c a) post

/-- The state after a conversation. -/
def Protocol.after (m : Protocol C A σ) (s : σ) : List (Exchange C A) → σ
  | [] => s
  | e::es => m.after (m.next s e.1 e.2) es

/-- Every answer of a conversation may come. -/
def Protocol.Honest (m : Protocol C A σ) : σ → List (Exchange C A) → Prop
  | _,[] => True
  | s,e::es => m.answered s e.1 e.2 ∧ m.Honest (m.next s e.1 e.2) es

/-- Every command of a conversation may be given. -/
def Protocol.Lawful (m : Protocol C A σ) : σ → List (Exchange C A) → Prop
  | _,[] => True
  | s,e::es => m.allowed s e.1 ∧ m.Lawful (m.next s e.1 e.2) es

/-- The commands of every conversation cost no more than a bound. -/
def Within (cost : C → ℕ) : ℕ → Prog C A α → Prop
  | _,.done _ => True
  | n,.call c next => cost c≤n ∧ ∀ a,Within cost (n-cost c) (next a)

/-- The conversation with devices that choose each answer from the state of the
protocol, and what the program ends with. -/
def Protocol.play (m : Protocol C A σ) (answer : σ → (c : C) → A c) :
    Prog C A α → σ → List (Exchange C A)×α
  | .done a,_ => ([],a)
  | .call c next,s =>
    let rest := m.play answer (next (answer s c)) (m.next s c (answer s c))
    (⟨c,answer s c⟩::rest.1,rest.2)

variable {m : Protocol C A σ} {p q : Prog C A α} {f : α → Prog C A β} {s : σ}
variable {post post' : α → σ → Prop} {cost : C → ℕ} {n k : ℕ}

/-! ## Safety -/

/-- A program that has ended. -/
@[simp] theorem safe_done {a : α} : Safe m (.done a : Prog C A α) s post ↔ post a s := Iff.rfl

/-- The same, as it is written in a sequence. -/
@[simp] theorem safe_pure {a : α} : Safe m (pure a : Prog C A α) s post ↔ post a s := Iff.rfl

/-- One command. -/
@[simp] theorem safe_ask {c : C} {post : A c → σ → Prop} :
    Safe m (ask c) s post ↔
      m.allowed s c ∧ ∀ a,m.answered s c a → post a (m.next s c a) := Iff.rfl

/-- One program after another is safe when the second is safe behind whatever
the first ends with. -/
@[simp] theorem safe_bind {post : β → σ → Prop} :
    Safe m (p>>=f) s post ↔ Safe m p s fun a t => Safe m (f a) t post := by
  change Safe m (p.bind f) s post ↔ _
  induction p generalizing s with
  | done a => exact Iff.rfl
  | call c next ih => exact and_congr_right fun _ => forall₂_congr fun a _ => ih a

/-- Less may be asked of the end. -/
theorem Safe.mono (h : Safe m p s post) (hpost : ∀ a t,post a t → post' a t) :
    Safe m p s post' := by
  induction p generalizing s with
  | done a => exact hpost a s h
  | call c next ih => exact ⟨h.1,fun a ha => ih a (h.2 a ha)⟩

/-- One program after another, with a condition between them. -/
theorem Safe.bind {mid : α → σ → Prop} {post : β → σ → Prop} (h : Safe m p s mid)
    (hf : ∀ a t,mid a t → Safe m (f a) t post) : Safe m (p>>=f) s post :=
  safe_bind.mpr (h.mono hf)

/-- A safe program keeps to the protocol in every conversation, and what is
left of it is safe. -/
theorem Safe.talk {es : List (Exchange C A)} (h : Safe m p s post) (htalk : Talk p es q)
    (honest : m.Honest s es) : m.Lawful s es ∧ Safe m q (m.after s es) post := by
  induction htalk generalizing s with
  | nil p => exact ⟨trivial,h⟩
  | cons tail ih =>
    obtain ⟨hlawful,hrest⟩ := ih (h.2 _ honest.1) honest.2
    exact ⟨⟨h.1,hlawful⟩,hrest⟩

/-- Every choice of answers makes a conversation that comes to an end. -/
theorem talk_play (answer : σ → (c : C) → A c) (p : Prog C A α) (s : σ) :
    Talk p (m.play answer p s).1 (.done (m.play answer p s).2) := by
  induction p generalizing s with
  | done a => exact .nil _
  | call c next ih => exact .cons (ih _ _)

/-- Where any answer may come, all are honest. -/
theorem honest_of_forall (h : ∀ s c a,m.answered s c a) (s : σ) (es : List (Exchange C A)) :
    m.Honest s es := by
  induction es generalizing s with
  | nil => trivial
  | cons e es ih => exact ⟨h s e.1 e.2,ih _⟩

/-- Answers that may come in every state are honest. -/
theorem honest_play {answer : σ → (c : C) → A c} (h : ∀ s c,m.answered s c (answer s c))
    (p : Prog C A α) (s : σ) : m.Honest s (m.play answer p s).1 := by
  induction p generalizing s with
  | done a => trivial
  | call c next ih => exact ⟨h s c,ih _ _⟩

/-! ## Costs -/

/-- More may be spent. -/
theorem Within.mono (h : Within cost n p) (hle : n≤k) : Within cost k p := by
  induction p generalizing n k with
  | done a => trivial
  | call c next ih =>
    exact ⟨h.1.trans hle,fun a => ih a (h.2 a) (Nat.sub_le_sub_right hle _)⟩

/-- One program after another spends what both spend. -/
theorem Within.bind (h : Within cost n p) (hf : ∀ a,Within cost k (f a)) :
    Within cost (n+k) (p>>=f) := by
  change Within cost (n+k) (p.bind f)
  induction p generalizing n with
  | done a => exact (hf a).mono (Nat.le_add_left k n)
  | call c next ih =>
    refine ⟨h.1.trans (Nat.le_add_right n k),fun a => ?_⟩
    rw [Nat.sub_add_comm h.1]
    exact ih a (h.2 a)

/-- A program before one that spends nothing. -/
theorem Within.bind_free (h : Within cost n p) (hf : ∀ a,Within cost 0 (f a)) :
    Within cost n (p>>=f) := by
  rw [←Nat.add_zero n]
  exact h.bind hf

/-- A command before a program spends its cost. -/
theorem within_ask {c : C} {f : A c → Prog C A β} (h : ∀ a,Within cost n (f a)) :
    Within cost (n+cost c) (ask c>>=f) :=
  ⟨Nat.le_add_left _ n,fun a => (Nat.add_sub_cancel n _).symm▸h a⟩

/-- A conversation costs no more than the bound. -/
theorem Within.talk {es : List (Exchange C A)} (h : Within cost n p) (htalk : Talk p es q) :
    (es.map fun e => cost e.1).sum≤n := by
  induction htalk generalizing n with
  | nil p => exact Nat.zero_le n
  | cons tail ih =>
    have hrest := ih (h.2 _)
    rw [List.map_cons,List.sum_cons]
    exact (Nat.add_le_add_left hrest _).trans (Nat.add_sub_of_le h.1).le

/-! ## Ports -/

/-- What a driver does with the machine. -/
inductive PortCmd
  /-- Read a byte from a port. -/
  | inb (port : ℕ)
  /-- Write a byte to a port. -/
  | outb (port : ℕ) (data : BitVec 8)
  /-- Sleep for some milliseconds. -/
  | sleepMs (delay : ℕ)
  /-- Sleep for some microseconds. -/
  | sleepUs (delay : ℕ)
  /-- Read a counter that interrupts advance. -/
  | ticks

/-- What comes back. -/
abbrev PortCmd.Answer : PortCmd → Type
  | .inb _ => BitVec 8
  | .ticks => ℕ
  | _ => Unit

/-- A driver's program. -/
abbrev PortProg := Prog PortCmd PortCmd.Answer

/-- Read a byte from a port. -/
def inb (port : ℕ) : PortProg (BitVec 8) := @ask PortCmd PortCmd.Answer (.inb port)

/-- Write a byte to a port. -/
def outb (port : ℕ) (data : BitVec 8) : PortProg Unit := @ask PortCmd PortCmd.Answer (.outb port data)

/-- Sleep for some milliseconds. -/
def sleepMs (delay : ℕ) : PortProg Unit := @ask PortCmd PortCmd.Answer (.sleepMs delay)

/-- Sleep for some microseconds. -/
def sleepUs (delay : ℕ) : PortProg Unit := @ask PortCmd PortCmd.Answer (.sleepUs delay)

/-- Read a counter that interrupts advance. -/
def readTicks : PortProg ℕ := @ask PortCmd PortCmd.Answer .ticks

/-- The answers of a device that gives this byte, while its counter stands. -/
def answering (data : BitVec 8) : (c : PortCmd) → c.Answer
  | .inb _ => data
  | .outb _ _ => ()
  | .sleepMs _ => ()
  | .sleepUs _ => ()
  | .ticks => (0 : ℕ)

/-- Cost of a command, from that of a port access and of a millisecond. -/
def weigh (access ms : ℕ) : PortCmd → ℕ
  | .inb _ => access
  | .outb _ _ => access
  | .sleepMs delay => ms*delay
  | _ => 0

/-- Port accesses of a command. -/
abbrev portCost : PortCmd → ℕ := weigh 1 0

/-- Milliseconds that a command sleeps. -/
abbrev sleepCost : PortCmd → ℕ := weigh 0 1

variable {m : Protocol PortCmd PortCmd.Answer σ}

/-- Reading a port, and going on with any byte. -/
theorem safe_inb {port : ℕ} {f : BitVec 8 → PortProg β} {post : β → σ → Prop} :
    Safe m (inb port>>=f) s post ↔ m.allowed s (.inb port) ∧
      ∀ v : BitVec 8,m.answered s (.inb port) v → Safe m (f v) (m.next s (.inb port) v) post :=
  Iff.rfl

/-- Writing a port. -/
theorem safe_outb {port : ℕ} {data : BitVec 8} {f : Unit → PortProg β} {post : β → σ → Prop} :
    Safe m (outb port data>>=f) s post ↔ m.allowed s (.outb port data) ∧
      (m.answered s (.outb port data) () →
        Safe m (f ()) (m.next s (.outb port data) ()) post) :=
  and_congr_right fun _ => ⟨fun h ha => h () ha,fun h _ ha => h ha⟩

/-- Sleeping. -/
theorem safe_sleepMs {delay : ℕ} {f : Unit → PortProg β} {post : β → σ → Prop} :
    Safe m (sleepMs delay>>=f) s post ↔ m.allowed s (.sleepMs delay) ∧
      (m.answered s (.sleepMs delay) () →
        Safe m (f ()) (m.next s (.sleepMs delay) ()) post) :=
  and_congr_right fun _ => ⟨fun h ha => h () ha,fun h _ ha => h ha⟩

/-- Reading a counter. -/
theorem safe_readTicks {f : ℕ → PortProg β} {post : β → σ → Prop} :
    Safe m (readTicks>>=f) s post ↔ m.allowed s .ticks ∧
      ∀ tick : ℕ,m.answered s .ticks tick → Safe m (f tick) (m.next s .ticks tick) post :=
  Iff.rfl

variable {access ms n : ℕ}

/-- Reading a port is one access. -/
theorem within_inb {port : ℕ} {f : BitVec 8 → PortProg β}
    (h : ∀ v : BitVec 8,Within (weigh access ms) n (f v)) :
    Within (weigh access ms) (n+access) (inb port>>=f) :=
  within_ask h

/-- Writing a port is one access. -/
theorem within_outb {port : ℕ} {data : BitVec 8} {f : Unit → PortProg β}
    (h : Within (weigh access ms) n (f ())) :
    Within (weigh access ms) (n+access) (outb port data>>=f) :=
  within_ask fun _ => h

/-- Sleeping takes its time. -/
theorem within_sleepMs {delay : ℕ} {f : Unit → PortProg β}
    (h : Within (weigh access ms) n (f ())) :
    Within (weigh access ms) (n+ms*delay) (sleepMs delay>>=f) :=
  within_ask fun _ => h

/-- Microseconds are not counted. -/
theorem within_sleepUs {delay : ℕ} {f : Unit → PortProg β}
    (h : Within (weigh access ms) n (f ())) :
    Within (weigh access ms) n (sleepUs delay>>=f) :=
  within_ask fun _ => h

/-- Sleeping at the end of a program. -/
theorem within_sleep (delay : ℕ) : Within (weigh access ms) (ms*delay) (sleepMs delay) :=
  ⟨le_rfl,fun _ => trivial⟩

/-- Reading a counter is free. -/
theorem within_readTicks {f : ℕ → PortProg β} (h : ∀ tick : ℕ,Within (weigh access ms) n (f tick)) :
    Within (weigh access ms) n (readTicks>>=f) :=
  within_ask h

end XanaduOS.DevicePrograms

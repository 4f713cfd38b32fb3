import XanaduOS.ChildCounts

/-!
# Streams over directories

A stream has room for as many entries as its directory's counter says, and the
first one goes to index one. Reading goes on to the end of the archive, so a
stream is written behind its room unless the counters of the entries behind the
directory, some of them never written, lead past the end before. In cleared
memory that happens only where nothing lies behind the directory's entry. What
is read stays inside the arrays.
-/

namespace XanaduOS.DirStreams

open Word32 Slibc InitialRamdisk InitrdListing Forests ChildCounts

/-- Entries that `initrd_opendir` allocates for a directory: the bytes of the
request behind the record's eight, by four. -/
def streamRoom (rd : Initrd) (inode : ℕ) : ℕ := (wadd 8 (wmul (rd.nodes inode).subEntNum 4)-8)/4

/-- Calls of `initrd_readdir`: the index of `dir->data` that is written and the
entry whose node and counter are used, for each call that finds one. -/
def readdirTrace (rd : Initrd) : ℕ → Dir → List (ℕ×ℕ)
  | 0,_ => []
  | calls+1,dir =>
    (initrdReaddir rd dir).elim (readdirTrace rd calls dir)
      fun r => (dir.offset,r.1)::readdirTrace rd calls r.2

/-- A stream over a directory stays inside its room and inside the arrays. -/
structure StreamBounded (rd : Initrd) (node : FsNode) : Prop where
  /-- Entries written. -/
  writes : ∀ calls,∀ a∈readdirTrace rd calls (initrdOpendir node),a.1<streamRoom rd node.inode
  /-- Entries read. -/
  reads : ∀ calls,∀ a∈readdirTrace rd calls (initrdOpendir node),a.2 < rd.entryNum

/-- Reading on from an offset keeps below a room, with these entries from there
to the end of the archive. A file's counter skips nothing, a directory's as many
of the entries behind it, whatever their level, as it has direct entries, and an
empty directory's as many as its memory held; none leads round the word's end. -/
def KeepsBelow (stale : ℕ → InitrdNode) (d room : ℕ) (s : FileTree) (o : ℕ) : Prop :=
  match s with
  | .nil => True
  | .leaf _ rest => o < room ∧ KeepsBelow stale d room rest (o+1)
  | .branch _ inside rest => o < room ∧ o+1+storedCount stale (d+o) inside<2^32 ∧
      KeepsBelow stale d room ((inside.append rest).skip (storedCount stale (d+o) inside))
        (o+1+storedCount stale (d+o) inside)
termination_by s.size
decreasing_by all_goals (simp [Forest.size]; try omega)

/-- Entries that the stream of a directory has room for: its counter's number,
modulo the words in 32 bits, unless the record in front does not fit then. -/
def roomOf (stale : ℕ → InitrdNode) (d : ℕ) (s : FileTree) : ℕ :=
  if storedCount stale d s%2^30+2<2^30 then storedCount stale d s%2^30 else 0

/-- No empty directory's memory held a counter that leads round the word's end. -/
def CountersSmall (stale : ℕ → InitrdNode) (f : FileTree) : Prop :=
  ∀ n,f.HasBranch 1 n .nil → (stale n).subEntNum+f.size+1<2^32

/-- Counters of loaded entries. -/
def countsOf (rd : Initrd) (j : ℕ) : ℕ := (rd.nodes j).subEntNum

variable {rd : Initrd} {counts : ℕ → ℕ} {d room o : ℕ} {stale : ℕ → InitrdNode} {s t u : FileTree}
  {i : ℕ}

/-! ## Runs of calls -/

/-- A call behind the end finds nothing. -/
theorem readdirTrace_none (hd : d < rd.entryNum) (hword : rd.entryNum<2^32) (calls : ℕ)
    (h : rd.entryNum≤d+o) : readdirTrace rd (calls+1) ⟨o,d⟩=readdirTrace rd calls ⟨o,d⟩ := by
  rw [readdirTrace,initrdReaddir_none hd hword h]
  rfl

/-- A call before it uses its offset and goes on to the next one. -/
theorem readdirTrace_some (hword : rd.entryNum<2^32) (calls : ℕ) (h : d+o < rd.entryNum) :
    readdirTrace rd (calls+1) ⟨o,d⟩=(o,d+o)::
      readdirTrace rd calls ⟨wadd o (wadd (countsOf rd (d+o)) 1),d⟩ := by
  rw [readdirTrace,initrdReaddir_some hword h]
  rfl

/-- What is read lies inside the arrays. -/
theorem readdirTrace_read (hd : d < rd.entryNum) (hword : rd.entryNum<2^32) (calls : ℕ) :
    ∀ a∈readdirTrace rd calls ⟨o,d⟩,a.2 < rd.entryNum := by
  induction calls generalizing o with
  | zero => simp [readdirTrace]
  | succ calls ih =>
    intro a ha
    rcases Nat.lt_or_ge (d+o) rd.entryNum with hlt|hge
    · rw [readdirTrace_some hword calls hlt] at ha
      rcases List.mem_cons.mp ha with rfl|ha
      · exact hlt
      · exact ih a ha
    · rw [readdirTrace_none hd hword calls hge] at ha
      exact ih a ha

/-- Counters of two forests in a row. -/
theorem counted_append {counts : ℕ → ℕ} : Counted stale counts (s.append t) i ↔
    Counted stale counts s i ∧ Counted stale counts t (i+s.size) := by
  induction s generalizing i with
  | nil => simp [Forest.append,Counted,Forest.size]
  | leaf _ rest ih =>
    rw [Forest.append,Counted,Counted,ih,Forest.size,Nat.add_assoc,and_assoc]
  | branch _ inside rest _ ih =>
    rw [Forest.append,Counted,Counted,ih,Forest.size,
      (by omega : i+1+inside.size+rest.size=i+(1+inside.size+rest.size)),and_assoc,and_assoc]

/-- Counters of the entries that are left. -/
theorem counted_skip {counts : ℕ → ℕ} (h : Counted stale counts s i) (k : ℕ) :
    Counted stale counts (s.skip k) (i+k) := by
  induction k generalizing s i with
  | zero => exact h
  | succ k ih =>
    rw [(by omega : i+(k+1)=i+1+k)]
    cases s with
    | nil => trivial
    | leaf _ rest => exact ih (i:=i+1) h.2
    | branch _ inside rest => exact ih (i:=i+1) (counted_append.mpr h.2)

/-- Offset behind an entry whose counter does not lead round the word's end. -/
theorem offset_next {c : ℕ} (h : o+1+c<2^32) : wadd o (wadd c 1)=o+1+c := by
  rw [wadd_eq (show c+1<2^32 by omega),wadd_eq (by omega)]
  omega

/-- Offsets stay below a room that the counters keep below. -/
theorem KeepsBelow.writes (hd : d < rd.entryNum) (hword : rd.entryNum<2^32)
    (hc : Counted stale (countsOf rd) s (d+o)) (hs : s.size=rd.entryNum-(d+o))
    (h : KeepsBelow stale d room s o) (calls : ℕ) :
    ∀ a∈readdirTrace rd calls ⟨o,d⟩,a.1 < room := by
  induction calls generalizing s o with
  | zero => simp [readdirTrace]
  | succ calls ih =>
    intro a ha
    cases s with
    | nil =>
      rw [Forest.size] at hs
      rw [readdirTrace_none hd hword calls (by omega)] at ha
      exact ih hc hs h a ha
    | leaf _ rest =>
      obtain ⟨hcount,hrest⟩ := hc
      rw [KeepsBelow] at h
      rw [Forest.size] at hs
      rw [readdirTrace_some hword calls (by omega),hcount,offset_next (by omega)] at ha
      rcases List.mem_cons.mp ha with rfl|ha
      · exact h.1
      · exact ih hrest (by omega) h.2 a ha
    | branch _ inside rest =>
      have hbehind := counted_append.mpr hc.2
      rw [KeepsBelow] at h
      rw [Forest.size] at hs
      rw [readdirTrace_some hword calls (by omega),hc.1,offset_next h.2.1] at ha
      rcases List.mem_cons.mp ha with rfl|ha
      · exact h.1
      · refine ih ?_ ?_ h.2.2 a ha
        · rw [(by omega : d+(o+1+storedCount stale (d+o) inside)=
            d+o+1+storedCount stale (d+o) inside)]
          exact counted_skip hbehind _
        · rw [Forest.size_skip,Forest.size_append]
          omega

/-- A room that all offsets stay below is one that the counters keep below. The
induction is on the entries left. -/
theorem keepsBelow_of_writes (hword : rd.entryNum<2^32)
    (hsmall : ∀ n,s.HasBranch (d+o) n .nil → (stale n).subEntNum + rd.entryNum<2^32)
    (hc : Counted stale (countsOf rd) s (d+o)) (hs : s.size=rd.entryNum-(d+o))
    (h : ∀ calls,∀ a∈readdirTrace rd calls ⟨o,d⟩,a.1 < room) : KeepsBelow stale d room s o := by
  obtain ⟨left,hleft⟩ : ∃ left,s.size≤left := ⟨_,Nat.le_refl _⟩
  induction left generalizing s o with
  | zero =>
    rw [Forest.size_eq_zero.mp (Nat.le_zero.mp hleft),KeepsBelow]
    trivial
  | succ left ih =>
    cases s with
    | nil =>
      rw [KeepsBelow]
      trivial
    | leaf _ rest =>
      obtain ⟨hcount,hrest⟩ := hc
      rw [Forest.size] at hs hleft
      have hsome := fun calls => readdirTrace_some hword calls (show d+o < rd.entryNum by omega)
      rw [hcount,offset_next (by omega)] at hsome
      rw [KeepsBelow]
      refine ⟨h 1 (o,d+o) (by rw [hsome]; exact List.mem_cons_self),
        ih hsmall hrest (by omega) (fun calls a ha => ?_) (by omega)⟩
      exact h (calls+1) a (by rw [hsome]; exact List.mem_cons_of_mem _ ha)
    | branch _ inside rest =>
      have hbehind := counted_append.mpr hc.2
      rw [Forest.size] at hs hleft
      have hle := Forest.count_le_size inside
      have hnext : o+1+storedCount stale (d+o) inside<2^32 := by
        rw [storedCount]
        split
        · next hnil =>
          have := hsmall (d+o) (Or.inl ⟨rfl,hnil.symm⟩)
          omega
        · omega
      have hsome := fun calls => readdirTrace_some hword calls (show d+o < rd.entryNum by omega)
      rw [hc.1,offset_next hnext] at hsome
      rw [KeepsBelow]
      have heq : d+(o+1+storedCount stale (d+o) inside)=d+o+1+storedCount stale (d+o) inside := by
        omega
      refine ⟨h 1 (o,d+o) (by rw [hsome]; exact List.mem_cons_self),hnext,
        ih (fun n hn => ?_) ?_ ?_ (fun calls a ha => ?_) ?_⟩
      · rw [heq] at hn
        exact hsmall n (Or.inr (Forest.hasBranch_append.mp hn.of_skip))
      · rw [heq]
        exact counted_skip hbehind _
      · rw [Forest.size_skip,Forest.size_append]
        omega
      · exact h (calls+1) a (by rw [hsome]; exact List.mem_cons_of_mem _ ha)
      · rw [Forest.size_skip,Forest.size_append]
        omega

/-! ## Counters of a tree -/

/-- Every empty directory's memory held a zero counter. -/
def Cleared (stale : ℕ → InitrdNode) (t : FileTree) (i : ℕ) : Prop :=
  ∀ n,t.HasBranch i n .nil → (stale n).subEntNum=0

/-- A directory with such entries has the counter of its contents. -/
theorem Cleared.storedCount_eq {label : List Char} {inside rest : FileTree}
    (h : Cleared stale (.branch label inside rest) i) :
    storedCount stale i inside=inside.count :=
  storedCount_eq_iff.mpr fun hs => h i (Or.inl ⟨rfl,hs.symm⟩)

/-- A counter leads no further than to the end of the tree it is in. -/
theorem next_le (hc : Counted stale counts t i) (hz : Cleared stale t i) {j : ℕ} (hlo : i≤j)
    (hhi : j < i+t.size) : j+1+counts j ≤ i+t.size := by
  induction t generalizing i with
  | nil => exact absurd hhi (Nat.not_lt.mpr hlo)
  | leaf _ rest ih =>
    obtain ⟨hcount,hrest⟩ := hc
    rw [Forest.size] at hhi ⊢
    rcases hlo.eq_or_lt with rfl|hlt
    · omega
    · have := ih hrest hz hlt (by omega)
      omega
  | branch label inside rest ihi ihr =>
    obtain ⟨hcount,hinside,hrest⟩ := hc
    rw [hz.storedCount_eq] at hcount
    have hle := Forest.count_le_size inside
    rw [Forest.size] at hhi ⊢
    rcases hlo.eq_or_lt with rfl|hlt
    · omega
    rcases Nat.lt_or_ge j (i+1+inside.size) with hin|hbehind
    · have := ihi hinside (fun n hn => hz n (Or.inr (Or.inl hn))) hlt hin
      omega
    · have := ihr hrest (fun n hn => hz n (Or.inr (Or.inr hn))) hbehind (by omega)
      omega

/-- Cleared memory behind some entries. -/
theorem Cleared.skip (h : Cleared stale t i) (k : ℕ) : Cleared stale (t.skip k) (i+k) :=
  fun n hn => h n hn.of_skip

/-- In cleared memory the counters of a forest lead to its end and no further. The
induction is on the entries left. -/
theorem KeepsBelow.tree_end (hz : Cleared stale t (d+o))
    (h : KeepsBelow stale d room (t.append u) o) : KeepsBelow stale d room u (o+t.size) := by
  obtain ⟨left,hleft⟩ : ∃ left,t.size≤left := ⟨_,Nat.le_refl _⟩
  induction left generalizing t o with
  | zero =>
    obtain rfl := Forest.size_eq_zero.mp (Nat.le_zero.mp hleft)
    exact h
  | succ left ih =>
    cases t with
    | nil => exact h
    | leaf _ rest =>
      rw [Forest.append,KeepsBelow] at h
      rw [Forest.size] at hleft ⊢
      rw [←Nat.add_assoc]
      exact ih (o:=o+1) hz h.2 (by omega)
    | branch label inside rest =>
      have hle := Forest.count_le_size inside
      rw [Forest.size] at hleft
      rw [Forest.append,KeepsBelow,hz.storedCount_eq,←Forest.append_assoc,
        Forest.skip_append (by rw [Forest.size_append]; omega)] at h
      have hzs : Cleared stale ((inside.append rest).skip inside.count) (d+o+1+inside.count) :=
        Cleared.skip (fun n hn => hz n (Or.inr (Forest.hasBranch_append.mp hn))) _
      rw [(by omega : d+o+1+inside.count=d+(o+1+inside.count))] at hzs
      have hend := ih hzs h.2.2 (by rw [Forest.size_skip,Forest.size_append]; omega)
      rw [Forest.size_skip,Forest.size_append] at hend
      rw [Forest.size,(by omega : o+(1+inside.size+rest.size)=
        o+1+inside.count+(inside.size+rest.size-inside.count))]
      exact hend

/-- In cleared memory a room has to be larger than the entries of a top level. -/
theorem KeepsBelow.count_le (hz : Cleared stale t (d+o)) (hne : t≠.nil)
    (h : KeepsBelow stale d room (t.append u) o) : o+t.count ≤ room := by
  induction t generalizing o with
  | nil => exact absurd rfl hne
  | leaf _ rest ih =>
    rw [Forest.append,KeepsBelow] at h
    rw [Forest.count]
    by_cases hnil : rest=.nil
    · rw [hnil,Forest.count]
      exact h.1
    · have := ih (o:=o+1) hz hnil h.2
      omega
  | branch label inside rest _ ih =>
    have hle := Forest.count_le_size inside
    rw [Forest.append,KeepsBelow,hz.storedCount_eq,Forest.skip_append hle] at h
    rw [Forest.count]
    by_cases hnil : rest=.nil
    · rw [hnil,Forest.count]
      exact h.1
    · have hzs := Cleared.skip (t:=inside) (fun n hn => hz n (Or.inr (Or.inl hn))) inside.count
      rw [(by omega : d+o+1+inside.count=d+(o+1+inside.count))] at hzs
      have hend := h.2.2.tree_end hzs
      rw [Forest.size_skip,(by omega : o+1+inside.count+(inside.size-inside.count)=
        o+1+inside.size)] at hend
      have := ih (o:=o+1+inside.size) (fun n hn => hz n (Or.inr (Or.inr (by
        rw [(by omega : d+o+1+inside.size=d+(o+1+inside.size))]; exact hn)))) hnil hend
      omega

/-- In cleared memory a room for the direct entries is kept only where nothing is
behind the directory. -/
theorem KeepsBelow.eq_nil (hz : Cleared stale t (d+1)) (hroom : room≤t.count)
    (h : KeepsBelow stale d room (t.append u) 1) : t.append u=.nil := by
  by_cases hne : t=.nil
  · subst hne
    cases u with
    | nil => rfl
    | leaf _ rest =>
      rw [Forest.append,KeepsBelow] at h
      exact absurd (h.1.trans_le hroom) (by rw [Forest.count]; decide)
    | branch _ inside rest =>
      rw [Forest.append,KeepsBelow] at h
      exact absurd (h.1.trans_le hroom) (by rw [Forest.count]; decide)
  · have := h.count_le hz hne
    omega

/-! ## Loaded archives -/

/-- Room of a stream by its directory's counter. -/
theorem streamRoom_eq (rd : Initrd) (inode : ℕ) : streamRoom rd inode=
    if countsOf rd inode%2^30+2<2^30 then countsOf rd inode%2^30 else 0 := by
  rw [streamRoom]
  change (wadd 8 (wmul (countsOf rd inode) 4)-8)/4=_
  unfold wadd wmul
  split <;> omega

/-- A stream has room for no more entries than its counter says. -/
theorem streamRoom_le (rd : Initrd) (inode : ℕ) : streamRoom rd inode≤countsOf rd inode := by
  have hmod := Nat.mod_le (countsOf rd inode) (2^30)
  rw [streamRoom_eq]
  split <;> omega

variable {mem : ℕ → Char} {junk : ℕ → InitrdNode} {f : FileTree} {addr rootHeader : ℕ}

/-- A loaded directory: its contents come first behind it, and its counter is the
one stored for them. -/
theorem loaded_directory (h : ArchiveValid mem f addr) (stale junk : ℕ → InitrdNode)
    (rootHeader : ℕ) (hdir : IsDirectory f d s) :
    (∃ t,f.skip d=s.append t) ∧ d≤f.size ∧
      (f.skip d=.nil ∨ countsOf (initrdBuildTree junk (loaded mem stale rootHeader f addr)
        (f.size+1)) d=storedCount stale d s) ∧
      (EmptiesCleared stale f → Cleared stale s (d+1) ∧
        countsOf (initrdBuildTree junk (loaded mem stale rootHeader f addr) (f.size+1)) d=s.count) := by
  rcases hdir with ⟨rfl,rfl⟩|hb
  · have hcount : countsOf (initrdBuildTree junk (loaded mem stale rootHeader s addr)
        (s.size+1)) 0=s.count := by
      rw [countsOf,loaded_nodes]
      rfl
    refine ⟨⟨.nil,(Forest.append_nil s).symm⟩,Nat.zero_le _,?_,fun hz => ⟨hz,hcount⟩⟩
    by_cases hnil : s=.nil
    · exact Or.inl hnil
    · rw [hcount,storedCount,if_neg hnil]
      exact Or.inr rfl
  · have hcount := (loaded_counted stale h junk rootHeader).directory hb
    have hrange := hb.range
    refine ⟨hb.skip_eq,by omega,Or.inr hcount,fun hz => ⟨fun n hn => hz n (hb.trans hn),?_⟩⟩
    exact hcount.trans (storedCount_eq_iff.mpr fun hs => hz d (hs▸hb))

/-- The stream of a directory is bounded where its writes stay in its room. -/
theorem streamBounded_iff_writes {junkFs : ℕ → FsNode} (hd : d < rd.entryNum)
    (hword : rd.entryNum<2^32) : StreamBounded rd (initrdBuildFs mem junkFs rd d) ↔
      ∀ calls,∀ a∈readdirTrace rd calls ⟨1,d⟩,a.1<streamRoom rd d := by
  have hnode : initrdOpendir (initrdBuildFs mem junkFs rd d)=⟨1,d⟩ ∧
      (initrdBuildFs mem junkFs rd d).inode=d := by
    rw [initrdBuildFs,if_pos hd]
    exact ⟨rfl,rfl⟩
  refine ⟨fun hb => ?_,fun hw => ⟨?_,?_⟩⟩
  · have := hb.writes
    rwa [hnode.1,hnode.2] at this
  · rwa [hnode.1,hnode.2]
  · rw [hnode.1]
    exact readdirTrace_read hd hword

/-- The stream of a loaded directory is bounded where the counters of the entries
behind the directory keep below its room; exactly there, unless an empty
directory's counter leads round the word's end; and with cleared memory exactly
where the directory is the archive's last entry. -/
theorem streamBounded_iff {mem : ℕ → Char} {stale junk : ℕ → InitrdNode} {junkFs : ℕ → FsNode}
    {f : FileTree} {addr rootHeader : ℕ} (h : ArchiveValid mem f addr) :
    (∃ fuel rd,loadInitrd mem stale junk rootHeader addr fuel=some rd) ∧
      ∀ fuel rd,loadInitrd mem stale junk rootHeader addr fuel=some rd →
        ∀ d s,IsDirectory f d s →
          (KeepsBelow stale d (roomOf stale d s) (f.skip d) 1 →
            StreamBounded rd (initrdBuildFs mem junkFs rd d)) ∧
          (CountersSmall stale f → StreamBounded rd (initrdBuildFs mem junkFs rd d) →
            KeepsBelow stale d (roomOf stale d s) (f.skip d) 1) ∧
          (EmptiesCleared stale f →
            (StreamBounded rd (initrdBuildFs mem junkFs rd d) ↔ d=f.size)) := by
  obtain ⟨fuel,hload⟩ := loadInitrd_archive stale h junk rootHeader
  refine ⟨⟨fuel,_,hload⟩,fun fuel' rd hload' d s hdir => ?_⟩
  obtain rfl := loadInitrd_unique hload' hload
  obtain ⟨⟨t,ht⟩,hle,hstored,hclear⟩ := loaded_directory h stale junk rootHeader hdir
  have hcounted := counted_skip (loaded_counted stale h junk rootHeader) d
  rw [Nat.add_comm 1 d] at hcounted
  set rd := initrdBuildTree junk (loaded mem stale rootHeader f addr) (f.size+1)
  have hentries : rd.entryNum=f.size+1 := rfl
  have hword := h.size_lt
  have hsize : (f.skip d).size=rd.entryNum-(d+1) := by
    rw [Forest.size_skip,hentries]
    omega
  have hkeep : StreamBounded rd (initrdBuildFs mem junkFs rd d) ↔
      ∀ calls,∀ a∈readdirTrace rd calls ⟨1,d⟩,a.1<streamRoom rd d :=
    streamBounded_iff_writes (by omega) (by omega)
  have hroom : KeepsBelow stale d (roomOf stale d s) (f.skip d) 1 ↔
      KeepsBelow stale d (streamRoom rd d) (f.skip d) 1 := by
    rcases hstored with hnil|hcount
    · rw [hnil,KeepsBelow,KeepsBelow]
    · rw [streamRoom_eq,hcount,roomOf]
  have hwrites : KeepsBelow stale d (streamRoom rd d) (f.skip d) 1 →
      StreamBounded rd (initrdBuildFs mem junkFs rd d) :=
    fun hk => hkeep.mpr (hk.writes (by omega) (by omega) hcounted hsize)
  have hback : CountersSmall stale f → StreamBounded rd (initrdBuildFs mem junkFs rd d) →
      KeepsBelow stale d (streamRoom rd d) (f.skip d) 1 := by
    intro hsmall hb
    refine keepsBelow_of_writes (by omega) (fun n hn => ?_) hcounted hsize (hkeep.mp hb)
    rw [Nat.add_comm d 1] at hn
    have := hsmall n hn.of_skip
    omega
  refine ⟨fun hk => hwrites (hroom.mp hk),fun hsmall hb => hroom.mpr (hback hsmall hb),fun hz => ?_⟩
  have hsmall : CountersSmall stale f := fun n hn => by
    rw [hz n hn]
    omega
  obtain ⟨hcleared,hcount⟩ := hclear hz
  have hlast : f.skip d=.nil ↔ d=f.size := by
    rw [←Forest.size_eq_zero,Forest.size_skip]
    omega
  rw [←hlast]
  constructor
  · intro hb
    have hk := hback hsmall hb
    rw [ht] at hk ⊢
    exact hk.eq_nil hcleared (hcount▸streamRoom_le rd d)
  · intro hnil
    refine hwrites ?_
    rw [hnil,KeepsBelow]
    trivial

/-- The streams of the sample archive. -/
theorem streamBounded_sample :
    (∃ fuel rd,loadInitrd sampleMem zeroNode zeroNode 0x10000 0 fuel=some rd) ∧
      ∀ fuel rd,loadInitrd sampleMem zeroNode zeroNode 0x10000 0 fuel=some rd →
        ∀ d s,IsDirectory sampleTree d s →
          (KeepsBelow zeroNode d (roomOf zeroNode d s) (sampleTree.skip d) 1 →
            StreamBounded rd (initrdBuildFs sampleMem zeroFs rd d)) ∧
          (CountersSmall zeroNode sampleTree → StreamBounded rd (initrdBuildFs sampleMem zeroFs rd d) →
            KeepsBelow zeroNode d (roomOf zeroNode d s) (sampleTree.skip d) 1) ∧
          (EmptiesCleared zeroNode sampleTree →
            (StreamBounded rd (initrdBuildFs sampleMem zeroFs rd d) ↔ d=3)) :=
  streamBounded_iff sample_valid

/-- The sample's directory has one file: its node is stored at index one of a
stream with room for one. -/
theorem streamBounded_counterexample :
    ¬∀ (mem : ℕ → Char) (stale junk : ℕ → InitrdNode) (junkFs : ℕ → FsNode) (f : FileTree)
      (addr rootHeader fuel : ℕ) (rd : Initrd) (d : ℕ) (s : FileTree),ArchiveValid mem f addr →
      loadInitrd mem stale junk rootHeader addr fuel=some rd → IsDirectory f d s →
      StreamBounded rd (initrdBuildFs mem junkFs rd d) := by
  intro hclaim
  obtain ⟨fuel,hload⟩ := loadInitrd_archive zeroNode sample_valid zeroNode 0x10000
  have hdir : IsDirectory sampleTree 1 (.leaf ['b'] .nil) := Or.inr (Or.inl ⟨rfl,rfl⟩)
  have hbounded := hclaim sampleMem zeroNode zeroNode zeroFs sampleTree 0 0x10000 fuel _ 1 _
    sample_valid hload hdir
  obtain ⟨-,-,-,hclear⟩ := loaded_directory sample_valid zeroNode zeroNode 0x10000 hdir
  have hcounter := (hclear fun n hn => rfl).2
  set rd := initrdBuildTree zeroNode (loaded sampleMem zeroNode 0x10000 sampleTree 0)
    (sampleTree.size+1)
  have hentries : rd.entryNum=4 := rfl
  have hwrites := (streamBounded_iff_writes (by omega) (by omega)).mp hbounded 1 (1,2)
  rw [readdirTrace_some (by omega) 0 (by omega)] at hwrites
  have hlt := hwrites List.mem_cons_self
  have hroom := streamRoom_le rd 1
  rw [hcounter] at hroom
  exact absurd (hlt.trans_le hroom) (by decide)

end XanaduOS.DirStreams

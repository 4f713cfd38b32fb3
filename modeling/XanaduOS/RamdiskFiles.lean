import XanaduOS.DirStreams
import XanaduOS.FileReads
import XanaduOS.InitrdLookup

/-!
# Files of the initial ramdisk

A lookup reads a directory's stream until an entry has the component's name. The
stream goes down into directories that hold more than their direct entries, and
on to the end of the archive, but it comes to every direct entry. So a lookup
follows the exact names as long as, at each component, the first entry behind
the directory whose name begins with the component is the right one. A file that
is found so is read whole by one call. What streams store behind their room is
left out.
-/

namespace XanaduOS.RamdiskFiles

open Word32 Slibc InitialRamdisk InitrdListing InitrdLoading InitrdLookup Forests
open ChildCounts DirStreams FileReads

/-! ## Lookup through streams -/

/-- The entry loop of `initrd_get_node`: read entries until one has the
component's name. -/
def findEntry (rd : Initrd) (fs : ℕ → FsNode) (curName : List Char) (curNameLen : ℕ) :
    ℕ → Dir → Option (Option ℕ)
  | 0,_ => none
  | fuel+1,dir =>
    (initrdReaddir rd dir).elim (some none) fun r =>
      if entNameEq (fs r.1) curName curNameLen then some (some r.1)
      else findEntry rd fs curName curNameLen fuel r.2

/-- Search a node for a component. A null operation opens nothing. A file's `opendir`
and `closedir` are not written: unless the first is null, its search has no result. -/
def searchNode (rd : Initrd) (fs : ℕ → FsNode) (fuel n : ℕ) (curName : List Char)
    (curNameLen : ℕ) : Option (Option ℕ) :=
  if (fs n).opendir=.null then some none
  else if (fs n).opendir=.initrd ∧ (fs n).type=.dir then
    findEntry rd fs curName curNameLen fuel (initrdOpendir (fs n))
  else none

/-- The component loop of `initrd_get_node`. -/
def getNodeLoop (rd : Initrd) (fs : ℕ → FsNode) :
    ℕ → List Char → ℕ → Option ℕ → Option (Option ℕ)
  | 0,_,_,_ => none
  | fuel+1,curName,fnameLen,curRoot =>
    let curNameLen := parseFileDirName curName fnameLen
    if curNameLen=0 then some curRoot
    else
      match curRoot with
      | none => some none
      | some n => do
        let found ← searchNode rd fs fuel n curName curNameLen
        getNodeLoop rd fs fuel (curName.drop curNameLen) (fnameLen-curNameLen) found

/-- Find the node of an absolute path, from the root; a null result is `some none`. -/
def rootGetNodeFs (rd : Initrd) (fs : ℕ → FsNode) (fuel : ℕ) (name : List Char) :
    Option (Option ℕ) :=
  if charAt name 0≠ '/' then some none
  else getNodeLoop rd fs fuel (name.drop 1) (strnlen (name.drop 1) 256) (some 0)

/-- Searching a stream ends with this result. -/
def Finds (rd : Initrd) (fs : ℕ → FsNode) (curName : List Char) (curNameLen : ℕ) (dir : Dir)
    (r : Option ℕ) : Prop :=
  ∃ fuel,findEntry rd fs curName curNameLen fuel dir=some r

section Streams

variable {rd : Initrd} {fs : ℕ → FsNode} {curName : List Char} {curNameLen d : ℕ} {r : Option ℕ}
variable {stale : ℕ → InitrdNode} {t : FileTree} {i : ℕ}

/-- A search that ended does so with more iterations. -/
theorem findEntry_mono {fuel fuel' : ℕ} (hle : fuel≤fuel') {dir : Dir}
    (h : findEntry rd fs curName curNameLen fuel dir=some r) :
    findEntry rd fs curName curNameLen fuel' dir=some r := by
  induction fuel generalizing fuel' dir with
  | zero => simp [findEntry] at h
  | succ fuel ih =>
    obtain ⟨fuel',rfl⟩ : ∃ k,fuel'=k+1 := ⟨fuel'-1,by omega⟩
    rw [findEntry] at h ⊢
    cases hread : initrdReaddir rd dir with
    | none =>
      rw [hread] at h
      exact h
    | some e =>
      rw [hread] at h
      simp only [Option.elim_some] at h ⊢
      by_cases heq : entNameEq (fs e.1) curName curNameLen
      · rwa [if_pos heq] at h ⊢
      · rw [if_neg heq] at h ⊢
        exact ih (by omega) h

/-- At the end of the archive nothing is found. -/
theorem Finds.ended {p : ℕ} (hword : rd.entryNum<2^32) (hd : d<p) (hin : d < rd.entryNum)
    (hp : rd.entryNum≤p) : Finds rd fs curName curNameLen ⟨p-d,d⟩ none := by
  refine ⟨1,?_⟩
  rw [findEntry,initrdReaddir_none hin hword (by omega)]
  rfl

/-- An entry that has the name is found. -/
theorem Finds.found {p : ℕ} (hword : rd.entryNum<2^32) (hd : d<p) (hp : p < rd.entryNum)
    (heq : entNameEq (fs p) curName curNameLen) :
    Finds rd fs curName curNameLen ⟨p-d,d⟩ (some p) := by
  refine ⟨1,?_⟩
  rw [findEntry,initrdReaddir_some hword (by omega),Option.elim_some,Nat.add_sub_cancel' hd.le]
  exact if_pos heq

/-- Another entry is skipped by its counter. -/
theorem Finds.skip {p : ℕ} (hword : rd.entryNum<2^32) (hd : d<p) (hp : p < rd.entryNum)
    (hnext : p+1+countsOf rd p ≤ rd.entryNum) (hne : ¬entNameEq (fs p) curName curNameLen)
    (h : Finds rd fs curName curNameLen ⟨p+1+countsOf rd p-d,d⟩ r) :
    Finds rd fs curName curNameLen ⟨p-d,d⟩ r := by
  obtain ⟨fuel,hfuel⟩ := h
  have hadd : wadd (p-d) (wadd (rd.nodes p).subEntNum 1)=p+1+countsOf rd p-d := by
    change wadd (p-d) (wadd (countsOf rd p) 1)=_
    rw [wadd_eq (show countsOf rd p+1<2^32 by omega),wadd_eq (by omega)]
    omega
  refine ⟨fuel+1,?_⟩
  rw [findEntry,initrdReaddir_some hword (by omega),Option.elim_some,Nat.add_sub_cancel' hd.le,
    if_neg hne,hadd]
  exact hfuel

/-- A stream passes the entries of a tree, from a place on, if none has the name.
The induction is on the entries left. -/
theorem Finds.pass {p : ℕ} (hc : Counted stale (countsOf rd) t i) (hz : Cleared stale t i)
    (hword : rd.entryNum<2^32) (hend : i+t.size ≤ rd.entryNum) (hd : d<p) (hlo : i≤p)
    (hhi : p ≤ i+t.size) (hne : ∀ k,p≤k → k < i+t.size → ¬entNameEq (fs k) curName curNameLen)
    (h : Finds rd fs curName curNameLen ⟨i+t.size-d,d⟩ r) :
    Finds rd fs curName curNameLen ⟨p-d,d⟩ r := by
  obtain ⟨left,hleft⟩ : ∃ left,i+t.size-p≤left := ⟨_,Nat.le_refl _⟩
  induction left generalizing p with
  | zero =>
    obtain rfl : p=i+t.size := by omega
    exact h
  | succ left ih =>
    rcases hhi.eq_or_lt with rfl|hlt
    · exact h
    have hle := next_le hc hz hlo hlt
    refine Finds.skip hword hd (by omega) (by omega) (hne p (Nat.le_refl p) hlt) ?_
    exact ih (by omega) (by omega) hle (fun k hk => hne k (by omega)) (by omega)

/-- A stream finds an entry of the top level that is the first with the name. The
induction is on the tree. -/
theorem Finds.child {m : ℕ} (hc : Counted stale (countsOf rd) t i) (hz : Cleared stale t i)
    (hword : rd.entryNum<2^32) (hend : i+t.size ≤ rd.entryNum) (hd : d < i)
    (hm : m∈t.numbers i) (heq : entNameEq (fs m) curName curNameLen)
    (hne : ∀ k,i≤k → k < m → ¬entNameEq (fs k) curName curNameLen) :
    Finds rd fs curName curNameLen ⟨i-d,d⟩ (some m) := by
  induction t generalizing i with
  | nil => cases hm
  | leaf label rest ih =>
    obtain ⟨hcount,hrest⟩ := hc
    rw [Forest.size] at hend
    rcases List.mem_cons.mp hm with rfl|hm
    · exact Finds.found hword hd (by omega) heq
    · have hrange := Forest.range_of_mem_numbers hm
      have hcount' : countsOf rd i=0 := hcount
      refine Finds.skip hword hd (by omega) (by omega) (hne i (Nat.le_refl i) (by omega)) ?_
      rw [hcount']
      exact ih hrest hz (by omega) (by omega) hm fun k hk => hne k (by omega)
  | branch label inside rest _ ih =>
    obtain ⟨hcount,hinside,hrest⟩ := hc
    rw [hz.storedCount_eq] at hcount
    have hcs := Forest.count_le_size inside
    rw [Forest.size] at hend
    rcases List.mem_cons.mp hm with rfl|hm
    · exact Finds.found hword hd (by omega) heq
    · have hrange := Forest.range_of_mem_numbers hm
      refine Finds.skip hword hd (by omega) (by omega) (hne i (Nat.le_refl i) (by omega)) ?_
      rw [hcount]
      -- the counter leads into the directory or behind it
      refine Finds.pass hinside (fun n hn => hz n (Or.inr (Or.inl hn))) hword (by omega) (by omega)
        (by omega) (by omega) (fun k hk hk' => hne k (by omega) (by omega)) ?_
      exact ih hrest (fun n hn => hz n (Or.inr (Or.inr hn))) (by omega) (by omega) hm
        fun k hk => hne k (by omega)

end Streams

/-! ## Directories -/

/-- What lookups rely on: a tree's counters and nodes. -/
structure Searchable (stale : ℕ → InitrdNode) (rd : Initrd) (fs : ℕ → FsNode) (f : FileTree) :
    Prop where
  /-- One entry for the root and each one of the tree. -/
  entries : rd.entryNum=f.size+1
  /-- Their number is a word. -/
  word : f.size+1<2^32
  /-- Counters of the entries. -/
  counted : Counted stale (countsOf rd) f 1
  /-- Empty directories count nothing. -/
  cleared : Cleared stale f 1
  /-- Names are valid. -/
  names : NamesValid f
  /-- Nodes of the entries. -/
  built : Built fs f 1
  /-- The root is a directory. -/
  root : (fs 0).type=.dir ∧ (fs 0).opendir=.initrd
  /-- Nodes hold their places. -/
  inode : ∀ n < rd.entryNum,(fs n).inode=n

section Directories

variable {stale : ℕ → InitrdNode} {rd : Initrd} {fs : ℕ → FsNode} {f s : FileTree} {i n : ℕ}

/-- Nodes of a tree have the names and types of its entries. -/
theorem built_entry (h : Built fs f i) (hnames : NamesValid f) {j : ℕ} {e : List Char×Bool}
    (he : f.entries[j]?=some e) :
    (fs (i+j)).name=e.1 ∧ decide ((fs (i+j)).type=.dir)=e.2 ∧ NameValid e.1 := by
  induction f generalizing i j with
  | nil => simp [Forest.entries] at he
  | leaf label rest ih =>
    obtain ⟨hname,htype,hrest⟩ := h
    rw [Forest.entries] at he
    cases j with
    | zero =>
      obtain rfl := Option.some.inj he
      exact ⟨hname,by rw [Nat.add_zero,htype]; rfl,hnames.1⟩
    | succ j =>
      rw [List.getElem?_cons_succ] at he
      rw [Nat.add_comm j 1,←Nat.add_assoc]
      exact ih hrest hnames.2 he
  | branch label inside rest ihi ihr =>
    obtain ⟨hname,htype,-,hinside,hrest⟩ := h
    rw [Forest.entries] at he
    cases j with
    | zero =>
      obtain rfl := Option.some.inj he
      exact ⟨hname,by rw [Nat.add_zero,htype]; rfl,hnames.1⟩
    | succ j =>
      rw [List.getElem?_cons_succ] at he
      rw [Nat.add_comm j 1,←Nat.add_assoc]
      rcases Nat.lt_or_ge j inside.size with hlt|hge
      · rw [List.getElem?_append_left (by rwa [Forest.length_entries])] at he
        exact ihi hinside hnames.2.1 he
      · rw [List.getElem?_append_right (by rwa [Forest.length_entries]),
          Forest.length_entries] at he
        have hplace : i+1+j=i+1+inside.size+(j-inside.size) := by omega
        rw [hplace]
        exact ihr hrest hnames.2.2 he

/-- Nodes of branches are directories that open. -/
theorem built_branch (h : Built fs f i) (hb : f.HasBranch i n s) :
    (fs n).type=.dir ∧ (fs n).opendir=.initrd := by
  induction f generalizing i with
  | nil => exact hb.elim
  | leaf _ rest ih => exact ih h.2.2 hb
  | branch _ inside rest ihi ihr =>
    obtain ⟨-,htype,hopen,hinside,hrest⟩ := h
    rcases hb with ⟨rfl,rfl⟩|hb|hb
    · exact ⟨htype,hopen⟩
    · exact ihi hinside hb
    · exact ihr hrest hb

/-- A directory of a searchable tree: its node, its counters and its place. -/
theorem Searchable.directory (h : Searchable stale rd fs f) (hdir : IsDirectory f n s) :
    ((fs n).type=.dir ∧ (fs n).opendir=.initrd) ∧ Counted stale (countsOf rd) s (n+1) ∧
      Cleared stale s (n+1) ∧ n+s.size≤f.size := by
  rcases hdir with ⟨rfl,rfl⟩|hb
  · exact ⟨h.root,h.counted,h.cleared,by omega⟩
  · obtain ⟨hcs,-,hhi⟩ := h.counted.branch hb
    exact ⟨built_branch h.built hb,hcs,fun k hk => h.cleared k (hb.trans hk),by omega⟩

/-- The kernel compares the name of a tree's entry with a component. -/
theorem Searchable.compares (h : Searchable stale rd fs f) {item : PathItem}
    {rest : List Char} (hitem : ItemValid item rest) (hnul : NUL∉item.1) (tail : List Char)
    {k : ℕ} (hk : 0<k) (hin : k < rd.entryNum) : ∃ e,f.entries[k-1]?=some e ∧
      (entNameEq (fs k) (itemText item++rest++tail) (itemText item).length ↔
        beginsWith item e.1 e.2=true) := by
  have hentries := h.entries
  have hlt : k-1<f.entries.length := by
    rw [Forest.length_entries]
    omega
  have he := List.getElem?_eq_getElem hlt
  obtain ⟨hname,htype,hvalid⟩ := built_entry h.built h.names he
  rw [Nat.add_sub_cancel' (by omega : 1≤k)] at hname htype
  refine ⟨_,he,?_⟩
  rw [InitrdLookup.entNameEq_iff hitem hnul (hname.symm▸hvalid.slash) tail,hname,htype]

/-- A directory is searched by its stream, which begins behind it. -/
theorem Searchable.searches (h : Searchable stale rd fs f) (hin : n < rd.entryNum)
    (hdir : (fs n).type=.dir ∧ (fs n).opendir=.initrd) {curName : List Char} {curNameLen : ℕ}
    {r : Option ℕ} (hr : Finds rd fs curName curNameLen ⟨n+1-n,n⟩ r) :
    ∃ fuel,searchNode rd fs fuel n curName curNameLen=some r := by
  obtain ⟨fuel,hfuel⟩ := hr
  rw [Nat.add_sub_cancel_left] at hfuel
  refine ⟨fuel,?_⟩
  rw [searchNode,if_neg (by rw [hdir.2]; decide),if_pos hdir.symm,initrdOpendir,h.inode n hin]
  exact hfuel

/-- Searching a directory finds the entry that the exact name picks, if that is the
first one behind the directory whose name begins with the component, and nothing
if the name picks nothing and no entry behind begins so. -/
theorem Searchable.search (h : Searchable stale rd fs f) (hdir : IsDirectory f n s)
    {item : PathItem} {rest : List Char} (hitem : ItemValid item rest) (hnul : NUL∉item.1)
    (tail : List Char) (hfirst : Forest.first (beginsWith item) (f.entries.drop n) (n+1)=
      (s.pick (sameName item) (n+1)).map Prod.fst) :
    ∃ fuel,searchNode rd fs fuel n (itemText item++rest++tail) (itemText item).length=
      some ((s.pick (sameName item) (n+1)).map Prod.fst) := by
  obtain ⟨hnode,hcs,hzs,hsize⟩ := h.directory hdir
  have hentries := h.entries
  have hwordf := h.word
  have hword : rd.entryNum<2^32 := by omega
  -- entries behind the directory, by their numbers
  have hbehind : ∀ k,n<k → k < rd.entryNum → ∃ e,(f.entries.drop n)[k-(n+1)]?=some e ∧
      (entNameEq (fs k) (itemText item++rest++tail) (itemText item).length ↔
        beginsWith item e.1 e.2=true) := by
    intro k hk hk'
    obtain ⟨e,he,hiff⟩ := h.compares hitem hnul tail (by omega) hk'
    refine ⟨e,?_,hiff⟩
    rw [List.getElem?_drop,(by omega : n+(k-(n+1))=k-1)]
    exact he
  refine h.searches (by omega) hnode ?_
  cases hp : s.pick (sameName item) (n+1) with
  | none =>
    rw [hp] at hfirst
    refine Finds.pass h.counted h.cleared hword (by omega) (Nat.lt_succ_self n) (by omega)
      (by omega) (fun k hk hk' heq => ?_)
      (Finds.ended hword (by omega) (by omega) (by omega))
    obtain ⟨e,he,hiff⟩ := hbehind k (by omega) (by omega)
    have hno := Forest.first_eq_none hfirst he
    exact absurd (hno.symm.trans (hiff.mp heq)) Bool.false_ne_true
  | some picked =>
    obtain ⟨m,u⟩ := picked
    rw [hp] at hfirst
    obtain ⟨k,rfl,⟨e,he,haccept⟩,hfront⟩ := Forest.first_eq_some hfirst
    have hm := Forest.mem_numbers_of_pick hp
    have hrange := Forest.range_of_mem_numbers hm
    obtain ⟨e',he',hiff⟩ := hbehind (n+1+k) (by omega) (by omega)
    rw [Nat.add_sub_cancel_left,he] at he'
    obtain rfl := Option.some.inj he'
    refine Finds.child hcs hzs hword (by omega) (Nat.lt_succ_self n) hm (hiff.mpr haccept)
      fun j hj hj' heq => ?_
    obtain ⟨e',he',hiff'⟩ := hbehind j (by omega) (by omega)
    have hno := hfront (j-(n+1)) (by omega) e' he'
    exact absurd (hno.symm.trans (hiff'.mp heq)) Bool.false_ne_true

/-! ## Paths -/

/-- A search of a node that ended does so with more iterations. -/
theorem searchNode_mono {fuel fuel' : ℕ} (hle : fuel≤fuel') {curName : List Char}
    {curNameLen : ℕ} {r : Option ℕ} (h : searchNode rd fs fuel n curName curNameLen=some r) :
    searchNode rd fs fuel' n curName curNameLen=some r := by
  rw [searchNode] at h ⊢
  split at h
  case isTrue hnull => rwa [if_pos hnull]
  case isFalse hnull =>
    rw [if_neg hnull]
    split at h
    case isTrue hopen =>
      rw [if_pos hopen]
      exact findEntry_mono hle h
    case isFalse hopen => cases h

/-- A lookup that ended does so with more iterations. -/
theorem getNodeLoop_mono {fuel fuel' : ℕ} (hle : fuel≤fuel') {curName : List Char}
    {fnameLen : ℕ} {cur r : Option ℕ} (h : getNodeLoop rd fs fuel curName fnameLen cur=some r) :
    getNodeLoop rd fs fuel' curName fnameLen cur=some r := by
  induction fuel generalizing fuel' curName fnameLen cur with
  | zero => simp [getNodeLoop] at h
  | succ fuel ih =>
    obtain ⟨fuel',rfl⟩ : ∃ k,fuel'=k+1 := ⟨fuel'-1,by omega⟩
    simp only [getNodeLoop] at h ⊢
    split at h
    case isTrue hend => rwa [if_pos hend]
    case isFalse hend =>
      rw [if_neg hend]
      cases cur with
      | none => exact h
      | some n =>
        obtain ⟨found,hfound,h⟩ := Option.bind_eq_some_iff.mp h
        exact Option.bind_eq_some_iff.mpr
          ⟨found,searchNode_mono (by omega) hfound,ih (by omega) h⟩

/-- A component's text is not empty. -/
theorem itemText_pos {item : PathItem} {rest : List Char} (hitem : ItemValid item rest) :
    0<(itemText item).length := by
  rw [List.length_pos_iff]
  intro hnil
  have hparts := List.append_eq_nil_iff.mp hnil
  rw [hitem.nonempty hparts.1] at hparts
  simp at hparts

/-- At the end of the path the node reached is returned. -/
theorem getNodeLoop_end (curName : List Char) (cur : Option ℕ) :
    getNodeLoop rd fs 1 curName 0 cur=some cur := by
  simp [getNodeLoop,parseFileDirName]

/-- One round of the component loop. -/
theorem getNodeLoop_item {item : PathItem} {rest : List Char} (hitem : ItemValid item rest)
    (tail : List Char) {fuel fuel' : ℕ} {found r : Option ℕ}
    (hfound : searchNode rd fs fuel n (itemText item++rest++tail) (itemText item).length=
      some found)
    (h : getNodeLoop rd fs fuel' (rest++tail) rest.length found=some r) :
    ∃ fuel,getNodeLoop rd fs fuel (itemText item++rest++tail) (itemText item++rest).length
      (some n)=some r := by
  have hpos := (itemText_pos hitem).ne'
  have hdrop : (itemText item++rest++tail).drop (itemText item).length=rest++tail := by
    rw [List.append_assoc,List.drop_left]
  have hlen : (itemText item++rest).length-(itemText item).length=rest.length := by
    rw [List.length_append,Nat.add_sub_cancel_left]
  refine ⟨max fuel fuel'+1,?_⟩
  simp only [getNodeLoop,parseFileDirName_item hitem tail,if_neg hpos,hdrop,hlen]
  exact Option.bind_eq_some_iff.mpr ⟨found,searchNode_mono (Nat.le_max_left _ _) hfound,
    getNodeLoop_mono (Nat.le_max_right _ _) h⟩

/-- The component loop follows the exact names as long as they are straight. The
induction is on the length of what is left of the path. -/
theorem Searchable.follows (h : Searchable stale rd fs f) (k : ℕ) :
    ∀ {text : List Char} {n : ℕ} {s : FileTree},text.length≤k → NUL∉text → IsDirectory f n s →
    Forest.straight sameName beginsWith f n s (splitPath text)=true → ∀ tail,∃ fuel,
    getNodeLoop rd fs fuel (text++tail) text.length (some n)=
      some (s.walk sameName n (splitPath text)) := by
  induction k with
  | zero =>
    intro text n s hlen _ _ _ tail
    obtain rfl := List.eq_nil_of_length_eq_zero (Nat.le_zero.mp hlen)
    exact ⟨1,getNodeLoop_end tail _⟩
  | succ k ih =>
    intro text n s hlen hnul hdir hstraight tail
    by_cases hne : text=[]
    · subst hne
      exact ⟨1,getNodeLoop_end tail _⟩
    obtain ⟨item,rest,rfl,hitem⟩ := exists_item hne
    rw [List.mem_append,not_or] at hnul
    have hnul' : NUL∉item.1 := fun hmem => hnul.1 (List.mem_append_left _ hmem)
    rw [splitPath_item hitem,Forest.straight,Bool.and_eq_true,decide_eq_true_eq] at hstraight
    obtain ⟨hfirst,hafter⟩ := hstraight
    obtain ⟨fuel,hfound⟩ := h.search hdir hitem hnul' tail hfirst
    rw [splitPath_item hitem,Forest.walk_cons]
    cases hp : s.pick (sameName item) (n+1) with
    | none =>
      rw [hp] at hfound
      have hnone : getNodeLoop rd fs 1 (rest++tail) rest.length none=some none := by
        simp [getNodeLoop]
      exact getNodeLoop_item hitem tail hfound hnone
    | some picked =>
      obtain ⟨m,u⟩ := picked
      rw [hp] at hfound hafter
      obtain ⟨w,slash⟩ := item
      cases slash with
      | false =>
        obtain rfl := hitem.last rfl
        exact getNodeLoop_item hitem tail hfound (getNodeLoop_end _ _)
      | true =>
        have hb := Forest.HasBranch.of_pick (p:=sameName (w,true)) (by simp [sameName]) hp
        have hdir' : IsDirectory f m u := by
          rcases hdir with ⟨rfl,rfl⟩|hdir
          · exact Or.inr hb
          · exact Or.inr (hdir.trans hb)
        have hpos := itemText_pos hitem
        rw [List.length_append] at hlen
        obtain ⟨fuel',hrun⟩ := ih (by omega) hnul.2 hdir' hafter tail
        exact getNodeLoop_item hitem tail hfound hrun

end Directories

section Loaded

variable {mem : ℕ → Char} {stale junk : ℕ → InitrdNode} {junkFs : ℕ → FsNode} {f : FileTree}
variable {addr rootHeader : ℕ}

/-- Nodes of a loaded archive. -/
theorem loaded_fs (mem : ℕ → Char) (stale junk : ℕ → InitrdNode) (junkFs : ℕ → FsNode)
    (rootHeader : ℕ) (f : FileTree) (addr : ℕ) {j : ℕ} (hj : j<f.size+1) :
    initrdBuildFs mem junkFs (initrdBuildTree junk (loaded mem stale rootHeader f addr)
      (f.size+1)) j=
      buildNode mem (junkFs j) (((loaded mem stale rootHeader f addr)[j]?).getD (junk j)) j := by
  rw [initrdBuildFs,if_pos (show j<(initrdBuildTree junk (loaded mem stale rootHeader f addr)
    (f.size+1)).entryNum from hj),loaded_nodes]

/-- A loaded archive whose empty directories' memory held zero counters. -/
theorem loaded_searchable (h : ArchiveValid mem f addr) (hz : EmptiesCleared stale f)
    (junk : ℕ → InitrdNode) (junkFs : ℕ → FsNode) (rootHeader : ℕ) :
    Searchable stale (initrdBuildTree junk (loaded mem stale rootHeader f addr) (f.size+1))
      (initrdBuildFs mem junkFs (initrdBuildTree junk (loaded mem stale rootHeader f addr)
        (f.size+1))) f where
  entries := rfl
  word := h.size_lt
  counted := loaded_counted stale h junk rootHeader
  cleared := hz
  names := h.names
  built := by
    refine parsed_built stale junkFs h.names (Or.inl rfl) (by simp) h.archived fun j hj => ?_
    have hlt : j<(parsed mem stale f addr 1).length := by
      rw [parsed_length]
      exact hj
    rw [loaded_fs mem stale junk junkFs rootHeader f addr (by omega),loaded,Nat.add_comm 1 j,
      List.getElem?_cons_succ,List.getElem?_eq_getElem hlt]
    rfl
  root := by
    rw [loaded_fs mem stale junk junkFs rootHeader f addr (by omega)]
    exact ⟨rfl,rfl⟩
  inode := fun j hj => by
    rw [loaded_fs mem stale junk junkFs rootHeader f addr hj]
    rfl

/-- Lookups in a searchable tree. -/
theorem Searchable.lookup {rd : Initrd} {fs : ℕ → FsNode} (h : Searchable stale rd fs f)
    {components : List (List Char)} {closed : Bool} (hvalid : ∀ c∈components,NameValid c)
    (hlen : (pathBody components closed).length≤256)
    (hstraight : Forest.straight sameName beginsWith f 0 f (pathItems components closed)=true) :
    ∃ fuel,rootGetNodeFs rd fs fuel (pathText components closed)=
      some (InitrdLookup.lookup f components closed) := by
  have hnul := nul_notMem_pathBody hvalid closed
  rw [←splitPath_pathBody hvalid closed] at hstraight
  obtain ⟨fuel,hrun⟩ := h.follows _ (Nat.le_refl _) hnul (Or.inl ⟨rfl,rfl⟩) hstraight []
  have hchar : ¬charAt (pathText components closed) 0≠ '/' := not_not.mpr rfl
  have hstop := strnlen_text hnul 256 [] rfl
  rw [List.append_nil] at hstop hrun
  rw [Nat.min_eq_left hlen] at hstop
  refine ⟨fuel,?_⟩
  rw [rootGetNodeFs,if_neg hchar,pathText,List.drop_one,List.tail_cons,hstop,hrun,
    splitPath_pathBody hvalid closed]
  rfl

/-- In a loaded archive whose empty directories' memory held zero counters, a lookup
finds the node of the exact names, or none when they lead nowhere, if at each
component the first entry behind the directory, at any depth, whose name begins
with the component is the one of that name, or there is none of either. -/
theorem rootGetNodeFs_follows (h : ArchiveValid mem f addr) (hz : EmptiesCleared stale f) :
    (∃ fuel rd,loadInitrd mem stale junk rootHeader addr fuel=some rd) ∧
      ∀ fuel rd,loadInitrd mem stale junk rootHeader addr fuel=some rd →
        ∀ (components : List (List Char)) (closed : Bool),(∀ c∈components,NameValid c) →
          (pathBody components closed).length≤256 →
          Forest.straight sameName beginsWith f 0 f (pathItems components closed)=true →
          ∃ fuel,rootGetNodeFs rd (initrdBuildFs mem junkFs rd) fuel (pathText components closed)=
            some (InitrdLookup.lookup f components closed) := by
  obtain ⟨fuel,hload⟩ := loadInitrd_archive stale h junk rootHeader
  refine ⟨⟨fuel,_,hload⟩,fun fuel' rd hload' components closed hvalid hlen hstraight => ?_⟩
  obtain rfl := loadInitrd_unique hload' hload
  exact (loaded_searchable h hz junk junkFs rootHeader).lookup hvalid hlen hstraight

/-- The file in the sample archive's directory. -/
theorem rootGetNodeFs_follows_sample : ∃ fuel rd,
    loadInitrd sampleMem zeroNode zeroNode 0x10000 0 fuel=some rd ∧
    ∃ fuel,rootGetNodeFs rd (initrdBuildFs sampleMem zeroFs rd) fuel ['/','a','/','b']=
      some (some 2) := by
  obtain ⟨⟨fuel,rd,hload⟩,hfind⟩ := @rootGetNodeFs_follows sampleMem zeroNode zeroNode zeroFs
    sampleTree 0 0x10000 sample_valid fun _ _ => rfl
  refine ⟨fuel,rd,hload,hfind fuel rd hload [['a'],['b']] false ?_ (by decide) (by decide)⟩
  intro c hc
  rcases List.mem_pair.mp hc with rfl|rfl
  · exact ⟨by decide,by decide,by decide⟩
  · exact ⟨by decide,by decide,by decide⟩

end Loaded

/-! ## Archives with contents -/

/-- A name and what is stored under it. -/
structure Item where
  /-- The name. -/
  name : List Char
  /-- The bytes. -/
  content : List Char

/-- Files and directories with what is stored under them. -/
abbrev Volume := Forest Item

/-- The records of an entry: one of attributes, and one with its name, its size and
what is stored. -/
structure EntryStored (mem : ℕ → Char) (addr : ℕ) (fullName content : List Char)
    (header behind : ℕ) : Prop where
  /-- The record of attributes. -/
  attributes : ∃ size,Record mem addr size header
  /-- The entry's record. -/
  record : Record mem header content.length behind
  /-- Its name. -/
  named : Named mem header fullName
  /-- What is stored. -/
  stored : (List.range content.length).map (fun k => mem (header+HEADER_SIZE+k))=content

/-- The records of a volume between two addresses, each directory before what is
inside. -/
def Stored (mem : ℕ → Char) : List Char → Volume → ℕ → ℕ → Prop
  | _,.nil,addr,stop => addr=stop
  | path,.leaf item rest,addr,stop => ∃ header behind,
      EntryStored mem addr (path++item.name) item.content header behind ∧
      Stored mem path rest behind stop
  | path,.branch item inside rest,addr,stop => ∃ header behind mid,
      EntryStored mem addr (path++item.name++['/']) item.content header behind ∧
      Stored mem (path++item.name++['/']) inside behind mid ∧ Stored mem path rest mid stop

/-- An archive of a volume, closed by a record without a name below the top of the
address space. -/
structure VolumeValid (mem : ℕ → Char) (vol : Volume) (addr stop : ℕ) : Prop where
  /-- Names are valid. -/
  names : NamesValid (vol.map Item.name)
  /-- The records are those of the volume. -/
  stored : Stored mem [] vol addr stop
  /-- The record behind them has no name. -/
  ended : Ended mem stop
  /-- It lies in the address space. -/
  top : stop+HEADER_SIZE≤2^32

/-- What a file holds, found by its exact names. -/
def contentOf (vol : Volume) (components : List (List Char)) : Option (List Char) :=
  (lookup (vol.map Item.name) components false).bind fun n =>
    if n=0 then none
    else (vol.entries[n-1]?).bind fun e => if e.2 then none else some e.1.content

/-- An entry of the parser that leads to a content between two addresses. -/
structure Placed (mem : ℕ → Char) (addr stop : ℕ) (content : List Char) (ent : InitrdNode) :
    Prop where
  /-- Its size. -/
  size : ent.size=content.length
  /-- Its bytes. -/
  stored : (List.range content.length).map (fun k => mem (ent.data+k))=content
  /-- It begins behind the first address. -/
  low : addr<ent.data
  /-- It ends before the second. -/
  high : ent.data+content.length ≤ stop

section Volumes

variable {mem : ℕ → Char} {stale : ℕ → InitrdNode} {vol : Volume} {path : List Char}
variable {addr stop header behind : ℕ}

/-- The parser goes over an entry's records. -/
theorem EntryStored.goes {fullName content : List Char}
    (h : EntryStored mem addr fullName content header behind) (hlt : behind<2^32) :
    recordBehind mem addr=header ∧ behindEntry mem addr=behind ∧ addr+HEADER_SIZE≤header ∧
      header+HEADER_SIZE≤behind := by
  obtain ⟨size,hattr⟩ := h.attributes
  have hbelow := hattr.lt_behind
  have hbelow' := h.record.lt_behind
  have hfirst := hattr.recordBehind_eq (by omega)
  refine ⟨hfirst,?_,hbelow,hbelow'⟩
  rw [behindEntry,hfirst,h.record.recordBehind_eq hlt]

/-- The parser's entry leads to what is stored. -/
theorem EntryStored.placed {fullName content : List Char}
    (h : EntryStored mem addr fullName content header behind) (hlt : behind<2^32)
    (s : InitrdNode) : Placed mem addr behind content (entryAt mem s (recordBehind mem addr)) := by
  obtain ⟨hheader,-,hlow,hhigh⟩ := h.goes hlt
  have hbehind := h.record.behind_eq
  simp only [HEADER_SIZE] at hlow hhigh hbehind
  have hdata : wadd header HEADER_SIZE=header+HEADER_SIZE :=
    wadd_eq (by simp only [HEADER_SIZE]; omega)
  rw [hheader]
  refine ⟨h.record.sizeField.fileSize_eq h.record.size_lt,?_,?_,?_⟩
  · change (List.range content.length).map (fun k => mem (wadd header HEADER_SIZE+k))=content
    rw [hdata]
    exact h.stored
  · change addr<wadd header HEADER_SIZE
    rw [hdata]
    simp only [HEADER_SIZE]
    omega
  · change wadd header HEADER_SIZE+content.length≤behind
    rw [hdata]
    simp only [HEADER_SIZE]
    omega

/-- Wider bounds. -/
theorem Placed.mono {addr' stop' : ℕ} {content : List Char} {ent : InitrdNode}
    (h : Placed mem addr stop content ent) (hlow : addr'≤addr) (hhigh : stop ≤ stop') :
    Placed mem addr' stop' content ent :=
  ⟨h.size,h.stored,hlow.trans_lt h.low,h.high.trans hhigh⟩

/-- A volume's records lie in order. -/
theorem Stored.le (h : Stored mem path vol addr stop) : addr ≤ stop := by
  induction vol generalizing path addr stop with
  | nil => exact h.le
  | leaf item rest ih =>
    obtain ⟨header,behind,hentry,hrest⟩ := h
    obtain ⟨size,hattr⟩ := hentry.attributes
    have := hattr.lt_behind
    have := hentry.record.lt_behind
    have := ih hrest
    omega
  | branch item inside rest ihi ihr =>
    obtain ⟨header,behind,mid,hentry,hinside,hrest⟩ := h
    obtain ⟨size,hattr⟩ := hentry.attributes
    have := hattr.lt_behind
    have := hentry.record.lt_behind
    have := ihi hinside
    have := ihr hrest
    omega

/-- The records of a volume are the archive of its tree of names. -/
theorem Stored.archived (h : Stored mem path vol addr stop) (hstop : stop<2^32) :
    Archived mem path (vol.map Item.name) addr ∧ stopOf mem (vol.map Item.name) addr=stop := by
  induction vol generalizing path addr stop with
  | nil => exact ⟨trivial,h⟩
  | leaf item rest ih =>
    obtain ⟨header,behind,hentry,hrest⟩ := h
    have hle := hrest.le
    obtain ⟨hheader,hbehind,-⟩ := hentry.goes (hle.trans_lt hstop)
    obtain ⟨size,hattr⟩ := hentry.attributes
    obtain ⟨harch,hend⟩ := ih hrest hstop
    simp only [Forest.map,Archived,stopOf,hheader,hbehind]
    exact ⟨⟨hattr.named,hentry.named,harch⟩,hend⟩
  | branch item inside rest ihi ihr =>
    obtain ⟨header,behind,mid,hentry,hinside,hrest⟩ := h
    have hmid : mid<2^32 := hrest.le.trans_lt hstop
    obtain ⟨hheader,hbehind,-⟩ := hentry.goes (hinside.le.trans_lt hmid)
    obtain ⟨size,hattr⟩ := hentry.attributes
    obtain ⟨harch,hend⟩ := ihi hinside hmid
    obtain ⟨harch',hend'⟩ := ihr hrest hstop
    simp only [Forest.map,Archived,stopOf,hheader,hbehind,hend]
    exact ⟨⟨hattr.named,hentry.named,harch,harch'⟩,hend'⟩

/-- The parser's entries lead to what a volume stores. -/
theorem Stored.placed (h : Stored mem path vol addr stop) (hstop : stop<2^32) {i j : ℕ}
    {e : Item×Bool} (he : vol.entries[j]?=some e) :
    ∃ ent,(parsed mem stale (vol.map Item.name) addr i)[j]?=some ent ∧
      Placed mem addr stop e.1.content ent := by
  induction vol generalizing path addr stop i j with
  | nil => simp [Forest.entries] at he
  | leaf item rest ih =>
    obtain ⟨header,behind,hentry,hrest⟩ := h
    have hle := hrest.le
    have hlt : behind<2^32 := hle.trans_lt hstop
    obtain ⟨-,hbehind,hlow,hhigh⟩ := hentry.goes hlt
    rw [Forest.map,parsed,hbehind]
    cases j with
    | zero =>
      obtain rfl := Option.some.inj he
      exact ⟨_,rfl,(hentry.placed hlt _).mono (Nat.le_refl addr) hle⟩
    | succ j =>
      obtain ⟨ent,hent,hplaced⟩ := ih (i:=i+1) hrest hstop he
      exact ⟨ent,hent,hplaced.mono (by omega) (Nat.le_refl stop)⟩
  | branch item inside rest ihi ihr =>
    obtain ⟨header,behind,mid,hentry,hinside,hrest⟩ := h
    have hle := hinside.le
    have hle' := hrest.le
    have hmid : mid<2^32 := hle'.trans_lt hstop
    have hlt : behind<2^32 := hle.trans_lt hmid
    obtain ⟨-,hbehind,hlow,hhigh⟩ := hentry.goes hlt
    rw [Forest.map,parsed,hbehind,(hinside.archived hmid).2]
    cases j with
    | zero =>
      obtain rfl := Option.some.inj he
      have hplaced := hentry.placed hlt (stale i)
      exact ⟨_,rfl,⟨hplaced.size,hplaced.stored,hplaced.low,hplaced.high.trans (hle.trans hle')⟩⟩
    | succ j =>
      rw [List.getElem?_cons_succ]
      rw [Forest.entries,List.getElem?_cons_succ] at he
      have hsize : (parsed mem stale (inside.map Item.name) behind (i+1)).length=inside.size := by
        rw [parsed_length,Forest.size_map]
      rcases Nat.lt_or_ge j inside.size with hin|hout
      · rw [List.getElem?_append_left (by rwa [Forest.length_entries])] at he
        rw [List.getElem?_append_left (by rwa [hsize])]
        obtain ⟨ent,hent,hplaced⟩ := ihi (i:=i+1) hinside hmid he
        exact ⟨ent,hent,hplaced.mono (by omega) hle'⟩
      · rw [List.getElem?_append_right (by rwa [Forest.length_entries]),
          Forest.length_entries] at he
        rw [List.getElem?_append_right (by rwa [hsize]),hsize,Forest.size_map]
        obtain ⟨ent,hent,hplaced⟩ := ihr (i:=i+1+inside.size) hrest hstop he
        exact ⟨ent,hent,hplaced.mono (by omega) (Nat.le_refl stop)⟩

/-- What an exact component picks in a volume: the component is a name, its text fits
a record behind the path, and what is inside lies under it. -/
theorem Stored.picks (h : Stored mem path vol addr stop) (hnames : NamesValid (vol.map Item.name))
    {item : PathItem} {i m : ℕ} {t : FileTree}
    (hp : (vol.map Item.name).pick (sameName item) i=some (m,t)) :
    NameValid item.1 ∧ (path++itemText item).length≤100 ∧
      ∃ inside addr' stop',t=Forest.map Item.name inside ∧ NamesValid t ∧
        Stored mem (path++item.1++['/']) inside addr' stop' := by
  obtain ⟨w,slash⟩ := item
  induction vol generalizing addr stop i with
  | nil => simp [Forest.map,Forest.pick] at hp
  | leaf item rest ih =>
    obtain ⟨header,behind,hentry,hrest⟩ := h
    rw [Forest.map,Forest.pick] at hp
    split at hp
    case isTrue hsame =>
      rw [sameName,Bool.and_eq_true,decide_eq_true_eq] at hsame
      obtain ⟨rfl,hkind⟩ := hsame
      obtain ⟨rfl,rfl⟩ := Prod.mk.inj (Option.some.inj hp)
      have hlen := hentry.named.length_le
      refine ⟨hnames.1,?_,.nil,0,0,rfl,trivial,rfl⟩
      cases slash with
      | false => simpa [itemText] using hlen
      | true => simp at hkind
    case isFalse => exact ih hrest hnames.2 hp
  | branch item inside rest _ ih =>
    obtain ⟨header,behind,mid,hentry,hinside,hrest⟩ := h
    rw [Forest.map,Forest.pick] at hp
    split at hp
    case isTrue hsame =>
      rw [sameName,Bool.and_eq_true,decide_eq_true_eq] at hsame
      obtain ⟨rfl,-⟩ := hsame
      obtain ⟨rfl,rfl⟩ := Prod.mk.inj (Option.some.inj hp)
      have hlen := hentry.named.length_le
      refine ⟨hnames.1,?_,inside,behind,mid,rfl,hnames.2.1,hinside⟩
      simp only [List.length_append,List.length_singleton] at hlen
      cases slash with
      | false =>
        simp only [itemText,List.length_append,Bool.false_eq_true,if_false,List.length_nil]
        omega
      | true =>
        simp only [itemText,List.length_append,if_true,List.length_singleton]
        omega
    case isFalse => exact ih hrest hnames.2.2 hp

/-- A path that leads somewhere in a volume is made of names and fits a record. The
induction is on the components. -/
theorem Stored.path_fits (h : Stored mem path vol addr stop)
    (hnames : NamesValid (vol.map Item.name)) {components : List (List Char)} {closed : Bool}
    {n x : ℕ} (hwalk : (vol.map Item.name).walk sameName n (pathItems components closed)=some x)
    (hpath : path.length≤100) :
    (∀ c∈components,NameValid c) ∧ path.length+(pathBody components closed).length≤100 := by
  induction components generalizing path vol addr stop n with
  | nil => exact ⟨by simp,hpath⟩
  | cons c cs ih =>
    cases cs with
    | nil =>
      rw [pathItems,Forest.walk_cons] at hwalk
      obtain ⟨picked,hp,-⟩ := Option.bind_eq_some_iff.mp hwalk
      obtain ⟨hvalid,hlen,-⟩ := h.picks hnames hp
      have hbody : pathBody [c] closed=itemText (c,closed)++[] := rfl
      rw [List.length_append] at hlen
      rw [hbody,List.append_nil]
      exact ⟨by simpa using hvalid,hlen⟩
    | cons c' cs =>
      rw [pathItems,Forest.walk_cons] at hwalk
      obtain ⟨picked,hp,hwalk⟩ := Option.bind_eq_some_iff.mp hwalk
      obtain ⟨hvalid,hlen,inside,addr',stop',htree,hinside,hstored⟩ := h.picks hnames hp
      rw [htree] at hwalk hinside
      have hitem : itemText (c,true)=c++['/'] := rfl
      rw [hitem,←List.append_assoc] at hlen
      obtain ⟨hvalid',hlen'⟩ := ih hstored hinside hwalk hlen
      have hbody : pathBody (c::c'::cs) closed=itemText (c,true)++pathBody (c'::cs) closed := rfl
      refine ⟨List.forall_mem_cons.mpr ⟨hvalid,hvalid'⟩,?_⟩
      rw [hbody,hitem]
      simp only [List.length_append,List.length_singleton] at hlen' ⊢
      omega

/-- A volume's archive is one of its tree of names. -/
theorem VolumeValid.archiveValid (h : VolumeValid mem vol addr stop) :
    ArchiveValid mem (vol.map Item.name) addr := by
  have htop := h.top
  simp only [HEADER_SIZE] at htop
  obtain ⟨harch,hend⟩ := h.stored.archived (by omega)
  exact ⟨h.names,harch,hend.symm▸h.ended⟩

/-! ## Reading a file whole -/

/-- Moves one after another. -/
theorem moveBytes_append (mem : ℕ → Char) (moves moves' : List (ℕ×ℕ)) :
    moveBytes mem (moves++moves')=moveBytes (moveBytes mem moves) moves' := by
  induction moves generalizing mem with
  | nil => rfl
  | cons move moves ih => exact ih _

/-- Bytes moved to a buffer that lies apart from where they come from. -/
theorem moveBytes_range (mem : ℕ → Char) {buf src n : ℕ} (hbuf : buf+n≤2^32)
    (hsrc : src+n≤2^32) (hapart : buf+n ≤ src ∨ src+n≤buf) (a : ℕ) :
    moveBytes mem ((List.range n).map fun i => (wadd buf i,wadd src i)) a=
      if buf≤a ∧ a<buf+n then mem (src+(a-buf)) else mem a := by
  induction n generalizing a with
  | zero =>
    rw [if_neg (by omega)]
    rfl
  | succ n ih =>
    have ih' := ih (by omega) (by omega) (by omega)
    rw [List.range_succ,List.map_append,moveBytes_append]
    set moved := moveBytes mem ((List.range n).map fun i => (wadd buf i,wadd src i))
    change Function.update moved (wadd buf n) (moved (wadd src n)) a=_
    rw [wadd_eq (by omega),wadd_eq (by omega),ih' (src+n),if_neg (by omega),
      Function.update_apply]
    by_cases hlast : a=buf+n
    · rw [if_pos hlast,if_pos (by omega),hlast,Nat.add_sub_cancel_left]
    · rw [if_neg hlast,ih']
      by_cases hin : buf≤a ∧ a<buf+n
      · rw [if_pos hin,if_pos (by omega)]
      · rw [if_neg hin,if_neg (by omega)]

/-- One call that asks for a file's size delivers the content: it returns the size,
leaves the bytes in the buffer and changes nothing else. -/
structure Delivers (mem : ℕ → Char) (rd : Initrd) (node : FsNode) (content : List Char)
    (buf : ℕ) : Prop where
  /-- The value returned. -/
  ret : (readFs rd (some node) 0 node.size buf).1=content.length
  /-- The buffer. -/
  filled : (List.range content.length).map
    (fun k => moveBytes mem (readFs rd (some node) 0 node.size buf).2 (buf+k))=content
  /-- The rest of the memory. -/
  others : ∀ a,¬(buf≤a ∧ a<buf+content.length) →
    moveBytes mem (readFs rd (some node) 0 node.size buf).2 a=mem a

/-- A placed content is delivered from any memory that has the archive's bytes. -/
theorem Placed.delivers {rd : Initrd} {node : FsNode} {content : List Char} {mem' : ℕ → Char}
    {buf : ℕ} (h : Placed mem addr stop content (rd.nodes node.inode))
    (hsize : node.size=content.length) (hstop : stop<2^32)
    (hmem : ∀ a,addr≤a → a<stop → mem' a=mem a) (hbuf : buf≠0)
    (hfits : buf+content.length≤2^32) (hapart : buf+content.length≤addr ∨ stop≤buf) :
    Delivers mem' rd node content buf := by
  set data := (rd.nodes node.inode).data with hdata
  have hlow := h.low
  have hhigh := h.high
  rw [←hdata] at hlow hhigh
  have hstart : wadd data 0=data := wadd_eq (by omega)
  have hread : readFs rd (some node) 0 node.size buf=(content.length,
      (List.range content.length).map fun i => (wadd buf i,wadd data i)) := by
    refine (readFs_eq rd node ⟨buf,node.size,hbuf⟩ 0).trans ?_
    rw [←hdata,hstart,memcpyMoves_eq _ (show data≠0 by omega),hsize]
  have hmove := moveBytes_range mem' hfits (show data+content.length≤2^32 by omega)
    (by omega : buf+content.length≤data ∨ data+content.length≤buf)
  refine ⟨by rw [hread],?_,fun a ha => ?_⟩
  · rw [hread]
    refine Eq.trans (List.map_congr_left fun k hk => ?_) h.stored
    have hk' := List.mem_range.mp hk
    rw [hmove,if_pos (by omega),Nat.add_sub_cancel_left,hmem _ (by omega) (by omega)]
  · rw [hread,hmove,if_neg ha]

end Volumes

/-- Texts of an archive of a directory with a file of three bytes, where they begin. -/
def volumeText : List (ℕ×List Char) :=
  [(0,['x']),(124,['0']),(512,['d','/']),(636,['0']),(1024,['x']),(1148,['0']),
    (1536,['d','/','f']),(1660,['3']),(2048,['a','b','c'])]

/-- Memory with these texts. -/
def volumeMem (addr : ℕ) : Char :=
  ((volumeText.find? fun t => t.1≤addr ∧ addr<t.1+t.2.length).map
    fun t => charAt t.2 (addr-t.1)).getD NUL

/-- The directory and the file. -/
def sampleVolume : Volume := .branch ⟨['d'],[]⟩ (.leaf ⟨['f'],['a','b','c']⟩ .nil) .nil

/-- The archive is one of them. -/
theorem sampleVolume_valid : VolumeValid volumeMem sampleVolume 0 2560 := by
  have hzero : IsOctal ['0'] := by decide
  have hdir : EntryStored volumeMem 0 ['d','/'] [] 512 1024 :=
    ⟨⟨0,by decide +kernel,⟨['0'],hzero,rfl,by decide +kernel⟩,by decide,rfl⟩,
      ⟨by decide +kernel,⟨['0'],hzero,rfl,by decide +kernel⟩,by decide,rfl⟩,
      by decide +kernel,rfl⟩
  have hfile : EntryStored volumeMem 1024 ['d','/','f'] ['a','b','c'] 1536 2560 :=
    ⟨⟨0,by decide +kernel,⟨['0'],hzero,rfl,by decide +kernel⟩,by decide,rfl⟩,
      ⟨by decide +kernel,⟨['3'],by decide,rfl,by decide +kernel⟩,by decide,rfl⟩,
      by decide +kernel,by decide +kernel⟩
  exact ⟨⟨⟨by decide,by decide,by decide⟩,⟨⟨by decide,by decide,by decide⟩,trivial⟩,trivial⟩,
    ⟨512,1024,2560,hdir,⟨1536,2560,hfile,rfl⟩,rfl⟩,by decide +kernel,by decide⟩

end XanaduOS.RamdiskFiles

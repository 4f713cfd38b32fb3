import Mathlib.Data.List.GetD
import Mathlib.Data.List.TakeWhile
import XanaduOS.Forests
import XanaduOS.InitialRamdisk

/-!
# Directory listings of the initial ramdisk

A tree of files and directories, its archive in memory, and what the parser
makes of it: the entries in preorder, each directory with the number of its
direct entries, and an empty one with whatever its memory held before. Reading
a directory skips from an entry by its counter and stops at the end of the
archive only. The entries read are the direct ones exactly when the counters
are the sizes of what they skip and the directory ends the archive.
-/

namespace XanaduOS.InitrdListing

open Word32 Slibc InitialRamdisk Forests

/-- Files and directories by name. -/
abbrev FileTree := Forest (List Char)

/-- A node's name: not empty, and without slashes and null characters. -/
structure NameValid (name : List Char) : Prop where
  /-- Names are not empty. -/
  nonempty : name≠[]
  /-- Names hold no slash. -/
  slash : '/'∉name
  /-- Names hold no null character. -/
  nul : NUL∉name

/-- Every name of a tree is valid. -/
def NamesValid : FileTree → Prop
  | .nil => True
  | .leaf name rest => NameValid name ∧ NamesValid rest
  | .branch name inside rest => NameValid name ∧ NamesValid inside ∧ NamesValid rest

variable (mem : ℕ → Char)

/-- Record behind another. -/
def recordBehind (header : ℕ) : ℕ := nextHeader mem header header

/-- Address behind an entry's two records. -/
def behindEntry (addr : ℕ) : ℕ := recordBehind mem (recordBehind mem addr)

/-- Address behind the records of a tree. -/
def stopOf : FileTree → ℕ → ℕ
  | .nil,addr => addr
  | .leaf _ rest,addr => stopOf rest (behindEntry mem addr)
  | .branch _ inside rest,addr => stopOf rest (stopOf inside (behindEntry mem addr))

/-- A record without a name ends the archive. -/
def Ended (header : ℕ) : Prop := charAt (nameField mem header) 0=NUL

/-- A record with this name, padded with null characters. -/
def Named (header : ℕ) (name : List Char) : Prop :=
  nameField mem header=name++List.replicate (100-name.length) NUL

/-- The archive of a tree, depth first and each directory before its contents.
Every entry has a record of attributes in front; a directory's name ends with
a slash. -/
def Archived : List Char → FileTree → ℕ → Prop
  | _,.nil,_ => True
  | path,.leaf name rest,addr => ¬Ended mem addr ∧
      Named mem (recordBehind mem addr) (path++name) ∧
      Archived path rest (behindEntry mem addr)
  | path,.branch name inside rest,addr => ¬Ended mem addr ∧
      Named mem (recordBehind mem addr) (path++name++['/']) ∧
      Archived (path++name++['/']) inside (behindEntry mem addr) ∧
      Archived path rest (stopOf mem inside (behindEntry mem addr))

instance (header : ℕ) : Decidable (Ended mem header) := inferInstanceAs (Decidable (_=_))

instance (header : ℕ) (name : List Char) : Decidable (Named mem header name) :=
  inferInstanceAs (Decidable (_=_))

/-- The archive of a tree is recognised by computation. -/
instance decidableArchived : (path : List Char) → (f : FileTree) → (addr : ℕ) →
    Decidable (Archived mem path f addr)
  | _,.nil,_ => isTrue trivial
  | path,.leaf _ rest,addr =>
    haveI := decidableArchived path rest (behindEntry mem addr)
    inferInstanceAs (Decidable (_ ∧ _ ∧ _))
  | path,.branch name inside rest,addr =>
    haveI := decidableArchived (path++name++['/']) inside (behindEntry mem addr)
    haveI := decidableArchived path rest (stopOf mem inside (behindEntry mem addr))
    inferInstanceAs (Decidable (_ ∧ _ ∧ _ ∧ _))

/-- The entry made for a record. -/
def entryAt (stale : InitrdNode) (header : ℕ) : InitrdNode :=
  newEntry mem stale header (strnlen (nameField mem header) 100)

/-- Counter of a directory: its direct entries, or what was there before. -/
def storedCount (stale : ℕ → InitrdNode) (i : ℕ) (inside : FileTree) : ℕ :=
  if inside=.nil then (stale i).subEntNum else inside.count

/-- What the parser makes of a tree, numbered in preorder. -/
def parsed (stale : ℕ → InitrdNode) : FileTree → ℕ → ℕ → List InitrdNode
  | .nil,_,_ => []
  | .leaf _ rest,addr,i =>
    entryAt mem (stale i) (recordBehind mem addr)::parsed stale rest (behindEntry mem addr) (i+1)
  | .branch _ inside rest,addr,i =>
    {entryAt mem (stale i) (recordBehind mem addr) with subEntNum := storedCount stale i inside}::
      (parsed stale inside (behindEntry mem addr) (i+1)++
        parsed stale rest (stopOf mem inside (behindEntry mem addr)) (i+1+inside.size))

variable {mem} {stale : ℕ → InitrdNode}

/-- One entry is made for each one of the tree. -/
theorem parsed_length (f : FileTree) (addr i : ℕ) : (parsed mem stale f addr i).length=f.size := by
  induction f generalizing addr i with
  | nil => rfl
  | leaf _ rest ih =>
    simp only [parsed,List.length_cons,Forest.size,ih]
    omega
  | branch _ inside rest ihi ihr =>
    simp only [parsed,List.length_cons,List.length_append,Forest.size,ihi,ihr]
    omega

/-! ## Names in records -/

/-- A padded name fits its field. -/
theorem Named.length_le {header : ℕ} {name : List Char} (h : Named mem header name) :
    name.length≤100 := by
  have hlen : (nameField mem header).length=100 := by simp [nameField,field]
  rw [h,List.length_append,List.length_replicate] at hlen
  omega

/-- The length read from a record is that of its name. -/
theorem Named.strnlen_eq {header : ℕ} {name : List Char} (h : Named mem header name)
    (hnul : NUL∉name) : strnlen (nameField mem header) 100=name.length := by
  rw [h,strnlen_text hnul,Nat.min_eq_left h.length_le]
  cases 100-name.length <;> rfl

/-- A record with a name does not end the archive. -/
theorem Named.not_ended {header : ℕ} {name : List Char} (h : Named mem header name)
    (hne : name≠[]) (hnul : NUL∉name) : ¬Ended mem header := by
  rw [Ended,h]
  cases name with
  | nil => exact absurd rfl hne
  | cons c name =>
    intro hc
    have hc' : c=NUL := hc
    exact hnul (hc'▸List.mem_cons_self)

/-- Slashes counted for the depth are those of the path in front of the name. -/
theorem Named.depth {header : ℕ} {path name : List Char} (hpath : NUL∉path)
    (hname : NameValid name) :
    (Named mem header (path++name) →
      getFileDepth (nameField mem header) (strnlen (nameField mem header) 100)=
        1+path.count '/') ∧
    (Named mem header (path++name++['/']) →
      getFileDepth (nameField mem header) (strnlen (nameField mem header) 100)=
        1+path.count '/') := by
  have hpn : NUL∉path++name := by simp [hpath,hname.nul]
  have hpos : 0<name.length := List.length_pos_iff.mpr hname.nonempty
  have hkeep : ∀ l : List Char,NUL∉l → l.takeWhile (· ≠ NUL)=l := by
    intro l hl
    rw [List.takeWhile_eq_self_iff]
    intro c hc
    simpa using fun heq : c=NUL => hl (heq▸hc)
  constructor
  · intro h
    rw [h.strnlen_eq hpn,getFileDepth,h,List.take_append_of_le_length (by omega),
      List.take_append,List.take_of_length_le (by simp; omega),hkeep]
    · have hcount : (name.take ((path++name).length-1-path.length)).count '/'=0 :=
        List.count_eq_zero.mpr fun hmem => hname.slash (List.mem_of_mem_take hmem)
      rw [List.count_append,hcount,Nat.add_zero]
    · intro hmem
      rcases List.mem_append.mp hmem with hmem|hmem
      · exact hpath hmem
      · exact hname.nul (List.mem_of_mem_take hmem)
  · intro h
    have hslash : NUL∉path++name++['/'] := by
      rw [List.mem_append,not_or]
      exact ⟨hpn,by decide⟩
    have hlen : (path++name++['/']).length-1=(path++name).length := by simp
    rw [h.strnlen_eq hslash,getFileDepth,h,hlen,List.append_assoc,
      List.take_left' rfl,hkeep _ hpn,List.count_append,
      List.count_eq_zero_of_not_mem hname.slash,Nat.add_zero]

/-- The last character of a name tells directories from files. -/
theorem Named.type {header : ℕ} {path name : List Char} (hpath : NUL∉path)
    (hname : NameValid name) (s : InitrdNode) :
    (Named mem header (path++name) → (entryAt mem s header).type=.file) ∧
    (Named mem header (path++name++['/']) → (entryAt mem s header).type=.dir) := by
  have hpn : NUL∉path++name := by simp [hpath,hname.nul]
  constructor
  · intro h
    have hlast : charAt (nameField mem header) ((path++name).length-1)≠ '/' := by
      obtain ⟨front,c,rfl⟩ : ∃ front c,name=front++[c] :=
        ⟨_,_,(List.dropLast_append_getLast hname.nonempty).symm⟩
      have hc : c≠ '/' := fun heq => hname.slash (by simp [heq])
      have hidx : (path++(front++[c])).length-1=(path++front).length := by simp
      rw [h,charAt,hidx,←List.append_assoc,List.append_assoc _ [c],
        List.getD_append_right _ _ _ _ (Nat.le_refl _),Nat.sub_self]
      exact hc
    simp only [entryAt,newEntry,h.strnlen_eq hpn,if_neg hlast]
  · intro h
    have hslash : NUL∉path++name++['/'] := by
      rw [List.mem_append,not_or]
      exact ⟨hpn,by decide⟩
    have hlast : charAt (nameField mem header) ((path++name++['/']).length-1)= '/' := by
      have hidx : (path++name++['/']).length-1=(path++name).length := by simp
      rw [h,charAt,hidx,List.append_assoc,
        List.getD_append_right _ _ _ _ (Nat.le_refl _),Nat.sub_self]
      rfl
    simp only [entryAt,newEntry,h.strnlen_eq hslash,if_pos hlast]

/-! ## The parser on an archive -/

/-- More iterations do not change a result. -/
theorem tarParseRec_mono {fuel fuel' : ℕ} (hle : fuel≤fuel') {parentEnt header depth sub : ℕ}
    {st res : ParseState}
    (h : tarParseRec mem stale fuel parentEnt header depth sub st=some res) :
    tarParseRec mem stale fuel' parentEnt header depth sub st=some res := by
  induction fuel generalizing fuel' parentEnt header depth sub st res with
  | zero => simp [tarParseRec] at h
  | succ fuel ih =>
    obtain ⟨fuel',rfl⟩ : ∃ k,fuel'=k+1 := ⟨fuel'-1,by omega⟩
    have hle' : fuel≤fuel' := by omega
    simp only [tarParseRec] at h ⊢
    split at h
    case isTrue hend => rwa [if_pos hend]
    case isFalse hend =>
      rw [if_neg hend]
      split at h
      case isTrue hodd =>
        rw [if_pos hodd]
        split at h
        case isTrue hdeep =>
          rw [if_pos hdeep]
          obtain ⟨st₁,h₁,h₂⟩ := Option.bind_eq_some_iff.mp h
          exact Option.bind_eq_some_iff.mpr ⟨st₁,ih hle' h₁,ih hle' h₂⟩
        case isFalse hdeep =>
          rw [if_neg hdeep]
          split at h
          case isTrue hshallow => rwa [if_pos hshallow]
          case isFalse hshallow =>
            rw [if_neg hshallow]
            exact ih hle' h
      case isFalse hodd =>
        rw [if_neg hodd]
        exact ih hle' h

/-- The parser's state in front of an entry, its record of attributes skipped,
or at the end. -/
def settled (mem : ℕ → Char) (entries : List InitrdNode) (addr i : ℕ) : ParseState :=
  if charAt (nameField mem addr) 0=NUL then ⟨entries,addr,i⟩
  else ⟨entries,recordBehind mem addr,i+1⟩

/-- The parser resumed from a state. -/
def Parses (mem : ℕ → Char) (stale : ℕ → InitrdNode) (parentEnt depth sub : ℕ)
    (st res : ParseState) : Prop :=
  ∃ fuel,tarParseRec mem stale fuel parentEnt st.nextAddr depth sub st=some res

section Records

variable {parentEnt depth sub : ℕ} {st res : ParseState}

/-- A record without a name ends a level. -/
theorem Parses.ended (hend : Ended mem st.nextAddr) :
    Parses mem stale parentEnt depth sub st (finishParent st parentEnt sub) := by
  rw [Ended] at hend
  exact ⟨1,by simp only [tarParseRec,if_pos hend]⟩

/-- A record of attributes is skipped. -/
theorem Parses.attributes (hnot : ¬Ended mem st.nextAddr) (heven : st.i%2=0)
    (h : Parses mem stale parentEnt depth sub
      ⟨st.entries,recordBehind mem st.nextAddr,st.i+1⟩ res) :
    Parses mem stale parentEnt depth sub st res := by
  obtain ⟨fuel,h⟩ := h
  rw [Ended] at hnot
  refine ⟨fuel+1,?_⟩
  simp only [tarParseRec,if_neg hnot,if_neg (by omega : ¬st.i%2=1)]
  exact h

/-- A record that lies less deep ends a level. -/
theorem Parses.shallow (hnot : ¬Ended mem st.nextAddr) (hodd : st.i%2=1)
    (hlt : getFileDepth (nameField mem st.nextAddr)
      (strnlen (nameField mem st.nextAddr) 100)<depth) :
    Parses mem stale parentEnt depth sub st (finishParent st parentEnt sub) := by
  rw [Ended] at hnot
  exact ⟨1,by simp only [tarParseRec,if_neg hnot,if_pos hodd,if_neg (Nat.lt_asymm hlt),if_pos hlt]⟩

/-- A record at the level's depth is added. -/
theorem Parses.level (hnot : ¬Ended mem st.nextAddr) (hodd : st.i%2=1)
    (hdepth : getFileDepth (nameField mem st.nextAddr)
      (strnlen (nameField mem st.nextAddr) 100)=depth)
    (h : Parses mem stale parentEnt depth (sub+1)
      ⟨st.entries++[entryAt mem (stale st.entries.length) st.nextAddr],
        recordBehind mem st.nextAddr,st.i+1⟩ res) :
    Parses mem stale parentEnt depth sub st res := by
  obtain ⟨fuel,h⟩ := h
  rw [Ended] at hnot
  refine ⟨fuel+1,?_⟩
  simp only [tarParseRec,if_neg hnot,if_pos hodd,hdepth,Nat.lt_irrefl,if_false]
  exact h

/-- A record that lies deeper is left to a level for the last entry added. -/
theorem Parses.deeper {st' : ParseState} (hnot : ¬Ended mem st.nextAddr) (hodd : st.i%2=1)
    (hlt : depth<getFileDepth (nameField mem st.nextAddr) (strnlen (nameField mem st.nextAddr) 100))
    (hin : Parses mem stale (st.entries.length-1) (getFileDepth (nameField mem st.nextAddr)
      (strnlen (nameField mem st.nextAddr) 100)) 0 st st')
    (hout : Parses mem stale parentEnt depth sub st' res) :
    Parses mem stale parentEnt depth sub st res := by
  obtain ⟨fuel,hin⟩ := hin
  obtain ⟨fuel',hout⟩ := hout
  rw [Ended] at hnot
  refine ⟨max fuel fuel'+1,?_⟩
  simp only [tarParseRec,if_neg hnot,if_pos hodd,if_pos hlt]
  exact Option.bind_eq_some_iff.mpr ⟨st',tarParseRec_mono (Nat.le_max_left _ _) hin,
    tarParseRec_mono (Nat.le_max_right _ _) hout⟩

end Records

/-- The record of attributes in front of an entry is skipped. -/
theorem Parses.of_settled {parentEnt depth sub addr i : ℕ} {entries : List InitrdNode}
    {res : ParseState} (hi : i%2=0)
    (h : Parses mem stale parentEnt depth sub (settled mem entries addr i) res) :
    Parses mem stale parentEnt depth sub ⟨entries,addr,i⟩ res := by
  rw [settled] at h
  split at h
  case isTrue hend => exact h
  case isFalse hend => exact Parses.attributes hend hi h

/-- The record behind these ends the archive or lies less deep. -/
def Closes (mem : ℕ → Char) (depth addr : ℕ) : Prop :=
  Ended mem addr ∨ (¬Ended mem (recordBehind mem addr) ∧
    getFileDepth (nameField mem (recordBehind mem addr))
      (strnlen (nameField mem (recordBehind mem addr)) 100)<depth)

/-- A directory is finished where a record closes it. -/
theorem Parses.finish {parentEnt depth sub addr i : ℕ} {entries : List InitrdNode}
    (hi : i%2=0) (hc : Closes mem depth addr) :
    Parses mem stale parentEnt depth sub (settled mem entries addr i)
      (finishParent (settled mem entries addr i) parentEnt sub) := by
  rw [settled]
  split
  case isTrue hend => exact Parses.ended hend
  case isFalse hend =>
    obtain ⟨hnot,hlt⟩ := hc.resolve_left hend
    exact Parses.shallow hnot (show (i+1)%2=1 by omega) hlt

/-- An entry at the parser's depth is added. -/
theorem Parses.entry {parentEnt depth sub addr i : ℕ} {entries : List InitrdNode}
    {res : ParseState} (hi : i%2=0) (hattr : ¬Ended mem addr)
    (hnot : ¬Ended mem (recordBehind mem addr))
    (hdepth : getFileDepth (nameField mem (recordBehind mem addr))
      (strnlen (nameField mem (recordBehind mem addr)) 100)=depth)
    (h : Parses mem stale parentEnt depth (sub+1)
      ⟨entries++[entryAt mem (stale entries.length) (recordBehind mem addr)],
        behindEntry mem addr,i+2⟩ res) :
    Parses mem stale parentEnt depth sub (settled mem entries addr i) res := by
  rw [Ended] at hattr
  rw [settled,if_neg hattr]
  exact Parses.level hnot (show (i+1)%2=1 by omega) hdepth h

/-- Deeper entries are parsed for the last entry added. -/
theorem Parses.descend {parentEnt depth deeper sub addr i : ℕ} {entries : List InitrdNode}
    {st res : ParseState} (hi : i%2=0) (hattr : ¬Ended mem addr)
    (hnot : ¬Ended mem (recordBehind mem addr)) (hlt : depth<deeper)
    (hdepth : getFileDepth (nameField mem (recordBehind mem addr))
      (strnlen (nameField mem (recordBehind mem addr)) 100)=deeper)
    (hin : Parses mem stale (entries.length-1) deeper 0 (settled mem entries addr i) st)
    (hout : Parses mem stale parentEnt depth sub st res) :
    Parses mem stale parentEnt depth sub (settled mem entries addr i) res := by
  subst hdepth
  rw [Ended] at hattr
  rw [settled,if_neg hattr] at hin ⊢
  exact Parses.deeper hnot (show (i+1)%2=1 by omega) hlt hin hout

/-- A leaf's or a branch's records, whichever comes first in a tree. -/
theorem Archived.first {f : FileTree} {path : List Char} {addr : ℕ} (hf : f≠.nil)
    (hnames : NamesValid f) (hpath : NUL∉path) (h : Archived mem path f addr) :
    ¬Ended mem addr ∧ ¬Ended mem (recordBehind mem addr) ∧
      getFileDepth (nameField mem (recordBehind mem addr))
        (strnlen (nameField mem (recordBehind mem addr)) 100)=1+path.count '/' := by
  cases f with
  | nil => exact absurd rfl hf
  | leaf name rest =>
    obtain ⟨hattr,hname,-⟩ := h
    have hv := hnames.1
    refine ⟨hattr,hname.not_ended (by simp [hv.nonempty]) (by simp [hpath,hv.nul]),
      (Named.depth hpath hv).1 hname⟩
  | branch name inside rest =>
    obtain ⟨hattr,hname,-⟩ := h
    have hv := hnames.1
    have hslash : NUL∉path++name++['/'] := by
      rw [List.mem_append,not_or]
      exact ⟨by simp [hpath,hv.nul],by decide⟩
    exact ⟨hattr,hname.not_ended (by simp) hslash,(Named.depth hpath hv).2 hname⟩

/-- What closes a directory closes the ones inside. -/
theorem Closes.succ {depth addr : ℕ} (h : Closes mem depth addr) : Closes mem (depth+1) addr :=
  h.imp id fun h' => ⟨h'.1,Nat.lt_succ_of_lt h'.2⟩

/-- A directory's entry keeps the counter its memory held. -/
theorem entryAt_dir {s : InitrdNode} {header : ℕ} (h : (entryAt mem s header).type=.dir) :
    (entryAt mem s header).subEntNum=s.subEntNum := by
  simp only [entryAt,newEntry] at h ⊢
  rw [if_pos h]

/-- A file's entry has no entries of its own. -/
theorem entryAt_file {s : InitrdNode} {header : ℕ} (h : (entryAt mem s header).type=.file) :
    (entryAt mem s header).subEntNum=0 := by
  simp only [entryAt,newEntry] at h ⊢
  rw [if_neg (by rw [h]; decide)]

/-- Modifying the element behind a list. -/
theorem modify_behind {α : Type*} (l r : List α) (x : α) (g : α → α) :
    (l++x::r).modify l.length g=l++g x::r := by
  induction l with
  | nil => rfl
  | cons y l ih =>
    rw [List.cons_append,List.length_cons,List.modify_succ_cons,ih,List.cons_append]

/-- The parser turns the archive of a tree into its entries. -/
theorem Parses.forest {f : FileTree} {path : List Char} {parentEnt depth sub addr i : ℕ}
    {entries : List InitrdNode} {res : ParseState} (hnames : NamesValid f) (hpath : NUL∉path)
    (harch : Archived mem path f addr) (hdepth : depth=1+path.count '/') (hi : i%2=0)
    (hclose : Closes mem depth (stopOf mem f addr))
    (h : Parses mem stale parentEnt depth (sub+f.count)
      (settled mem (entries++parsed mem stale f addr entries.length) (stopOf mem f addr)
        (i+2*f.size)) res) :
    Parses mem stale parentEnt depth sub (settled mem entries addr i) res := by
  induction f generalizing path parentEnt depth sub addr i entries res with
  | nil => simpa [parsed,stopOf,Forest.size,Forest.count] using h
  | leaf name rest ih =>
    obtain ⟨hattr,hnot,hd⟩ := harch.first (by simp) hnames hpath
    obtain ⟨-,-,harch'⟩ := harch
    refine Parses.entry hi hattr hnot (hd.trans hdepth.symm) (Parses.of_settled (by omega) ?_)
    refine ih hnames.2 hpath harch' hdepth (by omega) hclose ?_
    have hsub : sub+1+rest.count=sub+Forest.count (.leaf name rest) := by
      simp only [Forest.count]
      omega
    have hidx : i+2+2*rest.size=i+2*Forest.size (.leaf name rest) := by
      simp only [Forest.size]
      omega
    rw [hsub,hidx,List.length_append,List.length_singleton,List.append_assoc]
    exact h
  | branch name inside rest ihi ihr =>
    obtain ⟨hattr,hnot,hd⟩ := harch.first (by simp) hnames hpath
    obtain ⟨-,hnamed,hinside,hrest⟩ := harch
    have hv := hnames.1
    have hdir := (Named.type hpath hv (stale entries.length)).2 hnamed
    have hpath' : NUL∉path++name++['/'] := by
      rw [List.mem_append,not_or]
      exact ⟨by simp [hpath,hv.nul],by decide⟩
    have hdepth' : depth+1=1+(path++name++['/']).count '/' := by
      rw [List.count_append,List.count_append,List.count_eq_zero.mpr hv.slash,hdepth]
      simp
      omega
    refine Parses.entry hi hattr hnot (hd.trans hdepth.symm) (Parses.of_settled (by omega) ?_)
    set entry := entryAt mem (stale entries.length) (recordBehind mem addr) with hentry
    set addr' := behindEntry mem addr
    -- the directory's counter as it stands when the parser is behind its contents
    have hbehind : Parses mem stale parentEnt depth (sub+1)
        (settled mem (entries++{entry with subEntNum := storedCount stale entries.length inside}::
          parsed mem stale inside addr' (entries.length+1)) (stopOf mem inside addr')
          (i+2+2*inside.size)) res := by
      refine ihr hnames.2.2 hpath hrest hdepth (by omega) hclose ?_
      have hsub : sub+1+rest.count=sub+Forest.count (.branch name inside rest) := by
        simp only [Forest.count]
        omega
      have hidx : i+2+2*inside.size+2*rest.size=i+2*Forest.size (.branch name inside rest) := by
        simp only [Forest.size]
        omega
      rw [hsub,hidx,List.length_append,List.length_cons,parsed_length,List.append_assoc,
        List.cons_append,(by omega : entries.length+(inside.size+1)=entries.length+1+inside.size)]
      exact h
    by_cases hnil : inside=.nil
    · subst hnil
      have hstale : storedCount stale entries.length .nil=entry.subEntNum := by
        rw [storedCount,if_pos rfl]
        exact (entryAt_dir hdir).symm
      rw [hstale] at hbehind
      exact hbehind
    · obtain ⟨hattr',hnot',hd'⟩ := hinside.first hnil hnames.2.1 hpath'
      have hclose' : Closes mem (depth+1) (stopOf mem inside addr') := by
        by_cases hrnil : rest=.nil
        · subst hrnil
          exact hclose.succ
        · obtain ⟨-,hnot₂,hd₂⟩ := hrest.first hrnil hnames.2.2 hpath
          exact Or.inr ⟨hnot₂,by omega⟩
      refine Parses.descend (by omega) hattr' hnot' (Nat.lt_succ_self depth)
        (hd'.trans hdepth'.symm)
        (ihi hnames.2.1 hpath' hinside hdepth' (by omega) hclose'
          (Parses.finish (by omega) hclose')) ?_
      have hset : finishParent (settled mem (entries++[entry]++
            parsed mem stale inside addr' (entries++[entry]).length) (stopOf mem inside addr')
            (i+2+2*inside.size)) ((entries++[entry]).length-1) (0+inside.count)=
          settled mem (entries++{entry with
            subEntNum := storedCount stale entries.length inside}::
            parsed mem stale inside addr' (entries.length+1)) (stopOf mem inside addr')
            (i+2+2*inside.size) := by
        rw [storedCount,if_neg hnil,List.length_append,List.length_singleton,
          Nat.add_sub_cancel,Nat.zero_add,List.append_assoc,List.singleton_append]
        simp only [finishParent,settled]
        split <;> simp only [modify_behind]
      rw [hset]
      exact hbehind

/-- An archive of a tree with valid names, closed by a record without one. -/
structure ArchiveValid (mem : ℕ → Char) (f : FileTree) (addr : ℕ) : Prop where
  /-- Names are valid. -/
  names : NamesValid f
  /-- The records are those of the tree. -/
  archived : Archived mem [] f addr
  /-- The record behind them has no name. -/
  ended : Ended mem (stopOf mem f addr)

/-- Entries of a loaded archive, the root's first. -/
def loaded (mem : ℕ → Char) (stale : ℕ → InitrdNode) (rootHeader : ℕ) (f : FileTree) (addr : ℕ) :
    List InitrdNode :=
  {stale 0 with type := .dir,header := rootHeader,subEntNum := f.count}::
    parsed mem stale f addr 1

/-- The parser's result on an archive. -/
theorem tarParse_archive (stale : ℕ → InitrdNode) {f : FileTree} {addr : ℕ}
    (h : ArchiveValid mem f addr) (rootHeader : ℕ) : ∃ fuel,tarParse mem stale rootHeader addr fuel=
      some (loaded mem stale rootHeader f addr,f.size+1) := by
  have hclose : Closes mem 1 (stopOf mem f addr) := Or.inl h.ended
  set root : InitrdNode := {stale 0 with type := .dir,header := rootHeader}
  have hfinish : Parses mem stale 0 1 (0+f.count)
      (settled mem ([root]++parsed mem stale f addr [root].length) (stopOf mem f addr)
        (2+2*f.size)) _ := Parses.finish (by omega) hclose
  have hparse : Parses mem stale 0 1 0 ⟨[root],addr,2⟩ _ := Parses.of_settled (by decide)
    (Parses.forest h.names (by simp) h.archived (by simp) (by decide) hclose hfinish)
  obtain ⟨fuel,hrun⟩ := hparse
  refine ⟨fuel,Option.bind_eq_some_iff.mpr ⟨_,hrun,?_⟩⟩
  have hend : charAt (nameField mem (stopOf mem f addr)) 0=NUL := h.ended
  simp only [settled,if_pos hend,finishParent]
  have hidx : (2+2*f.size)/2=f.size+1 := by omega
  rw [hidx]
  simp [loaded,root]

/-! ## The array of entries -/

/-- Copying a list backwards fills the array from its start. -/
theorem copyNodes_apply (l : List InitrdNode) (nodes : ℕ → InitrdNode) (j : ℕ) (hl : l≠[]) :
    copyNodes l l.length nodes j=(l.reverse[j]?).getD (nodes j) := by
  induction l generalizing nodes with
  | nil => exact absurd rfl hl
  | cons ent rest ih =>
    by_cases hrest : rest=[]
    · subst hrest
      simp only [copyNodes,List.length_singleton,if_true,Nat.sub_self,Function.update_apply]
      cases j <;> simp
    · have hpos : 0 < rest.length := List.length_pos_iff.mpr hrest
      rw [copyNodes,List.length_cons,if_neg (by omega),Nat.add_sub_cancel,ih _ hrest,
        Function.update_apply,List.reverse_cons]
      rcases Nat.lt_trichotomy j rest.length with hlt|rfl|hlt
      · rw [List.getElem?_append_left (by rw [List.length_reverse]; exact hlt),
          List.getElem?_eq_getElem (by rw [List.length_reverse]; exact hlt)]
        rfl
      · rw [if_pos rfl,List.getElem?_append_right (by rw [List.length_reverse]),
          List.length_reverse,Nat.sub_self,
          List.getElem?_eq_none (by rw [List.length_reverse])]
        rfl
      · rw [if_neg (by omega),List.getElem?_eq_none (by rw [List.length_reverse]; omega),
          List.getElem?_eq_none (by simp; omega)]

/-- The array holds the entries in the order of their allocation. -/
theorem initrdBuildTree_nodes (junk : ℕ → InitrdNode) {entries : List InitrdNode}
    (hne : entries≠[]) (j : ℕ) :
    (initrdBuildTree junk entries entries.length).nodes j=(entries[j]?).getD (junk j) := by
  have hcopy := copyNodes_apply entries.reverse junk j (by simpa using hne)
  rw [List.length_reverse,List.reverse_reverse] at hcopy
  exact hcopy

/-- Counters stored for the entries of a tree. -/
def Counted (stale : ℕ → InitrdNode) (counts : ℕ → ℕ) : FileTree → ℕ → Prop
  | .nil,_ => True
  | .leaf _ rest,i => counts i=0 ∧ Counted stale counts rest (i+1)
  | .branch _ inside rest,i => counts i=storedCount stale i inside ∧
      Counted stale counts inside (i+1) ∧ Counted stale counts rest (i+1+inside.size)

/-- The parser stores the counters of the tree. -/
theorem parsed_counted {f : FileTree} {path : List Char} {addr i : ℕ} {counts : ℕ → ℕ}
    (hnames : NamesValid f) (hpath : NUL∉path) (harch : Archived mem path f addr)
    (h : ∀ j<f.size,(parsed mem stale f addr i)[j]?.map InitrdNode.subEntNum=some (counts (i+j))) :
    Counted stale counts f i := by
  induction f generalizing path addr i with
  | nil => trivial
  | leaf name rest ih =>
    obtain ⟨-,hnamed,harch'⟩ := harch
    have htype := (Named.type hpath hnames.1 (stale i)).1 hnamed
    refine ⟨?_,ih hnames.2 hpath harch' fun j hj => ?_⟩
    · have h0 := h 0 (by simp only [Forest.size]; omega)
      rw [parsed,List.getElem?_cons_zero,Option.map_some,entryAt_file htype,
        Option.some.injEq,Nat.add_zero] at h0
      exact h0.symm
    · have hj' := h (j+1) (by simp only [Forest.size]; omega)
      rw [parsed,List.getElem?_cons_succ] at hj'
      rw [hj',Nat.add_right_comm,Nat.add_assoc]
  | branch name inside rest ihi ihr =>
    obtain ⟨-,-,hinside,hrest⟩ := harch
    have hpath' : NUL∉path++name++['/'] := by
      rw [List.mem_append,not_or]
      exact ⟨by simp [hpath,hnames.1.nul],by decide⟩
    refine ⟨?_,ihi hnames.2.1 hpath' hinside fun j hj => ?_,
      ihr hnames.2.2 hpath hrest fun j hj => ?_⟩
    · have h0 := h 0 (by simp only [Forest.size]; omega)
      rw [parsed,List.getElem?_cons_zero,Option.map_some,Option.some.injEq,Nat.add_zero] at h0
      exact h0.symm
    · have hj' := h (j+1) (by simp only [Forest.size]; omega)
      rw [parsed,List.getElem?_cons_succ,
        List.getElem?_append_left (by rw [parsed_length]; exact hj)] at hj'
      rw [hj',Nat.add_right_comm,Nat.add_assoc]
    · have hj' := h (inside.size+j+1) (by simp only [Forest.size]; omega)
      rw [parsed,List.getElem?_cons_succ,
        List.getElem?_append_right (by rw [parsed_length]; omega),parsed_length,
        Nat.add_sub_cancel_left] at hj'
      rw [hj',(by omega : i+(inside.size+j+1)=i+1+inside.size+j)]

/-- A directory's contents are counted like the tree's. -/
theorem Counted.branch {counts : ℕ → ℕ} {f s : FileTree} {i n : ℕ}
    (h : Counted stale counts f i) (hb : f.HasBranch i n s) :
    Counted stale counts s (n+1) ∧ i≤n ∧ n+1+s.size ≤ i+f.size := by
  induction f generalizing i with
  | nil => exact hb.elim
  | leaf _ rest ih =>
    obtain ⟨h0,h1,h2⟩ := ih h.2 hb
    refine ⟨h0,by omega,?_⟩
    rw [Forest.size]
    omega
  | branch _ inside rest ihi ihr =>
    rw [Forest.size]
    rcases hb with ⟨rfl,rfl⟩|hb|hb
    · exact ⟨h.2.1,Nat.le_refl n,by omega⟩
    · obtain ⟨h0,h1,h2⟩ := ihi h.2.1 hb
      exact ⟨h0,by omega,by omega⟩
    · obtain ⟨h0,h1,h2⟩ := ihr h.2.2 hb
      exact ⟨h0,by omega,by omega⟩

/-- The counter of a directory. -/
theorem Counted.directory {counts : ℕ → ℕ} {f s : FileTree} {i n : ℕ}
    (h : Counted stale counts f i) (hb : f.HasBranch i n s) : counts n=storedCount stale n s := by
  induction f generalizing i with
  | nil => exact hb.elim
  | leaf _ rest ih => exact ih h.2 hb
  | branch _ inside rest ihi ihr =>
    rcases hb with ⟨rfl,rfl⟩|hb|hb
    · exact h.1
    · exact ihi h.2.1 hb
    · exact ihr h.2.2 hb

/-- The counter of a file. -/
theorem Counted.file {counts : ℕ → ℕ} {f : FileTree} {i n : ℕ}
    (h : Counted stale counts f i) (hl : f.HasLeaf i n) : counts n=0 := by
  induction f generalizing i with
  | nil => exact hl.elim
  | leaf _ rest ih =>
    rcases hl with rfl|hl
    · exact h.1
    · exact ih h.2 hl
  | branch _ inside rest ihi ihr =>
    rcases hl with hl|hl
    · exact ihi h.2.1 hl
    · exact ihr h.2.2 hl

/-! ## Reading a directory -/

/-- Reading yields this list and ends. -/
def Reads (rd : Initrd) (dir : Dir) (l : List ℕ) : Prop := ∃ fuel,readdirAll rd fuel dir=some l

/-- Reading has ended. -/
theorem reads_of_none {rd : Initrd} {dir : Dir} (h : initrdReaddir rd dir=none) {l : List ℕ} :
    Reads rd dir l ↔ l=[] := by
  constructor
  · rintro ⟨fuel,hf⟩
    cases fuel with
    | zero => simp [readdirAll] at hf
    | succ fuel =>
      rw [readdirAll,h] at hf
      exact (Option.some.inj hf).symm
  · rintro rfl
    refine ⟨1,?_⟩
    rw [readdirAll,h]
    rfl

/-- Reading goes on behind an entry. -/
theorem reads_of_some {rd : Initrd} {dir dir' : Dir} {ent : ℕ}
    (h : initrdReaddir rd dir=some (ent,dir')) {l : List ℕ} :
    Reads rd dir l ↔ ∃ l',l=ent::l' ∧ Reads rd dir' l' := by
  constructor
  · rintro ⟨fuel,hf⟩
    cases fuel with
    | zero => simp [readdirAll] at hf
    | succ fuel =>
      rw [readdirAll,h] at hf
      obtain ⟨l',hl',rfl⟩ := Option.map_eq_some_iff.mp hf
      exact ⟨l',rfl,fuel,hl'⟩
  · rintro ⟨l',rfl,fuel,hl'⟩
    refine ⟨fuel+1,?_⟩
    rw [readdirAll,h]
    exact Option.map_eq_some_iff.mpr ⟨l',hl',rfl⟩

/-- What makes a directory at `d` read back as its contents, from a child on.
`behind` is the number of entries behind the contents. -/
def ReadsBack (stale : ℕ → InitrdNode) (d : ℕ) : FileTree → ℕ → ℕ → Prop
  | .nil,_,behind => behind=0
  | .leaf _ rest,i,behind => ReadsBack stale d rest (i+1) behind
  | .branch _ inside rest,i,behind =>
    (rest≠.nil → inside.Flat ∧ (inside=.nil → (stale i).subEntNum=0) ∧
      ReadsBack stale d rest (i+1+inside.size) behind) ∧
    (rest=.nil → (inside≠.nil → inside.Flat ∧ behind=0) ∧
      (inside=.nil → behind≤(stale i).subEntNum ∧ i-d+(stale i).subEntNum+1<2^32))

/-- A directory has ended where its next entry would lie behind the archive. -/
theorem initrdReaddir_none {rd : Initrd} {d o : ℕ} (hd : d < rd.entryNum)
    (hword : rd.entryNum<2^32) (h : rd.entryNum≤d+o) : initrdReaddir rd ⟨o,d⟩=none := by
  rw [initrdReaddir,if_pos]
  rw [wsub_eq (Nat.le_of_lt hd) hword,wsub_eq (show 1 ≤ rd.entryNum-d by omega) (by omega)]
  show rd.entryNum-d-1<o
  omega

/-- Otherwise the entry at its offset is read. -/
theorem initrdReaddir_some {rd : Initrd} {d o : ℕ} (hword : rd.entryNum<2^32)
    (h : d+o < rd.entryNum) : initrdReaddir rd ⟨o,d⟩=
      some (d+o,⟨wadd o (wadd (rd.nodes (d+o)).subEntNum 1),d⟩) := by
  have hnot : ¬wsub (wsub rd.entryNum d) 1<o := by
    rw [wsub_eq (show d ≤ rd.entryNum by omega) hword,
      wsub_eq (show 1 ≤ rd.entryNum-d by omega) (by omega)]
    omega
  have hent : wadd d o=d+o := wadd_eq (by omega)
  simp only [initrdReaddir,if_neg hnot,hent]

/-- Reading from a place yields nothing exactly at the end of the archive. -/
theorem reads_nil_iff {rd : Initrd} {d o : ℕ} (hd : d < rd.entryNum) (hword : rd.entryNum<2^32) :
    Reads rd ⟨o,d⟩ [] ↔ rd.entryNum≤d+o := by
  rcases Nat.lt_or_ge (d+o) rd.entryNum with hlt|hge
  · rw [reads_of_some (initrdReaddir_some hword hlt)]
    simp [hlt]
  · rw [reads_of_none (initrdReaddir_none hd hword hge)]
    simp [hge]

/-- The first entry read is the one at the offset. -/
theorem Reads.offset {rd : Initrd} {d o : ℕ} {s : FileTree} {i : ℕ} (hd : d < rd.entryNum)
    (hword : rd.entryNum<2^32) (hs : s≠.nil) (h : Reads rd ⟨o,d⟩ (s.numbers i)) : d+o=i := by
  obtain ⟨l,hl⟩ : ∃ l,s.numbers i=i::l := by
    cases s with
    | nil => exact absurd rfl hs
    | leaf _ rest => exact ⟨_,rfl⟩
    | branch _ inside rest => exact ⟨_,rfl⟩
  rw [hl] at h
  rcases Nat.lt_or_ge (d+o) rd.entryNum with hlt|hge
  · obtain ⟨l',hl',-⟩ := (reads_of_some (initrdReaddir_some hword hlt)).mp h
    exact (List.cons.inj hl').1.symm
  · have := (reads_of_none (initrdReaddir_none hd hword hge)).mp h
    contradiction

/-- Offset behind a child directory. -/
def offsetBehind (stale : ℕ → InitrdNode) (d i : ℕ) (inside : FileTree) : ℕ :=
  wadd (i-d) (wadd (storedCount stale i inside) 1)

/-- A directory's counter skips what is inside exactly for flat contents, and
for empty ones whose memory held a zero. -/
theorem offsetBehind_eq_iff {d i : ℕ} {inside : FileTree} (hd : d < i)
    (hword : i+1+inside.size<2^32) (hstale : (stale i).subEntNum<2^32) :
    d+offsetBehind stale d i inside=i+1+inside.size ↔
      inside.Flat ∧ (inside=.nil → (stale i).subEntNum=0) := by
  by_cases hnil : inside=.nil
  · subst hnil
    simp only [offsetBehind,storedCount,if_true,Forest.size,Forest.Flat,true_and,forall_const]
    unfold wadd
    omega
  · have hle := Forest.count_le_size inside
    simp only [offsetBehind,storedCount,if_false,←Forest.count_eq_size,hnil,false_imp_iff,
      and_true]
    unfold wadd
    omega

/-- A directory's counter skips to the end of the archive. -/
theorem offsetBehind_end_iff {d i behind : ℕ} {inside : FileTree} (hd : d < i)
    (hword : i+1+inside.size+behind<2^32) (hstale : (stale i).subEntNum<2^32) :
    i+1+inside.size+behind≤d+offsetBehind stale d i inside ↔
      (inside≠.nil → inside.Flat ∧ behind=0) ∧
      (inside=.nil → behind≤(stale i).subEntNum ∧ i-d+(stale i).subEntNum+1<2^32) := by
  by_cases hnil : inside=.nil
  · subst hnil
    simp only [offsetBehind,storedCount,if_true,Forest.size,ne_eq,not_true_eq_false,
      false_imp_iff,true_and,forall_const]
    unfold wadd
    omega
  · have hle := Forest.count_le_size inside
    simp only [offsetBehind,storedCount,if_false,←Forest.count_eq_size,hnil,false_imp_iff,
      and_true,ne_eq,not_false_eq_true,forall_const]
    unfold wadd
    omega

/-- Reading a directory from one of its children on. -/
theorem reads_iff {rd : Initrd} {d i : ℕ} {s : FileTree}
    (hstale : ∀ k,(stale k).subEntNum<2^32) (hword : rd.entryNum<2^32) (hd : d < i)
    (hend : i+s.size ≤ rd.entryNum)
    (hc : Counted stale (fun j => (rd.nodes j).subEntNum) s i) :
    Reads rd ⟨i-d,d⟩ (s.numbers i) ↔ ReadsBack stale d s i (rd.entryNum-(i+s.size)) := by
  induction s generalizing i with
  | nil =>
    simp only [Forest.size] at hend
    rcases Nat.lt_or_ge d rd.entryNum with hdn|hdn
    · rw [Forest.numbers,reads_nil_iff hdn hword,ReadsBack,Forest.size]
      omega
    · omega
  | leaf _ rest ih =>
    obtain ⟨hcount,hcrest⟩ := hc
    simp only [Forest.size] at hend hcount
    have hread := initrdReaddir_some hword (show d+(i-d) < rd.entryNum by omega)
    rw [(by omega : d+(i-d)=i),hcount,
      (by unfold wadd; omega : wadd (i-d) (wadd 0 1)=i+1-d)] at hread
    rw [Forest.numbers,reads_of_some hread,ReadsBack,Forest.size,
      (by omega : i+(1+rest.size)=i+1+rest.size),←ih (by omega) (by omega) hcrest]
    simp
  | branch _ inside rest _ ih =>
    obtain ⟨hcount,-,hcrest⟩ := hc
    simp only [Forest.size] at hend hcount
    have hread := initrdReaddir_some hword (show d+(i-d) < rd.entryNum by omega)
    rw [(by omega : d+(i-d)=i),hcount] at hread
    change initrdReaddir rd ⟨i-d,d⟩=some (i,⟨offsetBehind stale d i inside,d⟩) at hread
    rw [Forest.numbers,reads_of_some hread,ReadsBack,Forest.size,
      (by omega : i+(1+inside.size+rest.size)=i+1+inside.size+rest.size)]
    have hstep : (∃ l',i::rest.numbers (i+1+inside.size)=i::l' ∧
        Reads rd ⟨offsetBehind stale d i inside,d⟩ l') ↔
        Reads rd ⟨offsetBehind stale d i inside,d⟩ (rest.numbers (i+1+inside.size)) := by
      simp
    rw [hstep]
    by_cases hnil : rest=.nil
    · subst hnil
      simp only [Forest.size,Nat.add_zero] at hend ⊢
      rw [Forest.numbers,reads_nil_iff (by omega) hword]
      have hiff := offsetBehind_end_iff hd
        (show i+1+inside.size+(rd.entryNum-(i+1+inside.size))<2^32 by omega) (hstale i)
      rw [Nat.add_sub_cancel' (show i+1+inside.size ≤ rd.entryNum by omega)] at hiff
      rw [hiff]
      simp
    · have hiff := offsetBehind_eq_iff hd
        (show i+1+inside.size<2^32 by omega) (hstale i)
      have hrest := ih (by omega) (by omega) hcrest
      constructor
      · intro h
        have hoff := h.offset (by omega) hword hnil
        rw [(by omega : offsetBehind stale d i inside=i+1+inside.size-d)] at h
        exact ⟨fun _ => ⟨(hiff.mp hoff).1,(hiff.mp hoff).2,hrest.mp h⟩,fun h0 => absurd h0 hnil⟩
      · rintro ⟨h,-⟩
        obtain ⟨hflat,hzero,hback⟩ := h hnil
        have hoff := hiff.mpr ⟨hflat,hzero⟩
        rw [(by omega : offsetBehind stale d i inside=i+1+inside.size-d)]
        exact hrest.mpr hback

/-! ## Loading an archive -/

/-- The records of an entry come before those behind it. -/
theorem unended_behind {addr n : ℕ} (hattr : ¬Ended mem addr)
    (hnot : ¬Ended mem (recordBehind mem addr))
    (hrest : ∀ k<n,¬Ended mem ((recordBehind mem)^[k] (behindEntry mem addr))) {k : ℕ}
    (hk : k<n+2) : ¬Ended mem ((recordBehind mem)^[k] addr) := by
  cases k with
  | zero => exact hattr
  | succ k =>
    cases k with
    | zero => exact hnot
    | succ k =>
      rw [Function.iterate_add_apply,Function.iterate_add_apply]
      exact hrest k (by omega)

/-- Records of an archive have names up to the one behind it. -/
theorem Archived.chain {f : FileTree} {path : List Char} {addr : ℕ} (hnames : NamesValid f)
    (hpath : NUL∉path) (h : Archived mem path f addr) :
    stopOf mem f addr=(recordBehind mem)^[2*f.size] addr ∧
      ∀ k<2*f.size,¬Ended mem ((recordBehind mem)^[k] addr) := by
  induction f generalizing path addr with
  | nil => exact ⟨rfl,fun k hk => absurd hk (by simp [Forest.size])⟩
  | leaf name rest ih =>
    obtain ⟨hattr,hnot,-⟩ := h.first (by simp) hnames hpath
    obtain ⟨hstop,hrest⟩ := ih hnames.2 hpath h.2.2
    simp only [Forest.size]
    refine ⟨?_,fun k hk => unended_behind hattr hnot hrest (by omega)⟩
    rw [stopOf,hstop,(by omega : 2*(1+rest.size)=2*rest.size+2),Function.iterate_add_apply]
    rfl
  | branch name inside rest ihi ihr =>
    obtain ⟨hattr,hnot,-⟩ := h.first (by simp) hnames hpath
    obtain ⟨-,-,hinside,hrest⟩ := h
    have hpath' : NUL∉path++name++['/'] := by
      rw [List.mem_append,not_or]
      exact ⟨by simp [hpath,hnames.1.nul],by decide⟩
    obtain ⟨hstopi,hini⟩ := ihi hnames.2.1 hpath' hinside
    obtain ⟨hstopr,hinr⟩ := ihr hnames.2.2 hpath hrest
    simp only [Forest.size]
    have hboth : ∀ k<2*(inside.size+rest.size),
        ¬Ended mem ((recordBehind mem)^[k] (behindEntry mem addr)) := by
      intro k hk
      rcases Nat.lt_or_ge k (2*inside.size) with hlt|hge
      · exact hini k hlt
      · have hk' := hinr (k-2*inside.size) (by omega)
        rw [hstopi,←Function.iterate_add_apply,Nat.sub_add_cancel hge] at hk'
        exact hk'
    refine ⟨?_,fun k hk => ?_⟩
    · rw [stopOf,hstopr,hstopi,←Function.iterate_add_apply,
        (by omega : 2*(1+inside.size+rest.size)=2*rest.size+2*inside.size+2),
        Function.iterate_add_apply _ _ 2]
      rfl
    · exact unended_behind hattr hnot hboth (by omega)

/-- An archive has fewer entries than there are addresses: its records are all
different, since the one that ends it comes once. -/
theorem ArchiveValid.size_lt {f : FileTree} {addr : ℕ} (h : ArchiveValid mem f addr) :
    f.size+1<2^32 := by
  obtain ⟨hstop,hnames⟩ := Archived.chain h.names (by simp) h.archived
  have hended := h.ended
  rw [hstop] at hended
  have hinj : Set.InjOn (fun k => (recordBehind mem)^[k+1] addr)
      (Finset.range (2*f.size) : Set ℕ) := by
    have hlt : ∀ j k,j<k → k<2*f.size →
        (recordBehind mem)^[j+1] addr≠(recordBehind mem)^[k+1] addr := by
      intro j k hjk hk heq
      refine hnames (2*f.size-k-1+(j+1)) (by omega) ?_
      rw [Function.iterate_add_apply,heq,←Function.iterate_add_apply,
        (by omega : 2*f.size-k-1+(k+1)=2*f.size)]
      exact hended
    intro j hj k hk heq
    simp only [Finset.coe_range,Set.mem_Iio] at hj hk
    rcases Nat.lt_trichotomy j k with hjk|hjk|hjk
    · exact absurd heq (hlt j k hjk hk)
    · exact hjk
    · exact absurd heq.symm (hlt k j hjk hj)
  have hmaps : Set.MapsTo (fun k => (recordBehind mem)^[k+1] addr)
      (Finset.range (2*f.size) : Set ℕ) (Finset.range (2^32) : Set ℕ) := by
    intro k _
    simp only [Finset.coe_range,Set.mem_Iio,Function.iterate_succ_apply']
    exact wadd_lt _ _
  have hcard := Finset.card_le_card_of_injOn _ hmaps hinj
  rw [Finset.card_range,Finset.card_range] at hcard
  omega

/-- Parsing has one result, however long it may run. -/
theorem tarParse_unique {rootHeader addr fuel fuel' : ℕ} {r r' : List InitrdNode×ℕ}
    (h : tarParse mem stale rootHeader addr fuel=some r)
    (h' : tarParse mem stale rootHeader addr fuel'=some r') : r=r' := by
  obtain ⟨st,hst,hpure⟩ := Option.bind_eq_some_iff.mp h
  obtain ⟨st',hst',hpure'⟩ := Option.bind_eq_some_iff.mp h'
  have hmax := tarParseRec_mono (Nat.le_max_left fuel fuel') hst
  have hmax' := tarParseRec_mono (Nat.le_max_right fuel fuel') hst'
  obtain rfl : st=st' := Option.some.inj (hmax.symm.trans hmax')
  exact Option.some.inj (hpure.symm.trans hpure')

/-- Parse an archive and build the array of its entries. -/
def loadInitrd (mem : ℕ → Char) (stale junk : ℕ → InitrdNode) (rootHeader addr fuel : ℕ) :
    Option Initrd :=
  (tarParse mem stale rootHeader addr fuel).map fun r => initrdBuildTree junk r.1 r.2

/-- Loading has one result, however long it may run. -/
theorem loadInitrd_unique {junk : ℕ → InitrdNode} {rootHeader addr fuel fuel' : ℕ}
    {rd rd' : Initrd} (h : loadInitrd mem stale junk rootHeader addr fuel=some rd)
    (h' : loadInitrd mem stale junk rootHeader addr fuel'=some rd') : rd=rd' := by
  obtain ⟨r,hr,rfl⟩ := Option.map_eq_some_iff.mp h
  obtain ⟨r',hr',rfl⟩ := Option.map_eq_some_iff.mp h'
  rw [tarParse_unique hr hr']

/-- What loading makes of an archive. -/
theorem loadInitrd_archive (stale : ℕ → InitrdNode) {f : FileTree} {addr : ℕ}
    (h : ArchiveValid mem f addr) (junk : ℕ → InitrdNode) (rootHeader : ℕ) :
    ∃ fuel,loadInitrd mem stale junk rootHeader addr fuel=
      some (initrdBuildTree junk (loaded mem stale rootHeader f addr) (f.size+1)) := by
  obtain ⟨fuel,hparse⟩ := tarParse_archive stale h rootHeader
  exact ⟨fuel,Option.map_eq_some_iff.mpr ⟨_,hparse,rfl⟩⟩

/-- Nodes of a loaded archive. -/
theorem loaded_nodes {f : FileTree} {addr rootHeader : ℕ} (junk : ℕ → InitrdNode) (j : ℕ) :
    (initrdBuildTree junk (loaded mem stale rootHeader f addr) (f.size+1)).nodes j=
      ((loaded mem stale rootHeader f addr)[j]?).getD (junk j) := by
  have hlen : (loaded mem stale rootHeader f addr).length=f.size+1 := by
    rw [loaded,List.length_cons,parsed_length]
  rw [←hlen]
  exact initrdBuildTree_nodes junk (by simp [loaded]) j

/-- A loaded archive has the counters of its tree. -/
theorem loaded_counted (stale : ℕ → InitrdNode) {f : FileTree} {addr : ℕ}
    (h : ArchiveValid mem f addr) (junk : ℕ → InitrdNode) (rootHeader : ℕ) :
    Counted stale (fun j => ((initrdBuildTree junk (loaded mem stale rootHeader f addr)
      (f.size+1)).nodes j).subEntNum) f 1 := by
  refine parsed_counted h.names (by simp) h.archived fun j hj => ?_
  have hlt : j<(parsed mem stale f addr 1).length := by
    rw [parsed_length]
    exact hj
  rw [loaded_nodes,loaded,Nat.add_comm 1 j,List.getElem?_cons_succ,
    List.getElem?_eq_getElem hlt]
  rfl

/-- A directory of a loaded archive: the root or one of the tree's, with what is
inside. -/
def IsDirectory (f : FileTree) (d : ℕ) (s : FileTree) : Prop :=
  (d=0 ∧ s=f) ∨ f.HasBranch 1 d s

/-- Reading a directory of a loaded archive. -/
theorem loadInitrd_reads {f s : FileTree} {addr rootHeader fuel d : ℕ} {junk : ℕ → InitrdNode}
    {rd : Initrd} (h : ArchiveValid mem f addr) (hstale : ∀ k,(stale k).subEntNum<2^32)
    (hload : loadInitrd mem stale junk rootHeader addr fuel=some rd) (hdir : IsDirectory f d s) :
    Reads rd ⟨1,d⟩ (s.numbers (d+1)) ↔ ReadsBack stale d s (d+1) (f.size-(d+s.size)) := by
  obtain ⟨fuel',hload'⟩ := loadInitrd_archive stale h junk rootHeader
  obtain rfl := loadInitrd_unique hload hload'
  have hword := h.size_lt
  have hcount := loaded_counted stale h junk rootHeader
  obtain ⟨hcs,hend⟩ : Counted stale (fun j => ((initrdBuildTree junk
      (loaded mem stale rootHeader f addr) (f.size+1)).nodes j).subEntNum) s (d+1) ∧
      d+1+s.size≤f.size+1 := by
    rcases hdir with ⟨rfl,rfl⟩|hb
    · exact ⟨hcount,by omega⟩
    · obtain ⟨h0,h1,h2⟩ := hcount.branch hb
      exact ⟨h0,by omega⟩
  have hiff := reads_iff hstale hword (Nat.lt_succ_self d) hend hcs
  rw [Nat.succ_sub (Nat.le_refl d),Nat.sub_self] at hiff
  rw [hiff]
  change ReadsBack stale d s (d+1) (f.size+1-(d+1+s.size)) ↔ _
  rw [(by omega : f.size+1-(d+1+s.size)=f.size-(d+s.size))]

/-- Opening and reading a directory of a loaded archive yields its direct
entries exactly under this condition. -/
theorem readdir_iff {mem : ℕ → Char} {stale junk : ℕ → InitrdNode} {junkFs : ℕ → FsNode}
    {f : FileTree} {addr rootHeader : ℕ} (h : ArchiveValid mem f addr)
    (hstale : ∀ k,(stale k).subEntNum<2^32) :
    (∃ fuel rd,loadInitrd mem stale junk rootHeader addr fuel=some rd) ∧
      ∀ fuel rd,loadInitrd mem stale junk rootHeader addr fuel=some rd →
        ∀ d s,IsDirectory f d s →
          (Reads rd (initrdOpendir (initrdBuildFs mem junkFs rd d)) (s.numbers (d+1)) ↔
            ReadsBack stale d s (d+1) (f.size-(d+s.size))) := by
  obtain ⟨fuel,hload⟩ := loadInitrd_archive stale h junk rootHeader
  refine ⟨⟨fuel,_,hload⟩,fun fuel' rd hload' d s hdir => ?_⟩
  obtain rfl := loadInitrd_unique hload' hload
  have hlt : d<f.size+1 := by
    rcases hdir with ⟨rfl,-⟩|hb
    · omega
    · have := ((loaded_counted stale h junk rootHeader).branch hb).2
      omega
  have hopen : initrdOpendir (initrdBuildFs mem junkFs (initrdBuildTree junk
      (loaded mem stale rootHeader f addr) (f.size+1)) d)=⟨1,d⟩ := by
    have hlt' : d<(initrdBuildTree junk (loaded mem stale rootHeader f addr)
      (f.size+1)).entryNum := hlt
    rw [initrdOpendir,initrdBuildFs,if_pos hlt']
    rfl
  rw [hopen]
  exact loadInitrd_reads h hstale hload' hdir

/-- Names in the records of a sample archive. -/
def sampleNames : List (List Char) := [['x'],['a','/'],['x'],['a','/','b'],['x'],['c']]

/-- An archive of a directory with one file, and of another file behind it. -/
def sampleMem (addr : ℕ) : Char := charAt (sampleNames.getD (addr/512) []) (addr%512)

/-- The tree of the sample archive. -/
def sampleTree : FileTree := .branch ['a'] (.leaf ['b'] .nil) (.leaf ['c'] .nil)

/-- Memory of zero bytes for an entry. -/
def zeroNode (_ : ℕ) : InitrdNode := ⟨0,0,0,0,0,0,0,.file⟩

/-- Its counters are words. -/
theorem zeroNode_word (k : ℕ) : (zeroNode k).subEntNum<2^32 := Nat.two_pow_pos 32

/-- Memory of zero bytes for a node. -/
def zeroFs (_ : ℕ) : FsNode := ⟨[],0,0,0,0,.file,0,.null⟩

/-- The sample archive is valid. -/
theorem sample_valid : ArchiveValid sampleMem sampleTree 0 := by
  refine ⟨⟨⟨by decide,by decide,by decide⟩,⟨⟨by decide,by decide,by decide⟩,trivial⟩,
    ⟨by decide,by decide,by decide⟩,trivial⟩,by decide +kernel,by decide +kernel⟩

/-- Reading the sample's root and its directory. -/
theorem readdir_iff_sample :
    (∃ fuel rd,loadInitrd sampleMem zeroNode zeroNode 0x10000 0 fuel=some rd) ∧
      ∀ fuel rd,loadInitrd sampleMem zeroNode zeroNode 0x10000 0 fuel=some rd →
        ∀ d s,IsDirectory sampleTree d s →
          (Reads rd (initrdOpendir (initrdBuildFs sampleMem zeroFs rd d)) (s.numbers (d+1)) ↔
            ReadsBack zeroNode d s (d+1) (3-(d+s.size))) :=
  readdir_iff sample_valid zeroNode_word

/-- Reading a directory that does not end the archive also yields what lies
behind it. -/
theorem readdir_counterexample :
    ¬∀ (mem : ℕ → Char) (stale junk : ℕ → InitrdNode) (junkFs : ℕ → FsNode) (f : FileTree)
      (addr rootHeader fuel : ℕ) (rd : Initrd) (d : ℕ) (s : FileTree),ArchiveValid mem f addr →
      (∀ k,(stale k).subEntNum<2^32) →
      loadInitrd mem stale junk rootHeader addr fuel=some rd → IsDirectory f d s →
      Reads rd (initrdOpendir (initrdBuildFs mem junkFs rd d)) (s.numbers (d+1)) := by
  intro hclaim
  obtain ⟨fuel,hload⟩ := loadInitrd_archive zeroNode sample_valid zeroNode 0x10000
  have hdir : IsDirectory sampleTree 1 (.leaf ['b'] .nil) := Or.inr (Or.inl ⟨rfl,rfl⟩)
  have hreads := hclaim sampleMem zeroNode zeroNode zeroFs sampleTree 0 0x10000 fuel _ 1 _
    sample_valid zeroNode_word hload hdir
  have hopen : initrdOpendir (initrdBuildFs sampleMem zeroFs (initrdBuildTree zeroNode
      (loaded sampleMem zeroNode 0x10000 sampleTree 0) (sampleTree.size+1)) 1)=⟨1,1⟩ := by
    rw [initrdOpendir,initrdBuildFs,if_pos (by decide)]
    rfl
  rw [hopen] at hreads
  have hback := (loadInitrd_reads sample_valid zeroNode_word hload hdir).mp hreads
  exact absurd hback (by decide : (1 : ℕ)≠0)

end XanaduOS.InitrdListing

import XanaduOS.RamdiskFiles

/-!
# Lookups of any path

Every stream of a loaded archive runs to its end, and where the memory of the nodes
was cleared a file's node opens nothing. So a lookup of any text ends, however it
goes astray, and what it finds is an entry whose name begins with the last
component of the text.
-/

namespace XanaduOS.LookupEnds

open Slibc InitialRamdisk InitrdListing InitrdLookup Forests
open ChildCounts DirStreams RamdiskFiles

/-- An entry that a text may lead to from a node: it lies behind the node, and its
name begins with the text's last component. -/
structure Found (f : FileTree) (n : ℕ) (text : List Char) (m : ℕ) : Prop where
  /-- The entry lies behind. -/
  behind : n < m
  /-- It is one of the tree. -/
  inside : m≤f.size
  /-- Its name. -/
  begins : ∃ item∈(splitPath text).getLast?,∃ e,f.entries[m-1]?=some e ∧
    beginsWith item e.1 e.2=true

/-- Every node is a directory that opens, or opens nothing. -/
def Openings (rd : Initrd) (fs : ℕ → FsNode) : Prop :=
  ∀ n < rd.entryNum,((fs n).type=.dir ∧ (fs n).opendir=.initrd) ∨ (fs n).opendir=.null

variable {stale : ℕ → InitrdNode} {rd : Initrd} {fs : ℕ → FsNode} {f : FileTree} {n : ℕ}

/-- What a rest of the path leads to is what the whole leads to. -/
theorem Found.cons {item : PathItem} {rest : List Char} {k m : ℕ} (hitem : ItemValid item rest)
    (hle : n≤k) (h : Found f k rest m) : Found f n (itemText item++rest) m := by
  obtain ⟨last,hlast,e,he,hbegins⟩ := h.begins
  refine ⟨hle.trans_lt h.behind,h.inside,last,?_,e,he,hbegins⟩
  rw [splitPath_item hitem,List.getLast?_cons,Option.mem_def.mp hlast]
  rfl

/-- A stream ends, and what it finds has the name. The induction is on the entries
left. -/
theorem stream_ends (h : Searchable stale rd fs f) (curName : List Char) (curNameLen : ℕ)
    {d p : ℕ} (hd : d<p) (hin : d < rd.entryNum) :
    ∃ r,Finds rd fs curName curNameLen ⟨p-d,d⟩ r ∧
      ∀ m∈r,d < m ∧ m < rd.entryNum ∧ entNameEq (fs m) curName curNameLen := by
  have hentries := h.entries
  have hwordf := h.word
  have hword : rd.entryNum<2^32 := by omega
  obtain ⟨left,hleft⟩ : ∃ left,rd.entryNum-p≤left := ⟨_,Nat.le_refl _⟩
  induction left generalizing p with
  | zero => exact ⟨none,Finds.ended hword hd hin (by omega),by simp⟩
  | succ left ih =>
    rcases Nat.lt_or_ge p rd.entryNum with hp|hp
    · by_cases heq : entNameEq (fs p) curName curNameLen
      · refine ⟨some p,Finds.found hword hd hp heq,fun m hm => ?_⟩
        obtain rfl := Option.some.inj hm
        exact ⟨hd,hp,heq⟩
      · have hle := next_le h.counted h.cleared (show 1≤p by omega) (by omega)
        obtain ⟨r,hr,hfound⟩ := @ih (p+1+countsOf rd p) (by omega) (by omega)
        exact ⟨r,Finds.skip hword hd hp (by omega) heq hr,hfound⟩
    · exact ⟨none,Finds.ended hword hd hin hp,by simp⟩

/-- The search of a node ends. -/
theorem searchNode_ends (h : Searchable stale rd fs f) (hopen : Openings rd fs)
    (hin : n < rd.entryNum) (curName : List Char) (curNameLen : ℕ) :
    ∃ fuel r,searchNode rd fs fuel n curName curNameLen=some r ∧
      ∀ m∈r,n < m ∧ m < rd.entryNum ∧ entNameEq (fs m) curName curNameLen := by
  rcases hopen n hin with hdir|hnull
  · obtain ⟨r,hr,hfound⟩ := stream_ends h curName curNameLen (Nat.lt_succ_self n) hin
    obtain ⟨fuel,hfuel⟩ := h.searches hin hdir hr
    exact ⟨fuel,r,hfuel,hfound⟩
  · exact ⟨0,none,by rw [searchNode,if_pos hnull],by simp⟩

/-- The component loop ends. The induction is on the length of what is left of the
path. -/
theorem getNodeLoop_ends (h : Searchable stale rd fs f) (hopen : Openings rd fs) (k : ℕ) :
    ∀ {text : List Char} {n : ℕ},text.length≤k → NUL∉text → n < rd.entryNum → ∀ tail,
    ∃ fuel r,getNodeLoop rd fs fuel (text++tail) text.length (some n)=some r ∧
      ∀ m∈r,(text=[] ∧ m=n) ∨ Found f n text m := by
  have hempty : ∀ (n : ℕ) (tail : List Char),∃ fuel r,
      getNodeLoop rd fs fuel ([]++tail) ([] : List Char).length (some n)=some r ∧
        ∀ m∈r,(([] : List Char)=[] ∧ m=n) ∨ Found f n [] m := fun n tail =>
    ⟨1,some n,getNodeLoop_end tail _,fun m hm => Or.inl ⟨rfl,(Option.some.inj hm).symm⟩⟩
  induction k with
  | zero =>
    intro text n hlen _ _ tail
    obtain rfl := List.eq_nil_of_length_eq_zero (Nat.le_zero.mp hlen)
    exact hempty n tail
  | succ k ih =>
    intro text n hlen hnul hin tail
    by_cases hne : text=[]
    · subst hne
      exact hempty n tail
    obtain ⟨item,rest,rfl,hitem⟩ := exists_item hne
    rw [List.mem_append,not_or] at hnul
    have hnul' : NUL∉item.1 := fun hmem => hnul.1 (List.mem_append_left _ hmem)
    obtain ⟨fuel,r,hr,hfound⟩ :=
      searchNode_ends h hopen hin (itemText item++rest++tail) (itemText item).length
    cases r with
    | none =>
      have hnone : getNodeLoop rd fs 1 (rest++tail) rest.length none=some none := by
        simp [getNodeLoop]
      obtain ⟨fuel',hrun⟩ := getNodeLoop_item hitem tail hr hnone
      exact ⟨fuel',none,hrun,by simp⟩
    | some m =>
      obtain ⟨hbehind,hinside,heq⟩ := hfound m rfl
      by_cases hrest : rest=[]
      · -- the last component: its entry is the result
        subst hrest
        obtain ⟨fuel',hrun⟩ := getNodeLoop_item hitem tail hr (getNodeLoop_end ([]++tail) (some m))
        refine ⟨fuel',some m,hrun,fun m' hm' => Or.inr ?_⟩
        obtain rfl := Option.some.inj hm'
        have hentries := h.entries
        obtain ⟨e,he,hiff⟩ := h.compares hitem hnul' tail (by omega) hinside
        refine ⟨hbehind,by omega,item,?_,e,he,hiff.mp heq⟩
        rw [splitPath_item hitem]
        rfl
      · have hpos := itemText_pos hitem
        rw [List.length_append] at hlen
        obtain ⟨fuel',r,hrun,hlast⟩ := @ih rest m (by omega) hnul.2 hinside tail
        obtain ⟨fuel₁,hrun₁⟩ := getNodeLoop_item hitem tail hr hrun
        refine ⟨fuel₁,r,hrun₁,fun m' hm' => Or.inr ?_⟩
        rcases hlast m' hm' with ⟨hnil,-⟩|hlast
        · exact absurd hnil hrest
        · exact hlast.cons hitem hbehind.le

section Loaded

variable {mem : ℕ → Char} {junk : ℕ → InitrdNode} {junkFs : ℕ → FsNode} {addr rootHeader : ℕ}

/-- Nodes built in cleared memory. -/
theorem openings_built (hnull : ∀ k,(junkFs k).opendir=.null) (rd : Initrd) :
    Openings rd (initrdBuildFs mem junkFs rd) := by
  intro n hn
  rw [initrdBuildFs,if_pos hn]
  by_cases htype : (rd.nodes n).type=.dir
  · exact Or.inl ⟨htype,if_pos htype⟩
  · exact Or.inr ((if_neg htype).trans (hnull n))

/-- Where the memory of the nodes and of the empty directories' counters was cleared, a
lookup of any text ends. Unless the text is a slash, which is the root, what it
finds is an entry whose name begins with the last component of the text's first
256 characters behind the slash. -/
theorem rootGetNodeFs_ends (h : ArchiveValid mem f addr) (hz : EmptiesCleared stale f)
    (hnull : ∀ k,(junkFs k).opendir=.null) :
    (∃ fuel rd,loadInitrd mem stale junk rootHeader addr fuel=some rd) ∧
      ∀ fuel rd,loadInitrd mem stale junk rootHeader addr fuel=some rd →
        ∀ name : List Char,NUL∉name →
          ∃ fuel r,rootGetNodeFs rd (initrdBuildFs mem junkFs rd) fuel name=some r ∧
            ∀ m∈r,(name=['/'] ∧ m=0) ∨
              ∃ body,name= '/'::body ∧ Found f 0 (body.take 256) m := by
  obtain ⟨fuel,hload⟩ := loadInitrd_archive stale h junk rootHeader
  refine ⟨⟨fuel,_,hload⟩,fun fuel' rd hload' name hnul => ?_⟩
  obtain rfl := loadInitrd_unique hload' hload
  by_cases habs : charAt name 0= '/'
  · obtain ⟨body,rfl⟩ : ∃ body,name= '/'::body := by
      cases name with
      | nil => exact absurd habs (by decide)
      | cons c body =>
        have hc : c= '/' := habs
        exact ⟨body,hc▸rfl⟩
    have hbody : NUL∉body := fun hmem => hnul (List.mem_cons_of_mem _ hmem)
    obtain ⟨fuel₁,r,hrun,hfound⟩ := getNodeLoop_ends (loaded_searchable h hz junk junkFs rootHeader)
      (openings_built hnull _) _ (Nat.le_refl (body.take 256).length)
      (fun hmem => hbody (List.mem_of_mem_take hmem)) (Nat.succ_pos f.size) (body.drop 256)
    have hlen := strnlen_text hbody 256 [] rfl
    rw [List.append_nil,Nat.min_comm,←List.length_take] at hlen
    rw [List.take_append_drop] at hrun
    refine ⟨fuel₁,r,?_,fun m hm => ?_⟩
    · rw [rootGetNodeFs,if_neg (not_not.mpr habs),List.drop_one,List.tail_cons,hlen]
      exact hrun
    · rcases hfound m hm with ⟨hnil,rfl⟩|hfound
      · refine Or.inl ⟨?_,rfl⟩
        rcases List.take_eq_nil_iff.mp hnil with hzero|hnil
        · exact absurd hzero (by norm_num)
        · rw [hnil]
      · exact Or.inr ⟨body,rfl,hfound⟩
  · exact ⟨0,none,if_pos habs,by simp⟩

/-- A path through the sample archive's file. -/
theorem rootGetNodeFs_ends_file : ∃ fuel rd,
    loadInitrd sampleMem zeroNode zeroNode 0x10000 0 fuel=some rd ∧
    ∃ fuel r,rootGetNodeFs rd (initrdBuildFs sampleMem zeroFs rd) fuel ['/','c','/','b']=some r ∧
      ∀ m∈r,(['/','c','/','b']=['/'] ∧ m=0) ∨
        ∃ body,['/','c','/','b']= '/'::body ∧ Found sampleTree 0 (body.take 256) m := by
  obtain ⟨⟨fuel,rd,hload⟩,hends⟩ := @rootGetNodeFs_ends zeroNode sampleTree sampleMem zeroNode
    zeroFs 0 0x10000 sample_valid (fun _ _ => rfl) fun _ => rfl
  exact ⟨fuel,rd,hload,hends fuel rd hload ['/','c','/','b'] (by decide)⟩

end Loaded

end XanaduOS.LookupEnds

import XanaduOS.InitrdListing

/-!
# Counters of a parsed archive

A directory's counter is written when the level of its contents ends, so only
for a directory that has contents: the entry of an empty one keeps the counter
that the slab's memory held. Every other counter is right.
-/

namespace XanaduOS.ChildCounts

open Slibc InitialRamdisk InitrdListing Forests

variable {mem : ℕ → Char} {stale : ℕ → InitrdNode} {f : FileTree} {addr : ℕ}

/-- Counters of a parsed tree: a directory's is the number of its direct
entries, a file's is zero. -/
structure CountsSound (mem : ℕ → Char) (stale : ℕ → InitrdNode) (rootHeader : ℕ) (f : FileTree)
    (addr : ℕ) : Prop where
  /-- The parser ends. -/
  ends : ∃ fuel r,tarParse mem stale rootHeader addr fuel=some r
  /-- Counters of the root and the directories. -/
  directories : ∀ fuel r,tarParse mem stale rootHeader addr fuel=some r →
    ∀ d s,IsDirectory f d s → r.1[d]?.map InitrdNode.subEntNum=some s.count
  /-- Counters of the files. -/
  files : ∀ fuel r,tarParse mem stale rootHeader addr fuel=some r →
    ∀ k,f.HasLeaf 1 k → r.1[k]?.map InitrdNode.subEntNum=some 0

/-- The memory of every empty directory's entry held a zero counter. -/
def EmptiesCleared (stale : ℕ → InitrdNode) (f : FileTree) : Prop :=
  ∀ n,f.HasBranch 1 n .nil → (stale n).subEntNum=0

/-- A counter is that of the contents, unless these are empty and the memory held
another one. -/
theorem storedCount_eq_iff {n : ℕ} {s : FileTree} :
    storedCount stale n s=s.count ↔ (s=.nil → (stale n).subEntNum=0) := by
  rw [storedCount]
  by_cases hs : s=.nil
  · rw [if_pos hs,hs]
    simp [Forest.count]
  · rw [if_neg hs]
    exact iff_of_true rfl fun h => absurd h hs

/-- Counter of an entry of a parsed tree. -/
def countAt (entries : List InitrdNode) (j : ℕ) : ℕ :=
  (entries[j]?.map InitrdNode.subEntNum).getD 0

/-- Entries that exist have a counter. -/
theorem countAt_eq {entries : List InitrdNode} {j : ℕ} (hj : j<entries.length) :
    entries[j]?.map InitrdNode.subEntNum=some (countAt entries j) := by
  rw [countAt,List.getElem?_eq_getElem hj]
  rfl

/-- The entries of a parsed tree have its counters. -/
theorem parsed_countAt (h : ArchiveValid mem f addr) (stale : ℕ → InitrdNode) (rootHeader : ℕ) :
    Counted stale (countAt (loaded mem stale rootHeader f addr)) f 1 := by
  refine parsed_counted h.names (by simp) h.archived fun j hj => ?_
  have hlen : 1+j<(loaded mem stale rootHeader f addr).length := by
    rw [loaded,List.length_cons,parsed_length]
    omega
  rw [←countAt_eq hlen,loaded,Nat.add_comm 1 j,List.getElem?_cons_succ]

/-- The counters of a parsed archive are right exactly when the memory of every
empty directory's entry held a zero counter. -/
theorem countsSound_iff (h : ArchiveValid mem f addr) (stale : ℕ → InitrdNode) (rootHeader : ℕ) :
    CountsSound mem stale rootHeader f addr ↔ EmptiesCleared stale f := by
  obtain ⟨fuel,hparse⟩ := tarParse_archive stale h rootHeader
  have hcount := parsed_countAt h stale rootHeader
  have hlen : (loaded mem stale rootHeader f addr).length=f.size+1 := by
    rw [loaded,List.length_cons,parsed_length]
  constructor
  · intro hsound n hb
    have hrange := (hcount.branch hb).2
    have hn : n<(loaded mem stale rootHeader f addr).length := by omega
    have hstored := (countAt_eq hn).symm.trans (hsound.directories fuel _ hparse n .nil (Or.inr hb))
    rw [hcount.directory hb] at hstored
    exact storedCount_eq_iff.mp (Option.some.inj hstored) rfl
  · intro hclear
    refine ⟨⟨fuel,_,hparse⟩,fun fuel' r hr d s hdir => ?_,fun fuel' r hr k hl => ?_⟩
    · obtain rfl := tarParse_unique hr hparse
      rcases hdir with ⟨rfl,rfl⟩|hb
      · rfl
      · have hrange := (hcount.branch hb).2
        have hd : d<(loaded mem stale rootHeader f addr).length := by omega
        refine (countAt_eq hd).trans (congrArg some ?_)
        rw [hcount.directory hb]
        exact storedCount_eq_iff.mpr fun hs => hclear d (hs▸hb)
    · obtain rfl := tarParse_unique hr hparse
      have hrange := hl.range
      have hk : k<(loaded mem stale rootHeader f addr).length := by omega
      rw [←hcount.file hl]
      exact countAt_eq hk

/-- An archive of an empty directory. -/
def emptyDirMem (addr : ℕ) : Char := charAt ([['x'],['d','/']].getD (addr/512) []) (addr%512)

/-- Its tree. -/
def emptyDirTree : FileTree := .branch ['d'] .nil .nil

/-- The archive is valid. -/
theorem emptyDir_valid : ArchiveValid emptyDirMem emptyDirTree 0 :=
  ⟨⟨⟨by decide,by decide,by decide⟩,trivial,trivial⟩,by decide +kernel,by decide +kernel⟩

/-- In cleared memory its counters are right. -/
theorem countsSound_cleared : CountsSound emptyDirMem zeroNode 0x10000 emptyDirTree 0 ↔
    EmptiesCleared zeroNode emptyDirTree := countsSound_iff emptyDir_valid zeroNode 0x10000

/-- Memory with a counter left in it. -/
def usedNode (_ : ℕ) : InitrdNode := ⟨0,0,0,7,0,0,0,.file⟩

/-- The empty directory keeps the counter of its memory. -/
theorem countsSound_counterexample :
    ¬∀ (mem : ℕ → Char) (stale : ℕ → InitrdNode) (rootHeader : ℕ) (f : FileTree) (addr : ℕ),
      ArchiveValid mem f addr → CountsSound mem stale rootHeader f addr := by
  intro h
  have hsound := h emptyDirMem usedNode 0x10000 emptyDirTree 0 emptyDir_valid
  obtain ⟨fuel,hparse⟩ := tarParse_archive usedNode emptyDir_valid 0x10000
  have hb : emptyDirTree.HasBranch 1 1 .nil := Or.inl ⟨rfl,rfl⟩
  have hcount := (parsed_countAt emptyDir_valid usedNode 0x10000).directory hb
  have hlen : 1<(loaded emptyDirMem usedNode 0x10000 emptyDirTree 0).length := by
    rw [loaded,List.length_cons,parsed_length]
    decide
  have hstored := (countAt_eq hlen).symm.trans
    (hsound.directories fuel _ hparse 1 .nil (Or.inr hb))
  rw [hcount] at hstored
  exact absurd (Option.some.inj hstored) (by decide)

end XanaduOS.ChildCounts

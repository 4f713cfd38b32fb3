import XanaduOS.InitrdLoading
import XanaduOS.KernelDefs

/-!
# Reading files of the initial ramdisk

A read copies as many bytes as it is asked for, from wherever its offset leads,
and returns the size of the file. So a file that is read by consecutive calls
comes back right only when it is read whole by one call, or is empty and
nothing is asked for.
-/

namespace XanaduOS.FileReads

open Word32 KernelDefs InitialRamdisk InitrdListing InitrdLoading

/-- The bytes that `memcpy` moves, by destination and source. Through a null
pointer nothing is copied. -/
def memcpyMoves (buf cpy len : ℕ) : List (ℕ×ℕ) :=
  if buf=0 ∨ cpy=0 then [] else (List.range len).map fun i => (wadd buf i,wadd cpy i)

/-- Memory after some bytes were moved, one after another. -/
def moveBytes (mem : ℕ → Char) : List (ℕ×ℕ) → ℕ → Char
  | [] => mem
  | (dest,copy)::moves => moveBytes (Function.update mem dest (mem copy)) moves

/-- Read from a node: the value returned and the bytes moved. -/
def initrdRead (rd : Initrd) (node : FsNode) (offset size buf : ℕ) : ℕ×List (ℕ×ℕ) :=
  if buf=0 then (0,[])
  else
    let readAddr := wadd (rd.nodes node.inode).data offset
    (node.size,memcpyMoves buf readAddr size)

/-- Read from a node or a null pointer. Every node of the ramdisk has the
operation. -/
def readFs (rd : Initrd) (node : Option FsNode) (offset len buf : ℕ) : ℕ×List (ℕ×ℕ) :=
  match node with
  | none => (EINVAL,[])
  | some node => initrdRead rd node offset len buf

/-- A call: a buffer and the bytes asked for. -/
structure ReadCall where
  /-- Where the bytes go. -/
  buf : ℕ
  /-- Bytes asked for. -/
  size : ℕ
  /-- The buffer is not null. -/
  buf_ne_zero : buf≠0

/-- A call that returned. -/
structure ReadOutcome where
  /-- The call. -/
  call : ReadCall
  /-- The offset it was made with. -/
  offset : ℕ
  /-- The value returned. -/
  ret : ℕ
  /-- The bytes moved. -/
  moves : List (ℕ×ℕ)
  /-- The bytes in the buffer, as many as were returned. -/
  piece : List Char

/-- Consecutive calls, each with the sum of the values returned before. -/
def readCalls (rd : Initrd) (node : FsNode) :
    (ℕ → Char) → ℕ → List ReadCall → List ReadOutcome
  | _,_,[] => []
  | mem,offset,call::calls =>
    let r := readFs rd (some node) offset call.size call.buf
    let mem := moveBytes mem r.2
    ⟨call,offset,r.1,r.2,(List.range r.1).map fun i => mem (wadd call.buf i)⟩::
      readCalls rd node mem (wadd offset r.1) calls

/-- Contents of a file. -/
def fileContent (mem : ℕ → Char) (rd : Initrd) (node : FsNode) : List Char :=
  (List.range node.size).map fun i => mem (wadd (rd.nodes node.inode).data i)

/-- Bytes that a call should return: those left, as far as asked for. -/
def bytesDue (node : FsNode) (o : ReadOutcome) : ℕ := min o.call.size (node.size-o.offset)

/-- What reading a file by consecutive calls should do. -/
structure RunSound (mem : ℕ → Char) (rd : Initrd) (node : FsNode) (calls : List ReadCall) :
    Prop where
  /-- Each call returns the bytes that are due. -/
  returns : ∀ o∈readCalls rd node mem 0 calls,o.ret=bytesDue node o
  /-- It copies these bytes of the file to the buffer, and nothing else. -/
  copies : ∀ o∈readCalls rd node mem 0 calls,o.moves=(List.range (bytesDue node o)).map fun i =>
    (wadd o.call.buf i,wadd (wadd (rd.nodes node.inode).data o.offset) i)
  /-- The pieces up to the first return of zero are the file's contents. -/
  content : ∀ before o after,readCalls rd node mem 0 calls=before++o::after →
    (∀ b∈before,b.ret≠0) → o.ret=0 →
    (before.map ReadOutcome.piece).flatten=fileContent mem rd node

variable {mem : ℕ → Char} {rd : Initrd} {node : FsNode} {calls : List ReadCall}

/-- A call returns the file's size, and moves the bytes asked for. -/
theorem readFs_eq (rd : Initrd) (node : FsNode) (call : ReadCall) (offset : ℕ) :
    readFs rd (some node) offset call.size call.buf=
      (node.size,memcpyMoves call.buf (wadd (rd.nodes node.inode).data offset) call.size) :=
  if_neg call.buf_ne_zero

/-- Bytes moved to a buffer from an address that is not null. -/
theorem memcpyMoves_eq (call : ReadCall) {cpy : ℕ} (hcpy : cpy≠0) :
    memcpyMoves call.buf cpy call.size=
      (List.range call.size).map fun i => (wadd call.buf i,wadd cpy i) :=
  if_neg fun h => h.elim call.buf_ne_zero hcpy

/-- Calls on an empty file: each one has the offset zero, returns zero and moves the
bytes asked for. -/
theorem readCalls_empty (hsize : node.size=0) (mem : ℕ → Char) (calls : List ReadCall) :
    ∀ o∈readCalls rd node mem 0 calls,o.offset=0 ∧ o.ret=0 ∧
      o.moves=memcpyMoves o.call.buf (wadd (rd.nodes node.inode).data 0) o.call.size := by
  induction calls generalizing mem with
  | nil => simp [readCalls]
  | cons call calls ih =>
    simp only [readCalls,readFs_eq,hsize]
    rw [List.forall_mem_cons]
    exact ⟨⟨rfl,rfl,rfl⟩,ih _⟩

/-- The calls made are the ones asked for. -/
theorem readCalls_call (mem : ℕ → Char) (offset : ℕ) (calls : List ReadCall) :
    (readCalls rd node mem offset calls).map ReadOutcome.call=calls := by
  induction calls generalizing mem offset with
  | nil => rfl
  | cons call calls ih => rw [readCalls,List.map_cons,ih]

/-- Runs that read a file right: no call, one for the whole file, or calls for
nothing on an empty file. -/
def ReadsWhole (node : FsNode) (calls : List ReadCall) : Prop :=
  calls=[] ∨ (∃ call,calls=[call] ∧ call.size=node.size) ∨
    (node.size=0 ∧ ∀ call∈calls,call.size=0)

/-- A file is read right by no other runs. -/
theorem RunSound.readsWhole (hdata : (rd.nodes node.inode).data≠0)
    (hword : (rd.nodes node.inode).data<2^32) (hsize : node.size<2^32)
    (h : RunSound mem rd node calls) : ReadsWhole node calls := by
  have hzero : wadd (rd.nodes node.inode).data 0=(rd.nodes node.inode).data := wadd_eq hword
  cases calls with
  | nil => exact Or.inl rfl
  | cons call calls =>
    -- the first call starts at the file's first byte
    obtain ⟨hret,-⟩ := List.forall_mem_cons.mp h.returns
    obtain ⟨hmoves,-⟩ := List.forall_mem_cons.mp h.copies
    simp only [bytesDue,readFs_eq,hzero,memcpyMoves_eq call hdata,Nat.sub_zero] at hret hmoves
    have hlen := congrArg List.length hmoves
    rw [List.length_map,List.length_map,List.length_range,List.length_range] at hlen
    have hcall : call.size=node.size := hlen.trans hret.symm
    cases calls with
    | nil => exact Or.inr (Or.inl ⟨call,rfl,hcall⟩)
    | cons second calls =>
      -- the second call starts behind its last one and returns the size again
      have hreturns := h.returns
      rw [readCalls,readCalls,List.forall_mem_cons,List.forall_mem_cons] at hreturns
      have hnext := hreturns.2.1
      simp only [bytesDue,readFs_eq,wadd_eq (show 0+node.size<2^32 by omega),Nat.zero_add,
        Nat.sub_self,Nat.min_zero] at hnext
      refine Or.inr (Or.inr ⟨hnext,fun c hc => ?_⟩)
      have hc' := hc
      rw [←@readCalls_call rd node mem 0 (call::second::calls)] at hc'
      obtain ⟨o,ho,rfl⟩ := List.mem_map.mp hc'
      obtain ⟨hoff,-,hmove⟩ := readCalls_empty hnext mem _ o ho
      have hcopy := congrArg List.length (hmove.symm.trans (h.copies o ho))
      rw [hzero,memcpyMoves_eq o.call hdata,List.length_map,List.length_map,List.length_range,
        List.length_range,bytesDue,hnext,Nat.zero_sub,Nat.min_zero] at hcopy
      exact hcopy

/-- An empty file is read right by calls for nothing. -/
theorem RunSound.of_empty (hsize : node.size=0) (hcalls : ∀ call∈calls,call.size=0) :
    RunSound mem rd node calls := by
  have hspec := @readCalls_empty rd node hsize mem calls
  have hcall : ∀ o∈readCalls rd node mem 0 calls,o.call.size=0 := by
    intro o ho
    refine hcalls o.call ?_
    rw [←@readCalls_call rd node mem 0 calls]
    exact List.mem_map_of_mem ho
  refine ⟨fun o ho => ?_,fun o ho => ?_,fun before o after heq hbefore hret => ?_⟩
  · rw [bytesDue,hcall o ho,Nat.zero_min]
    exact (hspec o ho).2.1
  · rw [bytesDue,hcall o ho,Nat.zero_min,(hspec o ho).2.2,memcpyMoves,hcall o ho]
    split <;> rfl
  · -- the first call returns zero already
    have hnil : before=[] := by
      cases before with
      | nil => rfl
      | cons b before =>
        have hb := hbefore b List.mem_cons_self
        exact absurd (hspec b (heq▸List.mem_cons_self)).2.1 hb
    rw [hnil,fileContent,hsize]
    rfl

/-- A file is read right by one call for the whole of it. -/
theorem RunSound.of_whole (hdata : (rd.nodes node.inode).data≠0)
    (hword : (rd.nodes node.inode).data<2^32) {call : ReadCall} (hcall : call.size=node.size) :
    RunSound mem rd node [call] := by
  by_cases hzero : node.size=0
  · exact RunSound.of_empty hzero fun c hc => by rw [List.mem_singleton.mp hc,hcall,hzero]
  have hstart : wadd (rd.nodes node.inode).data 0=(rd.nodes node.inode).data := wadd_eq hword
  have hone : ∀ o∈readCalls rd node mem 0 [call],o.call=call ∧ o.offset=0 ∧ o.ret=node.size ∧
      o.moves=(List.range call.size).map fun i =>
        (wadd call.buf i,wadd (rd.nodes node.inode).data i) := by
    intro o ho
    rw [readCalls,readCalls] at ho
    obtain rfl := List.mem_singleton.mp ho
    simp only [readFs_eq,hstart,memcpyMoves_eq call hdata,true_and]
  refine ⟨fun o ho => ?_,fun o ho => ?_,fun before o after heq _ hret => ?_⟩
  · obtain ⟨hc,hoff,hret,-⟩ := hone o ho
    rw [hret,bytesDue,hc,hoff,hcall,Nat.sub_zero,Nat.min_self]
  · obtain ⟨hc,hoff,-,hmoves⟩ := hone o ho
    rw [hmoves,bytesDue,hc,hoff,hcall,Nat.sub_zero,Nat.min_self,hstart]
  · have ho : o∈readCalls rd node mem 0 [call] := heq▸List.mem_append_right _ List.mem_cons_self
    exact absurd ((hone o ho).2.2.1.symm.trans hret) hzero

/-- A file is read right exactly by these runs. -/
theorem runSound_iff_readsWhole (hdata : (rd.nodes node.inode).data≠0)
    (hword : (rd.nodes node.inode).data<2^32) (hsize : node.size<2^32) :
    RunSound mem rd node calls ↔ ReadsWhole node calls := by
  refine ⟨RunSound.readsWhole hdata hword hsize,?_⟩
  rintro (rfl|⟨call,rfl,hcall⟩|⟨hempty,hcalls⟩)
  · exact ⟨by simp [readCalls],by simp [readCalls],by simp [readCalls]⟩
  · exact RunSound.of_whole hdata hword hcall
  · exact RunSound.of_empty hempty hcalls

/-! ## Loaded files -/

/-- Sizes of an image's entries are positive integers of the machine. -/
theorem image_size_lt {addr : ℕ} {ents : List (ℕ×ℕ)} (h : Image mem addr ents) :
    ∀ e∈ents,e.2<2^31 := by
  induction ents generalizing addr with
  | nil => simp
  | cons ent rest ih =>
    obtain ⟨_,behind,-,hrec,hrest⟩ := h
    rw [List.forall_mem_cons]
    exact ⟨hrec.size_lt,ih hrest⟩

/-- Loading an image, and what it records of the entries. -/
theorem image_loads (stale junk : ℕ → InitrdNode) (rootHeader : ℕ) {addr : ℕ}
    {ents : List (ℕ×ℕ)} (h : Image mem addr ents) : ∃ fuel entries,
    loadInitrd mem stale junk rootHeader addr fuel=
      some (initrdBuildTree junk entries entries.length) ∧
    entries.map facts=(rootHeader,(stale 0).data,(stale 0).size,.dir)::
      (ents.map Prod.fst).map (factsAt mem) := by
  obtain ⟨fuel,entries,hparse,hfacts⟩ := tarParse_sequence stale h.sequence rootHeader
  exact ⟨fuel,entries,Option.map_eq_some_iff.mpr ⟨_,hparse,rfl⟩,hfacts⟩

/-- The node of an image's entry: its place, its size, and contents inside the
address space. -/
theorem image_node {addr rootHeader fuel k : ℕ} {stale junk : ℕ → InitrdNode}
    (junkFs : ℕ → FsNode) {ents : List (ℕ×ℕ)} (h : Image mem addr ents)
    (hload : loadInitrd mem stale junk rootHeader addr fuel=some rd) (hk : k<ents.length) :
    (initrdBuildFs mem junkFs rd (k+1)).inode=k+1 ∧
      (initrdBuildFs mem junkFs rd (k+1)).size=ents[k].2 ∧
      (rd.nodes (k+1)).data≠0 ∧ (rd.nodes (k+1)).data<2^32 ∧ ents[k].2<2^32 := by
  obtain ⟨fuel',entries,hload',hfacts⟩ := image_loads stale junk rootHeader h
  obtain rfl := loadInitrd_unique hload hload'
  have hlen : entries.length=ents.length+1 := by
    have hl := congrArg List.length hfacts
    simpa using hl
  have hentry : some (facts entries[k+1])=some (factsAt mem ents[k].1) := by
    have hat := congrArg (·[k+1]?) hfacts
    simpa [hk,hlen] using hat
  have hnode : (initrdBuildTree junk entries entries.length).nodes (k+1)=entries[k+1] := by
    rw [initrdBuildTree_nodes junk (List.length_pos_iff.mp (by omega)),
      List.getElem?_eq_getElem (by omega)]
    rfl
  have hfact := Option.some.inj hentry
  obtain ⟨-,hrecord,hlt⟩ := h.record ents[k] (List.getElem_mem hk)
  have hsizelt := image_size_lt h ents[k] (List.getElem_mem hk)
  have hdata : entries[k+1].data=ents[k].1+HEADER_SIZE :=
    (congrArg (fun r => r.2.1) hfact).trans (wadd_eq hlt)
  have hsize : entries[k+1].size=ents[k].2 := (congrArg (fun r => r.2.2.1) hfact).trans hrecord
  have hin : k+1<(initrdBuildTree junk entries entries.length).entryNum :=
    show k+1<entries.length by omega
  rw [initrdBuildFs,if_pos hin,hnode]
  refine ⟨rfl,hsize,?_,by omega,by omega⟩
  rw [hdata]
  exact Nat.ne_of_gt (Nat.add_pos_right _ (by decide))

/-- A file of a loaded image is read right by consecutive calls exactly when no
call is made, or one for the whole file, or the file is empty and the calls ask
for nothing. -/
theorem runSound_iff {mem : ℕ → Char} {stale junk : ℕ → InitrdNode} {junkFs : ℕ → FsNode}
    {addr rootHeader : ℕ} {ents : List (ℕ×ℕ)} (h : Image mem addr ents) :
    (∃ fuel rd,loadInitrd mem stale junk rootHeader addr fuel=some rd) ∧
      ∀ fuel rd,loadInitrd mem stale junk rootHeader addr fuel=some rd →
        ∀ k,∀ hk : k<ents.length,∀ calls : List ReadCall,
          (RunSound mem rd (initrdBuildFs mem junkFs rd (k+1)) calls ↔
            calls=[] ∨ (∃ call,calls=[call] ∧ call.size=ents[k].2) ∨
              (ents[k].2=0 ∧ ∀ call∈calls,call.size=0)) := by
  obtain ⟨fuel,_,hfirst,-⟩ := image_loads stale junk rootHeader h
  refine ⟨⟨fuel,_,hfirst⟩,fun fuel rd hload k hk calls => ?_⟩
  obtain ⟨hinode,hsize,hdata,hword,hlt⟩ := image_node junkFs h hload hk
  rw [←hinode] at hdata hword
  rw [runSound_iff_readsWhole hdata hword (by omega),ReadsWhole,hsize]

/-- The files of the sample image. -/
theorem runSound_sample :
    (∃ fuel rd,loadInitrd imageMem zeroNode zeroNode 0x10000 0 fuel=some rd) ∧
      ∀ fuel rd,loadInitrd imageMem zeroNode zeroNode 0x10000 0 fuel=some rd →
        ∀ k,∀ hk : k<2,∀ calls : List ReadCall,
          (RunSound imageMem rd (initrdBuildFs imageMem zeroFs rd (k+1)) calls ↔
            calls=[] ∨
              (∃ call,calls=[call] ∧ call.size=([(1024,3),(2560,0)] : List (ℕ×ℕ))[k].2) ∨
              (([(1024,3),(2560,0)] : List (ℕ×ℕ))[k].2=0 ∧ ∀ call∈calls,call.size=0)) :=
  runSound_iff sample_image

/-- Two bytes of the sample's file of three: the call returns three. -/
theorem runSound_counterexample :
    ¬∀ (mem : ℕ → Char) (stale junk : ℕ → InitrdNode) (junkFs : ℕ → FsNode)
      (addr rootHeader fuel : ℕ) (ents : List (ℕ×ℕ)) (rd : Initrd) (k : ℕ)
      (calls : List ReadCall),Image mem addr ents →
      loadInitrd mem stale junk rootHeader addr fuel=some rd → k<ents.length →
      RunSound mem rd (initrdBuildFs mem junkFs rd (k+1)) calls := by
  intro h
  obtain ⟨fuel,_,hload,-⟩ := image_loads zeroNode zeroNode 0x10000 sample_image
  have hsound := h imageMem zeroNode zeroNode zeroFs 0 0x10000 fuel _ _ 0
    [⟨0xC0800000,2,by decide⟩] sample_image hload (by decide)
  obtain ⟨hinode,hsize,hdata,hword,hlt⟩ :=
    image_node (k:=0) zeroFs sample_image hload (by decide)
  rw [←hinode] at hdata hword
  rcases hsound.readsWhole hdata hword (hsize▸hlt) with hnil|⟨call,hcalls,hcall⟩|⟨hempty,-⟩
  · cases hnil
  · rw [←(List.cons.inj hcalls).1,hsize] at hcall
    exact absurd hcall (by decide)
  · rw [hsize] at hempty
    exact absurd hempty (by decide)

end XanaduOS.FileReads

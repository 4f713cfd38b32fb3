import XanaduOS.InitrdLookup

/-!
# Names of nodes

A node's name is an array of characters. A hundred are copied from where the
last component of the record's name begins, what lies behind the record's name
included, and a null character is written behind the component.
-/

namespace XanaduOS.NodeNames

open Slibc InitialRamdisk InitrdListing InitrdLookup

/-- The name array of a node, for the record of its entry and what the array held
before. -/
def nodeName (mem : ℕ → Char) (stale : ℕ → Char) (header : ℕ) : ℕ → Char :=
  let nodeName := nameField mem header
  let (offset,fnameLen) := parseFileBasename nodeName (strnlen nodeName 100)
  let name := strcpy stale 0 (field mem header offset 100)
  Function.update name (fnameLen-offset) NUL

/-- The text of a name array up to its first null character. -/
def cString (name : ℕ → Char) : List Char := ((List.range 256).map name).takeWhile (· ≠ NUL)

/-- Components of a path: names, and at least one. -/
structure PathComponents where
  /-- The components. -/
  components : List (List Char)
  /-- There is one. -/
  nonempty : components≠[]
  /-- Components are not empty, and hold no slash and no null character. -/
  valid : ∀ c∈components,NameValid c

/-- The last one. -/
def PathComponents.last (p : PathComponents) : List Char := p.components.getLast p.nonempty

/-- The last component is valid. -/
theorem PathComponents.last_valid (p : PathComponents) : NameValid p.last :=
  p.valid _ (List.getLast_mem p.nonempty)

/-- What a path has in front of its last component. -/
theorem pathBody_last {components : List (List Char)} (hne : components≠[])
    (h : ∀ c∈components,NameValid c) (closed : Bool) :
    ∃ path,Closed path ∧ NUL∉path ∧
      pathBody components closed=path++components.getLast hne++if closed then ['/'] else [] := by
  induction components with
  | nil => exact absurd rfl hne
  | cons c cs ih =>
    obtain ⟨hc,hcs⟩ := List.forall_mem_cons.mp h
    cases cs with
    | nil =>
      refine ⟨[],Or.inl rfl,by simp,?_⟩
      have hbody : pathBody [c] closed=itemText (c,closed)++[] := rfl
      rw [hbody,List.append_nil]
      rfl
    | cons c' cs =>
      obtain ⟨path,hclosed,hnul,hbody'⟩ := ih (List.cons_ne_nil _ _) hcs
      have hbody : pathBody (c::c'::cs) closed=itemText (c,true)++pathBody (c'::cs) closed := rfl
      have hitem : itemText (c,true)=c++['/'] := rfl
      refine ⟨c++['/']++path,Or.inr ?_,?_,?_⟩
      · rcases hclosed with rfl|⟨front,rfl⟩
        · exact ⟨c,List.append_nil _⟩
        · exact ⟨c++['/']++front,(List.append_assoc _ _ _).symm⟩
      · have hslash : NUL≠ '/' := by decide
        simp [hc.nul,hnul,hslash]
      · rw [hbody,hitem,hbody',List.getLast_cons (List.cons_ne_nil _ _)]
        simp only [List.append_assoc]

variable {mem stale : ℕ → Char} {header : ℕ}

/-- A record's name field holds a path and a null character behind it; whatever
follows is no part of the path. -/
def HoldsPath (mem : ℕ → Char) (header : ℕ) (path : List Char) : Prop :=
  ∃ rest,nameField mem header=path++NUL::rest

/-- The array of a node: the last component and a null character. -/
theorem nodeName_apply {path name : List Char} (hpath : Closed path) (hnul : NUL∉path)
    (hname : NameValid name) {closed : Bool}
    (h : HoldsPath mem header (path++name++if closed then ['/'] else [])) :
    (∀ k<name.length,nodeName mem stale header k=charAt name k) ∧
      nodeName mem stale header name.length=NUL ∧ name.length<100 := by
  obtain ⟨rest,hrest⟩ := h
  have hlen := nameField_length mem header
  have hcomponent := hrest
  rw [List.append_assoc _ (if closed then ['/'] else [])] at hcomponent
  rw [hcomponent] at hlen
  simp only [List.length_append,List.length_cons] at hlen
  have hfield : (field mem header path.length 100).length=100 := by simp [field]
  simp only [nodeName,parseFileBasename_eq hpath hnul hname (nameField_length mem header) hrest rfl,
    Nat.add_sub_cancel_left]
  refine ⟨fun k hk => ?_,Function.update_self _ _ _,by omega⟩
  rw [Function.update_of_ne hk.ne,strcpy_apply,if_pos (by omega),Nat.sub_zero]
  have htake := nameField_component hcomponent
  rw [charAt,charAt,←htake,List.getD_eq_getElem _ _ (by omega),
    List.getD_eq_getElem _ _ (by rw [List.length_take]; omega),List.getElem_take]

/-- A text in front of a null character is read back. -/
theorem cString_eq {name : ℕ → Char} {text : List Char} (hnul : NUL∉text)
    (hlen : text.length<256) (hchars : ∀ k<text.length,name k=charAt text k)
    (hend : name text.length=NUL) : cString name=text := by
  obtain ⟨rest,hrest⟩ : ∃ rest,256=text.length+(1+rest) := ⟨255-text.length,by omega⟩
  have hfront : (List.range text.length).map name=text := by
    refine List.ext_getElem (by simp) fun k hk hk' => ?_
    rw [List.getElem_map,List.getElem_range,hchars k hk',charAt,List.getD_eq_getElem _ _ hk']
  rw [cString,hrest,List.range_add,List.map_append,hfront,List.takeWhile_append_of_pos
    fun c hc => by simpa using fun heq : c=NUL => hnul (heq▸hc)]
  rw [Nat.add_comm 1 rest,List.range_succ_eq_map,List.map_cons,List.map_cons,Nat.add_zero,hend,
    List.takeWhile_cons_of_neg (by simp),List.append_nil]

/-- Name arrays of all nodes. -/
def buildFsNames (mem : ℕ → Char) (junk : ℕ → ℕ → Char) (rd : Initrd) (i : ℕ) : ℕ → Char :=
  if i < rd.entryNum then nodeName mem (junk i) (rd.nodes i).header else junk i

/-- The name stored for an entry whose record names a path is the path's last
component, without the slash that may follow it, and ends with a null character.
It is the name that lookups compare. -/
theorem buildFsNames_eq (mem : ℕ → Char) (junk : ℕ → ℕ → Char) (junkFs : ℕ → FsNode) {rd : Initrd}
    {i : ℕ} (hi : i < rd.entryNum) (p : PathComponents) (closed : Bool)
    (h : HoldsPath mem (rd.nodes i).header (pathBody p.components closed)) :
    cString (buildFsNames mem junk rd i)=p.last ∧
      buildFsNames mem junk rd i p.last.length=NUL ∧
      (initrdBuildFs mem junkFs rd i).name=p.last := by
  obtain ⟨path,hpath,hnul,hbody⟩ := pathBody_last p.nonempty p.valid closed
  rw [hbody] at h
  change HoldsPath mem _ (path++p.last++_) at h
  obtain ⟨hchars,hend,hlen⟩ := @nodeName_apply _ (junk i) _ _ _ hpath hnul p.last_valid _ h
  obtain ⟨rest,hrest⟩ := h
  rw [buildFsNames,if_pos hi,initrdBuildFs,if_pos hi]
  refine ⟨cString_eq p.last_valid.nul (hlen.trans (by norm_num)) hchars hend,hend,?_⟩
  simp only [buildNode,
    parseFileBasename_eq hpath hnul p.last_valid (nameField_length mem _) hrest rfl]
  rw [List.append_assoc _ (if closed then ['/'] else [])] at hrest
  rw [Nat.add_sub_cancel_left]
  exact nameField_component hrest

/-- The path of the sample archive's file. -/
def samplePath : PathComponents :=
  ⟨[['a'],['b']],by decide,by
    intro c hc
    fin_cases hc
    · exact ⟨by decide,by decide,by decide⟩
    · exact ⟨by decide,by decide,by decide⟩⟩

/-- Entries of the sample archive. -/
def sampleEntries : Initrd := ⟨fun i => ⟨1024*i-512,0,0,0,0,0,0,.file⟩,4⟩

/-- Its file's node is named b, though a slash stood there before. -/
theorem buildFsNames_sample :
    cString (buildFsNames sampleMem (fun _ _ => '/') sampleEntries 2)=['b'] ∧
      buildFsNames sampleMem (fun _ _ => '/') sampleEntries 2 1=NUL ∧
      (initrdBuildFs sampleMem zeroFs sampleEntries 2).name=['b'] :=
  buildFsNames_eq sampleMem _ zeroFs (show 2<4 by decide) samplePath false
    ⟨List.replicate 96 NUL,by decide +kernel⟩

end XanaduOS.NodeNames

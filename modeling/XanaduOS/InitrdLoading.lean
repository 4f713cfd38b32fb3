import XanaduOS.InitrdListing

/-!
# Loading an archive of any depths

An image is a sequence of pairs of records, closed by a record without a name.
Whatever the depths of the entries' names, the parser makes one node for each
entry, in order: it enters and leaves levels without moving, and takes an entry
only at the entry's own depth. Sizes are the octal numbers in the records.
-/

namespace XanaduOS.InitrdLoading

open Word32 Slibc InitialRamdisk InitrdListing

/-! ## Octal numbers -/

/-- Value of octal digits. -/
def octal (digits : List Char) : ℕ := digits.foldl (fun v c => 8*v+(c.toNat-48)) 0

/-- Octal digits. -/
def IsOctal (digits : List Char) : Prop := ∀ c∈digits,48≤c.toNat ∧ c.toNat≤55

instance (digits : List Char) : Decidable (IsOctal digits) :=
  List.decidableBAll _ digits

/-- One more digit. -/
theorem octal_concat (digits : List Char) (c : Char) :
    octal (digits++[c])=8*octal digits+(c.toNat-48) := by
  simp [octal]

/-- The digits of a text. -/
def digitsOf (str : List Char) : List Char := str.filter fun c => decide (c≠NUL)

/-- Null characters are no digits. -/
theorem digitsOf_replicate (k : ℕ) : digitsOf (List.replicate k NUL)=[] := by
  induction k with
  | zero => rfl
  | succ k ih => exact ih

/-- Digits are not null characters. -/
theorem digitsOf_eq {digits : List Char} (h : IsOctal digits) : digitsOf digits=digits := by
  refine List.filter_eq_self.mpr fun c hc => ?_
  have hlow := (h c hc).1
  refine decide_eq_true fun heq => ?_
  rw [heq] at hlow
  exact absurd hlow (by decide)

/-- The conversion loop sums the digits left, weighted, and skips what lies
between them. -/
theorem atoiFrom_digits {str : List Char} (h : IsOctal (digitsOf str)) {n : ℕ}
    (hn : n ≤ str.length) (order res : ℕ) :
    atoiFrom str 8 n order res≡res+order*octal (digitsOf (str.take n)) [MOD 2^32] := by
  induction n generalizing order res with
  | zero => exact Nat.ModEq.refl res
  | succ n ih =>
    have hlt : n<str.length := hn
    have hc : charAt str n=str[n] := List.getD_eq_getElem _ _ hlt
    rw [atoiFrom,hc,List.take_succ_eq_append_getElem hlt,digitsOf,List.filter_append]
    by_cases hnul : str[n]=NUL
    · rw [if_pos hnul,List.filter_singleton]
      simp only [hnul,ne_eq,not_true_eq_false,decide_false,cond_false,List.append_nil]
      exact ih (Nat.le_of_lt hlt) _ _
    · have hdigit : str[n]∈digitsOf str :=
        List.mem_filter.mpr ⟨List.getElem_mem hlt,decide_eq_true hnul⟩
      obtain ⟨hlow,hhigh⟩ := h _ hdigit
      have hsub : wsub (charWord str[n]) 48=str[n].toNat-48 := by
        rw [charWord_eq (by omega),wsub_eq hlow (by omega)]
      rw [if_neg hnul,hsub,List.filter_singleton]
      simp only [hnul,ne_eq,not_false_eq_true,decide_true,cond_true]
      rw [octal_concat]
      refine (ih (Nat.le_of_lt hlt) _ _).trans ?_
      have hadd : wadd res (wmul (str[n].toNat-48) order)≡
          res+(str[n].toNat-48)*order [MOD 2^32] :=
        (Nat.mod_modEq _ _).trans ((Nat.mod_modEq _ _).add_left res)
      have hmul : wmul order 8*octal (digitsOf (str.take n))≡
          order*8*octal (digitsOf (str.take n)) [MOD 2^32] := (Nat.mod_modEq _ _).mul_right _
      refine (hadd.add hmul).trans ?_
      have heq : res+(str[n].toNat-48)*order+order*8*octal (digitsOf (str.take n))=
          res+order*(8*octal (digitsOf (str.take n))+(str[n].toNat-48)) := by ring
      rw [heq]
      rfl

/-- Conversion reads the digits among the first twelve characters. -/
theorem atoi_modEq {s : List Char} (h : IsOctal (digitsOf s)) (hlen : s.length=12) :
    atoi s 8≡octal (digitsOf s) [MOD 2^32] := by
  have hmod := atoiFrom_digits h hlen.ge 1 0
  rwa [Nat.zero_add,Nat.one_mul,List.take_of_length_le hlen.le] at hmod

/-- The conversion loop returns a word. -/
theorem atoiFrom_lt (str : List Char) (radix n order : ℕ) {res : ℕ} (h : res<2^32) :
    atoiFrom str radix n order res<2^32 := by
  induction n generalizing order res with
  | zero => exact h
  | succ n ih =>
    rw [atoiFrom]
    split
    · exact ih order h
    · exact ih _ (wadd_lt _ _)

/-- Octal digits followed by null characters convert to their value. -/
theorem atoi_octal {digits : List Char} (h : IsOctal digits) (hlen : digits.length≤12)
    (hvalue : octal digits<2^32) :
    atoi (digits++List.replicate (12-digits.length) NUL) 8=octal digits := by
  have hdigits : digitsOf (digits++List.replicate (12-digits.length) NUL)=digits := by
    rw [digitsOf,List.filter_append]
    exact (congrArg₂ (· ++ ·) (digitsOf_eq h) (digitsOf_replicate _)).trans (List.append_nil _)
  have hmod := atoi_modEq (s:=digits++List.replicate (12-digits.length) NUL)
    (hdigits.symm▸h) (by rw [List.length_append,List.length_replicate]; omega)
  rw [hdigits] at hmod
  exact hmod.eq_of_lt_of_lt (atoiFrom_lt _ _ _ _ (by norm_num)) hvalue

/-! ## Images -/

variable (mem : ℕ → Char)

/-- A size field: octal digits followed by null characters. -/
def SizeField (header size : ℕ) : Prop :=
  ∃ digits,IsOctal digits ∧ octal digits=size ∧
    field mem header 124 12=digits++List.replicate (12-digits.length) NUL

/-- A record with a name and a size, and its contents padded to whole blocks. -/
structure Record (header size behind : ℕ) : Prop where
  /-- The name is not empty. -/
  named : ¬Ended mem header
  /-- The size is in octal. -/
  sizeField : SizeField mem header size
  /-- The size is a positive integer of the machine. -/
  size_lt : size<2^31
  /-- The next record follows the contents. -/
  behind_eq : behind=header+HEADER_SIZE+(size+511)/512*512

/-- Pairs of records, the entries given by the header and size of the second,
closed by a record without a name below the top of the address space. -/
def Image : ℕ → List (ℕ×ℕ) → Prop
  | addr,[] => Ended mem addr ∧ addr+HEADER_SIZE≤2^32
  | addr,(header,size)::rest => ∃ attributes behind,Record mem addr attributes header ∧
      Record mem header size behind ∧ Image behind rest

/-- Headers of entries that the parser comes to. -/
def Sequence : ℕ → List ℕ → Prop
  | addr,[] => Ended mem addr
  | addr,header::rest => ¬Ended mem addr ∧ header=recordBehind mem addr ∧ ¬Ended mem header ∧
      Sequence (recordBehind mem header) rest

variable {mem} {stale : ℕ → InitrdNode}

/-- A size field is read as its value. -/
theorem SizeField.fileSize_eq {header size : ℕ} (h : SizeField mem header size)
    (hsize : size<2^31) : fileSize mem header=size := by
  obtain ⟨digits,hoct,rfl,hfield⟩ := h
  have hlen : digits.length≤12 := by
    have hf : (field mem header 124 12).length=12 := by simp [field]
    rw [hfield,List.length_append,List.length_replicate] at hf
    omega
  rw [fileSize,hfield]
  exact atoi_octal hoct hlen (by omega)

/-- The parser goes from a record to the one behind it. -/
theorem Record.recordBehind_eq {header size behind : ℕ} (h : Record mem header size behind)
    (hlt : behind<2^32) : recordBehind mem header=behind := by
  have hsize := h.size_lt
  have heq := h.behind_eq
  simp only [HEADER_SIZE] at heq
  rw [recordBehind,nextHeader,h.sizeField.fileSize_eq hsize]
  simp only [HEADER_SIZE]
  rw [wadd_eq (show 512+size<2^32 by omega),
    roundUp_eq (by norm_num) (show 512+size+512≤2^32 by omega),heq]
  have hround : 512+size-(512+size)%512+(if (512+size)%512=0 then 0 else 512)=
      512+(size+511)/512*512 := by
    split <;> omega
  rw [hround,wadd_eq (by omega),Nat.add_assoc]

/-- A record begins below the next one. -/
theorem Record.lt_behind {header size behind : ℕ} (h : Record mem header size behind) :
    header+HEADER_SIZE≤behind := by
  rw [h.behind_eq]
  exact Nat.le_add_right _ _

/-- Records of an image lie below the top of the address space. -/
theorem Image.addr_lt {addr : ℕ} {ents : List (ℕ×ℕ)} (h : Image mem addr ents) :
    addr+HEADER_SIZE≤2^32 := by
  induction ents generalizing addr with
  | nil => exact h.2
  | cons ent rest ih =>
    obtain ⟨attributes,behind,hattr,hrec,hrest⟩ := h
    have := hattr.lt_behind
    have := hrec.lt_behind
    have := ih hrest
    omega

/-- The parser comes to the entries of an image. -/
theorem Image.sequence {addr : ℕ} {ents : List (ℕ×ℕ)} (h : Image mem addr ents) :
    Sequence mem addr (ents.map Prod.fst) := by
  induction ents generalizing addr with
  | nil => exact h.1
  | cons ent rest ih =>
    obtain ⟨attributes,behind,hattr,hrec,hrest⟩ := h
    have hlt := hrest.addr_lt
    have hlt' := hrec.lt_behind
    simp only [HEADER_SIZE] at hlt hlt'
    refine ⟨hattr.named,(hattr.recordBehind_eq (by omega)).symm,hrec.named,?_⟩
    rw [hrec.recordBehind_eq (by omega)]
    exact ih hrest

/-! ## The parser on any sequence -/

/-- What the parser records of an entry, its counter apart. -/
def facts (e : InitrdNode) : ℕ×ℕ×ℕ×FsType := (e.header,e.data,e.size,e.type)

/-- What it records for a header. -/
def factsAt (mem : ℕ → Char) (header : ℕ) : ℕ×ℕ×ℕ×FsType :=
  facts (entryAt mem ⟨0,0,0,0,0,0,0,.file⟩ header)

/-- Counters do not matter. -/
theorem facts_modify (entries : List InitrdNode) (p n : ℕ) :
    (entries.modify p fun e => {e with subEntNum := n}).map facts=entries.map facts := by
  induction entries generalizing p with
  | nil => rw [List.modify_nil]
  | cons e entries ih =>
    cases p with
    | zero => rfl
    | succ p => rw [List.modify_succ_cons,List.map_cons,List.map_cons,ih]

/-- Depth of an entry's name. -/
def depthAt (mem : ℕ → Char) (header : ℕ) : ℕ :=
  getFileDepth (nameField mem header) (strnlen (nameField mem header) 100)

/-- What a level of the parser has done: the entries it took, and why it left. -/
structure Taken (mem : ℕ → Char) (entries : List InitrdNode) (depth i : ℕ) (hs : List ℕ)
    (res : ParseState) (left : List ℕ) (addr : ℕ) : Prop where
  /-- One node for each entry taken. -/
  took : ∃ taken,hs=taken++left ∧
    res.entries.map facts=entries.map facts++taken.map (factsAt mem) ∧
    res=settled mem res.entries addr (i+2*taken.length)
  /-- The entries left. -/
  sequence : Sequence mem addr left
  /-- The first of them lies less deep. -/
  closed : ∀ h∈left.head?,depthAt mem h<depth

/-- A level that takes nothing. -/
theorem taken_nil {entries : List InitrdNode} {parentEnt depth sub addr i : ℕ} {hs : List ℕ}
    (hi : i%2=0) (hseq : Sequence mem addr hs) (hclosed : ∀ h∈hs.head?,depthAt mem h<depth) :
    ∃ res,Parses mem stale parentEnt depth sub (settled mem entries addr i) res ∧
      Taken mem entries depth i hs res hs addr := by
  have hc : Closes mem depth addr := by
    cases hs with
    | nil => exact Or.inl hseq
    | cons h hs =>
      obtain ⟨-,rfl,hnot,-⟩ := hseq
      exact Or.inr ⟨hnot,hclosed _ rfl⟩
  refine ⟨_,Parses.finish hi hc,⟨[],rfl,?_,?_⟩,hseq,hclosed⟩
  · simp only [finishParent,facts_modify,settled,List.map_nil,List.append_nil]
    split <;> rfl
  · simp only [finishParent,settled,List.length_nil,Nat.mul_zero,Nat.add_zero]
    split <;> rfl

/-- A level of the parser goes through any sequence up to the first entry that
lies less deep. The induction is on the number of entries: a level below takes
at least the entry it was entered for. -/
theorem parses_sequence (n : ℕ) : ∀ (entries : List InitrdNode) (parentEnt depth sub : ℕ)
    {addr i : ℕ} {hs : List ℕ},hs.length≤n → i%2=0 → Sequence mem addr hs →
    ∃ res left addr',Parses mem stale parentEnt depth sub (settled mem entries addr i) res ∧
      Taken mem entries depth i hs res left addr' := by
  induction n with
  | zero =>
    intro entries parentEnt depth sub addr i hs hlen hi hseq
    obtain rfl : hs=[] := List.eq_nil_of_length_eq_zero (by omega)
    obtain ⟨res,hp,ht⟩ := taken_nil hi hseq (by simp)
    exact ⟨res,[],addr,hp,ht⟩
  | succ n ih =>
    intro entries parentEnt depth sub addr i hs hlen hi hseq
    cases hs with
    | nil =>
      obtain ⟨res,hp,ht⟩ := taken_nil hi hseq (by simp)
      exact ⟨res,[],addr,hp,ht⟩
    | cons h hs =>
      have hseq' := hseq
      obtain ⟨hattr,hh,hnot,hrest⟩ := hseq'
      subst hh
      rw [List.length_cons] at hlen
      -- a level at the entry's own depth takes it and goes on
      have htake : ∀ parentEnt sub,∃ res left addr',
          Parses mem stale parentEnt (depthAt mem (recordBehind mem addr)) sub
            (settled mem entries addr i) res ∧
          left.length≤hs.length ∧ Taken mem entries (depthAt mem (recordBehind mem addr)) i
            (recordBehind mem addr::hs) res left addr' := by
        intro parentEnt sub
        obtain ⟨res,left,addr',hp,⟨taken,htaken,hfacts,hres⟩,hseq₁,hclosed⟩ :=
          ih (entries++[entryAt mem (stale entries.length) (recordBehind mem addr)]) parentEnt
            (depthAt mem (recordBehind mem addr)) (sub+1) (Nat.le_of_succ_le_succ hlen)
            (Nat.add_mod_right i 2 ▸ hi) hrest
        refine ⟨res,left,addr',Parses.entry hi hattr hnot rfl (Parses.of_settled (by omega) hp),
          ?_,⟨recordBehind mem addr::taken,?_,?_,?_⟩,hseq₁,hclosed⟩
        · rw [htaken,List.length_append]
          exact Nat.le_add_left _ _
        · rw [htaken,List.cons_append]
        · rw [hfacts,List.map_append,List.append_assoc]
          rfl
        · rw [List.length_cons,Nat.mul_add,Nat.mul_one,Nat.add_comm _ 2,←Nat.add_assoc]
          exact hres
      rcases Nat.lt_trichotomy (depthAt mem (recordBehind mem addr)) depth with hlt|heq|hgt
      · obtain ⟨res,hp,ht⟩ := taken_nil hi hseq fun h hmem => by
          obtain rfl := Option.some.inj hmem
          exact hlt
        exact ⟨res,_,addr,hp,ht⟩
      · obtain ⟨res,left,addr',hp,-,ht⟩ := htake parentEnt sub
        rw [heq] at hp ht
        exact ⟨res,left,addr',hp,ht⟩
      · obtain ⟨res₁,left₁,addr₁,hp₁,hlen₁,⟨taken₁,htaken₁,hfacts₁,hres₁⟩,hseq₁,-⟩ :=
          htake (entries.length-1) 0
        obtain ⟨res₂,left₂,addr₂,hp₂,⟨taken₂,htaken₂,hfacts₂,hres₂⟩,hseq₂,hclosed₂⟩ :=
          ih res₁.entries parentEnt depth sub (hlen₁.trans (Nat.le_of_succ_le_succ hlen))
            (show (i+2*taken₁.length)%2=0 by omega) hseq₁
        rw [←hres₁] at hp₂
        refine ⟨res₂,left₂,addr₂,Parses.descend hi hattr hnot hgt rfl hp₁ hp₂,
          ⟨taken₁++taken₂,?_,?_,?_⟩,hseq₂,hclosed₂⟩
        · rw [htaken₁,htaken₂,List.append_assoc]
        · rw [hfacts₂,hfacts₁,List.map_append,List.append_assoc]
        · rw [List.length_append,Nat.mul_add,←Nat.add_assoc]
          exact hres₂

/-- The parser takes every entry of a sequence. -/
theorem tarParse_sequence (stale : ℕ → InitrdNode) {addr : ℕ} {hs : List ℕ}
    (h : Sequence mem addr hs) (rootHeader : ℕ) : ∃ fuel entries,
    tarParse mem stale rootHeader addr fuel=some (entries,entries.length) ∧
      entries.map facts=
        (rootHeader,(stale 0).data,(stale 0).size,.dir)::hs.map (factsAt mem) := by
  obtain ⟨res,left,addr',hp,⟨taken,htaken,hfacts,hres⟩,-,hclosed⟩ :=
    parses_sequence hs.length [{stale 0 with type := .dir,header := rootHeader}] 0 1 0
      (Nat.le_refl _) (show 2%2=0 by decide) h
  -- no entry lies less deep than the root's
  obtain rfl : left=[] := by
    cases left with
    | nil => rfl
    | cons h left =>
      have hlt := hclosed h rfl
      rw [depthAt,getFileDepth] at hlt
      omega
  rw [List.append_nil] at htaken
  obtain ⟨fuel,hrun⟩ := Parses.of_settled (by decide) hp
  have hlen : res.entries.length=taken.length+1 := by
    have hl := congrArg List.length hfacts
    rw [List.length_map,List.length_append,List.length_map,List.length_map,
      List.length_singleton] at hl
    omega
  have hi : res.i/2=res.entries.length := by
    have hi' : res.i=(settled mem res.entries addr' (2+2*taken.length)).i :=
      congrArg ParseState.i hres
    rw [hi',settled]
    split <;> simp only <;> omega
  refine ⟨fuel,res.entries,Option.bind_eq_some_iff.mpr ⟨res,hrun,?_⟩,?_⟩
  · rw [←hi]
    rfl
  · rw [hfacts,htaken]
    rfl

/-! ## Loaded images -/

/-- Text of a record's name. -/
def nameText (mem : ℕ → Char) (header : ℕ) : List Char :=
  (nameField mem header).takeWhile (· ≠ NUL)

/-- The length of a string is that of its text. -/
theorem strnlen_takeWhile (str : List Char) {len : ℕ} (h : str.length≤len) :
    strnlen str len=(str.takeWhile (· ≠ NUL)).length := by
  induction str generalizing len with
  | nil => cases len <;> rfl
  | cons c str ih =>
    obtain ⟨len,rfl⟩ : ∃ k,len=k+1 := ⟨len-1,by rw [List.length_cons] at h; omega⟩
    rw [List.length_cons] at h
    rw [strnlen]
    by_cases hc : c=NUL
    · rw [if_pos hc,List.takeWhile_cons_of_neg (by simpa using hc)]
      rfl
    · rw [if_neg hc,List.takeWhile_cons_of_pos (by simpa using hc),List.length_cons,
        ih (by omega)]

/-- An entry is a directory when its name ends with a slash. -/
theorem entryAt_type_iff (s : InitrdNode) {header : ℕ} (h : ¬Ended mem header) :
    (entryAt mem s header).type=.dir ↔ (nameText mem header).getLast?=some '/' := by
  have hlen : (nameField mem header).length=100 := by simp [nameField,field]
  have hne : nameText mem header≠[] := by
    rw [nameText]
    rw [Ended] at h
    cases hf : nameField mem header with
    | nil => rw [hf] at hlen; exact absurd hlen (by decide)
    | cons c rest =>
      rw [hf] at h
      have hc : c≠NUL := h
      rw [List.takeWhile_cons_of_pos (by simpa using hc)]
      exact List.cons_ne_nil _ _
  have hpos : 0<(nameText mem header).length := List.length_pos_iff.mpr hne
  obtain ⟨rest,hrest⟩ := List.takeWhile_prefix (l := nameField mem header) (· ≠ NUL)
  rw [←nameText] at hrest
  have hlast : charAt (nameField mem header) (strnlen (nameField mem header) 100-1)=
      (nameText mem header).getLast hne := by
    rw [strnlen_takeWhile _ hlen.le,←nameText,←hrest,charAt,
      List.getD_append _ _ _ _ (by omega),List.getD_eq_getElem _ _ (by omega),
      List.getLast_eq_getElem]
  rw [List.getLast?_eq_some_getLast hne,Option.some_inj,←hlast]
  simp only [entryAt,newEntry]
  split
  case isTrue hslash => simp [hslash]
  case isFalse hslash => simp [hslash]

/-- Every record taken of an image has a name and its size. -/
theorem Image.record {addr : ℕ} {ents : List (ℕ×ℕ)} (h : Image mem addr ents) :
    ∀ e∈ents,¬Ended mem e.1 ∧ fileSize mem e.1=e.2 ∧ e.1+HEADER_SIZE<2^32 := by
  induction ents generalizing addr with
  | nil => simp
  | cons ent rest ih =>
    obtain ⟨attributes,behind,-,hrec,hrest⟩ := h
    intro e he
    rcases List.mem_cons.mp he with rfl|he
    · have hlt := hrest.addr_lt
      have hlt' := hrec.lt_behind
      simp only [HEADER_SIZE] at hlt hlt' ⊢
      exact ⟨hrec.named,hrec.sizeField.fileSize_eq hrec.size_lt,by omega⟩
    · exact ih hrest e he

/-- Loading an image makes the root's node and one node for each entry, with the
entry's place, contents, size and type. -/
theorem loadInitrd_image {mem : ℕ → Char} (stale junk : ℕ → InitrdNode) (rootHeader : ℕ)
    {addr : ℕ} {ents : List (ℕ×ℕ)} (h : Image mem addr ents) :
    (∃ fuel rd,loadInitrd mem stale junk rootHeader addr fuel=some rd) ∧
    ∀ fuel rd,loadInitrd mem stale junk rootHeader addr fuel=some rd →
      rd.entryNum=ents.length+1 ∧
      (rd.nodes 0).type=.dir ∧ (rd.nodes 0).header=rootHeader ∧
      ∀ k,∀ hk : k<ents.length,
        (rd.nodes (k+1)).header=ents[k].1 ∧
        (rd.nodes (k+1)).data=ents[k].1+HEADER_SIZE ∧
        (rd.nodes (k+1)).size=ents[k].2 ∧
        ((rd.nodes (k+1)).type=.dir ↔ (nameText mem ents[k].1).getLast?=some '/') := by
  obtain ⟨fuel,entries,hparse,hfacts⟩ := tarParse_sequence stale h.sequence rootHeader
  have hload : loadInitrd mem stale junk rootHeader addr fuel=
      some (initrdBuildTree junk entries entries.length) :=
    Option.map_eq_some_iff.mpr ⟨_,hparse,rfl⟩
  refine ⟨⟨fuel,_,hload⟩,?_⟩
  intro fuel' rd hload'
  obtain rfl := loadInitrd_unique hload' hload
  have hlen : entries.length=ents.length+1 := by
    have hl := congrArg List.length hfacts
    simpa using hl
  have hne : entries≠[] := List.length_pos_iff.mp (by omega)
  have hnode : ∀ j,∀ hj : j<entries.length,
      (initrdBuildTree junk entries entries.length).nodes j=entries[j] := by
    intro j hj
    rw [initrdBuildTree_nodes junk hne,List.getElem?_eq_getElem hj]
    rfl
  have hfact : ∀ j,∀ hj : j<entries.length,some (facts entries[j])=
      ((rootHeader,(stale 0).data,(stale 0).size,FsType.dir)::
        (ents.map Prod.fst).map (factsAt mem))[j]? := by
    intro j hj
    rw [←hfacts,List.getElem?_map,List.getElem?_eq_getElem hj,Option.map_some]
  have hroot := Option.some.inj (hfact 0 (by omega))
  refine ⟨hlen,?_,?_,?_⟩
  · rw [hnode 0 (by omega)]
    exact congrArg (fun r => r.2.2.2) hroot
  · rw [hnode 0 (by omega)]
    exact congrArg (fun r => r.1) hroot
  · intro k hk
    obtain ⟨hnot,hsize,hlt⟩ := h.record ents[k] (List.getElem_mem hk)
    have hk' := hfact (k+1) (by omega)
    simp only [List.getElem?_cons_succ,List.getElem?_map,List.getElem?_eq_getElem hk,
      Option.map_some,Option.some.injEq] at hk'
    rw [hnode (k+1) (by omega)]
    refine ⟨congrArg (fun r => r.1) hk',?_,?_,?_⟩
    · refine (congrArg (fun r => r.2.1) hk').trans ?_
      exact wadd_eq hlt
    · exact (congrArg (fun r => r.2.2.1) hk').trans hsize
    · have htype := congrArg (fun r => r.2.2.2) hk'
      simp only [facts] at htype
      rw [htype]
      exact entryAt_type_iff ⟨0,0,0,0,0,0,0,.file⟩ hnot

/-- Texts of an image: a file in a directory without an entry, then a directory.
The names lie at the records' starts and the sizes behind. -/
def imageText : List (ℕ×List Char) :=
  [(0,['x']),(124,['1','1']),(1024,['a','/','f']),(1148,['3']),
    (2048,['x']),(2172,['0']),(2560,['d','/']),(2684,['0'])]

/-- Memory with these texts. -/
def imageMem (addr : ℕ) : Char :=
  ((imageText.find? fun t => t.1≤addr ∧ addr<t.1+t.2.length).map
    fun t => charAt t.2 (addr-t.1)).getD NUL

/-- The image. -/
theorem sample_image : Image imageMem 0 [(1024,3),(2560,0)] := by
  have hzero : IsOctal ['0'] := by decide
  refine ⟨9,2048,⟨by decide +kernel,⟨['1','1'],by decide,rfl,by decide +kernel⟩,by decide,rfl⟩,
    ⟨by decide +kernel,⟨['3'],by decide,rfl,by decide +kernel⟩,by decide,rfl⟩,
    0,3072,⟨by decide +kernel,⟨['0'],hzero,rfl,by decide +kernel⟩,by decide,rfl⟩,
    ⟨by decide +kernel,⟨['0'],hzero,rfl,by decide +kernel⟩,by decide,rfl⟩,
    by decide +kernel,by decide⟩

/-- Loading the image. -/
theorem loadInitrd_image_sample :
    (∃ fuel rd,loadInitrd imageMem zeroNode zeroNode 0x10000 0 fuel=some rd) ∧
    ∀ fuel rd,loadInitrd imageMem zeroNode zeroNode 0x10000 0 fuel=some rd →
      rd.entryNum=3 ∧ (rd.nodes 0).type=.dir ∧ (rd.nodes 0).header=0x10000 ∧
      ∀ k,∀ hk : k<2,
        (rd.nodes (k+1)).header=([(1024,3),(2560,0)] : List (ℕ×ℕ))[k].1 ∧
        (rd.nodes (k+1)).data=([(1024,3),(2560,0)] : List (ℕ×ℕ))[k].1+HEADER_SIZE ∧
        (rd.nodes (k+1)).size=([(1024,3),(2560,0)] : List (ℕ×ℕ))[k].2 ∧
        ((rd.nodes (k+1)).type=.dir ↔
          (nameText imageMem ([(1024,3),(2560,0)] : List (ℕ×ℕ))[k].1).getLast?=some '/') :=
  loadInitrd_image zeroNode zeroNode 0x10000 sample_image

end XanaduOS.InitrdLoading

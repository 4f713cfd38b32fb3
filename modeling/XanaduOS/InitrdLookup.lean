import XanaduOS.InitrdListing

/-!
# Path lookup in the initial ramdisk

Nodes of a loaded archive have the last components of their records' names. A
lookup goes down the tree one component at a time and takes the first child
whose name begins with the component, a directory if a slash follows; of the
path only 256 characters behind the first slash are read, more than any record's
name has. It finds the node that following the exact names would find exactly
when no sibling with a longer name is met first, or nothing is found either way.
-/

namespace XanaduOS.InitrdLookup

open Word32 Slibc InitialRamdisk Forests InitrdListing

/-! ## Paths -/

/-- A component of a path, and whether a slash follows. -/
abbrev PathItem := List Char×Bool

/-- The child has the component as its name; a file is not followed by a slash. -/
def sameName (item : PathItem) (label : List Char) (isDir : Bool) : Bool :=
  decide (label=item.1) && (!item.2 || isDir)

/-- The child's name begins with the component; a file is not followed by a
slash. -/
def beginsWith (item : PathItem) (label : List Char) (isDir : Bool) : Bool :=
  item.1.isPrefixOf label && (!item.2 || isDir)

/-- Components of a path: a slash follows each but the last, and the last if the
path is closed by one. -/
def pathItems : List (List Char) → Bool → List PathItem
  | [],_ => []
  | [c],closed => [(c,closed)]
  | c::c'::cs,closed => (c,true)::pathItems (c'::cs) closed

/-- Text of a component with its slash. -/
def itemText (item : PathItem) : List Char := item.1++if item.2 then ['/'] else []

/-- Text of a path behind its first slash. -/
def pathBody (components : List (List Char)) (closed : Bool) : List Char :=
  (pathItems components closed).flatMap itemText

/-- An absolute path. -/
def pathText (components : List (List Char)) (closed : Bool) : List Char :=
  '/'::pathBody components closed

/-- Put a character in front of the first component. -/
def consItem (c : Char) : List PathItem → List PathItem
  | [] => [([c],false)]
  | (w,slash)::items => (c::w,slash)::items

/-- Split a text behind each slash. -/
def splitPath : List Char → List PathItem
  | [] => []
  | c::rest => if c= '/' then ([],true)::splitPath rest else consItem c (splitPath rest)

/-- A component that a path can have in front of a rest. -/
structure ItemValid (item : PathItem) (rest : List Char) : Prop where
  /-- Components hold no slash. -/
  slash : '/'∉item.1
  /-- Without a slash nothing follows. -/
  last : item.2=false → rest=[]
  /-- The component's text is not empty. -/
  nonempty : item.1=[] → item.2=true

/-- The first component is split off. -/
theorem splitPath_item {item : PathItem} {rest : List Char} (h : ItemValid item rest) :
    splitPath (itemText item++rest)=item::splitPath rest := by
  obtain ⟨w,slash⟩ := item
  obtain ⟨hslash,hlast,hne⟩ := h
  simp only at hslash hlast hne
  induction w with
  | nil =>
    obtain rfl := hne rfl
    rfl
  | cons c w ih =>
    rw [List.mem_cons,not_or] at hslash
    have hc : c≠ '/' := Ne.symm hslash.1
    have htext : itemText (c::w,slash)++rest=c::(itemText (w,slash)++rest) := rfl
    rw [htext,splitPath,if_neg hc]
    by_cases hdone : w=[] ∧ slash=false
    · obtain ⟨rfl,rfl⟩ := hdone
      rw [hlast rfl]
      rfl
    · rw [ih hslash.2 fun hw => by simpa [hw] using hdone]
      rfl

/-- A text is a first component and a rest. -/
theorem exists_item {text : List Char} (hne : text≠[]) :
    ∃ item rest,text=itemText item++rest ∧ ItemValid item rest := by
  induction text with
  | nil => exact absurd rfl hne
  | cons c text ih =>
    by_cases hc : c= '/'
    · exact ⟨([],true),text,by rw [hc]; rfl,by simp,by simp,by simp⟩
    · by_cases hnil : text=[]
      · exact ⟨([c],false),[],by rw [hnil]; rfl,by simpa using Ne.symm hc,by simp,by simp⟩
      · obtain ⟨⟨w,slash⟩,rest,rfl,hslash,hlast,-⟩ := ih hnil
        exact ⟨(c::w,slash),rest,rfl,by simpa using ⟨Ne.symm hc,hslash⟩,hlast,by simp⟩

/-- Splitting a path gives back its components. -/
theorem splitPath_pathBody {components : List (List Char)}
    (h : ∀ c∈components,NameValid c) (closed : Bool) :
    splitPath (pathBody components closed)=pathItems components closed := by
  induction components with
  | nil => rfl
  | cons c cs ih =>
    obtain ⟨hc,hcs⟩ := List.forall_mem_cons.mp h
    cases cs with
    | nil =>
      have hbody : pathBody [c] closed=itemText (c,closed)++[] := rfl
      rw [hbody,splitPath_item ⟨hc.slash,fun _ => rfl,fun hnil => absurd hnil hc.nonempty⟩]
      rfl
    | cons c' cs =>
      have hbody : pathBody (c::c'::cs) closed=itemText (c,true)++pathBody (c'::cs) closed := rfl
      rw [hbody,splitPath_item ⟨hc.slash,fun hlast => by simp at hlast,
        fun hnil => absurd hnil hc.nonempty⟩,ih hcs]
      rfl

/-- Paths hold no null character. -/
theorem nul_notMem_pathBody {components : List (List Char)}
    (h : ∀ c∈components,NameValid c) (closed : Bool) : NUL∉pathBody components closed := by
  induction components with
  | nil => simp [pathBody,pathItems]
  | cons c cs ih =>
    obtain ⟨hc,hcs⟩ := List.forall_mem_cons.mp h
    have hitem : ∀ slash,NUL∉itemText (c,slash) := by
      intro slash hmem
      rcases List.mem_append.mp hmem with hmem|hmem
      · exact hc.nul hmem
      · cases slash with
        | false => simp at hmem
        | true => exact absurd (List.mem_singleton.mp hmem) (by decide)
    cases cs with
    | nil =>
      have hbody : pathBody [c] closed=itemText (c,closed)++[] := rfl
      rw [hbody,List.append_nil]
      exact hitem closed
    | cons c' cs =>
      have hbody : pathBody (c::c'::cs) closed=itemText (c,true)++pathBody (c'::cs) closed := rfl
      rw [hbody,List.mem_append,not_or]
      exact ⟨hitem true,ih hcs⟩

/-! ## Comparing a component -/

/-- The component's length with its slash. -/
theorem parseFileDirName_item {item : PathItem} {rest : List Char} (h : ItemValid item rest)
    (tail : List Char) :
    parseFileDirName (itemText item++rest++tail) (itemText item++rest).length=
      (itemText item).length := by
  obtain ⟨w,slash⟩ := item
  obtain ⟨hslash,hlast,-⟩ := h
  simp only at hslash hlast
  induction w with
  | nil =>
    cases slash with
    | false =>
      rw [hlast rfl]
      rfl
    | true => simp [itemText,parseFileDirName]
  | cons c w ih =>
    rw [List.mem_cons,not_or] at hslash
    have htext : itemText (c::w,slash)=c::itemText (w,slash) := rfl
    simp only [htext,List.cons_append,List.length_cons,parseFileDirName,List.headD_cons,
      List.tail_cons,if_neg (Ne.symm hslash.1),ih hslash.2]

/-- The kernel compares names up to the component's length. -/
theorem entNameEq_iff {node : FsNode} {item : PathItem} {rest : List Char}
    (h : ItemValid item rest) (hnul : NUL∉item.1) (hname : '/'∉node.name) (tail : List Char) :
    entNameEq node (itemText item++rest++tail) (itemText item).length ↔
      beginsWith item node.name (decide (node.type=.dir))=true := by
  obtain ⟨w,slash⟩ := item
  obtain ⟨hslash,-,hne⟩ := h
  simp only at hslash hnul hne
  rw [entNameEq]
  cases slash with
  | false =>
    have hw : w≠[] := fun hnil => by simpa using hne hnil
    have hpos : 0<w.length := List.length_pos_iff.mpr hw
    have htext : itemText (w,false)++rest++tail=w++(rest++tail) := by simp [itemText]
    have hlen : (itemText (w,false)).length=w.length := by simp [itemText]
    have hchar : charAt (w++(rest++tail)) (w.length-1)≠ '/' := by
      rw [charAt,List.getD_append _ _ _ _ (by omega),List.getD_eq_getElem _ _ (by omega)]
      exact fun heq => hslash (heq▸List.getElem_mem (by omega))
    rw [htext,hlen,if_neg fun hand => hchar hand.2,strneq_eq_zero hnul]
    simp [beginsWith]
  | true =>
    have htext : itemText (w,true)++rest++tail=w++ '/'::(rest++tail) := by simp [itemText]
    have hlen : (itemText (w,true)).length=w.length+1 := by simp [itemText]
    have hchar : charAt (w++ '/'::(rest++tail)) w.length= '/' := by
      rw [charAt,List.getD_append_right _ _ _ _ (Nat.le_refl _),Nat.sub_self]
      rfl
    rw [htext,hlen,Nat.add_sub_cancel]
    by_cases hdir : node.type=.dir
    · rw [if_pos ⟨hdir,hchar⟩,strneq_eq_zero hnul]
      simp [beginsWith,hdir]
    · rw [if_neg fun hand => hdir hand.1]
      refine iff_of_false (strneq_ne_zero hname (by decide) hnul _) ?_
      simp [beginsWith,hdir]

/-! ## Nodes of a tree -/

/-- Nodes of a tree, numbered in preorder. -/
def Built (fs : ℕ → FsNode) : FileTree → ℕ → Prop
  | .nil,_ => True
  | .leaf name rest,i => (fs i).name=name ∧ (fs i).type=.file ∧ Built fs rest (i+1)
  | .branch name inside rest,i => (fs i).name=name ∧ (fs i).type=.dir ∧ (fs i).opendir=.initrd ∧
      Built fs inside (i+1) ∧ Built fs rest (i+1+inside.size)

/-- A directory whose node opens it, in a tree whose nodes are built and whose
directories list their children. -/
structure Opens (fs : ℕ → FsNode) (listing : ℕ → List ℕ) (n : ℕ) (s : FileTree) : Prop where
  /-- The operation is set. -/
  opendir : (fs n).opendir=.initrd
  /-- Nodes of the contents. -/
  built : Built fs s (n+1)
  /-- Names of the contents. -/
  names : NamesValid s
  /-- The directory lists its children. -/
  lists : listing n=s.numbers (n+1)
  /-- So do the directories inside. -/
  below : ∀ d t,s.HasBranch (n+1) d t → listing d=t.numbers (d+1)

variable {fs : ℕ → FsNode} {listing : ℕ → List ℕ}

/-- Reading a directory up to the first match picks the entry. -/
theorem find_numbers {item : PathItem} {rest tail : List Char} {s : FileTree} {i : ℕ}
    (h : ItemValid item rest) (hnul : NUL∉item.1) (hbuilt : Built fs s i) (hnames : NamesValid s) :
    ((s.numbers i).find? fun ent =>
      entNameEq (fs ent) (itemText item++rest++tail) (itemText item).length)=
      (s.pick (beginsWith item) i).map Prod.fst := by
  induction s generalizing i with
  | nil => rfl
  | leaf name inside ih =>
    obtain ⟨hname,htype,hrest⟩ := hbuilt
    have hmatch := @entNameEq_iff (fs i) _ _ h hnul (hname.symm▸hnames.1.slash) tail
    rw [hname,htype,decide_eq_false (by decide)] at hmatch
    rw [Forest.numbers,Forest.pick,List.find?_cons,ih hrest hnames.2]
    by_cases hb : beginsWith item name false=true
    · rw [if_pos hb,decide_eq_true (hmatch.mpr hb)]
      rfl
    · rw [if_neg hb,decide_eq_false fun hm => hb (hmatch.mp hm)]
  | branch name inside rest _ ih =>
    obtain ⟨hname,htype,-,-,hrest⟩ := hbuilt
    have hmatch := @entNameEq_iff (fs i) _ _ h hnul (hname.symm▸hnames.1.slash) tail
    rw [hname,htype,decide_eq_true rfl] at hmatch
    rw [Forest.numbers,Forest.pick,List.find?_cons,ih hrest hnames.2.2]
    by_cases hb : beginsWith item name true=true
    · rw [if_pos hb,decide_eq_true (hmatch.mpr hb)]
      rfl
    · rw [if_neg hb,decide_eq_false fun hm => hb (hmatch.mp hm)]

/-- A component followed by a slash picks a directory inside. -/
theorem pick_branch {w : List Char} {s t : FileTree} {i m : ℕ} (hbuilt : Built fs s i)
    (hnames : NamesValid s) (h : s.pick (beginsWith (w,true)) i=some (m,t)) :
    s.HasBranch i m t ∧ (fs m).opendir=.initrd ∧ Built fs t (m+1) ∧ NamesValid t := by
  induction s generalizing i with
  | nil => simp [Forest.pick] at h
  | leaf name rest ih =>
    rw [Forest.pick,if_neg (by simp [beginsWith])] at h
    exact ih hbuilt.2.2 hnames.2 h
  | branch name inside rest _ ih =>
    obtain ⟨-,-,hopen,hinside,hrest⟩ := hbuilt
    rw [Forest.pick] at h
    split at h
    · obtain ⟨rfl,rfl⟩ := Prod.mk.inj (Option.some.inj h)
      exact ⟨Or.inl ⟨rfl,rfl⟩,hopen,hinside,hnames.2.1⟩
    · obtain ⟨hb,hfacts⟩ := ih hrest hnames.2.2 h
      exact ⟨Or.inr (Or.inr hb),hfacts⟩

/-- A directory picked is one that opens. -/
theorem Opens.step {n m : ℕ} {s t : FileTree} {w : List Char} (h : Opens fs listing n s)
    (hp : s.pick (beginsWith (w,true)) (n+1)=some (m,t)) : Opens fs listing m t := by
  obtain ⟨hb,hopen,hbuilt,hnames⟩ := pick_branch h.built h.names hp
  exact ⟨hopen,hbuilt,hnames,h.below m t hb,fun d u hu => h.below d u (hb.trans hu)⟩

/-- Once a component is missing nothing is found. -/
theorem getNodeFrom_none (curName : List Char) (fnameLen : ℕ) :
    getNodeFrom listing fs 1 curName fnameLen none=some none := by
  simp [getNodeFrom]

/-- At the end of the path the node reached is returned. -/
theorem getNodeFrom_end (curName : List Char) (n : ℕ) :
    getNodeFrom listing fs 1 curName 0 (some n)=some (some n) := by
  simp [getNodeFrom,parseFileDirName]

/-- One round of the component loop picks a child. -/
theorem getNodeFrom_item {item : PathItem} {rest : List Char} {n : ℕ} {s : FileTree}
    (h : ItemValid item rest) (hnul : NUL∉item.1) (hopen : Opens fs listing n s)
    (tail : List Char) (fuel : ℕ) :
    getNodeFrom listing fs (fuel+1) (itemText item++rest++tail) (itemText item++rest).length
        (some n)=
      getNodeFrom listing fs fuel (rest++tail) rest.length
        ((s.pick (beginsWith item) (n+1)).map Prod.fst) := by
  have hpos : (itemText item).length≠0 := by
    intro hzero
    have hnil := List.append_eq_nil_iff.mp (List.eq_nil_of_length_eq_zero hzero)
    rw [h.nonempty hnil.1] at hnil
    simp at hnil
  have hlist : listNode listing fs n=some (s.numbers (n+1)) := by
    simp only [listNode,hopen.opendir,hopen.lists]
  have hdrop : (itemText item++rest++tail).drop (itemText item).length=rest++tail := by
    rw [List.append_assoc,List.drop_left]
  have hlen : (itemText item++rest).length-(itemText item).length=rest.length := by
    rw [List.length_append,Nat.add_sub_cancel_left]
  simp only [getNodeFrom,parseFileDirName_item h tail,if_neg hpos,hlist,hdrop,hlen,
    Option.bind_eq_bind,Option.bind_some,find_numbers h hnul hopen.built hopen.names]

/-- The component loop walks down the tree. The induction is on the length of
what is left of the path. -/
theorem getNodeFrom_eq (k : ℕ) : ∀ {text : List Char} {n : ℕ} {s : FileTree},text.length≤k →
    NUL∉text → Opens fs listing n s → ∀ tail,∃ fuel,
    getNodeFrom listing fs fuel (text++tail) text.length (some n)=
      some (s.walk beginsWith n (splitPath text)) := by
  induction k with
  | zero =>
    intro text n s hlen _ _ tail
    obtain rfl := List.eq_nil_of_length_eq_zero (Nat.le_zero.mp hlen)
    exact ⟨1,getNodeFrom_end tail n⟩
  | succ k ih =>
    intro text n s hlen hnul hopen tail
    by_cases hne : text=[]
    · subst hne
      exact ⟨1,getNodeFrom_end tail n⟩
    obtain ⟨item,rest,rfl,hitem⟩ := exists_item hne
    rw [List.mem_append,not_or] at hnul
    have hnul' : NUL∉item.1 := fun hmem => hnul.1 (List.mem_append_left _ hmem)
    have hround := getNodeFrom_item hitem hnul' hopen tail
    rw [splitPath_item hitem,Forest.walk_cons]
    cases hp : s.pick (beginsWith item) (n+1) with
    | none =>
      refine ⟨2,?_⟩
      rw [hround 1,hp]
      exact getNodeFrom_none _ _
    | some r =>
      obtain ⟨m,t⟩ := r
      obtain ⟨w,slash⟩ := item
      cases slash with
      | false =>
        obtain rfl := hitem.last rfl
        refine ⟨2,?_⟩
        rw [hround 1,hp]
        exact getNodeFrom_end _ _
      | true =>
        have hpos : 0<(itemText (w,true)).length := by simp [itemText]
        rw [List.length_append] at hlen
        obtain ⟨fuel,hrun⟩ := ih (by omega) hnul.2 (hopen.step hp) tail
        refine ⟨fuel+1,?_⟩
        rw [hround fuel,hp]
        exact hrun

/-- The component loop has one result, however long it may run. -/
theorem getNodeFrom_unique {fuel fuel' fnameLen : ℕ} {curName : List Char} {cur : Option ℕ}
    {r r' : Option ℕ} (hr : getNodeFrom listing fs fuel curName fnameLen cur=some r)
    (hr' : getNodeFrom listing fs fuel' curName fnameLen cur=some r') : r=r' := by
  induction fuel generalizing fuel' fnameLen curName cur with
  | zero => simp [getNodeFrom] at hr
  | succ fuel ih =>
    cases fuel' with
    | zero => simp [getNodeFrom] at hr'
    | succ fuel' =>
      simp only [getNodeFrom] at hr hr'
      split at hr
      case isTrue hzero =>
        rw [if_pos hzero] at hr'
        exact Option.some.inj (hr.symm.trans hr')
      case isFalse hpos =>
        rw [if_neg hpos] at hr'
        cases cur with
        | none => exact Option.some.inj (hr.symm.trans hr')
        | some n =>
          obtain ⟨ents,hents,hr⟩ := Option.bind_eq_some_iff.mp hr
          obtain ⟨ents',hents',hr'⟩ := Option.bind_eq_some_iff.mp hr'
          obtain rfl := Option.some.inj (hents.symm.trans hents')
          exact ih hr hr'

/-- A lookup has one result. -/
theorem initrdGetNode_unique {fuel fuel' root : ℕ} {name : List Char} {r r' : Option ℕ}
    (hr : initrdGetNode listing fs fuel root name=some r)
    (hr' : initrdGetNode listing fs fuel' root name=some r') : r=r' := by
  rw [initrdGetNode] at hr hr'
  split at hr
  case isTrue hrel =>
    rw [if_pos hrel] at hr'
    exact Option.some.inj (hr.symm.trans hr')
  case isFalse habs =>
    rw [if_neg habs] at hr'
    exact getNodeFrom_unique hr hr'

/-- A lookup from the root follows the first 256 characters behind the slash. -/
theorem initrdGetNode_eq {body : List Char} {n : ℕ} {s : FileTree} (hnul : NUL∉body)
    (hopen : Opens fs listing n s) : ∃ fuel,initrdGetNode listing fs fuel n ('/'::body)=
      some (s.walk beginsWith n (splitPath (body.take 256))) := by
  obtain ⟨fuel,hrun⟩ := getNodeFrom_eq _ (Nat.le_refl _)
    (fun hmem => hnul (List.mem_of_mem_take hmem)) hopen (body.drop 256)
  have hlen := strnlen_text hnul 256 [] rfl
  rw [List.append_nil,Nat.min_comm,←List.length_take] at hlen
  rw [List.take_append_drop] at hrun
  refine ⟨fuel,?_⟩
  have hchar : ¬charAt ('/'::body) 0≠ '/' := not_not.mpr rfl
  rw [initrdGetNode,if_neg hchar,List.drop_one,List.tail_cons,hlen]
  exact hrun

/-! ## Nodes of a loaded archive -/

variable {mem : ℕ → Char} {stale : ℕ → InitrdNode}

/-- Characters of a path end with a slash, if there are any. -/
def Closed (path : List Char) : Prop := path=[] ∨ ∃ front,path=front++['/']

/-- The search for the last component stops behind the path. -/
theorem basenameOffset_eq {fname path name rest : List Char} (hf : fname=path++name++rest)
    (hpath : Closed path) (hname : '/'∉name) {k : ℕ} (hk : k≤name.length) :
    basenameOffset fname (path.length+k)=path.length := by
  induction k with
  | zero =>
    rcases hpath with rfl|⟨front,rfl⟩
    · rfl
    · have hchar : charAt fname front.length= '/' := by
        rw [hf,charAt,List.append_assoc,List.append_assoc,
          List.getD_append_right _ _ _ _ (Nat.le_refl _),Nat.sub_self]
        rfl
      have hlen : (front++['/']).length+0=front.length+1 := by simp
      rw [hlen,basenameOffset,if_pos hchar,List.length_append,List.length_singleton]
  | succ k ih =>
    have hchar : charAt fname (path.length+k)≠ '/' := by
      rw [hf,charAt,List.append_assoc,List.getD_append_right _ _ _ _ (Nat.le_add_right _ _),
        Nat.add_sub_cancel_left,List.getD_append _ _ _ _ hk,List.getD_eq_getElem _ _ hk]
      exact fun heq => hname (heq▸List.getElem_mem hk)
    rw [←Nat.add_assoc,basenameOffset,if_neg hchar]
    exact ih (by omega)

/-- Characters of a record's name read from inside it. -/
theorem field_take {header offset count : ℕ} (h : offset+count≤100) :
    (field mem header offset 100).take count=((nameField mem header).drop offset).take count := by
  refine List.ext_getElem ?_ fun k hk hk' => ?_
  · simp only [nameField,field,List.length_take,List.length_drop,List.length_map,
      List.length_range]
    omega
  · simp [nameField,field,Nat.add_assoc]

/-- Where the last component of a name begins and ends. A slash behind it is left
out, and so is what follows the name. -/
theorem parseFileBasename_eq {fname path name rest : List Char} (hpath : Closed path)
    (hnul : NUL∉path) (hname : NameValid name) {closed : Bool} (hlen : fname.length=100)
    (hf : fname=path++name++(if closed then ['/'] else [])++rest) (hrest : rest.headD NUL=NUL) :
    parseFileBasename fname (strnlen fname 100)=(path.length,path.length+name.length) := by
  have hpos : 0<name.length := List.length_pos_iff.mpr hname.nonempty
  have hpn : NUL∉path++name := by simp [hnul,hname.nul]
  have hfield := hf
  rw [List.append_assoc _ (if closed then ['/'] else [])] at hfield
  have htotal := congrArg List.length hfield
  simp only [List.length_append,hlen] at htotal
  cases closed with
  | false =>
    have hstop : strnlen fname 100=path.length+name.length := by
      rw [hf,if_neg Bool.false_ne_true,List.append_nil,strnlen_text hpn 100 rest hrest,
        List.length_append,Nat.min_eq_left (by omega)]
    have hbase := basenameOffset_eq hfield hpath hname.slash (Nat.sub_le name.length 1)
    have hchar : charAt fname (path.length+name.length-1)≠ '/' := by
      rw [hfield,charAt,List.getD_append _ _ _ _ (by simp; omega),
        List.getD_append_right _ _ _ _ (by omega),List.getD_eq_getElem _ _ (by omega)]
      exact fun heq => hname.slash (heq▸List.getElem_mem (by omega))
    rw [hstop,parseFileBasename,if_neg fun hand => hchar hand.2,Nat.add_sub_assoc hpos,hbase]
  | true =>
    have hslash : NUL∉path++name++['/'] := by
      rw [List.mem_append,not_or]
      exact ⟨hpn,by decide⟩
    have hstop : strnlen fname 100=path.length+name.length+1 := by
      simp only [if_true,List.length_singleton] at htotal
      rw [hf,if_pos rfl,strnlen_text hslash 100 rest hrest,List.length_append,List.length_append,
        List.length_singleton,Nat.min_eq_left (by omega)]
    have hbase := basenameOffset_eq hfield hpath hname.slash (Nat.le_refl _)
    have hchar : charAt fname (path.length+name.length)= '/' := by
      rw [hfield,charAt,←List.length_append,List.getD_append_right _ _ _ _ (Nat.le_refl _),
        Nat.sub_self]
      rfl
    rw [hstop,parseFileBasename,Nat.add_sub_cancel,hbase,if_pos ⟨by omega,hchar⟩]

/-- A record's name field has a hundred characters. -/
theorem nameField_length (mem : ℕ → Char) (header : ℕ) : (nameField mem header).length=100 := by
  simp [nameField,field]

/-- The last component in a record's name. -/
theorem nameField_component {header : ℕ} {path name rest : List Char}
    (h : nameField mem header=path++name++rest) :
    (field mem header path.length 100).take name.length=name := by
  have hlen := nameField_length mem header
  rw [h,List.length_append,List.length_append] at hlen
  rw [field_take (by omega),h,List.append_assoc,List.drop_left,List.take_left' rfl]

/-- A record's last component becomes the node's name. -/
theorem buildNode_name {header : ℕ} {path name : List Char} (hpath : Closed path)
    (hnul : NUL∉path) (hname : NameValid name) (st : FsNode) (ent : InitrdNode)
    (hheader : ent.header=header) (i : ℕ) :
    (Named mem header (path++name) → (buildNode mem st ent i).name=name) ∧
      (Named mem header (path++name++['/']) → (buildNode mem st ent i).name=name) := by
  subst hheader
  have hown : ∀ closed : Bool,Named mem ent.header (path++name++if closed then ['/'] else []) →
      (buildNode mem st ent i).name=name := by
    intro closed h
    rw [Named] at h
    have hrest : (List.replicate (100-(path++name++if closed then ['/'] else []).length)
        NUL).headD NUL=NUL := by
      cases 100-(path++name++if closed then ['/'] else []).length <;> rfl
    simp only [buildNode,
      parseFileBasename_eq hpath hnul hname (nameField_length mem ent.header) h hrest]
    rw [List.append_assoc _ (if closed then ['/'] else [])] at h
    rw [Nat.add_sub_cancel_left,nameField_component h]
  refine ⟨fun h => hown false ?_,hown true⟩
  rw [if_neg Bool.false_ne_true,List.append_nil]
  exact h

/-- Nodes made from the entries of a tree are its nodes. -/
theorem parsed_built (stale : ℕ → InitrdNode) (junkFs : ℕ → FsNode) {f : FileTree}
    {path : List Char} {addr i : ℕ} (hnames : NamesValid f) (hpath : Closed path) (hnul : NUL∉path)
    (harch : Archived mem path f addr)
    (h : ∀ j<f.size,(parsed mem stale f addr i)[j]?.map
      (fun ent => buildNode mem (junkFs (i+j)) ent (i+j))=some (fs (i+j))) : Built fs f i := by
  induction f generalizing path addr i with
  | nil => trivial
  | leaf name rest ih =>
    obtain ⟨-,hnamed,harch'⟩ := harch
    have h0 := h 0 (by simp only [Forest.size]; omega)
    rw [parsed,List.getElem?_cons_zero,Option.map_some,Option.some.injEq,Nat.add_zero] at h0
    refine ⟨?_,?_,ih hnames.2 hpath hnul harch' fun j hj => ?_⟩
    · rw [←h0]
      exact (buildNode_name hpath hnul hnames.1 _ _ rfl _).1 hnamed
    · rw [←h0]
      exact (Named.type hnul hnames.1 (stale i)).1 hnamed
    · have hj' := h (j+1) (by simp only [Forest.size]; omega)
      rw [parsed,List.getElem?_cons_succ,(by omega : i+(j+1)=i+1+j)] at hj'
      exact hj'
  | branch name inside rest ihi ihr =>
    obtain ⟨-,hnamed,hinside,hrest⟩ := harch
    have hnul' : NUL∉path++name++['/'] := by
      rw [List.mem_append,not_or]
      exact ⟨by simp [hnul,hnames.1.nul],by decide⟩
    have h0 := h 0 (by simp only [Forest.size]; omega)
    rw [parsed,List.getElem?_cons_zero,Option.map_some,Option.some.injEq,Nat.add_zero] at h0
    have htype : (entryAt mem (stale i) (recordBehind mem addr)).type=.dir :=
      (Named.type hnul hnames.1 (stale i)).2 hnamed
    refine ⟨?_,?_,?_,ihi hnames.2.1 (Or.inr ⟨_,rfl⟩) hnul' hinside fun j hj => ?_,
      ihr hnames.2.2 hpath hnul hrest fun j hj => ?_⟩
    · rw [←h0]
      exact (buildNode_name hpath hnul hnames.1 _ _ rfl _).2 hnamed
    · rw [←h0]
      exact htype
    · rw [←h0]
      exact if_pos htype
    · have hj' := h (j+1) (by simp only [Forest.size]; omega)
      rw [parsed,List.getElem?_cons_succ,
        List.getElem?_append_left (by rw [parsed_length]; exact hj),
        (by omega : i+(j+1)=i+1+j)] at hj'
      exact hj'
    · have hj' := h (inside.size+j+1) (by simp only [Forest.size]; omega)
      rw [parsed,List.getElem?_cons_succ,
        List.getElem?_append_right (by rw [parsed_length]; omega),parsed_length,
        Nat.add_sub_cancel_left,(by omega : i+(inside.size+j+1)=i+1+inside.size+j)] at hj'
      exact hj'

/-- The root of a loaded archive opens, if its directories list their children. -/
theorem loaded_opens {f : FileTree} {addr rootHeader fuel : ℕ} {junk : ℕ → InitrdNode} {rd : Initrd}
    (h : ArchiveValid mem f addr)
    (hload : loadInitrd mem stale junk rootHeader addr fuel=some rd) (junkFs : ℕ → FsNode)
    (hlist : ∀ d s,IsDirectory f d s → listing d=s.numbers (d+1)) :
    Opens (initrdBuildFs mem junkFs rd) listing 0 f := by
  obtain ⟨fuel',hload'⟩ := loadInitrd_archive stale h junk rootHeader
  obtain rfl := loadInitrd_unique hload hload'
  have hentry : ∀ j<f.size+1,initrdBuildFs mem junkFs (initrdBuildTree junk
      (loaded mem stale rootHeader f addr) (f.size+1)) j=
      buildNode mem (junkFs j) (((loaded mem stale rootHeader f addr)[j]?).getD (junk j)) j := by
    intro j hj
    rw [initrdBuildFs,if_pos (show j<(initrdBuildTree junk
      (loaded mem stale rootHeader f addr) (f.size+1)).entryNum from hj),loaded_nodes]
  refine ⟨?_,?_,h.names,hlist 0 f (Or.inl ⟨rfl,rfl⟩),fun d t hb => hlist d t (Or.inr hb)⟩
  · rw [hentry 0 (by omega)]
    rfl
  · refine parsed_built stale junkFs h.names (Or.inl rfl) (by simp) h.archived fun j hj => ?_
    have hlt : j<(parsed mem stale f addr 1).length := by
      rw [parsed_length]
      exact hj
    rw [hentry (0+1+j) (by omega),loaded,(by omega : 0+1+j=j+1),List.getElem?_cons_succ,
      List.getElem?_eq_getElem hlt]
    rfl

/-! ## Lengths of paths -/

/-- A split text is its components. -/
theorem flatMap_splitPath (text : List Char) : (splitPath text).flatMap itemText=text := by
  induction text with
  | nil => rfl
  | cons c text ih =>
    rw [splitPath]
    split
    · next hc =>
      rw [List.flatMap_cons,ih,hc]
      rfl
    · cases hsplit : splitPath text with
      | nil =>
        rw [hsplit] at ih
        rw [←ih]
        rfl
      | cons item items =>
        rw [hsplit] at ih
        rw [←ih]
        rfl

/-- A component is no longer than the name that begins with it. -/
theorem beginsWith_length {item : PathItem} {name : List Char} {isDir : Bool}
    (h : beginsWith item name isDir=true) :
    item.1.length≤name.length ∧ (item.2=true → isDir=true) := by
  simp only [beginsWith,Bool.and_eq_true,Bool.or_eq_true,Bool.not_eq_true'] at h
  refine ⟨(List.isPrefixOf_iff_prefix.mp h.1).length_le,fun hslash => ?_⟩
  rcases h.2 with hno|hdir
  · simp [hno] at hslash
  · exact hdir

/-- A record's name is no longer than its field. -/
theorem Named.length_le {header : ℕ} {name : List Char} (h : Named mem header name) :
    name.length≤100 := by
  have hlen := congrArg List.length h
  rw [nameField_length,List.length_append] at hlen
  omega

/-- A child picked has a path that holds the component, and fits a record. -/
theorem pick_archived {item : PathItem} {path : List Char} {s t : FileTree} {addr i m : ℕ}
    (harch : Archived mem path s addr) (h : s.pick (beginsWith item) i=some (m,t)) :
    ∃ path' addr',Archived mem path' t addr' ∧ path'.length≤100 ∧
      path.length+(itemText item).length≤path'.length := by
  induction s generalizing addr i with
  | nil => simp [Forest.pick] at h
  | leaf name rest ih =>
    obtain ⟨-,hnamed,harch'⟩ := harch
    rw [Forest.pick] at h
    split at h
    · next hb =>
      obtain ⟨rfl,rfl⟩ := Prod.mk.inj (Option.some.inj h)
      obtain ⟨hlen,hdir⟩ := beginsWith_length hb
      refine ⟨path++name,0,trivial,hnamed.length_le,?_⟩
      rw [itemText,if_neg fun hslash => by simpa using hdir hslash,List.append_nil,
        List.length_append]
      omega
    · exact ih harch' h
  | branch name inside rest _ ih =>
    obtain ⟨-,hnamed,hinside,hrest⟩ := harch
    rw [Forest.pick] at h
    split at h
    · next hb =>
      obtain ⟨rfl,rfl⟩ := Prod.mk.inj (Option.some.inj h)
      have hlen := (beginsWith_length hb).1
      have htext : (itemText item).length ≤ item.1.length+1 := by
        cases hslash : item.2 <;> simp [itemText,hslash]
      refine ⟨_,_,hinside,hnamed.length_le,?_⟩
      simp only [List.length_append,List.length_singleton]
      omega
    · exact ih hrest h

/-- A path that leads to a node fits a record's name. -/
theorem walk_archived {items : List PathItem} {path : List Char} {s : FileTree} {addr n x : ℕ}
    (hpath : path.length≤100) (harch : Archived mem path s addr)
    (h : s.walk beginsWith n items=some x) : path.length+(items.flatMap itemText).length≤100 := by
  induction items generalizing path s addr n with
  | nil => simpa using hpath
  | cons item items ih =>
    rw [Forest.walk_cons] at h
    obtain ⟨⟨m,t⟩,hp,hw⟩ := Option.bind_eq_some_iff.mp h
    obtain ⟨path',addr',harch',hpath',hlen⟩ := pick_archived harch hp
    have := ih hpath' harch' hw
    rw [List.flatMap_cons,List.length_append]
    omega

/-- What is cut off a path leads nowhere. -/
theorem walk_cut {f : FileTree} {addr : ℕ} (h : ArchiveValid mem f addr)
    {components : List (List Char)} (hvalid : ∀ c∈components,NameValid c) (closed : Bool) :
    f.walk beginsWith 0 (splitPath ((pathBody components closed).take 256))=
      f.walk beginsWith 0 (pathItems components closed) := by
  by_cases hlen : (pathBody components closed).length≤256
  · rw [List.take_of_length_le hlen,splitPath_pathBody hvalid]
  have hnone : ∀ items : List PathItem,256≤(items.flatMap itemText).length →
      f.walk beginsWith 0 items=none := by
    intro items hlong
    rw [Option.eq_none_iff_forall_ne_some]
    intro x hx
    have := walk_archived (by simp : ([] : List Char).length≤100) h.archived hx
    simp only [List.length_nil] at this
    omega
  rw [hnone _ (by rw [flatMap_splitPath,List.length_take]; omega),
    hnone (pathItems components closed) (by change 256≤(pathBody components closed).length; omega)]

/-! ## Siblings -/

/-- Names beside a path's components: the first child whose name begins with the
component (a directory, if a slash follows) has exactly that name, or there is
no such child. Where its name is longer, some component from this one on has no
child of its exact name, and below the child with the longer name some later
component has no child whose name begins with it. -/
def NamesLead : FileTree → List PathItem → Prop
  | _,[] => True
  | s,item::items =>
    match s.find (beginsWith item) with
    | none => True
    | some (name,_,inside) => (name=item.1 → NamesLead inside items) ∧
        (name≠item.1 → s.misses sameName (item::items)=true ∧ inside.misses beginsWith items=true)

/-- A child of exactly the component's name has a name that begins with it. -/
theorem beginsWith_of_sameName {item : PathItem} {name : List Char} {isDir : Bool}
    (h : sameName item name isDir=true) : beginsWith item name isDir=true := by
  simp only [sameName,Bool.and_eq_true,decide_eq_true_eq] at h
  rw [beginsWith,h.1,h.2,Bool.and_true,List.isPrefixOf_iff_prefix]

/-- A child whose name begins with the component has the component as its name
exactly when the names are equal. -/
theorem sameName_iff {item : PathItem} {name : List Char} {isDir : Bool}
    (h : beginsWith item name isDir=true) : sameName item name isDir=true ↔ name=item.1 := by
  simp only [beginsWith,Bool.and_eq_true] at h
  rw [sameName,h.2,Bool.and_true,decide_eq_true_eq]

/-- Beginnings of names lead to the same node as the names exactly when no longer
name misleads. -/
theorem walk_eq_iff (n : ℕ) (s : FileTree) (items : List PathItem) :
    s.walk sameName n items=s.walk beginsWith n items ↔ NamesLead s items := by
  induction items generalizing n s with
  | nil => exact iff_of_true rfl trivial
  | cons item items ih =>
    have hnarrow : ∀ name isDir,sameName item name isDir=true →
        beginsWith item name isDir=true := fun _ _ => beginsWith_of_sameName
    rw [NamesLead]
    cases hfind : s.find (beginsWith item) with
    | none =>
      rw [Forest.walk_cons,Forest.walk_cons,Forest.pick_eq_none hnarrow hfind,
        Forest.pick_eq_none (fun _ _ h => h) hfind]
      exact iff_of_true rfl trivial
    | some r =>
      obtain ⟨name,isDir,inside⟩ := r
      have hsame := sameName_iff (Forest.accepts_of_find hfind)
      have hpick := Forest.pick_narrow_iff hnarrow hfind (n+1)
      obtain ⟨m,hm⟩ := Forest.pick_of_find hfind (n+1)
      have hwalk : s.walk beginsWith n (item::items)=inside.walk beginsWith m items := by
        rw [Forest.walk_cons,hm]
        rfl
      by_cases hname : name=item.1
      · rw [hwalk,Forest.walk_cons,hpick.mpr (hsame.mpr hname),hm]
        simpa [hname] using ih m inside
      · have hne : s.pick (sameName item) (n+1)≠s.pick (beginsWith item) (n+1) :=
          fun heq => hname (hsame.mp (hpick.mp heq))
        rw [Forest.walk_eq_of_pick_ne hne,hwalk,←Forest.misses_iff,←Forest.misses_iff]
        simp [hname]

/-- The node reached by following the exact names, or none. -/
def lookup (f : FileTree) (components : List (List Char)) (closed : Bool) : Option ℕ :=
  f.walk sameName 0 (pathItems components closed)

/-- A lookup finds the node of the exact names, or none when they lead nowhere,
exactly when no sibling with a longer name misleads it. -/
theorem getNode_iff {f : FileTree} {addr rootHeader fuel : ℕ} {junk : ℕ → InitrdNode} {rd : Initrd}
    {listing : ℕ → List ℕ} (h : ArchiveValid mem f addr)
    (hload : loadInitrd mem stale junk rootHeader addr fuel=some rd)
    (hlist : ∀ d s,IsDirectory f d s → listing d=s.numbers (d+1))
    (components : List (List Char)) (hvalid : ∀ c∈components,NameValid c) (closed : Bool)
    (junkFs : ℕ → FsNode) :
    (∃ fuel,initrdGetNode listing (initrdBuildFs mem junkFs rd) fuel 0 (pathText components closed)=
        some (lookup f components closed)) ↔
      NamesLead f (pathItems components closed) := by
  obtain ⟨fuel₁,hrun⟩ := initrdGetNode_eq (nul_notMem_pathBody hvalid closed)
    (loaded_opens h hload junkFs hlist)
  rw [walk_cut h hvalid] at hrun
  rw [←walk_eq_iff 0]
  constructor
  · rintro ⟨fuel',hrun'⟩
    exact initrdGetNode_unique hrun' hrun
  · intro heq
    refine ⟨fuel₁,?_⟩
    rw [lookup,heq]
    exact hrun

/-- Children of the sample archive's directories. -/
def sampleListing (d : ℕ) : List ℕ := if d=0 then [1,3] else [2]

/-- Looking up a file in a directory of the sample archive. -/
theorem getNode_iff_sample : ∃ fuel rd,
    loadInitrd sampleMem zeroNode zeroNode 0x10000 0 fuel=some rd ∧
    ∃ fuel,initrdGetNode sampleListing (initrdBuildFs sampleMem zeroFs rd) fuel 0
      ['/','a','/','b']=some (some 2) := by
  obtain ⟨fuel,hload⟩ := loadInitrd_archive zeroNode sample_valid zeroNode 0x10000
  refine ⟨fuel,_,hload,?_⟩
  refine (getNode_iff sample_valid hload ?_ [['a'],['b']] ?_ false zeroFs).mpr
    ⟨fun _ => ⟨fun _ => trivial,fun hne => absurd rfl hne⟩,fun hne => absurd rfl hne⟩
  · rintro d s (⟨rfl,rfl⟩|⟨rfl,rfl⟩|hb|hb)
    · rfl
    · rfl
    · exact hb.elim
    · exact hb.elim
  · intro c hc
    rcases List.mem_pair.mp hc with rfl|rfl
    · exact ⟨by decide,by decide,by decide⟩
    · exact ⟨by decide,by decide,by decide⟩

/-- Names in the records of an archive of two files, the first one's name
longer than the second's. -/
def siblingNames : List (List Char) := [['x'],['a','b'],['x'],['a']]

/-- Their archive. -/
def siblingMem (addr : ℕ) : Char := charAt (siblingNames.getD (addr/512) []) (addr%512)

/-- Their tree. -/
def siblingTree : FileTree := .leaf ['a','b'] (.leaf ['a'] .nil)

/-- A file is found by the beginning of its name. -/
theorem getNode_counterexample :
    ¬∀ (mem : ℕ → Char) (stale junk : ℕ → InitrdNode) (junkFs : ℕ → FsNode) (f : FileTree)
      (addr rootHeader fuel : ℕ) (rd : Initrd) (listing : ℕ → List ℕ)
      (components : List (List Char)) (closed : Bool),ArchiveValid mem f addr →
      loadInitrd mem stale junk rootHeader addr fuel=some rd →
      (∀ d s,IsDirectory f d s → listing d=s.numbers (d+1)) →
      (∀ c∈components,NameValid c) →
      ∃ fuel,initrdGetNode listing (initrdBuildFs mem junkFs rd) fuel 0
        (pathText components closed)=some (lookup f components closed) := by
  intro hclaim
  have hvalid : ArchiveValid siblingMem siblingTree 0 :=
    ⟨⟨⟨by decide,by decide,by decide⟩,⟨by decide,by decide,by decide⟩,trivial⟩,
      by decide +kernel,by decide +kernel⟩
  have hlist : ∀ d s,IsDirectory siblingTree d s → (fun _ => [1,2]) d=s.numbers (d+1) := by
    rintro d s (⟨rfl,rfl⟩|hb)
    · rfl
    · exact hb.elim
  have hname : ∀ c∈[['a']],NameValid c := by
    intro c hc
    rw [List.mem_singleton.mp hc]
    exact ⟨by decide,by decide,by decide⟩
  obtain ⟨fuel,hload⟩ := loadInitrd_archive zeroNode hvalid zeroNode 0x10000
  obtain ⟨fuel',hrun⟩ := hclaim siblingMem zeroNode zeroNode zeroFs siblingTree 0 0x10000 fuel _ _
    [['a']] false hvalid hload hlist hname
  obtain ⟨fuel₁,hrun₁⟩ := initrdGetNode_eq (nul_notMem_pathBody hname false)
    (loaded_opens hvalid hload zeroFs hlist)
  exact absurd (initrdGetNode_unique hrun hrun₁) (by decide)

end XanaduOS.InitrdLookup

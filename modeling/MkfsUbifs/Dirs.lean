import MkfsUbifs.Inums

/-! # Directory sizes and link counts

While add_directory reads a directory it counts what the directory's inode will record: two
links and one more for each subdirectory, and the size of an inode node plus the aligned size of
each directory entry node it writes. The entries are written among the nodes of the children, and
the inode comes after all of them. This file follows the walk directory by directory: each run
of add_directory leaves a record of the directory it completed and of the entries it wrote under
it, and the records of a whole run have distinct inode numbers. In the finished image, as long as
the inode numbers did not pass 32 bits, every directory inode agrees with the entries keyed under
its inode number. -/

namespace MkfsUbifs

/-! ### Directory entries and directory inodes among nodes -/

/-- The directory entry a node holds. -/
def Node.dent? (n : Node) : Option DentNode :=
  match n.body with
  | .dent x => some x
  | _ => none

/-- The inode a node holds, when its mode is a directory's. -/
def Node.dirIno? (n : Node) : Option InoNode :=
  match n.body with
  | .ino i => if sIsdir i.mode then some i else none
  | _ => none

/-- The directory entries among ns, in order. -/
def dentsOf (ns : List Node) : List DentNode := ns.filterMap Node.dent?

/-- The directory inodes among ns, in order. -/
def dirInodesOf (ns : List Node) : List InoNode := ns.filterMap Node.dirIno?

/-- The directory entries among ns keyed under the inode key word k. -/
def dentsUnder (k : Nat) (ns : List Node) : List DentNode := (dentsOf ns).filter fun x => x.key.ino = k

/-- The subdirectories among the entries ds. -/
def subdirCount (ds : List DentNode) : Nat := (ds.filter fun x => x.type = ubifsItypeDir).length

/-- What the entry nodes of ds add to a directory's size, each aligned to 8. -/
def entriesSize (ds : List DentNode) : Nat := (ds.map fun x => align (ubifsDentNodeSz + x.nlen + 1) 8).sum

/-- A directory inode agrees with its entries ds: two links and one for each subdirectory, and the
size of an inode node and of the entry nodes. -/
def DirMatches (i : InoNode) (ds : List DentNode) : Prop :=
  i.nlink = 2 + subdirCount ds ∧ i.size = ubifsInoNodeSz + entriesSize ds

@[simp] theorem dentsOf_append {l₁ l₂ : List Node} : dentsOf (l₁ ++ l₂) = dentsOf l₁ ++ dentsOf l₂ :=
  List.filterMap_append _ _ _

@[simp] theorem dirInodesOf_append {l₁ l₂ : List Node} :
    dirInodesOf (l₁ ++ l₂) = dirInodesOf l₁ ++ dirInodesOf l₂ :=
  List.filterMap_append _ _ _

@[simp] theorem entriesSize_cons {x : DentNode} {ds : List DentNode} :
    entriesSize (x :: ds) = align (ubifsDentNodeSz + x.nlen + 1) 8 + entriesSize ds := by
  simp [entriesSize]

@[simp] theorem subdirCount_cons {x : DentNode} {ds : List DentNode} :
    subdirCount (x :: ds) = (if x.type = ubifsItypeDir then 1 else 0) + subdirCount ds := by
  unfold subdirCount
  split_ifs with h <;> simp [List.filter_cons, h, Nat.add_comm]

theorem DirMatches.perm {i : InoNode} {ds ds' : List DentNode} (h : DirMatches i ds) (hp : ds.Perm ds') :
    DirMatches i ds' := by
  unfold DirMatches subdirCount entriesSize at *
  rwa [(hp.filter _).length_eq, (hp.map _).sum_eq] at h

theorem sIsdir_sIFREG : sIsdir sIFREG = false := by decide

theorem knownNonDir_not_dir {m : Nat} (h : KnownNonDir m) : sIsdir m = false := by
  unfold KnownNonDir at h
  unfold sIsdir
  rcases h with h | h | h | h | h | h <;>
    simp only [sIsreg, sIschr, sIsblk, sIslnk, sIssock, sIsfifo, beq_iff_eq] at h <;> rw [h] <;> decide

theorem nonDirTypeOf_ne_dir {m type : Nat} (h : nonDirTypeOf m = some type) : type ≠ ubifsItypeDir := by
  unfold nonDirTypeOf at h
  split_ifs at h <;> cases h <;> decide

/-! ### The nodes of the emitters -/

section Emitters
variable {e : Env} {st : Stat} {inum flags : Nat} {s s' : Mkfs} {u : Unit}

theorem xattrHosts_dir (host : InoNode) (xs : List (Bytes × Bytes)) :
    (xattrHosts e host xs).mode = host.mode ∧ (xattrHosts e host xs).nlink = host.nlink ∧
      (xattrHosts e host xs).size = host.size := by
  induction xs generalizing host with
  | nil => exact ⟨rfl, rfl, rfl⟩
  | cons x rest ih => exact ih _

theorem dirIno?_xattrInode {q len x c : Nat} {data : Bytes} :
    Node.dirIno? ⟨q, len, .ino (xattrInode e st x c data)⟩ = none := by
  simp only [Node.dirIno?, xattrInode, sIsdir_sIFREG, Bool.false_eq_true, if_false]

/-- The attributes' nodes hold no directory entry and no directory inode. -/
theorem xattrNodes_plain (xs : List (Bytes × Bytes)) (h m : Nat) :
    dentsOf (xattrNodes e st inum xs h m) = [] ∧ dirInodesOf (xattrNodes e st inum xs h m) = [] := by
  induction xs generalizing h m with
  | nil => exact ⟨rfl, rfl⟩
  | cons x rest ih =>
    obtain ⟨name, data⟩ := x
    rw [xattrNodes, dentsOf, dirInodesOf, List.filterMap_cons, List.filterMap_cons, List.filterMap_cons,
      List.filterMap_cons, dirIno?_xattrInode]
    exact ih (h + 1) (m + 3)

/-- add_inode writes no directory entry, and a directory inode only for a directory's mode: its
own, with the link count and size of the stat it was given. -/
theorem addInode_dirs {data : Bytes} {xattrPath : Option (Bytes × List (Bytes × Bytes))} {fctx : Option Bytes}
    (h : (addInode e st inum data flags xattrPath fctx).run s = .ok (u, s')) :
    ∃ N, s'.nodes = s.nodes ++ N ∧ dentsOf N = [] ∧
      (∀ i ∈ dirInodesOf N, sIsdir st.stMode ∧ i.key = inoKeyInit inum ∧ i.nlink = st.stNlink ∧
        i.size = st.stSize) ∧ s.highestInum ≤ s'.highestInum := by
  obtain ⟨d, -, hn, -, hi⟩ := addInode_nodes h
  obtain ⟨hxd, hxi⟩ : dentsOf (xattrNodes e st inum (inodeXattrs e st xattrPath fctx) s.highestInum s.maxSqnum) = [] ∧
      dirInodesOf (xattrNodes e st inum (inodeXattrs e st xattrPath fctx) s.highestInum s.maxSqnum) = [] :=
    xattrNodes_plain _ _ _
  refine ⟨_, hn, by rw [inodeNodes, dentsOf_append, hxd]; rfl, fun i hi' => ?_, by omega⟩
  rw [inodeNodes, dirInodesOf_append, hxi, List.nil_append] at hi'
  obtain ⟨hm, hl, hs⟩ := xattrHosts_dir (e := e) (inodeBase e st inum d flags fctx s.creatSqnum)
    (inodeXattrs e st xattrPath fctx)
  by_cases hd : sIsdir st.stMode
  · have hd' : sIsdir (xattrHosts e (inodeBase e st inum d flags fctx s.creatSqnum)
        (inodeXattrs e st xattrPath fctx)).mode := by rw [hm]; exact hd
    simp only [dirInodesOf, List.filterMap_cons, List.filterMap_nil, Node.dirIno?, hd', if_true,
      List.mem_singleton] at hi'
    subst hi'
    exact ⟨hd, xattrHosts_key, hl, hs⟩
  · have hd' : sIsdir (xattrHosts e (inodeBase e st inum d flags fctx s.creatSqnum)
        (inodeXattrs e st xattrPath fctx)).mode = false := by rw [hm]; simpa using hd
    simp [dirInodesOf, Node.dirIno?, hd'] at hi'

theorem leafNodes_plain {ls : List (Key × Option Bytes × NodeBody × Nat)} (hl : ∀ l ∈ ls, DataLeaf inum l)
    (m : Nat) : dentsOf (leafNodes m ls) = [] ∧ dirInodesOf (leafNodes m ls) = [] := by
  have hd := leafNodes_data hl m
  refine ⟨List.filterMap_eq_nil_iff.mpr fun n hn => ?_, List.filterMap_eq_nil_iff.mpr fun n hn => ?_⟩ <;>
    obtain ⟨dn, hb⟩ := hd n hn <;> simp [Node.dent?, Node.dirIno?, hb]

/-- The writing part of add_non_dir writes no directory entry and no directory inode. -/
theorem addNonDirNodes_plain {path : Bytes} {hf : HostFile} {fctx : Option Bytes}
    (h : (addNonDirNodes e path hf st inum flags fctx).run s = .ok (u, s')) :
    ∃ N, s'.nodes = s.nodes ++ N ∧ dentsOf N = [] ∧ dirInodesOf N = [] ∧ s.highestInum ≤ s'.highestInum := by
  obtain ⟨hk, ls, s₁, hls, hd, -, hi⟩ := addNonDirNodes_ok h
  obtain ⟨hn₁, -, hh₁, -⟩ := hls.nodes
  obtain ⟨M, hM, hMd, hMi, hh⟩ := addInode_dirs hi
  obtain ⟨hld, hli⟩ := leafNodes_plain hd s.maxSqnum
  have hMi' : dirInodesOf M = [] :=
    List.eq_nil_iff_forall_not_mem.mpr fun i hi' => by simpa [knownNonDir_not_dir hk] using (hMi i hi').1
  exact ⟨_, by rw [hM, hn₁, List.append_assoc], by simp [hld, hMd], by simp [hli, hMi'], by omega⟩

/-- add_non_dir writes no directory entry and no directory inode, gives a type other than a
directory's, and gives back at most the inode number it took. -/
theorem addNonDir_plain {path : Bytes} {hf : HostFile} {nlink : Nat} {fctx : Option Bytes} {r : Nat × Nat}
    (h : (addNonDir e path hf inum nlink st fctx).run s = .ok (r, s')) :
    r.2 ≠ ubifsItypeDir ∧ ∃ N, s'.nodes = s.nodes ++ N ∧ dentsOf N = [] ∧ dirInodesOf N = [] ∧
      s.highestInum ≤ s'.highestInum + 1 := by
  obtain ⟨ht, h₁⟩ := addNonDir_ok h
  refine ⟨nonDirTypeOf_ne_dir ht, ?_⟩
  rcases h₁ with ⟨-, -, h₂⟩ | ⟨-, -, h₂⟩
  · rcases linkInumMapping_ok h₂ with ⟨-, -, rfl⟩ | ⟨_, -, -, rfl⟩
    · exact ⟨[], (List.append_nil _).symm, rfl, rfl, by simp [linkFirst]⟩
    · exact ⟨[], (List.append_nil _).symm, rfl, rfl, by simp only [linkAgain]; omega⟩
  · obtain ⟨N, hN, hd, hi, hh⟩ := addNonDirNodes_plain h₂
    exact ⟨N, hN, hd, hi, by simp only at hh; omega⟩

theorem LinkedRuns.plain {chain : List InumMapping} (h : LinkedRuns e chain s s') :
    ∃ N, s'.nodes = s.nodes ++ N ∧ dentsOf N = [] ∧ dirInodesOf N = [] := by
  induction h with
  | nil => exact ⟨[], by simp, rfl, rfl⟩
  | cons h₁ _ ih =>
    obtain ⟨-, N₁, hN₁, hd₁, hi₁, -⟩ := addNonDir_plain h₁
    obtain ⟨N₂, hN₂, hd₂, hi₂⟩ := ih
    exact ⟨N₁ ++ N₂, by rw [hN₂, hN₁, List.append_assoc], by simp [hd₁, hd₂], by simp [hi₁, hi₂]⟩

end Emitters

/-! ### The records of the walk -/

/-- What a run of the walk appended, N, against the directories it completed, recs, each inode
number with the entries written under it, and the entries top of the directory still being read:
every entry written is in exactly one of them, the entries of a record are keyed under its
inode number, and every directory inode written agrees with one record. -/
structure Footprint (top : List DentNode) (recs : List (Nat × List DentNode)) (N : List Node) : Prop where
  dents : (dentsOf N).Perm (top ++ recs.flatMap (·.2))
  keyed : ∀ r ∈ recs, ∀ x ∈ r.2, x.key.ino = r.1 % 2 ^ 32
  dirs : ∀ i ∈ dirInodesOf N, ∃ r ∈ recs, i.key.ino = r.1 % 2 ^ 32 ∧ DirMatches i r.2

/-- The inode numbers of the records are distinct and were handed out between lo and hi. -/
def Fresh (recs : List (Nat × List DentNode)) (lo hi : Nat) : Prop :=
  (recs.map (·.1)).Nodup ∧ (∀ r ∈ recs, lo < r.1 ∧ r.1 ≤ hi) ∧ lo ≤ hi

namespace Footprint
variable {top : List DentNode} {recs : List (Nat × List DentNode)} {N M : List Node}

theorem nil : Footprint [] [] [] := ⟨by simp [dentsOf], by simp, by simp [dirInodesOf]⟩

theorem of_plain (hd : dentsOf N = []) (hi : dirInodesOf N = []) : Footprint [] [] N :=
  ⟨by simp [hd], by simp, by simp [hi]⟩

/-- Nodes that hold no entry and no directory inode leave the records as they are. -/
theorem plain (h : Footprint top recs N) (hd : dentsOf M = []) (hi : dirInodesOf M = []) :
    Footprint top recs (N ++ M) :=
  ⟨by simpa [hd] using h.dents, h.keyed, by simpa [hi] using h.dirs⟩

/-- A directory's inode, written after its entries, completes its record. -/
theorem close {dirInum : Nat} (h : Footprint top recs N) (hk : ∀ x ∈ top, x.key.ino = dirInum % 2 ^ 32)
    (hd : dentsOf M = []) (hi : ∀ i ∈ dirInodesOf M, i.key.ino = dirInum % 2 ^ 32 ∧ DirMatches i top) :
    Footprint [] ((dirInum, top) :: recs) (N ++ M) where
  dents := by simpa [hd] using h.dents
  keyed r hr := by
    rcases List.mem_cons.mp hr with rfl | hr
    · exact hk
    · exact h.keyed r hr
  dirs i hi' := by
    rcases List.mem_append.mp (dirInodesOf_append ▸ hi') with hi' | hi'
    · obtain ⟨r, hr, hri⟩ := h.dirs i hi'
      exact ⟨r, List.mem_cons_of_mem _ hr, hri⟩
    · exact ⟨_, List.mem_cons_self _ _, hi i hi'⟩

/-- One entry of the directory being read: the nodes of its child, whose records are recs₁, the
entry node, then the rest of the directory. -/
theorem entry {recs₁ : List (Nat × List DentNode)} {N₁ : List Node} {n : Node} {x : DentNode}
    (h₁ : Footprint [] recs₁ N₁) (hn : n.body = .dent x) (h : Footprint top recs N) :
    Footprint (x :: top) (recs₁ ++ recs) (N₁ ++ [n] ++ N) where
  dents := by
    have hx : dentsOf [n] = [x] := by simp [dentsOf, Node.dent?, hn]
    rw [dentsOf_append, dentsOf_append, hx]
    refine (((h₁.dents.append_right _).append h.dents).trans ?_)
    rw [List.perm_iff_count]
    intro a
    simp only [hx, List.nil_append, List.flatMap_append, List.count_append, List.count_cons,
      List.count_nil]
    omega
  keyed r hr := by
    rcases List.mem_append.mp hr with hr | hr
    · exact h₁.keyed r hr
    · exact h.keyed r hr
  dirs i hi := by
    have hx : dirInodesOf [n] = [] := by simp [dirInodesOf, Node.dirIno?, hn]
    simp only [dirInodesOf_append, hx, List.append_nil, List.mem_append] at hi
    rcases hi with hi | hi
    · obtain ⟨r, hr, hri⟩ := h₁.dirs i hi
      exact ⟨r, List.mem_append_left _ hr, hri⟩
    · obtain ⟨r, hr, hri⟩ := h.dirs i hi
      exact ⟨r, List.mem_append_right _ hr, hri⟩

end Footprint

namespace Fresh
variable {recs recs₁ : List (Nat × List DentNode)} {a b c : Nat}

theorem nil (h : a ≤ b) : Fresh [] a b := ⟨List.nodup_nil, by simp, h⟩

theorem append (h₁ : Fresh recs₁ a b) (h₂ : Fresh recs b c) : Fresh (recs₁ ++ recs) a c := by
  refine ⟨?_, fun r hr => ?_, h₁.2.2.trans h₂.2.2⟩
  · rw [List.map_append, List.nodup_append]
    refine ⟨h₁.1, h₂.1, fun k hk₁ hk₂ => ?_⟩
    obtain ⟨r₁, hr₁, rfl⟩ := List.mem_map.mp hk₁
    obtain ⟨r₂, hr₂, he⟩ := List.mem_map.mp hk₂
    have := (h₁.2.1 r₁ hr₁).2
    have := (h₂.2.1 r₂ hr₂).1
    omega
  · rcases List.mem_append.mp hr with hr | hr
    · have := h₁.2.1 r hr
      have := h₂.2.2
      omega
    · have := h₂.2.1 r hr
      have := h₁.2.2
      omega

theorem weaken {a' b' : Nat} (h : Fresh recs a b) (ha : a' ≤ a) (hb : b ≤ b') : Fresh recs a' b' :=
  ⟨h.1, fun r hr => by have := h.2.1 r hr; omega, by have := h.2.2; omega⟩

/-- A subdirectory's record joins those of its own children: its number is the one taken first. -/
theorem cons {top : List DentNode} (h : Fresh recs (a + 1) b) : Fresh ((a + 1, top) :: recs) a b := by
  refine ⟨List.nodup_cons.mpr ⟨fun hm => ?_, h.1⟩, fun r hr => ?_, by have := h.2.2; omega⟩
  · obtain ⟨r, hr, he⟩ := List.mem_map.mp hm
    have := (h.2.1 r hr).1
    simp only at he
    omega
  · rcases List.mem_cons.mp hr with rfl | hr
    · have := h.2.2
      exact ⟨by simp, by simpa using this⟩
    · have := h.2.1 r hr
      omega

end Fresh

/-! ### The walk -/

section Walk
variable {e : Env}

/-- A run of add_directory for dirInum from s to s': it appended N, completed its own record and
those of recs. -/
def DirRun (dirInum : Nat) (s s' : Mkfs) : Prop :=
  ∃ top recs N, s'.nodes = s.nodes ++ N ∧ Footprint [] ((dirInum, top) :: recs) N ∧
    Fresh recs s.highestInum s'.highestInum

/-- A run of the readdir loop of directory dirInum, from the size and link count size and nlink to
res: the entries top it wrote are keyed under dirInum and res counts them. -/
def EntriesRun (dirInum size nlink : Nat) (res : Nat × Nat) (s s' : Mkfs) : Prop :=
  ∃ top recs N, s'.nodes = s.nodes ++ N ∧ Footprint top recs N ∧
    (∀ x ∈ top, x.key.ino = dirInum % 2 ^ 32) ∧ Fresh recs s.highestInum s'.highestInum ∧
    res = (size + entriesSize top, nlink + subdirCount top)

theorem walk_dirs :
    (∀ dirName hf dirInum st existing fctx s s',
      (addDirectory e dirName hf dirInum st existing fctx).run s = .ok ((), s') → DirRun dirInum s s') ∧
    (∀ dirName dirInum fctx entries size nlink res s s',
      (addEntries e dirName dirInum fctx entries size nlink).run s = .ok (res, s') →
      EntriesRun dirInum size nlink res s s') := by
  have hc : WalkCases e (fun _ _ dirInum _ _ _ s s' => DirRun dirInum s s')
      (fun _ dirInum _ _ size nlink res s s' => EntriesRun dirInum size nlink res s s') := by
    refine ⟨?_, ?_, fun _ h => h, ?_, ?_⟩
    · intro dirName hf dirInum st existing fctx s s₁ s' r hr h₁
      obtain ⟨top, recs, N, hN, hf₁, hk, hfr, rfl⟩ : EntriesRun dirInum ubifsInoNodeSz 2 r s s₁ := by
        cases existing
        · simp only [Bool.false_eq_true, if_false] at hr
          obtain ⟨rfl, rfl⟩ := hr
          exact ⟨[], [], [], by simp; rfl, .nil, by simp, .nil le_rfl, by simp [entriesSize, subdirCount]⟩
        · exact hr
      unfold addDirInode at h₁
      obtain ⟨M, hM, hd, hi, hh⟩ := addInode_dirs h₁
      refine ⟨top, recs, N ++ M, by rw [hM, ← List.append_assoc, ← hN]; rfl, hf₁.close hk hd fun i hi' => ?_,
        hfr.weaken le_rfl hh⟩
      obtain ⟨-, hkey, hl, hs⟩ := hi i hi'
      exact ⟨by rw [hkey]; rfl, hl, hs⟩
    · intro _ _ _ size nlink s
      exact ⟨[], [], [], by simp, .nil, by simp, .nil le_rfl, by simp [entriesSize, subdirCount]⟩
    · intro _ dirInum _ _ _ _ _ _ _ klen s s₁ s₂ s' _ _ h₁ h₂ h₃
      obtain ⟨topc, recsc, Nc, hNc, hfc, hrc⟩ := h₁
      obtain ⟨kname, -, rfl, hn₂, -, hi₂, -⟩ := addDentNode_nodes h₂
      obtain ⟨top, recs, N, hN, hf, hk, hr, rfl⟩ := h₃
      refine ⟨_ :: top, (s.highestInum + 1, topc) :: recsc ++ recs, Nc ++ [_] ++ N,
        by rw [hN, hn₂, hNc]; simp; rfl, hfc.entry rfl hf, ?_, hrc.cons.append (hi₂ ▸ hr), ?_⟩
      · intro x hx
        rcases List.mem_cons.mp hx with rfl | hx
        · rfl
        · exact hk x hx
      · simp only [entriesSize_cons, subdirCount_cons, if_true, Prod.mk.injEq]
        constructor <;> omega
    · intro _ dirInum _ _ _ _ _ _ _ klen s s₁ s₂ s' r _ _ h₁ h₂ h₃
      obtain ⟨hty, N₁, hN₁, hd₁, hi₁, hh₁⟩ := addNonDir_plain h₁
      obtain ⟨kname, -, rfl, hn₂, -, hi₂, -⟩ := addDentNode_nodes h₂
      obtain ⟨top, recs, N, hN, hf, hk, hr, rfl⟩ := h₃
      refine ⟨_ :: top, [] ++ recs, N₁ ++ [_] ++ N,
        by rw [hN, hn₂, hN₁]; simp; rfl, (Footprint.of_plain hd₁ hi₁).entry rfl hf, ?_,
        (Fresh.nil le_rfl).append (hr.weaken (by simp only at hh₁; omega) le_rfl), ?_⟩
      · intro x hx
        rcases List.mem_cons.mp hx with rfl | hx
        · rfl
        · exact hk x hx
      · simp only [entriesSize_cons, subdirCount_cons, if_neg hty, Prod.mk.injEq]
        constructor <;> omega
  exact hc.sound

/-- write_data from init: the records of every directory of the image, the root's among them,
with distinct inode numbers that the counter passed. -/
theorem writeData_dirs {root : Option HostFile} {now : Int} {s' : Mkfs}
    (h : (writeData e root now).run (Mkfs.init e.info) = .ok ((), s')) :
    ∃ recs, Footprint [] recs s'.nodes ∧ (recs.map (·.1)).Nodup ∧ ∀ r ∈ recs, r.1 ≤ s'.highestInum := by
  obtain ⟨s₁, s₂, h₁, h₂, rfl⟩ := writeData_ok h
  rw [addRootDirectory_run] at h₁
  obtain ⟨top, recs, N, hN, hf, hfr⟩ := walk_dirs.1 _ _ _ _ _ _ _ _ h₁
  have ht₁ : TableOk s₁ := addDirectory_tableOk h₁ fun _ _ hi => by simp [Mkfs.init] at hi
  obtain ⟨hr, -⟩ := addMultiLinkedFiles_ok ht₁ h₂
  obtain ⟨M, hM, hd, hi⟩ := hr.plain
  have hmono : s₁.highestInum ≤ s₂.highestInum := (hr.grows fun im hm => by
    obtain ⟨i, -, hi⟩ := List.mem_flatMap.mp hm
    exact ht₁ i im hi).mono
  have hnodes : ({ s₂ with flash := flushNodes e.info s₂.flash } : Mkfs).nodes = N ++ M := by
    simp only [Mkfs.nodes, flushNodes_placed]
    exact hM.trans (by rw [hN]; rfl)
  refine ⟨(ubifsRootIno, top) :: recs, hnodes ▸ hf.plain hd hi, ?_, fun r hr' => ?_⟩
  · rw [List.map_cons, List.nodup_cons]
    refine ⟨fun hm => ?_, hfr.1⟩
    obtain ⟨r, hr', he⟩ := List.mem_map.mp hm
    have := (hfr.2.1 r hr').1
    simp only [Mkfs.init] at this he
    rw [he] at this
    exact absurd this (by decide)
  · rcases List.mem_cons.mp hr' with rfl | hr'
    · have := hfr.2.2
      simp only [Mkfs.init] at this
      show ubifsRootIno ≤ s₂.highestInum
      exact le_trans (by decide) (this.trans hmono)
    · exact (hfr.2.1 r hr').2.trans hmono

end Walk

/-! ### The image -/

/-- The records' entries keyed under one record's number are that record's entries. -/
theorem filter_flatMap_keyed {recs : List (Nat × List DentNode)} (hnd : (recs.map (·.1)).Nodup)
    (hk : ∀ r ∈ recs, ∀ x ∈ r.2, x.key.ino = r.1) {r : Nat × List DentNode} (hr : r ∈ recs) :
    (recs.flatMap (·.2)).filter (fun x => x.key.ino = r.1) = r.2 := by
  induction recs with
  | nil => cases hr
  | cons r' rest ih =>
    rw [List.map_cons, List.nodup_cons] at hnd
    have hoff : ∀ q ∈ rest, q.1 ≠ r'.1 := fun q hq he => hnd.1 (he ▸ List.mem_map_of_mem _ hq)
    rw [List.flatMap_cons, List.filter_append]
    rcases List.mem_cons.mp hr with rfl | hr
    · rw [List.filter_eq_self.mpr fun x hx => by simp [hk r (List.mem_cons_self _ _) x hx],
        List.filter_eq_nil_iff.mpr fun x hx => ?_, List.append_nil]
      obtain ⟨q, hq, hxq⟩ := List.mem_flatMap.mp hx
      simp [hk q (List.mem_cons_of_mem _ hq) x hxq, hoff q hq]
    · rw [List.filter_eq_nil_iff.mpr fun x hx => ?_, List.nil_append,
        ih hnd.2 (fun q hq => hk q (List.mem_cons_of_mem _ hq)) hr]
      simp [hk r' (List.mem_cons_self _ _) x hx, (hoff r hr).symm]

section Mkfs
variable {e : Env} {root : Option HostFile} {now : Int} {uuid : Bytes} {s' : Mkfs}

/-- In the image of a successful mkfs whose inode numbers stay below 2^32, every directory inode
has two links and one more for each subdirectory entry keyed under its inode number, and the
size of an inode node and of the entry nodes keyed under it, each aligned to 8. -/
theorem mkfs_dirs (h : (mkfs e root now uuid).run (Mkfs.init e.info) = .ok ((), s'))
    (hlt : s'.highestInum < 2 ^ 32) :
    ∀ i ∈ dirInodesOf s'.nodes, DirMatches i (dentsUnder i.key.ino s'.nodes) := by
  obtain ⟨s₁, W, mst, sup, sig, h₁, -, hW, -, -, hh, hn⟩ := mkfs_image h
  have hWd : dentsOf W = [] := List.filterMap_eq_nil_iff.mpr fun n hn => by
    obtain ⟨x, hx⟩ := hW n hn
    simp [Node.dent?, hx]
  have hWi : dirInodesOf W = [] := List.filterMap_eq_nil_iff.mpr fun n hn => by
    obtain ⟨x, hx⟩ := hW n hn
    simp [Node.dirIno?, hx]
  have hd : dentsOf s'.nodes = dentsOf s₁.nodes := by
    rw [hn, dentsOf_append, dentsOf_append, hWd, List.append_nil]
    exact List.append_nil _
  have hi : dirInodesOf s'.nodes = dirInodesOf s₁.nodes := by
    rw [hn, dirInodesOf_append, dirInodesOf_append, hWi, List.append_nil]
    exact List.append_nil _
  obtain ⟨recs, hf, hnd, hle⟩ := writeData_dirs h₁
  have hmod : ∀ r ∈ recs, r.1 % 2 ^ 32 = r.1 := fun r hr => Nat.mod_eq_of_lt (by
    have := hle r hr
    omega)
  intro i hi'
  rw [hi] at hi'
  obtain ⟨r, hr, hk, hm⟩ := hf.dirs i hi'
  rw [hk, hmod r hr, dentsUnder, hd]
  refine hm.perm ?_
  have hp := (hf.dents.filter fun x => decide (x.key.ino = r.1)).symm
  rw [List.nil_append, filter_flatMap_keyed hnd (fun q hq x hx => (hf.keyed q hq x hx).trans (hmod q hq)) hr] at hp
  exact hp

theorem mkfs_dirs_sampleRoot :
    ∃ s', (mkfs treeEnv (some sampleRoot) 0 []).run (Mkfs.init treeEnv.info) = .ok ((), s') ∧
      s'.highestInum < 2 ^ 32 ∧ ∀ i ∈ dirInodesOf s'.nodes, DirMatches i (dentsUnder i.key.ino s'.nodes) := by
  obtain ⟨s', h, hi⟩ := mkfs_sampleRoot
  have hlt : s'.highestInum < 2 ^ 32 := hi ▸ by decide
  exact ⟨s', h, hlt, mkfs_dirs h hlt⟩

end Mkfs

end MkfsUbifs

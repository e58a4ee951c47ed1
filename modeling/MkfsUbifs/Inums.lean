import MkfsUbifs.Image
import MkfsUbifs.Blocks

/-! # Inode numbers

mkfs.ubifs hands out inode numbers from one counter, c->highest_inum. add_directory takes the
next number for every entry before it knows what the entry is, add_xattr takes one per
attribute, and add_non_dir gives its number back when the entry turns out to be one more link
of a file already counted. This file follows the numbers through the walk: every number the
counter moves past becomes the key of exactly one inode node, at once or, for a file of several
links, when add_multi_linked_files writes it from the link-counting table. -/

namespace MkfsUbifs

/-! ### The numbers a state has handed out -/

/-- The inode number an inode node is keyed under. -/
def Node.inoNum? (n : Node) : Option Nat :=
  match n.body with
  | .ino i => some i.key.ino
  | _ => none

/-- The inode numbers of the inode nodes among ns, in order. -/
def inoInums (ns : List Node) : List Nat := ns.filterMap Node.inoNum?

/-- The inode numbers of the inodes written so far. -/
def Mkfs.inoNums (s : Mkfs) : List Nat := inoInums s.nodes

/-- The inode numbers handed out so far: those of the inodes written, and those the
link-counting table holds for files still to be written, as their inode keys will store them. -/
def Mkfs.inums (s : Mkfs) : List Nat := s.inoNums ++ (deferred s).map fun im => im.useInum % 2 ^ 32

@[simp] theorem inoInums_append {l₁ l₂ : List Node} : inoInums (l₁ ++ l₂) = inoInums l₁ ++ inoInums l₂ :=
  List.filterMap_append _ _ _

/-- From s to s', the numbers view reads grew by own and by every number the counter moved
past, each as an inode key stores it, and the counter did not go back. -/
structure Grows (view : Mkfs → List Nat) (own : List Nat) (s s' : Mkfs) : Prop where
  mono : s.highestInum ≤ s'.highestInum
  perm : (view s').Perm
    (view s ++ (own ++ List.range' (s.highestInum + 1) (s'.highestInum - s.highestInum)).map (· % 2 ^ 32))

namespace Grows
variable {v : Mkfs → List Nat} {o o₁ o₂ : List Nat} {s s₁ s₂ t : Mkfs}

theorem refl : Grows v [] s s := ⟨le_rfl, by simp⟩

theorem trans (h₁ : Grows v o₁ s s₁) (h₂ : Grows v o₂ s₁ s₂) : Grows v (o₁ ++ o₂) s s₂ where
  mono := h₁.mono.trans h₂.mono
  perm := by
    have hr : List.range' (s.highestInum + 1) (s₁.highestInum - s.highestInum) ++
        List.range' (s₁.highestInum + 1) (s₂.highestInum - s₁.highestInum) =
        List.range' (s.highestInum + 1) (s₂.highestInum - s.highestInum) := by
      have := h₁.mono
      have := h₂.mono
      rw [show s₁.highestInum + 1 = s.highestInum + 1 + (s₁.highestInum - s.highestInum) by omega,
        List.range'_append_1]
      congr 1
      omega
    refine h₂.perm.trans ((h₁.perm.append_right _).trans ?_)
    rw [← hr]
    simp only [List.map_append, List.append_assoc]
    refine List.Perm.append_left _ (List.Perm.append_left _ ?_)
    simpa only [List.append_assoc] using List.perm_append_comm.append_right _

theorem frame (hv : v s' = v s) (hh : s'.highestInum = s.highestInum) : Grows v [] s s' :=
  ⟨hh.ge, by simp [hv, hh]⟩

theorem of_eq (s : Mkfs) (h : Grows v o t s') (hv : v t = v s) (ht : t.highestInum = s.highestInum) : Grows v o s s' := by
  obtain ⟨hm, hp⟩ := h
  rw [hv, ht] at hp
  exact ⟨ht ▸ hm, hp⟩

theorem of_next (h : Grows v [s.highestInum + 1] t s') (hv : v t = v s)
    (ht : t.highestInum = s.highestInum + 1) : Grows v [] s s' where
  mono := by have := h.mono; omega
  perm := by
    have hp := h.perm
    have hm := h.mono
    rw [hv, ht] at hp
    rw [List.nil_append, show s'.highestInum - s.highestInum = s'.highestInum - (s.highestInum + 1) + 1 by
      omega, List.range'_succ]
    exact hp

theorem withTable (h : Grows Mkfs.inoNums o s s') (ht : s'.hashTable = s.hashTable) :
    Grows Mkfs.inums o s s' where
  mono := h.mono
  perm := by
    unfold Mkfs.inums deferred
    rw [ht]
    refine (h.perm.append_right _).trans ?_
    simpa only [List.append_assoc] using List.perm_append_comm.append_left _

end Grows

/-! ### The inodes of each call -/

section Calls
variable {e : Env} {st : Stat} {inum flags : Nat} {s s' : Mkfs} {u : Unit}

theorem leafNodes_inoInums {ls : List (Key × Option Bytes × NodeBody × Nat)} (hl : ∀ l ∈ ls, DataLeaf inum l)
    (m : Nat) : inoInums (leafNodes m ls) = [] := by
  refine List.filterMap_eq_nil_iff.mpr fun n hn => ?_
  obtain ⟨dn, hd⟩ := leafNodes_data hl m n hn
  simp [Node.inoNum?, hd]

theorem xattrNodes_inoInums (xs : List (Bytes × Bytes)) (h m : Nat) :
    inoInums (xattrNodes e st inum xs h m) = (List.range' (h + 1) xs.length).map (· % 2 ^ 32) := by
  induction xs generalizing h m with
  | nil => rfl
  | cons x rest ih =>
    simp only [xattrNodes, inoInums, List.filterMap_cons, Node.inoNum?] at ih ⊢
    rw [ih, List.length_cons, List.range'_succ]
    rfl

theorem inodeNodes_inoInums {d : Bytes} {xattrPath : Option (Bytes × List (Bytes × Bytes))}
    {fctx : Option Bytes} (h m creat : Nat) :
    inoInums (inodeNodes e st inum d flags xattrPath fctx h m creat) =
      (List.range' (h + 1) (inodeXattrs e st xattrPath fctx).length).map (· % 2 ^ 32) ++ [inum % 2 ^ 32] := by
  rw [inodeNodes, inoInums_append, xattrNodes_inoInums]
  simp [inoInums, Node.inoNum?, xattrHosts_key, inodeBase, inoKeyInit]

/-- add_inode writes the inode of inum, after the inodes of its attributes, which take the
numbers the counter moves past. -/
theorem addInode_grows {data : Bytes} {xattrPath : Option (Bytes × List (Bytes × Bytes))}
    {fctx : Option Bytes} (h : (addInode e st inum data flags xattrPath fctx).run s = .ok (u, s')) :
    Grows Mkfs.inoNums [inum] s s' := by
  obtain ⟨d, -, hn, -, hi⟩ := addInode_nodes h
  refine ⟨by omega, ?_⟩
  rw [Mkfs.inoNums, hn, hi, inoInums_append, inodeNodes_inoInums, Nat.add_sub_cancel_left]
  exact List.Perm.append_left _ List.perm_append_comm

theorem addNonDirNodes_grows {path : Bytes} {hf : HostFile} {fctx : Option Bytes}
    (h : (addNonDirNodes e path hf st inum flags fctx).run s = .ok (u, s')) :
    Grows Mkfs.inoNums [inum] s s' := by
  obtain ⟨-, ls, d, hd, -, -, hn, -, hi⟩ := addNonDirNodes_nodes h
  refine ⟨by omega, ?_⟩
  rw [Mkfs.inoNums, hn, inoInums_append, inoInums_append, leafNodes_inoInums hd, inodeNodes_inoInums,
    hi, Nat.add_sub_cancel_left, List.append_nil]
  exact List.Perm.append_left _ List.perm_append_comm

theorem addDentNode_grows {dirInum type klen : Nat} {name : Bytes} {fctx : Option Bytes}
    (h : (addDentNode e dirInum name inum type fctx).run s = .ok (klen, s')) : Grows Mkfs.inums [] s s' := by
  obtain ⟨kname, -, -, hn, -, hi, -⟩ := addDentNode_nodes h
  refine Grows.frame ?_ hi
  simp only [Mkfs.inums, Mkfs.inoNums, hn, deferred, addDentNode_hashTable h, inoInums_append]
  simp [inoInums, Node.inoNum?]

end Calls

/-! ### The link-counting table -/

section Table
variable {path : Bytes} {hf : HostFile} {st : Stat} {inum : Nat} {s : Mkfs}

theorem flatMap_update_cons {f : Nat → List InumMapping} {k : Nat} {x : InumMapping} :
    ∀ {l : List Nat}, k ∈ l → l.Nodup →
      (l.flatMap (Function.update f k (x :: f k))).Perm (x :: l.flatMap f)
  | j :: l, hk, hn => by
    rw [List.nodup_cons] at hn
    by_cases hj : j = k
    · subst hj
      have hl : l.flatMap (Function.update f j (x :: f j)) = l.flatMap f :=
        List.flatMap_congr fun i hi => Function.update_noteq (fun (h : i = j) => hn.1 (h ▸ hi)) _ _
      simp [hl]
    · have hk' : k ∈ l := (List.mem_cons.mp hk).resolve_left (Ne.symm hj)
      simp only [List.flatMap_cons, Function.update_noteq hj]
      exact ((flatMap_update_cons hk' hn.2).append_left _).trans List.perm_middle

theorem deferred_linkFirst : (deferred (linkFirst path hf st inum s)).Perm
    (⟨st.stDev, st.stIno, inum, 1, path, st, hf⟩ :: deferred s) :=
  flatMap_update_cons (List.mem_range.mpr (Nat.mod_lt _ (by decide))) (List.nodup_range _)

theorem deferred_linkAgain (st : Stat) (s : Mkfs) :
    (deferred (linkAgain st s)).map (·.useInum) = (deferred s).map (·.useInum) := by
  unfold deferred linkAgain
  simp only [List.map_flatMap]
  refine List.flatMap_congr fun i _ => ?_
  by_cases hi : i = st.stIno % hashTableSize
  · subst hi
    simp only [Function.update_same, List.map_map]
    refine List.map_congr_left fun im _ => ?_
    simp only [Function.comp, bumpLink]
    split <;> rfl
  · rw [Function.update_noteq hi]

/-- A link found again gives its number back, which the counter had just moved past; a file
counted for the first time parks the number it took in the table. -/
theorem linkInumMapping_grows {r : Nat} {s' : Mkfs}
    (h : (linkInumMapping path hf st (s.highestInum + 1)).run { s with highestInum := s.highestInum + 1 } =
      .ok (r, s')) : Grows Mkfs.inums [] s s' := by
  rcases linkInumMapping_ok h with ⟨-, -, rfl⟩ | ⟨_, -, -, rfl⟩
  · refine ⟨Nat.le_succ _, ?_⟩
    have hd : (deferred (linkFirst path hf st (s.highestInum + 1) { s with highestInum := s.highestInum + 1 })).Perm
        (⟨st.stDev, st.stIno, s.highestInum + 1, 1, path, st, hf⟩ :: deferred s) := deferred_linkFirst
    have hh : (linkFirst path hf st (s.highestInum + 1) { s with highestInum := s.highestInum + 1 }).highestInum -
        s.highestInum = 1 := Nat.add_sub_cancel_left _ _
    rw [hh, List.nil_append, List.range'_one, List.map_singleton]
    unfold Mkfs.inums
    refine ((hd.map _).append_left _).trans ?_
    rw [List.append_assoc]
    exact List.Perm.append_left _ (List.perm_append_singleton _ _).symm
  · refine Grows.frame ?_ (Nat.add_sub_cancel _ _)
    have := congrArg (List.map (· % 2 ^ 32)) (deferred_linkAgain st { s with highestInum := s.highestInum + 1 })
    simp only [List.map_map] at this
    exact congrArg (inoInums s.nodes ++ ·) this

end Table

/-! ### The walk -/

section Walk
variable {e : Env}

theorem addNonDir_grows {path : Bytes} {hf : HostFile} {st : Stat} {fctx : Option Bytes} {s s' : Mkfs}
    {r : Nat × Nat}
    (h : (addNonDir e path hf (s.highestInum + 1) 0 st fctx).run { s with highestInum := s.highestInum + 1 } =
      .ok (r, s')) : Grows Mkfs.inums [] s s' := by
  rcases (addNonDir_ok h).2 with ⟨-, -, h₁⟩ | ⟨-, -, h₁⟩
  · exact linkInumMapping_grows h₁
  · exact Grows.of_next ((addNonDirNodes_grows h₁).withTable (addNonDirNodes_hashTable h₁)) rfl rfl

/-- The walk writes the inode of each directory it enters, and every number it takes ends up
written or parked: add_directory adds its own number, its readdir loop nothing else. -/
theorem walk_grows :
    (∀ dirName hf dirInum st existing fctx s s',
      (addDirectory e dirName hf dirInum st existing fctx).run s = .ok ((), s') →
      Grows Mkfs.inums [dirInum] s s') ∧
    (∀ dirName dirInum fctx entries size nlink res s s',
      (addEntries e dirName dirInum fctx entries size nlink).run s = .ok (res, s') →
      Grows Mkfs.inums [] s s') := by
  have hc : WalkCases e (fun _ _ dirInum _ _ _ s s' => Grows Mkfs.inums [dirInum] s s')
      (fun _ _ _ _ _ _ _ s s' => Grows Mkfs.inums [] s s') := by
    refine ⟨?_, Grows.refl, fun _ h => h, ?_, ?_⟩
    · intro dirName hf dirInum st existing fctx s s₁ s' r hr h₁
      have hd : Grows Mkfs.inums [dirInum] s₁ s' := by
        unfold addDirInode at h₁
        exact ((addInode_grows h₁).withTable (addInode_hashTable h₁)).of_eq s₁ rfl rfl
      have he : Grows Mkfs.inums [] s s₁ := by
        cases existing
        · simp only [Bool.false_eq_true, if_false] at hr
          rw [hr.2]
          exact Grows.refl.of_eq s rfl rfl
        · exact hr.of_eq s rfl rfl
      exact he.trans hd
    · intro _ _ _ _ _ _ _ _ _ _ _ _ _ _ _ _ h₁ h₂ h₃
      exact ((h₁.of_next rfl rfl).trans (addDentNode_grows h₂)).trans h₃
    · intro _ _ _ _ _ _ _ _ _ _ _ _ _ _ _ _ _ h₁ h₂ h₃
      exact ((addNonDir_grows h₁).trans (addDentNode_grows h₂)).trans h₃
  exact hc.sound

theorem LinkedRuns.grows {chain : List InumMapping} {s s' : Mkfs} (h : LinkedRuns e chain s s')
    (hc : ∀ im ∈ chain, 0 < im.useNlink) : Grows Mkfs.inoNums (chain.map (·.useInum)) s s' := by
  induction h with
  | nil => exact Grows.refl
  | @cons im rest s s₁ s' r h₁ _ ih =>
    rcases (addNonDir_ok h₁).2 with ⟨hz, -⟩ | ⟨-, -, h₂⟩
    · exact absurd hz (Nat.pos_iff_ne_zero.mp (hc im (List.mem_cons_self _ _)))
    · show Grows _ ([im.useInum] ++ rest.map (·.useInum)) s s'
      exact ((addNonDirNodes_grows h₂).of_eq s rfl rfl).trans (ih fun im' hm => hc im' (List.mem_cons_of_mem _ hm))

end Walk

/-! ### write_data -/

section WriteData
variable {e : Env} {root : Option HostFile} {now : Int} {s' : Mkfs}

theorem init_inums (c : Info) : (Mkfs.init c).inums = [] := by
  rw [Mkfs.inums, show deferred (Mkfs.init c) = [] from List.flatMap_eq_nil_iff.mpr fun _ _ => rfl]
  rfl

/-- write_data from init writes an inode for the root and for every number the counter moved
past, each once, and nothing else: the inode numbers written are 1 and UBIFS_FIRST_INO + 1 up to
c->highest_inum, as 32-bit key words. -/
theorem writeData_inoNums (h : (writeData e root now).run (Mkfs.init e.info) = .ok ((), s')) :
    ubifsFirstIno ≤ s'.highestInum ∧ s'.inoNums.Perm
      ((ubifsRootIno :: List.range' (ubifsFirstIno + 1) (s'.highestInum - ubifsFirstIno)).map (· % 2 ^ 32)) := by
  obtain ⟨s₁, s₂, h₁, h₂, rfl⟩ := writeData_ok h
  rw [addRootDirectory_run] at h₁
  have g₁ := (walk_grows.1 _ _ _ _ _ _ _ _ h₁).of_eq (Mkfs.init e.info) rfl rfl
  have ht₁ : TableOk s₁ := addDirectory_tableOk h₁ fun _ _ hi => by simp [Mkfs.init] at hi
  obtain ⟨hr, ht⟩ := addMultiLinkedFiles_ok ht₁ h₂
  have g₂ := hr.grows fun im hm => by
    obtain ⟨i, -, hi⟩ := List.mem_flatMap.mp hm
    exact ht₁ i im hi
  have hi : s₂.inums = s₂.inoNums ++ (deferred s₁).map fun im => im.useInum % 2 ^ 32 := by
    rw [Mkfs.inums, deferred, deferred, ht]
  have g := g₁.trans (g₂.withTable ht)
  have hI : (Mkfs.init e.info).highestInum = ubifsFirstIno := rfl
  have hp := g.perm
  rw [init_inums, List.nil_append, hi, hI] at hp
  refine ⟨hI ▸ g.mono, ?_⟩
  show (inoInums (Mkfs.nodes { s₂ with flash := flushNodes e.info s₂.flash })).Perm _
  have hn : Mkfs.nodes { s₂ with flash := flushNodes e.info s₂.flash } = s₂.nodes := by
    simp [Mkfs.nodes]
  rw [hn]
  -- the parked numbers were written: cancel them from both sides
  refine (List.perm_append_right_iff (List.map (fun im : InumMapping => im.useInum % 2 ^ 32) (deferred s₁))).mp
    (hp.trans ?_)
  simp only [List.map_append, List.map_map, List.map_cons, List.map_nil, List.singleton_append, List.cons_append,
    List.nil_append, Function.comp_def]
  exact List.Perm.cons _ List.perm_append_comm

end WriteData

/-! ### The image -/

section Mkfs
variable {e : Env} {root : Option HostFile} {now : Int} {uuid : Bytes} {s' : Mkfs}

theorem inoInums_of_not_ino {ns : List Node} (h : ∀ n ∈ ns, ∀ i, n.body ≠ .ino i) : inoInums ns = [] :=
  List.filterMap_eq_nil_iff.mpr fun n hn => by
    unfold Node.inoNum?
    split
    · exact absurd ‹_› (h n hn _)
    · rfl

/-- The stages after write_data write no inode, and both copies of the master node record the
counter write_data left. -/
theorem mkfs_inoNums (h : (mkfs e root now uuid).run (Mkfs.init e.info) = .ok ((), s')) :
    ∃ s₁ mst, (writeData e root now).run (Mkfs.init e.info) = .ok ((), s₁) ∧
      s'.inoNums = s₁.inoNums ∧ s'.highestInum = s₁.highestInum ∧
      (∃ n ∈ s'.nodes, n.body = .mst mst) ∧ mst.highestInum = s₁.highestInum ∧
      ∀ n ∈ s'.nodes, ∀ m, n.body = .mst m → m = mst := by
  obtain ⟨s₁, W, mst, sup, sig, h₁, hl, hW, -, hm, hi, hn⟩ := mkfs_image h
  have hw : inoInums W = [] := inoInums_of_not_ino fun n hn i hi => by
    obtain ⟨x, hx⟩ := hW n hn
    rw [hx] at hi
    cases hi
  refine ⟨s₁, mst, h₁, ?_, hi, ⟨⟨s₁.maxSqnum + W.length + 1, ubifsMstNodeSz, .mst mst⟩, by simp [hn], rfl⟩, hm,
    fun n hn' m hm' => ?_⟩
  · rw [Mkfs.inoNums, hn, inoInums_append, inoInums_append, hw]
    exact (List.append_nil _).trans (List.append_nil _)
  · rw [hn] at hn'
    simp only [List.mem_append, List.mem_cons, List.not_mem_nil, or_false] at hn'
    rcases hn' with (hn' | hn') | hn'
    · have := hl n hn'
      rw [hm'] at this
      cases this
    · obtain ⟨x, hx⟩ := hW n hn'
      rw [hm'] at hx
      cases hx
    · rcases hn' with rfl | rfl | rfl | rfl | rfl <;> cases hm' <;> rfl

/-- A successful mkfs below 2^32 inodes: c->highest_inum is at least UBIFS_FIRST_INO, the inode
nodes carry pairwise distinct numbers, which are 1 and UBIFS_FIRST_INO + 1 up to c->highest_inum,
and the master node records c->highest_inum. -/
theorem mkfs_inums (h : (mkfs e root now uuid).run (Mkfs.init e.info) = .ok ((), s'))
    (hlt : s'.highestInum < 2 ^ 32) :
    ubifsFirstIno ≤ s'.highestInum ∧ s'.inoNums.Nodup ∧
      (∀ i, i ∈ s'.inoNums ↔ i = ubifsRootIno ∨ ubifsFirstIno < i ∧ i ≤ s'.highestInum) ∧
      ∃ mst, (∃ n ∈ s'.nodes, n.body = .mst mst) ∧ mst.highestInum = s'.highestInum ∧
        ∀ n ∈ s'.nodes, ∀ m, n.body = .mst m → m = mst := by
  obtain ⟨s₁, mst, h₁, hs, hi, hmst, hm, hu⟩ := mkfs_inoNums h
  obtain ⟨hle, hp⟩ := writeData_inoNums h₁
  rw [hs]
  rw [hi] at hlt ⊢
  -- below 2^32 every number is its own key word
  have hmod : ((ubifsRootIno :: List.range' (ubifsFirstIno + 1) (s₁.highestInum - ubifsFirstIno)).map
      (· % 2 ^ 32)) = ubifsRootIno :: List.range' (ubifsFirstIno + 1) (s₁.highestInum - ubifsFirstIno) := by
    refine (List.map_congr_left fun i hi => Nat.mod_eq_of_lt ?_).trans (List.map_id _)
    rcases List.mem_cons.mp hi with rfl | hi
    · decide
    · have := (List.mem_range'_1.mp hi).2
      omega
  rw [hmod] at hp
  refine ⟨hle, hp.nodup_iff.mpr (List.nodup_cons.mpr ⟨fun hr => ?_, List.nodup_range' _ _⟩), fun i => ?_,
    mst, hmst, hm, hu⟩
  · have := (List.mem_range'_1.mp hr).1
    simp [ubifsRootIno, ubifsFirstIno] at this
  · rw [hp.mem_iff, List.mem_cons, List.mem_range'_1]
    omega

theorem mkfs_smallEnv_none :
    ∃ s', (mkfs smallEnv none 0 []).run (Mkfs.init smallEnv.info) = .ok ((), s') ∧
      ∃ s₁, (writeData smallEnv none 0).run (Mkfs.init smallEnv.info) = .ok ((), s₁) ∧
        s₁.highestInum = ubifsFirstIno := by
  obtain ⟨s₁, h₁, hx, ho, hl, hi⟩ : ∃ s₁, (writeData smallEnv none 0).run (Mkfs.init smallEnv.info) = .ok ((), s₁) ∧
      s₁.idxList.length = 1 ∧ s₁.flash.headOffs = 0 ∧ s₁.flash.headLnum = 9 ∧ s₁.highestInum = ubifsFirstIno :=
    ⟨_, by
      unfold writeData
      rw [run_bind_of_ok run_onFlash, run_bind_of_ok (by rw [addRootDirectory, addDirectory.eq_1]; rfl),
        run_bind_of_ok (addMultiLinkedFiles_empty fun _ => rfl)]
      rfl, by decide, by decide, by decide, rfl⟩
  obtain ⟨s₂, h₂, hx₂, ho₂, hl₂⟩ : ∃ s₂, (setGcLnum smallEnv.info).run s₁ = .ok ((), s₂) ∧
      s₂.idxList.length = 1 ∧ s₂.flash.headOffs = 0 ∧ s₂.flash.headLnum = 10 :=
    ⟨_, setGcLnum_run, hx, ho, congrArg (· + 1) hl⟩
  have hp : HeadOk smallEnv.info s₂.flash.head := ⟨by simp [Flash.head, ho₂], by simp [Flash.head, ho₂]⟩
  obtain ⟨s₃, h₃, hl₃⟩ := writeIndex_one_node (by decide) (by rw [hx₂]; decide) (by rw [hx₂]; decide)
    (by rw [hx₂]; decide) hp (by rw [hx₂]; decide)
  rw [Flash.head, ho₂, hl₂, hx₂] at hl₃
  exact ⟨_, by
    unfold mkfs
    rw [run_bind_of_ok h₁, run_bind_of_ok h₂, run_bind_of_ok h₃,
      run_bind_of_ok (finalizeLebCnt_ok.mpr ⟨by rw [hl₃]; decide, rfl⟩),
      run_bind_of_ok (writeLpt_ok.mpr ⟨_, rfl, rfl⟩), run_bind_of_ok (writeMaster_ok.mpr ⟨by decide, rfl⟩),
      run_bind_of_ok (writeSuper_ok.mpr ⟨[], rfl, rfl⟩), run_bind_of_ok (writeLog_ok.mpr ⟨by decide, rfl⟩),
      writeOrphanArea, writeEmptyLebs_run], s₁, h₁, hi⟩

/-! ### A sample tree

The build the claims are about, on a tree that takes every path of the walk: a subdirectory, a
one-link file with data and an extended attribute, and two links of one file, under an
encryption context. Each directory and the file get the context as an attribute, so the counter
hands out numbers to entries and attributes in turn; the second link gives its number back, and
the linked file is written at the end from the table, without a context. -/

/-- The small geometry with room in one index node for the sample tree's leaves. -/
def treeInfo : Info := { smallInfo with fanout := 32, fanout_ge := by decide }

/-- The environment of the sample build: an encrypted image on treeInfo. -/
def treeEnv : Env := { smallEnv with info := treeInfo, encrypted := true, rootFctx := some (ascii "k") }

/-- An empty subdirectory. -/
def sampleSubdir : HostFile := ⟨⟨sIFDIR ||| 0o755, 0, 0, 2, 0, 0, 0, 0, 0, 1, 2⟩, 0, [], [], [], []⟩

/-- A one-byte file with the attribute user.a = "1". -/
def sampleFile : HostFile :=
  ⟨⟨sIFREG ||| 0o644, 0, 0, 1, 1, 0, 0, 0, 0, 1, 3⟩, 0, [(ascii "user.a", ascii "1")], [1], [], []⟩

/-- An empty file with two host links. -/
def sampleLink : HostFile := ⟨⟨sIFREG ||| 0o644, 0, 0, 2, 0, 0, 0, 0, 0, 1, 4⟩, 0, [], [], [], []⟩

/-- The root: the subdirectory d, the file f, and the linked file as h and k. -/
def sampleRoot : HostFile :=
  ⟨⟨sIFDIR ||| 0o755, 0, 0, 3, 0, 0, 0, 0, 0, 1, 1⟩, 0, [], [], [],
    [(ascii "d", sampleSubdir), (ascii "f", sampleFile), (ascii "h", sampleLink), (ascii "k", sampleLink)]⟩

-- The states of the walk stay unreduced terms; smart unfolding would reduce them again for every
-- structural recursion (the attribute loop, the chain search) that reads one.
set_option smartUnfolding false in
/-- write_data on the sample tree, stepped through the walk's equations: 17 leaves, the counter
at 71 (d 65, its context 66, f 67, user.a 68, f's context 69, h 70, k 71 given back, the root's
context 71), and the head at the start of LEB 9 after the last flush. -/
theorem writeData_sampleRoot :
    ∃ s₁, (writeData treeEnv (some sampleRoot) 0).run (Mkfs.init treeEnv.info) = .ok ((), s₁) ∧
      s₁.highestInum = 71 ∧ s₁.idxList.length = 17 ∧ s₁.flash.headLnum = 9 ∧ s₁.flash.headOffs = 0 :=
  ⟨_, writeData_run (fun _ _ h => nomatch h)
    ((congrArg (StateT.run · _) addRootDirectory_run).trans <| addDirectory_run
      (addEntries_dir_run (by decide) (by decide) (addDirectory_run addEntries_nil_run (by rfl)) (by rfl) <|
        addEntries_nonDir_run (by decide) (by decide)
          (by exact addNonDir_run (by decide) (by rfl) <| addFile_run
                ((congrArg (StateT.run · _) (addFileBlocks_short (by decide) (by decide) (by decide))).trans
                  (by rfl)) (by rfl)) (by rfl) <|
        addEntries_nonDir_run (by decide) (by decide) (by rfl) (by rfl) <|
        addEntries_nonDir_run (by decide) (by decide) (by rfl) (by rfl) addEntries_nil_run)
      (by rfl)) (by
      exact LinkedRuns.of_bucket (b := 4) (l := [⟨1, 4, 70, 2, ascii "/r/h", sampleLink.st, sampleLink⟩])
        (by decide) ((show _ = Function.update (Function.update (fun _ => ([] : List InumMapping)) 4
          [⟨1, 4, 70, 1, ascii "/r/h", sampleLink.st, sampleLink⟩]) 4
          [⟨1, 4, 70, 2, ascii "/r/h", sampleLink.st, sampleLink⟩] from rfl).trans (Function.update_idem _ _ _))
        (.cons (addNonDir_run (by decide) (by rfl) <| addFile_run
          ((congrArg (StateT.run · _) addFileBlocks_empty).trans (by rfl)) (by rfl)) .nil)),
    by decide, by decide, by decide, by decide⟩

set_option smartUnfolding false in
/-- The walk of the sample root alone: 16 nodes, the root's inode the last of them. -/
theorem addDirectory_sampleRoot :
    ∃ s', (addDirectory treeEnv treeEnv.rootPath sampleRoot ubifsRootIno (entryStat treeEnv sampleRoot) true
      treeEnv.rootFctx).run (Mkfs.init treeEnv.info) = .ok ((), s') ∧ s'.nodes.length = 16 :=
  ⟨_, addDirectory_run
    (addEntries_dir_run (by decide) (by decide) (addDirectory_run addEntries_nil_run (by rfl)) (by rfl) <|
      addEntries_nonDir_run (by decide) (by decide)
        (by exact addNonDir_run (by decide) (by rfl) <| addFile_run
              ((congrArg (StateT.run · _) (addFileBlocks_short (by decide) (by decide) (by decide))).trans
                (by rfl)) (by rfl)) (by rfl) <|
      addEntries_nonDir_run (by decide) (by decide) (by rfl) (by rfl) <|
      addEntries_nonDir_run (by decide) (by decide) (by rfl) (by rfl) addEntries_nil_run)
    (by rfl), by decide⟩

/-- mkfs on the sample tree succeeds, with c->highest_inum at 71. -/
theorem mkfs_sampleRoot :
    ∃ s', (mkfs treeEnv (some sampleRoot) 0 []).run (Mkfs.init treeEnv.info) = .ok ((), s') ∧
      s'.highestInum = 71 := by
  obtain ⟨s₁, h₁, hi, hx, hl, ho⟩ := writeData_sampleRoot
  obtain ⟨s₂, h₂, hx₂, ho₂, hl₂⟩ : ∃ s₂, (setGcLnum treeEnv.info).run s₁ = .ok ((), s₂) ∧
      s₂.idxList.length = 17 ∧ s₂.flash.headOffs = 0 ∧ s₂.flash.headLnum = 10 :=
    ⟨_, setGcLnum_run, hx, ho, congrArg (· + 1) hl⟩
  have hp : HeadOk treeEnv.info s₂.flash.head := ⟨by simp [Flash.head, ho₂], by simp [Flash.head, ho₂]⟩
  obtain ⟨s₃, h₃, hl₃⟩ := writeIndex_one_node (by decide) (by rw [hx₂]; decide) (by rw [hx₂]; decide)
    (by rw [hx₂]; decide) hp (by rw [hx₂]; decide)
  rw [Flash.head, ho₂, hl₂, hx₂] at hl₃
  obtain ⟨s', h⟩ : ∃ s', (mkfs treeEnv (some sampleRoot) 0 []).run (Mkfs.init treeEnv.info) = .ok ((), s') :=
    ⟨_, by
      unfold mkfs
      rw [run_bind_of_ok h₁, run_bind_of_ok h₂, run_bind_of_ok h₃,
        run_bind_of_ok (finalizeLebCnt_ok.mpr ⟨by rw [hl₃]; decide, rfl⟩),
        run_bind_of_ok (writeLpt_ok.mpr ⟨_, rfl, rfl⟩), run_bind_of_ok (writeMaster_ok.mpr ⟨by decide, rfl⟩),
        run_bind_of_ok (writeSuper_ok.mpr ⟨[], rfl, rfl⟩), run_bind_of_ok (writeLog_ok.mpr ⟨by decide, rfl⟩),
        writeOrphanArea, writeEmptyLebs_run]⟩
  obtain ⟨t, -, ht, -, hti, -⟩ := mkfs_inoNums h
  exact ⟨s', h, hti.trans ((Prod.mk.inj (Except.ok.inj (ht.symm.trans h₁))).2 ▸ hi)⟩

theorem mkfs_inums_sampleRoot :
    ∃ s', (mkfs treeEnv (some sampleRoot) 0 []).run (Mkfs.init treeEnv.info) = .ok ((), s') ∧
      s'.highestInum < 2 ^ 32 ∧ ubifsFirstIno ≤ s'.highestInum ∧ s'.inoNums.Nodup ∧
      (∀ i, i ∈ s'.inoNums ↔ i = ubifsRootIno ∨ ubifsFirstIno < i ∧ i ≤ s'.highestInum) ∧
      ∃ mst, (∃ n ∈ s'.nodes, n.body = .mst mst) ∧ mst.highestInum = s'.highestInum ∧
        ∀ n ∈ s'.nodes, ∀ m, n.body = .mst m → m = mst :=
  let ⟨s', h, hi⟩ := mkfs_sampleRoot
  have hlt : s'.highestInum < 2 ^ 32 := hi ▸ by decide
  ⟨s', h, hlt, mkfs_inums h hlt⟩

/-- Without -r the tree is the root alone: its inode is the only one written, while the master
node records c->highest_inum, still UBIFS_FIRST_INO, which is no inode's number. -/
theorem mkfs_empty_root_master_highest :
    ∃ s', (mkfs smallEnv none 0 []).run (Mkfs.init smallEnv.info) = .ok ((), s') ∧
      s'.inoNums = [ubifsRootIno] ∧ ∃ mst, (∃ n ∈ s'.nodes, n.body = .mst mst) ∧ mst.highestInum = ubifsFirstIno := by
  obtain ⟨s', h, s₁, h₁, hi⟩ := mkfs_smallEnv_none
  obtain ⟨t, mst, ht, hs, -, hmst, hm, -⟩ := mkfs_inoNums h
  obtain rfl : t = s₁ := (Prod.mk.inj (Except.ok.inj (ht.symm.trans h₁))).2
  have hp := (writeData_inoNums h₁).2
  rw [hi, Nat.sub_self, List.range'_zero] at hp
  exact ⟨s', h, hs.trans (List.perm_singleton.mp hp), mst, hmst, hm.trans hi⟩

end Mkfs

end MkfsUbifs

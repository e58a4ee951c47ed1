import MkfsUbifs.Inums

/-! # Creation sqnums

max_sqnum serves two purposes. add_node takes its next value as the sqnum of each node it writes.
add_directory, add_non_dir and add_xattr take its next value as the creation sqnum of the inode
they are about to write. The creation sqnum is kept in one global, creat_sqnum, which add_inode
copies into the inode node it fills. add_xattr overwrites the global while add_inode adds the
host's attributes. The children of a directory overwrite it while add_directory reads the
directory, and add_directory puts back the value it took on entry before it writes the inode.
This file follows the counter through the walk. The values a run hands out are, as a multiset,
the sqnums of the nodes it writes and the creation sqnums of their inodes, and each inode is
written after its creation sqnum was taken. So in the image of a successful mkfs the sqnums and
creation sqnums are 1, 2, ... each once, and a directory's creation sqnum is below every value
the nodes written for its children carry. -/

namespace MkfsUbifs

/-! ### The values a node carries -/

/-- The creation sqnum a node body records: an inode's. -/
def NodeBody.creat? : NodeBody → Option Nat
  | .ino i => some i.creatSqnum
  | _ => none

/-- The values of max_sqnum a node carries: its sqnum, and an inode's creation sqnum. -/
def Node.stamps (n : Node) : List Nat := n.sqnum :: n.body.creat?.toList

/-- The values of max_sqnum the nodes ns carry, in order. -/
def stampsOf (ns : List Node) : List Nat := ns.flatMap Node.stamps

/-- The values max_sqnum handed out from s to s'. -/
def sqnumsTaken (s s' : Mkfs) : List Nat := List.range' (s.maxSqnum + 1) (s'.maxSqnum - s.maxSqnum)

/-- Every inode among ns was written after its creation sqnum was taken. -/
def CreatedFirst (ns : List Node) : Prop := ∀ n ∈ ns, ∀ i, n.body = .ino i → i.creatSqnum < n.sqnum

/-- A run from s to s' that wrote the nodes N: each value max_sqnum handed out is carried by
exactly one of them, as a sqnum or as a creation sqnum, and each inode among them was created
before it was written. -/
structure Stamped (s s' : Mkfs) (N : List Node) : Prop where
  nodes : s'.nodes = s.nodes ++ N
  le : s.maxSqnum ≤ s'.maxSqnum
  perm : (stampsOf N).Perm (sqnumsTaken s s')
  created : CreatedFirst N

/-- A run from s to s' that wrote the nodes N and was given the creation sqnum c, taken before
it: the values handed out and c are carried by N, each once, and each inode among N was created
before it was written. -/
structure StampedFrom (c : Nat) (s s' : Mkfs) (N : List Node) : Prop where
  nodes : s'.nodes = s.nodes ++ N
  lt : s.maxSqnum < s'.maxSqnum
  perm : (stampsOf N).Perm (c :: sqnumsTaken s s')
  created : CreatedFirst N

@[simp] theorem stampsOf_nil : stampsOf [] = [] := rfl

@[simp] theorem stampsOf_cons {n : Node} {ns : List Node} : stampsOf (n :: ns) = n.stamps ++ stampsOf ns :=
  List.flatMap_cons _ _ _

@[simp] theorem stampsOf_append {l₁ l₂ : List Node} : stampsOf (l₁ ++ l₂) = stampsOf l₁ ++ stampsOf l₂ :=
  List.flatMap_append _ _ _

theorem stampsOf_of_none {ns : List Node} (h : ∀ n ∈ ns, n.body.creat? = none) :
    stampsOf ns = ns.map Node.sqnum := by
  induction ns with
  | nil => rfl
  | cons n ns ih =>
    rw [stampsOf_cons, Node.stamps, h n (List.mem_cons_self _ _),
      ih fun n hn => h n (List.mem_cons_of_mem _ hn)]
    rfl

theorem createdFirst_of_none {ns : List Node} (h : ∀ n ∈ ns, n.body.creat? = none) : CreatedFirst ns :=
  fun n hn i hi => by
    have := h n hn
    rw [hi] at this
    cases this

theorem CreatedFirst.append {l₁ l₂ : List Node} (h₁ : CreatedFirst l₁) (h₂ : CreatedFirst l₂) :
    CreatedFirst (l₁ ++ l₂) :=
  fun n hn => (List.mem_append.mp hn).elim (h₁ n) (h₂ n)

theorem perm_range'_append {A B : List Nat} {a m n : Nat} (hA : A.Perm (List.range' a m))
    (hB : B.Perm (List.range' (a + m) n)) : (A ++ B).Perm (List.range' a (m + n)) := by
  rw [Nat.add_comm m n, ← List.range'_append_1]
  exact hA.append hB

/-! ### What the counter hands out -/

section Taken
variable {s s₁ s' t : Mkfs}

theorem sqnumsTaken_of_eq (h : s'.maxSqnum = s.maxSqnum) : sqnumsTaken s s' = [] := by
  simp [sqnumsTaken, h]

theorem sqnumsTaken_add {k : Nat} (h : s'.maxSqnum = s.maxSqnum + k) :
    sqnumsTaken s s' = List.range' (s.maxSqnum + 1) k := by
  rw [sqnumsTaken, h, Nat.add_sub_cancel_left]

theorem sqnumsTaken_congr (h : t.maxSqnum = s.maxSqnum) : sqnumsTaken t s' = sqnumsTaken s s' := by
  rw [sqnumsTaken, sqnumsTaken, h]

theorem sqnumsTaken_append (h₁ : s.maxSqnum ≤ s₁.maxSqnum) (h₂ : s₁.maxSqnum ≤ s'.maxSqnum) :
    sqnumsTaken s s₁ ++ sqnumsTaken s₁ s' = sqnumsTaken s s' := by
  unfold sqnumsTaken
  rw [show s₁.maxSqnum + 1 = s.maxSqnum + 1 + (s₁.maxSqnum - s.maxSqnum) by omega, List.range'_append_1]
  congr 1
  omega

theorem sqnumsTaken_next (ht : t.maxSqnum = s.maxSqnum + 1) (h : t.maxSqnum ≤ s'.maxSqnum) :
    (s.maxSqnum + 1) :: sqnumsTaken t s' = sqnumsTaken s s' := by
  unfold sqnumsTaken
  rw [ht, show s'.maxSqnum - s.maxSqnum = s'.maxSqnum - (s.maxSqnum + 1) + 1 by omega, List.range'_succ]

end Taken

section Runs
variable {c : Nat} {s s₁ s' t : Mkfs} {N N₁ N₂ : List Node}

theorem Stamped.same (hn : s'.nodes = s.nodes) (hm : s'.maxSqnum = s.maxSqnum) : Stamped s s' [] :=
  ⟨by rw [hn, List.append_nil], hm.ge, by rw [sqnumsTaken_of_eq hm]; exact .nil,
    fun _ hn => absurd hn (List.not_mem_nil _)⟩

theorem Stamped.trans (h₁ : Stamped s s₁ N₁) (h₂ : Stamped s₁ s' N₂) : Stamped s s' (N₁ ++ N₂) :=
  ⟨by rw [h₂.nodes, h₁.nodes, List.append_assoc], h₁.le.trans h₂.le,
    by rw [stampsOf_append, ← sqnumsTaken_append h₁.le h₂.le]; exact h₁.perm.append h₂.perm,
    h₁.created.append h₂.created⟩

theorem Stamped.restart (h : Stamped t s' N) (hn : t.nodes = s.nodes) (hm : t.maxSqnum = s.maxSqnum) :
    Stamped s s' N :=
  ⟨by rw [h.nodes, hn], hm ▸ h.le, by rw [← sqnumsTaken_congr hm]; exact h.perm, h.created⟩

/-- A run, then one given a creation sqnum from before both, from a state with the same nodes
and counter. -/
theorem Stamped.then (h₁ : Stamped s s₁ N₁) (h₂ : StampedFrom c t s' N₂) (hn : t.nodes = s₁.nodes)
    (hm : t.maxSqnum = s₁.maxSqnum) : StampedFrom c s s' (N₁ ++ N₂) := by
  have hlt := h₂.lt
  have hle := h₁.le
  refine ⟨by rw [h₂.nodes, hn, h₁.nodes, List.append_assoc], by omega, ?_, h₁.created.append h₂.created⟩
  rw [stampsOf_append, ← sqnumsTaken_append h₁.le (by omega : s₁.maxSqnum ≤ s'.maxSqnum)]
  have hp := h₂.perm
  rw [sqnumsTaken_congr hm] at hp
  exact (h₁.perm.append hp).trans List.perm_middle

theorem StampedFrom.taken (h : StampedFrom (s.maxSqnum + 1) t s' N) (hn : t.nodes = s.nodes)
    (hm : t.maxSqnum = s.maxSqnum + 1) : Stamped s s' N := by
  have hlt := h.lt
  exact ⟨by rw [h.nodes, hn], by omega, by rw [← sqnumsTaken_next hm (by omega)]; exact h.perm, h.created⟩

/-- When a run's first value went to the creation sqnum of the last node it wrote, that creation
sqnum is below the node's own sqnum and below every value the nodes before it carry. -/
theorem Stamped.creat_first {q len : Nat} {i : InoNode} (h : Stamped s s' (N ++ [⟨q, len, .ino i⟩]))
    (hi : i.creatSqnum = s.maxSqnum + 1) : i.creatSqnum < q ∧ ∀ x ∈ stampsOf N, i.creatSqnum < x := by
  have hp := h.perm
  rw [stampsOf_append, stampsOf_cons, stampsOf_nil, List.append_nil] at hp
  change (stampsOf N ++ [q, i.creatSqnum]).Perm _ at hp
  obtain ⟨-, hqc, hdis⟩ := List.nodup_append.mp (hp.nodup_iff.mpr (List.nodup_range' _ _))
  have hlo : ∀ x ∈ stampsOf N ++ [q, i.creatSqnum], i.creatSqnum ≤ x := fun x hx =>
    hi ▸ (List.mem_range'_1.mp (hp.subset hx)).1
  refine ⟨lt_of_le_of_ne (hlo q (by simp)) fun he => ?_,
    fun x hx => lt_of_le_of_ne (hlo x (by simp [hx])) fun he => hdis hx (by simp [he])⟩
  exact (List.nodup_cons.mp hqc).1 (by simp [he])

end Runs

/-! ### The emitters -/

section Emitters
variable {e : Env} {st : Stat} {inum flags : Nat} {s s₁ s' : Mkfs} {u : Unit}

theorem addNode_stamped {c : Info} {key : Key} {name : Option Bytes} {body : NodeBody} {len : Nat}
    (h : (addNode c key name body len).run s = .ok (u, s')) (hb : body.creat? = none) :
    Stamped s s' [⟨s.maxSqnum + 1, len, body⟩] := by
  obtain ⟨hn, hm, -⟩ := addNode_nodes h
  have hN : ∀ n ∈ [(⟨s.maxSqnum + 1, len, body⟩ : Node)], n.body.creat? = none := fun n hn' => by
    rw [List.mem_singleton.mp hn']
    exact hb
  refine ⟨hn, by omega, ?_, createdFirst_of_none hN⟩
  rw [sqnumsTaken_add (k := 1) hm, stampsOf_of_none hN]
  exact .refl _

theorem Leaves.stamped {ls : List (Key × Option Bytes × NodeBody × Nat)} (h : Leaves e.info ls s s')
    (hl : ∀ l ∈ ls, DataLeaf inum l) : ∃ N, Stamped s s' N := by
  induction h with
  | nil => exact ⟨[], .same rfl rfl⟩
  | @cons key name body len rest s s₁ s' h₁ _ ih =>
    obtain ⟨-, -, dn, -, hb, -⟩ := hl _ (List.mem_cons_self _ _)
    obtain ⟨N, hN⟩ := ih fun l hm => hl l (List.mem_cons_of_mem _ hm)
    exact ⟨_, (addNode_stamped h₁ (by rw [show body = .data dn from hb]; rfl)).trans hN⟩

theorem xattrHosts_creatSqnum {host : InoNode} {xs : List (Bytes × Bytes)} :
    (xattrHosts e host xs).creatSqnum = host.creatSqnum := by
  induction xs generalizing host with
  | nil => rfl
  | cons x rest ih => exact ih

/-- Each attribute carries three values: the creation sqnum of its inode, the sqnum of its
entry, the sqnum of its inode. -/
theorem xattrNodes_stamps (xs : List (Bytes × Bytes)) (h m : Nat) :
    (stampsOf (xattrNodes e st inum xs h m)).Perm (List.range' (m + 1) (3 * xs.length)) ∧
      CreatedFirst (xattrNodes e st inum xs h m) := by
  induction xs generalizing h m with
  | nil => exact ⟨.nil, fun _ hn => absurd hn (List.not_mem_nil _)⟩
  | cons x rest ih =>
    obtain ⟨name, data⟩ := x
    obtain ⟨hp, hc⟩ := ih (h + 1) (m + 3)
    refine ⟨?_, ?_⟩
    · rw [List.length_cons, show 3 * (rest.length + 1) = 3 * rest.length + 3 by omega, ← List.range'_append_1]
      show List.Perm (([m + 2, m + 3] ++ [m + 1]) ++ stampsOf (xattrNodes e st inum rest (h + 1) (m + 3)))
        (([m + 1] ++ [m + 2, m + 3]) ++ List.range' (m + 3 + 1) (3 * rest.length))
      exact List.perm_append_comm.append hp
    · intro n hn i hi
      rcases List.mem_cons.mp hn with rfl | hn
      · cases hi
      rcases List.mem_cons.mp hn with rfl | hn
      · cases hi
        show m + 1 < m + 3
        omega
      exact hc n hn i hi

theorem inodeNodes_stamps {d : Bytes} {xattrPath : Option (Bytes × List (Bytes × Bytes))}
    {fctx : Option Bytes} (h m creat : Nat) :
    (stampsOf (inodeNodes e st inum d flags xattrPath fctx h m creat)).Perm
        (creat :: List.range' (m + 1) (3 * (inodeXattrs e st xattrPath fctx).length + 1)) ∧
      (creat ≤ m → CreatedFirst (inodeNodes e st inum d flags xattrPath fctx h m creat)) := by
  set k := (inodeXattrs e st xattrPath fctx).length
  obtain ⟨hp, hc⟩ := @xattrNodes_stamps e st inum (inodeXattrs e st xattrPath fctx) h m
  have hcreat : (xattrHosts e (inodeBase e st inum d flags fctx creat) (inodeXattrs e st xattrPath fctx)).creatSqnum =
      creat := xattrHosts_creatSqnum
  refine ⟨?_, fun hle => hc.append fun n hn i hi => ?_⟩
  · rw [inodeNodes, stampsOf_append, stampsOf_cons, stampsOf_nil, List.append_nil, Node.stamps]
    simp only [NodeBody.creat?, hcreat, Option.toList_some]
    rw [List.range'_1_concat, show m + 1 + 3 * k = m + 3 * k + 1 by omega,
      show ∀ A : List Nat, A ++ [m + 3 * k + 1, creat] = A ++ [m + 3 * k + 1] ++ [creat] by simp]
    exact (List.perm_append_singleton _ _).trans ((hp.append_right _).cons _)
  · obtain rfl := List.mem_singleton.mp hn
    cases hi
    rw [hcreat]
    exact (by omega : creat < m + 3 * k + 1)

/-- add_inode, from a creation sqnum taken before it: its nodes carry that creation sqnum and the
values it hands out. -/
theorem addInode_stamped {data : Bytes} {xattrPath : Option (Bytes × List (Bytes × Bytes))}
    {fctx : Option Bytes} (h : (addInode e st inum data flags xattrPath fctx).run s = .ok (u, s'))
    (hc : s.creatSqnum ≤ s.maxSqnum) :
    ∃ d, StampedFrom s.creatSqnum s s' (inodeNodes e st inum d flags xattrPath fctx s.highestInum s.maxSqnum s.creatSqnum) := by
  obtain ⟨d, -, hn, hm, -⟩ := addInode_nodes h
  obtain ⟨hp, hc'⟩ := @inodeNodes_stamps e st inum flags d xattrPath fctx s.highestInum s.maxSqnum s.creatSqnum
  exact ⟨d, hn, by omega, by rw [sqnumsTaken_add (k := 3 * (inodeXattrs e st xattrPath fctx).length + 1) (by omega)]; exact hp,
    hc' hc⟩

theorem addNonDirNodes_stamped {path : Bytes} {hf : HostFile} {fctx : Option Bytes}
    (h : (addNonDirNodes e path hf st inum flags fctx).run s = .ok (u, s')) (hc : s.creatSqnum ≤ s.maxSqnum) :
    ∃ N, StampedFrom s.creatSqnum s s' N := by
  obtain ⟨-, ls, s₁, hls, hd, -, hi⟩ := addNonDirNodes_ok h
  obtain ⟨N₁, h₁⟩ := hls.stamped hd
  obtain ⟨-, -, -, hc₁⟩ := hls.nodes
  obtain ⟨d, h₂⟩ := addInode_stamped hi (by rw [hc₁]; exact hc.trans h₁.le)
  rw [hc₁] at h₂
  exact ⟨_, h₁.then h₂ rfl rfl⟩

/-- add_non_dir: the link-counting branch writes nothing and takes no sqnum; otherwise the
creation sqnum it takes is carried by the inode it writes. -/
theorem addNonDir_stamped {path : Bytes} {hf : HostFile} {nlink : Nat} {fctx : Option Bytes} {r : Nat × Nat}
    (h : (addNonDir e path hf inum nlink st fctx).run s = .ok (r, s')) : ∃ N, Stamped s s' N := by
  rcases (addNonDir_ok h).2 with ⟨-, -, h₁⟩ | ⟨-, -, h₁⟩
  · obtain ⟨hn, hm⟩ := linkInumMapping_nodes h₁
    exact ⟨[], .same hn hm⟩
  · obtain ⟨N, hN⟩ := addNonDirNodes_stamped h₁ le_rfl
    exact ⟨N, hN.taken rfl rfl⟩

theorem addDentNode_stamped {dirInum type klen : Nat} {name : Bytes} {fctx : Option Bytes}
    (h : (addDentNode e dirInum name inum type fctx).run s = .ok (klen, s')) : ∃ N, Stamped s s' N := by
  obtain ⟨kname, -, -, h₁⟩ := addDentNode_ok h
  exact ⟨_, addNode_stamped h₁ rfl⟩

end Emitters

/-! ### The walk -/

section Walk
variable {e : Env} {s s₁ s' : Mkfs}

/-- The readdir loop of add_directory, from the state after the directory's creation sqnum was
taken: nothing when the directory does not exist on the host. -/
theorem Stamped.of_loop {P : Prop} {existing : Bool} {r : Nat × Nat} {t : Mkfs}
    (hr : if existing then P else r = (ubifsInoNodeSz, 2) ∧ s₁ = t) (hP : P → ∃ N, Stamped t s₁ N) :
    ∃ N, Stamped t s₁ N := by
  cases existing
  · simp only [Bool.false_eq_true, if_false] at hr
    exact ⟨[], .same (by rw [hr.2]) (by rw [hr.2])⟩
  · exact hP hr

/-- add_directory's inode, written after the readdir loop with the creation sqnum taken on entry:
the directory's run carries each value it handed out once, and its last node is the directory's
inode with that creation sqnum. -/
theorem Stamped.dirInode {dir : Option (Bytes × HostFile)} {dirInum size nlink : Nat} {st : Stat}
    {fctx : Option Bytes} {N₁ : List Node} (hs₁ : Stamped { s with maxSqnum := s.maxSqnum + 1 } s₁ N₁)
    (h : (addDirInode e dir dirInum size nlink st fctx).run { s₁ with creatSqnum := s.maxSqnum + 1 } = .ok ((), s')) :
    ∃ X q len i, Stamped s s' (N₁ ++ X ++ [⟨q, len, .ino i⟩]) ∧ i.key = inoKeyInit dirInum ∧
      i.creatSqnum = s.maxSqnum + 1 := by
  unfold addDirInode at h
  obtain ⟨d, h₂⟩ := addInode_stamped h hs₁.le
  have hs := (hs₁.then h₂ rfl rfl).taken rfl rfl
  rw [inodeNodes, ← List.append_assoc] at hs
  exact ⟨_, _, _, _, hs, xattrHosts_key, xattrHosts_creatSqnum⟩

theorem walk_stamped :
    (∀ dirName hf dirInum st existing fctx s s',
      (addDirectory e dirName hf dirInum st existing fctx).run s = .ok ((), s') → ∃ N, Stamped s s' N) ∧
    (∀ dirName dirInum fctx entries size nlink res s s',
      (addEntries e dirName dirInum fctx entries size nlink).run s = .ok (res, s') → ∃ N, Stamped s s' N) := by
  have hc : WalkCases e (fun _ _ _ _ _ _ s s' => ∃ N, Stamped s s' N)
      (fun _ _ _ _ _ _ _ s s' => ∃ N, Stamped s s' N) := by
    refine ⟨?_, ⟨[], .same rfl rfl⟩, fun _ h => h, ?_, ?_⟩
    · intro _ _ _ _ _ _ _ _ _ _ hr h₁
      obtain ⟨N₁, hs₁⟩ := Stamped.of_loop hr id
      obtain ⟨_, _, _, _, hs, -⟩ := hs₁.dirInode h₁
      exact ⟨_, hs⟩
    · intro _ _ _ _ _ _ _ _ _ _ s _ _ _ _ _ ⟨N₁, hs₁⟩ h₂ ⟨N₃, hs₃⟩
      obtain ⟨N₂, hs₂⟩ := addDentNode_stamped h₂
      exact ⟨_, ((hs₁.restart (s := s) rfl rfl).trans hs₂).trans hs₃⟩
    · intro _ _ _ _ _ _ _ _ _ _ s _ _ _ _ _ _ h₁ h₂ ⟨N₃, hs₃⟩
      obtain ⟨N₁, hs₁⟩ := addNonDir_stamped h₁
      obtain ⟨N₂, hs₂⟩ := addDentNode_stamped h₂
      exact ⟨_, ((hs₁.restart (s := s) rfl rfl).trans hs₂).trans hs₃⟩
  exact hc.sound

/-- add_directory writes the directory's inode last, with the creation sqnum it took on entry,
though the children it walked in between overwrote the global creat_sqnum. That creation sqnum
is below the inode's own sqnum, and below every sqnum and creation sqnum of the nodes the run
wrote before the inode: those of the children, of the subdirectories walked, and of the
directory's own attributes. -/
theorem addDirectory_creatFirst {dirName : Bytes} {hf : HostFile} {dirInum : Nat} {st : Stat}
    {existing : Bool} {fctx : Option Bytes}
    (h : (addDirectory e dirName hf dirInum st existing fctx).run s = .ok ((), s')) :
    ∃ N q len i, s'.nodes = s.nodes ++ N ++ [⟨q, len, .ino i⟩] ∧ i.key = inoKeyInit dirInum ∧
      i.creatSqnum = s.maxSqnum + 1 ∧ i.creatSqnum < q ∧ ∀ x ∈ stampsOf N, i.creatSqnum < x := by
  obtain ⟨r, s₁, hr, h₁⟩ := addDirectory_ok h
  obtain ⟨N₁, hs₁⟩ := Stamped.of_loop hr (walk_stamped.2 _ _ _ _ _ _ _ _ _)
  obtain ⟨X, q, len, i, hs, hk, hi⟩ := hs₁.dirInode h₁
  exact ⟨N₁ ++ X, q, len, i, by rw [hs.nodes]; simp only [List.append_assoc], hk, hi, hs.creat_first hi⟩

/-- The sample tree's root: the nodes of d, f and its attribute, and the entries h and k, come
before the root's inode. -/
theorem addDirectory_creatFirst_sampleRoot :
    ∃ s', (addDirectory treeEnv treeEnv.rootPath sampleRoot ubifsRootIno (entryStat treeEnv sampleRoot) true
        treeEnv.rootFctx).run (Mkfs.init treeEnv.info) = .ok ((), s') ∧
      ∃ N q len i, N ≠ [] ∧ s'.nodes = (Mkfs.init treeEnv.info).nodes ++ N ++ [⟨q, len, .ino i⟩] ∧
        i.key = inoKeyInit ubifsRootIno ∧ i.creatSqnum = (Mkfs.init treeEnv.info).maxSqnum + 1 ∧
        i.creatSqnum < q ∧ ∀ x ∈ stampsOf N, i.creatSqnum < x := by
  obtain ⟨s', h, hl⟩ := addDirectory_sampleRoot
  obtain ⟨N, q, len, i, hn, hr⟩ := addDirectory_creatFirst h
  refine ⟨s', h, N, q, len, i, ?_, hn, hr⟩
  rintro rfl
  rw [hn, List.append_nil, List.length_append, List.length_singleton] at hl
  exact absurd hl (by decide)

theorem LinkedRuns.stamped {chain : List InumMapping} (h : LinkedRuns e chain s s') : ∃ N, Stamped s s' N := by
  induction h with
  | nil => exact ⟨[], .same rfl rfl⟩
  | cons h₁ _ ih =>
    obtain ⟨N₁, hs₁⟩ := addNonDir_stamped h₁
    obtain ⟨N₂, hs₂⟩ := ih
    exact ⟨_, hs₁.trans hs₂⟩

/-- write_data from init: the sqnums and creation sqnums of its nodes are 1, 2, ..., max_sqnum,
each once, and each inode was created before it was written. -/
theorem writeData_stamps {root : Option HostFile} {now : Int}
    (h : (writeData e root now).run (Mkfs.init e.info) = .ok ((), s')) :
    (stampsOf s'.nodes).Perm (List.range' 1 s'.maxSqnum) ∧ CreatedFirst s'.nodes := by
  obtain ⟨s₁, s₂, h₁, h₂, rfl⟩ := writeData_ok h
  rw [addRootDirectory_run] at h₁
  obtain ⟨N₁, hs₁⟩ := walk_stamped.1 _ _ _ _ _ _ _ _ h₁
  have ht₁ : TableOk s₁ := addDirectory_tableOk h₁ fun _ _ hi => by simp [Mkfs.init] at hi
  obtain ⟨N₂, hs₂⟩ := (addMultiLinkedFiles_ok ht₁ h₂).1.stamped
  obtain ⟨hn, -, hp, hc⟩ := hs₁.trans hs₂
  have hF : ({ s₂ with flash := flushNodes e.info s₂.flash } : Mkfs).nodes = s₂.nodes := by
    simp only [Mkfs.nodes, flushNodes_placed]
  change s₂.nodes = [] ++ (N₁ ++ N₂) at hn
  rw [hF, hn, List.nil_append]
  exact ⟨hp, hc⟩

end Walk

/-! ### The image -/

section Mkfs
variable {e : Env} {root : Option HostFile} {now : Int} {uuid : Bytes} {s' : Mkfs}

/-- In the image of a successful mkfs, the sqnums of the nodes and the creation sqnums of the
inodes are 1, 2, ..., K, each once, K being how many there are: max_sqnum handed out no value
twice and lost none between the nodes and the inodes' creation. Each inode was created before it
was written: its creation sqnum is below its own sqnum. -/
theorem mkfs_creatSqnums (h : (mkfs e root now uuid).run (Mkfs.init e.info) = .ok ((), s')) :
    (stampsOf s'.nodes).Perm (List.range' 1 (stampsOf s'.nodes).length) ∧
      ∀ n ∈ s'.nodes, ∀ i, n.body = .ino i → i.creatSqnum < n.sqnum := by
  obtain ⟨s₁, W, mst, sup, sig, h₁, -, hx, hW, -, -, hn⟩ := mkfs_image h
  obtain ⟨hp, hc⟩ := writeData_stamps h₁
  have hWn : ∀ n ∈ W, n.body.creat? = none := fun n hn' => by
    obtain ⟨x, hx'⟩ := hx n hn'
    rw [hx']
    rfl
  -- the index nodes, the master nodes, the superblock, its signature and the commit start node
  -- take the values after write_data's, and none is an inode
  have hs : (stampsOf s'.nodes).Perm (List.range' 1 (s₁.maxSqnum + W.length + 5)) := by
    rw [hn, stampsOf_append, stampsOf_append, stampsOf_of_none hWn, hW]
    refine perm_range'_append (perm_range'_append hp ?_) ?_
    · rw [Nat.add_comm 1]
    · rw [show 1 + (s₁.maxSqnum + W.length) = s₁.maxSqnum + W.length + 1 by omega]
      exact .refl _
  refine ⟨by rw [hs.length_eq, List.length_range']; exact hs, ?_⟩
  rw [hn]
  exact (hc.append (createdFirst_of_none hWn)).append (createdFirst_of_none (by simp [NodeBody.creat?]))

theorem mkfs_creatSqnums_sampleRoot :
    ∃ s', (mkfs treeEnv (some sampleRoot) 0 []).run (Mkfs.init treeEnv.info) = .ok ((), s') ∧
      (stampsOf s'.nodes).Perm (List.range' 1 (stampsOf s'.nodes).length) ∧
      ∀ n ∈ s'.nodes, ∀ i, n.body = .ino i → i.creatSqnum < n.sqnum := by
  obtain ⟨s', h, -⟩ := mkfs_sampleRoot
  exact ⟨s', h, mkfs_creatSqnums h⟩

end Mkfs

end MkfsUbifs

import MkfsUbifs.Dirs

/-! # Link counts of non-directories

Every non-directory inode of the image records a link count, and its links are the entries that
name its inode number: the directory entries of the walk, and for the inode of an extended
attribute its xattr entry. add_non_dir writes a file of one host link at once, with a link count
of 1. A file of several host links goes to the link-counting table instead: its first link parks
an entry counting 1, each further link raises the count, and add_multi_linked_files writes the
inode with the count reached. This file keeps a ledger through the walk: the links written are,
as a multiset of inode numbers, the links counted by the inodes written and those the table holds
for files still to be written. Once the deferred files are written the table's share has turned
into inodes, and as long as the inode numbers stay below 2^32, each non-directory inode counts
exactly its own links. -/

namespace MkfsUbifs

/-! ### Links and what counts them -/

/-- The inode number a node links to, as a 32-bit key word: a directory entry of anything but a
directory, or an xattr entry. -/
def Node.link? (n : Node) : Option Nat :=
  match n.body with
  | .dent x => if x.type = ubifsItypeDir then none else some (x.inum % 2 ^ 32)
  | .xent x => some (x.inum % 2 ^ 32)
  | _ => none

/-- The links a node counts: a non-directory inode counts as many links to its number as its
link count says. -/
def Node.counted (n : Node) : List Nat :=
  match n.body with
  | .ino i => if sIsdir i.mode then [] else List.replicate i.nlink i.key.ino
  | _ => []

/-- The links among ns. -/
def linksOf (ns : List Node) : List Nat := ns.filterMap Node.link?

/-- The links the inodes among ns count. -/
def countedOf (ns : List Node) : List Nat := ns.flatMap Node.counted

/-- The links a table entry counted for a file still to be written. -/
def InumMapping.pending (im : InumMapping) : List Nat := List.replicate im.useNlink (im.useInum % 2 ^ 32)

/-- The links the link-counting table holds. -/
def pendingLinks (s : Mkfs) : List Nat := (deferred s).flatMap InumMapping.pending

/-- Every chain of the table holds at most one entry for a host inode. -/
def TableUnique (s : Mkfs) : Prop := ∀ i, ((s.hashTable i).map fun im => (im.dev, im.inum)).Nodup

/-- The ledger of the walk: each link written is counted once, by an inode written or by the
table, and the table has one entry per host inode. -/
def LinkInv (s : Mkfs) : Prop :=
  (linksOf s.nodes).Perm (countedOf s.nodes ++ pendingLinks s) ∧ TableUnique s

@[simp] theorem linksOf_nil : linksOf [] = [] := rfl

@[simp] theorem countedOf_nil : countedOf [] = [] := rfl

@[simp] theorem linksOf_append {l₁ l₂ : List Node} : linksOf (l₁ ++ l₂) = linksOf l₁ ++ linksOf l₂ :=
  List.filterMap_append _ _ _

@[simp] theorem countedOf_append {l₁ l₂ : List Node} : countedOf (l₁ ++ l₂) = countedOf l₁ ++ countedOf l₂ := by
  simp [countedOf]

theorem linksOf_cons {n : Node} {ns : List Node} : linksOf (n :: ns) = n.link?.toList ++ linksOf ns := by
  unfold linksOf
  cases h : n.link? <;> simp [List.filterMap_cons, h]

theorem countedOf_cons {n : Node} {ns : List Node} : countedOf (n :: ns) = n.counted ++ countedOf ns :=
  List.flatMap_cons _ _ _

/-! ### The nodes of the emitters -/

section Emitters
variable {e : Env} {st : Stat} {inum flags : Nat} {s s' : Mkfs} {u : Unit}

theorem counted_xattrInode {q len x c : Nat} {data : Bytes} :
    Node.counted ⟨q, len, .ino (xattrInode e st x c data)⟩ = [x % 2 ^ 32] := by
  simp only [Node.counted, xattrInode, sIsdir_sIFREG, Bool.false_eq_true, if_false]
  rfl

/-- Each attribute is one link, its xattr entry, to its inode, which counts one. -/
theorem xattrNodes_links (xs : List (Bytes × Bytes)) (h m : Nat) :
    countedOf (xattrNodes e st inum xs h m) = linksOf (xattrNodes e st inum xs h m) := by
  induction xs generalizing h m with
  | nil => rfl
  | cons x rest ih =>
    obtain ⟨name, data⟩ := x
    rw [xattrNodes, countedOf_cons, countedOf_cons, linksOf_cons, linksOf_cons, counted_xattrInode, ih]
    rfl

/-- add_inode balances the links of its attributes, and its inode counts its link count unless it
is a directory's. -/
theorem addInode_links {data : Bytes} {xattrPath : Option (Bytes × List (Bytes × Bytes))}
    {fctx : Option Bytes} (h : (addInode e st inum data flags xattrPath fctx).run s = .ok (u, s')) :
    ∃ N, s'.nodes = s.nodes ++ N ∧
      countedOf N = linksOf N ++ if sIsdir st.stMode then [] else List.replicate st.stNlink (inum % 2 ^ 32) := by
  obtain ⟨d, -, hn, -⟩ := addInode_nodes h
  obtain ⟨hm, hl, -⟩ := xattrHosts_dir (e := e) (inodeBase e st inum d flags fctx s.creatSqnum)
    (inodeXattrs e st xattrPath fctx)
  refine ⟨_, hn, ?_⟩
  rw [inodeNodes, countedOf_append, linksOf_append, xattrNodes_links, countedOf_cons, linksOf_cons]
  simp only [Node.counted, Node.link?, hm, hl, xattrHosts_key, Option.toList]
  simp [inodeBase, inoKeyInit]

theorem leafNodes_links {ls : List (Key × Option Bytes × NodeBody × Nat)} (hl : ∀ l ∈ ls, DataLeaf inum l)
    (m : Nat) : countedOf (leafNodes m ls) = [] ∧ linksOf (leafNodes m ls) = [] := by
  have hd := leafNodes_data hl m
  refine ⟨List.flatMap_eq_nil_iff.mpr fun n hn => ?_, List.filterMap_eq_nil_iff.mpr fun n hn => ?_⟩ <;>
    obtain ⟨dn, hb⟩ := hd n hn <;> simp [Node.counted, Node.link?, hb]

/-- The writing part of add_non_dir balances its attributes' links, and its inode counts its
link count. -/
theorem addNonDirNodes_links {path : Bytes} {hf : HostFile} {fctx : Option Bytes}
    (h : (addNonDirNodes e path hf st inum flags fctx).run s = .ok (u, s')) :
    ∃ N, s'.nodes = s.nodes ++ N ∧ countedOf N = linksOf N ++ List.replicate st.stNlink (inum % 2 ^ 32) := by
  obtain ⟨hk, ls, s₁, hls, hd, -, hi⟩ := addNonDirNodes_ok h
  obtain ⟨hn₁, -⟩ := hls.nodes
  obtain ⟨M, hM, hb⟩ := addInode_links hi
  obtain ⟨hlc, hll⟩ := leafNodes_links hd s.maxSqnum
  refine ⟨_, by rw [hM, hn₁, List.append_assoc], ?_⟩
  rw [countedOf_append, linksOf_append, hlc, hll, hb, knownNonDir_not_dir hk]
  simp

/-- The entry add_dent_node writes links to the inode it names unless that is a directory. -/
theorem addDentNode_links {dirInum type klen : Nat} {name : Bytes} {fctx : Option Bytes}
    (h : (addDentNode e dirInum name inum type fctx).run s = .ok (klen, s')) :
    ∃ n, s'.nodes = s.nodes ++ [n] ∧ n.counted = [] ∧
      n.link?.toList = if type = ubifsItypeDir then [] else [inum % 2 ^ 32] := by
  obtain ⟨kname, -, -, hn, -⟩ := addDentNode_nodes h
  refine ⟨_, hn, rfl, ?_⟩
  simp only [Node.link?]
  split_ifs <;> rfl

end Emitters

/-! ### The link-counting table -/

section Table
variable {path : Bytes} {hf : HostFile} {st : Stat} {inum : Nat} {s s' : Mkfs}

theorem pendingLinks_of_hashTable (h : s'.hashTable = s.hashTable) : pendingLinks s' = pendingLinks s := by
  unfold pendingLinks deferred
  rw [h]

/-- One chain of a table replaced: the new chain, and the others. -/
theorem flatMap_update_perm {α : Type} {f : Nat → List α} {k : Nat} {L : List α} :
    ∀ {l : List Nat}, k ∈ l → l.Nodup →
      (l.flatMap (Function.update f k L)).Perm (L ++ l.flatMap fun i => if i = k then [] else f i)
  | j :: l, hk, hn => by
    rw [List.nodup_cons] at hn
    by_cases hj : j = k
    · subst hj
      have hl : l.flatMap (Function.update f j L) = l.flatMap fun i => if i = j then [] else f i :=
        List.flatMap_congr fun i hi => by
          rw [Function.update_noteq (fun h : i = j => hn.1 (h ▸ hi)), if_neg (fun h : i = j => hn.1 (h ▸ hi))]
      simp [hl]
    · have hk' : k ∈ l := (List.mem_cons.mp hk).resolve_left (Ne.symm hj)
      simp only [List.flatMap_cons, Function.update_noteq hj, if_neg hj]
      refine ((flatMap_update_perm hk' hn.2).append_left _).trans ?_
      rw [← List.append_assoc, ← List.append_assoc]
      exact List.perm_append_comm.append_right _

theorem pendingLinks_linkFirst :
    (pendingLinks (linkFirst path hf st inum s)).Perm ((inum % 2 ^ 32) :: pendingLinks s) :=
  (deferred_linkFirst.flatMap_right _).trans (by simp [InumMapping.pending, pendingLinks])

theorem tableUnique_linkFirst (hu : TableUnique s)
    (hf₀ : (s.hashTable (st.stIno % hashTableSize)).find? (InumMapping.isOf st.stDev st.stIno) = none) :
    TableUnique (linkFirst path hf st inum s) := by
  intro i
  unfold linkFirst
  by_cases hi : i = st.stIno % hashTableSize
  · subst hi
    simp only [Function.update_same, List.map_cons, List.nodup_cons]
    refine ⟨fun hm => ?_, hu _⟩
    obtain ⟨im, him, he⟩ := List.mem_map.mp hm
    have := List.find?_eq_none.mp hf₀ im him
    simp only [Prod.mk.injEq] at he
    simp [InumMapping.isOf, he.1, he.2] at this
  · simp only [Function.update_noteq hi]
    exact hu i

theorem bumpLink_key (im : InumMapping) : ((bumpLink st im).dev, (bumpLink st im).inum) = (im.dev, im.inum) := by
  unfold bumpLink
  split <;> rfl

theorem tableUnique_linkAgain (hu : TableUnique s) : TableUnique (linkAgain st s) := by
  intro i
  unfold linkAgain
  by_cases hi : i = st.stIno % hashTableSize
  · subst hi
    simp only [Function.update_same, List.map_map]
    rw [show ((fun im : InumMapping => (im.dev, im.inum)) ∘ bumpLink st) = fun im => (im.dev, im.inum) from
      funext bumpLink_key]
    exact hu _
  · simp only [Function.update_noteq hi]
    exact hu i

theorem isOf_key {d n : Nat} {im : InumMapping} (h : im.isOf d n = true) : (im.dev, im.inum) = (d, n) := by
  simp only [InumMapping.isOf, Bool.and_eq_true, beq_iff_eq] at h
  rw [h.1, h.2]

/-- In a chain with one entry per host inode, raising the count of the entry of st's host inode
adds one pending link, to that entry's number. -/
theorem flatMap_bumpLink {im : InumMapping} (hp : im.isOf st.stDev st.stIno = true) :
    ∀ {L : List InumMapping}, (L.map fun im => (im.dev, im.inum)).Nodup → im ∈ L →
      ((L.map (bumpLink st)).flatMap InumMapping.pending).Perm
        (L.flatMap InumMapping.pending ++ [im.useInum % 2 ^ 32])
  | im' :: rest, hu, him => by
    rw [List.map_cons, List.nodup_cons] at hu
    have hrest : ∀ x ∈ rest, (x.dev, x.inum) ≠ (im'.dev, im'.inum) := fun x hx he =>
      hu.1 (he ▸ List.mem_map_of_mem _ hx)
    by_cases hq : im'.isOf st.stDev st.stIno = true
    · have hk : (im'.dev, im'.inum) = (st.stDev, st.stIno) := isOf_key hq
      obtain rfl : im = im' := by
        rcases List.mem_cons.mp him with rfl | him
        · rfl
        · exact absurd ((isOf_key hp).trans hk.symm) (hrest im him)
      have hr : rest.map (bumpLink st) = rest := by
        refine (List.map_congr_left fun x hx => ?_).trans (List.map_id _)
        unfold bumpLink
        rw [if_neg fun hx' => hrest x hx ((isOf_key hx').trans hk.symm)]
        rfl
      simp only [List.map_cons, List.flatMap_cons, hr, bumpLink, hq, if_true, InumMapping.pending,
        List.replicate_succ', List.append_assoc]
      exact List.Perm.append_left _ List.perm_append_comm
    · have him' : im ∈ rest := (List.mem_cons.mp him).resolve_left fun h => hq (h ▸ hp)
      simp only [List.map_cons, List.flatMap_cons, bumpLink, hq, Bool.false_eq_true, if_false,
        List.append_assoc]
      exact (flatMap_bumpLink hp hu.2 him').append_left _

theorem pendingLinks_linkAgain {im : InumMapping} (hu : TableUnique s)
    (hf₀ : (s.hashTable (st.stIno % hashTableSize)).find? (InumMapping.isOf st.stDev st.stIno) = some im) :
    (pendingLinks (linkAgain st s)).Perm (pendingLinks s ++ [im.useInum % 2 ^ 32]) := by
  have hk : st.stIno % hashTableSize ∈ List.range hashTableSize := List.mem_range.mpr (Nat.mod_lt _ (by decide))
  set b := st.stIno % hashTableSize
  have h₁ := (flatMap_update_perm (f := s.hashTable) (L := (s.hashTable b).map (bumpLink st)) hk
    (List.nodup_range _)).flatMap_right InumMapping.pending
  have h₂ := (flatMap_update_perm (f := s.hashTable) (L := s.hashTable b) hk
    (List.nodup_range _)).flatMap_right InumMapping.pending
  rw [Function.update_eq_self] at h₂
  have h₃ := flatMap_bumpLink (List.find?_some hf₀) (hu b) (List.mem_of_find?_eq_some hf₀)
  unfold pendingLinks deferred linkAgain
  refine h₁.trans ?_
  rw [List.perm_iff_count]
  intro a
  have c₂ := h₂.count_eq a
  have c₃ := h₃.count_eq a
  simp only [List.flatMap_append, List.count_append] at c₂ c₃ ⊢
  omega

end Table

/-! ### The walk -/

section Walk
variable {e : Env} {s s' : Mkfs}

theorem linkInv_init (c : Info) : LinkInv (Mkfs.init c) := by
  have hd : deferred (Mkfs.init c) = [] := List.flatMap_eq_nil_iff.mpr fun _ _ => rfl
  exact ⟨by rw [pendingLinks, hd]; exact .nil, fun _ => List.nodup_nil⟩

/-- Nodes whose links their inodes count keep the ledger, the table staying. -/
theorem LinkInv.append {N : List Node} (h : LinkInv s) (hN : s'.nodes = s.nodes ++ N)
    (hb : countedOf N = linksOf N) (ht : s'.hashTable = s.hashTable) : LinkInv s' := by
  refine ⟨?_, fun i => by rw [ht]; exact h.2 i⟩
  rw [hN, linksOf_append, countedOf_append, hb, pendingLinks_of_hashTable ht]
  refine (h.1.append_right _).trans ?_
  rw [List.append_assoc, List.append_assoc]
  exact List.Perm.append_left _ List.perm_append_comm

/-- A non-directory entry of the walk keeps the ledger: its link is counted by its inode, or
parked in the table, or added to the count of the table's entry for its host inode. -/
theorem nondirEntry_linkInv {dirInum klen : Nat} {name path : Bytes} {hf : HostFile} {st : Stat}
    {fctx fctx' : Option Bytes} {r : Nat × Nat} {s₁ : Mkfs} (hs : LinkInv s)
    (h₁ : (addNonDir e path hf (s.highestInum + 1) 0 st fctx').run { s with highestInum := s.highestInum + 1 } =
      .ok (r, s₁))
    (h₂ : (addDentNode e dirInum name r.1 r.2 fctx).run s₁ = .ok (klen, s')) : LinkInv s' := by
  obtain ⟨ht, hb⟩ := addNonDir_ok h₁
  obtain ⟨n, hn, hnc, hnl⟩ := addDentNode_links h₂
  rw [if_neg (nonDirTypeOf_ne_dir ht)] at hnl
  have hd₂ := addDentNode_hashTable h₂
  rcases hb with ⟨-, -, h₃⟩ | ⟨hl, hr, h₃⟩
  · -- the host inode has further links: the table counts this one
    have hs₁ : s₁.nodes = s.nodes := by
      rcases linkInumMapping_ok h₃ with ⟨-, -, rfl⟩ | ⟨_, -, -, rfl⟩ <;> rfl
    rw [LinkInv, hn, hs₁, linksOf_append, countedOf_append, linksOf_cons, countedOf_cons, hnl, hnc,
      linksOf_nil, countedOf_nil, List.append_nil, List.append_nil, List.append_nil,
      pendingLinks_of_hashTable hd₂]
    rcases linkInumMapping_ok h₃ with ⟨hf₀, hr₁, rfl⟩ | ⟨im, hf₀, hr₁, rfl⟩
    · refine ⟨(hs.1.append_right _).trans ?_, fun i => by rw [hd₂]; exact tableUnique_linkFirst hs.2 hf₀ i⟩
      rw [hr₁, List.append_assoc]
      exact ((List.perm_append_singleton _ _).trans pendingLinks_linkFirst.symm).append_left _
    · refine ⟨(hs.1.append_right _).trans ?_, fun i => by rw [hd₂]; exact tableUnique_linkAgain hs.2 i⟩
      rw [hr₁, List.append_assoc]
      exact (pendingLinks_linkAgain hs.2 hf₀).symm.append_left _
  · -- one host link: the inode counts one link, this entry
    obtain ⟨N, hN, hcN⟩ := addNonDirNodes_links h₃
    have hd₃ := addNonDirNodes_hashTable h₃
    refine hs.append (N := N ++ [n]) (by rw [hn, hN, List.append_assoc]; rfl) ?_ (hd₂.trans hd₃)
    rw [countedOf_append, linksOf_append, hcN, countedOf_cons, linksOf_cons, hnc, hnl, hr]
    simp

theorem walk_links :
    (∀ dirName hf dirInum st existing fctx s s',
      (addDirectory e dirName hf dirInum st existing fctx).run s = .ok ((), s') →
      sIsdir st.stMode → LinkInv s → LinkInv s') ∧
    (∀ dirName dirInum fctx entries size nlink res s s',
      (addEntries e dirName dirInum fctx entries size nlink).run s = .ok (res, s') → LinkInv s → LinkInv s') := by
  have hc : WalkCases e (fun _ _ _ st _ _ s s' => sIsdir st.stMode → LinkInv s → LinkInv s')
      (fun _ _ _ _ _ _ _ s s' => LinkInv s → LinkInv s') := by
    refine ⟨?_, id, fun _ h => h, ?_, ?_⟩
    · intro dirName hf dirInum st existing fctx s s₁ s' r hr h₁ hd hs
      have hs₁ : LinkInv s₁ := by
        cases existing
        · simp only [Bool.false_eq_true, if_false] at hr
          exact hr.2 ▸ hs
        · exact (hr : LinkInv _ → LinkInv s₁) hs
      unfold addDirInode at h₁
      obtain ⟨N, hN, hb⟩ := addInode_links h₁
      rw [if_pos hd, List.append_nil] at hb
      have ht := addInode_hashTable h₁
      exact hs₁.append hN hb ht
    · intro _ _ _ _ _ _ _ _ _ _ s _ _ _ _ _ h₁ h₂ h₃ hs
      obtain ⟨n, hn, hnc, hnl⟩ := addDentNode_links h₂
      rw [if_pos rfl] at hnl
      refine h₃ ((h₁ ‹_› hs).append hn ?_ (addDentNode_hashTable h₂))
      rw [countedOf_cons, linksOf_cons, hnc, hnl]
      rfl
    · intro _ _ _ _ _ _ _ _ _ _ _ _ _ _ _ _ _ h₁ h₂ h₃ hs
      exact h₃ (nondirEntry_linkInv hs h₁ h₂)
  exact hc.sound

/-- The deferred files: each inode counts the links its table entry counted, and the links of
its attributes. -/
theorem LinkedRuns.links {chain : List InumMapping} (h : LinkedRuns e chain s s')
    (hc : ∀ im ∈ chain, 0 < im.useNlink) :
    ∃ N, s'.nodes = s.nodes ++ N ∧ (countedOf N).Perm (linksOf N ++ chain.flatMap InumMapping.pending) := by
  induction h with
  | nil => exact ⟨[], by simp, .nil⟩
  | @cons im rest s s₁ s' r h₁ _ ih =>
    obtain ⟨N₂, hN₂, hb₂⟩ := ih fun im' hm => hc im' (List.mem_cons_of_mem _ hm)
    have hpos := hc im (List.mem_cons_self _ _)
    rcases (addNonDir_ok h₁).2 with ⟨hz, -⟩ | ⟨-, -, h₂⟩
    · exact absurd hz (Nat.pos_iff_ne_zero.mp hpos)
    obtain ⟨N₁, hN₁, hb₁⟩ := addNonDirNodes_links h₂
    rw [if_pos (Nat.pos_iff_ne_zero.mp hpos)] at hb₁
    refine ⟨N₁ ++ N₂, by rw [hN₂, hN₁, List.append_assoc]; rfl, ?_⟩
    rw [countedOf_append, linksOf_append, hb₁, List.flatMap_cons, List.perm_iff_count]
    intro a
    have := hb₂.count_eq a
    simp only [InumMapping.pending, List.count_append] at this ⊢
    omega

/-- write_data from init with a root directory: every link written is counted by an inode. -/
theorem writeData_links {root : Option HostFile} {now : Int}
    (hroot : sIsdir (rootArgs e root now).2.2.1.stMode)
    (h : (writeData e root now).run (Mkfs.init e.info) = .ok ((), s')) :
    (linksOf s'.nodes).Perm (countedOf s'.nodes) := by
  obtain ⟨s₁, s₂, h₁, h₂, rfl⟩ := writeData_ok h
  rw [addRootDirectory_run] at h₁
  have hi₁ := walk_links.1 _ _ _ _ _ _ _ _ h₁ hroot (linkInv_init _)
  have ht₁ : TableOk s₁ := addDirectory_tableOk h₁ fun _ _ hi => by simp [Mkfs.init] at hi
  obtain ⟨hr, -⟩ := addMultiLinkedFiles_ok ht₁ h₂
  obtain ⟨N, hN, hb⟩ := hr.links fun im hm => by
    obtain ⟨i, -, hi⟩ := List.mem_flatMap.mp hm
    exact ht₁ i im hi
  have hnodes : ({ s₂ with flash := flushNodes e.info s₂.flash } : Mkfs).nodes = s₂.nodes := by
    simp only [Mkfs.nodes, flushNodes_placed]
  rw [hnodes, hN, List.perm_iff_count]
  intro a
  have c₁ := hi₁.1.count_eq a
  have c₂ := hb.count_eq a
  simp only [pendingLinks, linksOf_append, countedOf_append, List.count_append] at c₁ c₂ ⊢
  omega

end Walk

/-! ### The image -/

theorem inoInums_cons {n : Node} {ns : List Node} : inoInums (n :: ns) = n.inoNum?.toList ++ inoInums ns := by
  unfold inoInums
  cases h : n.inoNum? <;> simp [List.filterMap_cons, h]

theorem count_counted_of_ne {k : Nat} {n : Node} (hk : n.inoNum? ≠ some k) : n.counted.count k = 0 := by
  unfold Node.counted
  split
  · rename_i i hb
    split
    · rfl
    · have : i.key.ino ≠ k := fun he => hk (by simp [Node.inoNum?, hb, he])
      simp [List.count_replicate, this]
  · rfl

theorem count_countedOf_of_not_mem {k : Nat} : ∀ {ns : List Node}, k ∉ inoInums ns → (countedOf ns).count k = 0
  | [], _ => rfl
  | n :: ns, hk => by
    rw [inoInums_cons, List.mem_append, not_or] at hk
    rw [countedOf_cons, List.count_append, count_counted_of_ne fun h => hk.1 (by simp [h]),
      count_countedOf_of_not_mem hk.2]

/-- With distinct inode numbers, a non-directory inode's number is counted exactly its link count
of times. -/
theorem count_countedOf {i : InoNode} (hd : sIsdir i.mode = false) :
    ∀ {ns : List Node}, (inoInums ns).Nodup → ∀ n ∈ ns, n.body = .ino i → (countedOf ns).count i.key.ino = i.nlink
  | [], _, _, hn, _ => absurd hn (List.not_mem_nil _)
  | n' :: ns, hnd, n, hn, hi => by
    rw [inoInums_cons, List.nodup_append] at hnd
    rw [countedOf_cons, List.count_append]
    rcases List.mem_cons.mp hn with rfl | hn
    · have hk : n.inoNum? = some i.key.ino := by simp [Node.inoNum?, hi]
      rw [count_countedOf_of_not_mem fun hm => hnd.2.2 (by simp [hk]) hm]
      simp [Node.counted, hi, hd, List.count_replicate]
    · have hmem : i.key.ino ∈ inoInums ns := List.mem_filterMap.mpr ⟨n, hn, by simp [Node.inoNum?, hi]⟩
      rw [count_countedOf hd hnd.2.1 n hn hi, count_counted_of_ne fun h => hnd.2.2 (by simp [h]) hmem,
        Nat.zero_add]

/-- Below 2^32 inodes, write_data writes every inode number once. -/
theorem writeData_inoNums_nodup {root : Option HostFile} {now : Int} {e : Env} {s' : Mkfs}
    (h : (writeData e root now).run (Mkfs.init e.info) = .ok ((), s')) (hlt : s'.highestInum < 2 ^ 32) :
    s'.inoNums.Nodup := by
  obtain ⟨-, hp⟩ := writeData_inoNums h
  have hb : ∀ x ∈ ubifsRootIno :: List.range' (ubifsFirstIno + 1) (s'.highestInum - ubifsFirstIno), x < 2 ^ 32 := by
    intro x hx
    rcases List.mem_cons.mp hx with rfl | hx
    · decide
    · have := (List.mem_range'_1.mp hx).2
      unfold ubifsFirstIno at this
      omega
  refine hp.nodup_iff.mpr (List.Nodup.map_on (fun x hx y hy hxy => ?_)
    (List.nodup_cons.mpr ⟨fun hr => ?_, List.nodup_range' _ _⟩))
  · rwa [Nat.mod_eq_of_lt (hb x hx), Nat.mod_eq_of_lt (hb y hy)] at hxy
  · have := (List.mem_range'_1.mp hr).1
    simp [ubifsRootIno, ubifsFirstIno] at this

section Mkfs
variable {e : Env} {root : Option HostFile} {now : Int} {uuid : Bytes} {s' : Mkfs}

/-- In the image of a successful mkfs from a root directory whose inode numbers stay below 2^32,
every non-directory inode has as its link count the number of links to its inode number: the
directory entries of anything but a directory naming it, and for an attribute's inode its xattr
entry. -/
theorem mkfs_links (hroot : ∀ hf, root = some hf → sIsdir (entryStat e hf).stMode)
    (h : (mkfs e root now uuid).run (Mkfs.init e.info) = .ok ((), s')) (hlt : s'.highestInum < 2 ^ 32) :
    ∀ n ∈ s'.nodes, ∀ i, n.body = .ino i → sIsdir i.mode = false → i.nlink = (linksOf s'.nodes).count i.key.ino := by
  obtain ⟨s₁, W, mst, sup, sig, h₁, -, hW, -, -, hh, hn⟩ := mkfs_image h
  have hr : sIsdir (rootArgs e root now).2.2.1.stMode := by
    cases root with
    | none => exact (by decide : sIsdir (sIFDIR ||| 0o755) = true)
    | some hf => exact hroot hf rfl
  have hWl : linksOf W = [] := List.filterMap_eq_nil_iff.mpr fun n hn => by
    obtain ⟨x, hx⟩ := hW n hn
    simp [Node.link?, hx]
  have hWc : countedOf W = [] := List.flatMap_eq_nil_iff.mpr fun n hn => by
    obtain ⟨x, hx⟩ := hW n hn
    simp [Node.counted, hx]
  have hWi : inoInums W = [] := inoInums_of_not_ino fun n hn i hi => by
    obtain ⟨x, hx⟩ := hW n hn
    rw [hx] at hi
    cases hi
  have hl : linksOf s'.nodes = linksOf s₁.nodes := by
    rw [hn, linksOf_append, linksOf_append, hWl, List.append_nil]
    exact List.append_nil _
  have hc : countedOf s'.nodes = countedOf s₁.nodes := by
    rw [hn, countedOf_append, countedOf_append, hWc, List.append_nil]
    exact List.append_nil _
  have hnd : (inoInums s'.nodes).Nodup := by
    rw [hn, inoInums_append, inoInums_append, hWi, List.append_nil]
    exact (List.append_nil _).symm ▸ writeData_inoNums_nodup h₁ (hh ▸ hlt)
  intro n hn' i hi hd
  rw [hl, (writeData_links hr h₁).count_eq, ← hc]
  exact (count_countedOf hd hnd n hn' hi).symm

theorem mkfs_links_sampleRoot :
    (∀ hf, some sampleRoot = some hf → sIsdir (entryStat treeEnv hf).stMode) ∧
      ∃ s', (mkfs treeEnv (some sampleRoot) 0 []).run (Mkfs.init treeEnv.info) = .ok ((), s') ∧
        s'.highestInum < 2 ^ 32 ∧ ∀ n ∈ s'.nodes, ∀ i, n.body = .ino i → sIsdir i.mode = false →
          i.nlink = (linksOf s'.nodes).count i.key.ino := by
  have hroot : ∀ hf, some sampleRoot = some hf → sIsdir (entryStat treeEnv hf).stMode := fun _ h => by
    cases h
    rfl
  obtain ⟨s', h, hi⟩ := mkfs_sampleRoot
  have hlt : s'.highestInum < 2 ^ 32 := hi ▸ by decide
  exact ⟨hroot, s', h, hlt, mkfs_links hroot h hlt⟩

end Mkfs

end MkfsUbifs

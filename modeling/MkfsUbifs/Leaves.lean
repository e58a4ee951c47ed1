import MkfsUbifs.Ledger

/-! # The nodes of the image

What the index list and the sequence numbers say about the nodes mkfs leaves on flash.
add_to_index records each leaf add_node writes with the place reserve_space gave it, its length
and its hash; nothing changes the list afterwards, and no later stage writes a leaf, so the list
names the leaves of the finished image, in the order they were written. ubifs_prepare_node stamps
every node with the next sqnum, and the walk only ever moves the counter on, so the sqnums rise in
write order over the whole image. -/

namespace MkfsUbifs

/-! ### The index list against the leaves -/

/-- What an index entry says of its node: the LEB and offset where it lies, its length and its
hash. -/
def IdxEntry.ref (x : IdxEntry) : Nat × Nat × Nat × Bytes := (x.lnum, x.offs, x.len, x.hash)

/-- The same of a node on flash. -/
def nodeRef (c : Info) (p : Nat × Nat × Node) : Nat × Nat × Nat × Bytes := (p.1, p.2.1, p.2.2.len, c.calcHash p.2.2)

/-- The leaves on flash, with their places. -/
def Flash.leaves (fl : Flash) : List (Nat × Nat × Node) := fl.placed.filter fun p => p.2.2.body.isLeaf

/-- The index list names the nodes on flash, one entry for each, in order. -/
def Indexed (c : Info) (s : Mkfs) : Prop := s.idxList.map IdxEntry.ref = s.flash.placed.map (nodeRef c)

section Indexed
variable {c : Info} {s s' : Mkfs}

theorem LeafStep.indexed (h : LeafStep c s s') (hs : Indexed c s) : Indexed c s' := by
  cases h with
  | node _ _ h =>
    obtain ⟨-, -, rfl⟩ := addNode_ok h
    simp only [Indexed]
    rw [pushLeaf_placed, List.map_append, List.map_append, hs]
    rfl
  | other hf hi _ =>
    rw [Indexed, hf, hi]
    exact hs

theorem LeafSteps.indexed (h : LeafSteps c s s') (hs : Indexed c s) : Indexed c s' :=
  h.induct _ hs fun hst ht => hst.indexed ht

theorem Flash.leaves_of_sink {fl fl' : Flash} {X : List (Nat × Leb)} (hb : fl.lebBuf = []) (hb' : fl'.lebBuf = [])
    (hs : fl'.sink = fl.sink ++ X) (hX : NoLeaves X) : fl'.leaves = fl.leaves := by
  have hX' : (X.flatMap fun x => x.2.placed.map fun q => (x.1, q)).filter (fun p => p.2.2.body.isLeaf) = [] := by
    refine List.filter_eq_nil_iff.mpr fun p hp => ?_
    obtain ⟨x, hx, hp⟩ := List.mem_flatMap.mp hp
    obtain ⟨q, hq, rfl⟩ := List.mem_map.mp hp
    simp [hX q.2 (List.mem_flatMap.mpr ⟨x, hx, List.mem_map_of_mem _ hq⟩)]
  unfold Flash.leaves Flash.placed
  rw [hb, hb', hs, List.flatMap_append]
  simp only [List.filter_append, hX', List.map_nil, List.filter_nil, List.append_nil]

theorem IdxSteps.leaves (h : IdxSteps c s s') : s'.flash.leaves = s.flash.leaves :=
  h.flash_induct (fun fl => fl.leaves = s.flash.leaves) rfl fun {fl len n} _ hn ht => by
    have hl : n.body.isLeaf = false := by
      obtain ⟨_, _, b⟩ := n
      cases b <;> simp_all [NodeBody.isIdx, NodeBody.isLeaf]
    simp only at ht ⊢
    rw [← ht, Flash.leaves, Flash.leaves, pushLeaf_placed, List.filter_append]
    simp [hl]

theorem writeIndex_leaves {u : Unit} (h : (writeIndex c).run s = .ok (u, s')) : s'.flash.leaves = s.flash.leaves := by
  obtain ⟨t, hash, ht, rfl⟩ := writeIndex_steps h
  show (flushNodes c t.flash).leaves = _
  rw [Flash.leaves, flushNodes_placed]
  exact ht.leaves

end Indexed

section Mkfs
variable {e : Env} {root : Option HostFile} {now : Int} {uuid : Bytes} {s' : Mkfs}

/-- write_data from init writes leaves alone, and the index list names them. -/
theorem writeData_indexed (h : (writeData e root now).run (Mkfs.init e.info) = .ok ((), s')) :
    Indexed e.info s' ∧ s'.flash.leaves = s'.flash.placed := by
  obtain ⟨t, ht, rfl⟩ := writeData_steps (fun _ _ hi => by simp [Mkfs.init] at hi) h
  refine ⟨by simpa [Indexed, flushNodes_placed] using ht.indexed (by simp [Indexed, Mkfs.init, Flash.placed]), ?_⟩
  show (flushNodes e.info t.flash).leaves = (flushNodes e.info t.flash).placed
  rw [Flash.leaves, flushNodes_placed]
  exact List.filter_eq_self.mpr fun p hp =>
    ht.leaves (by simp [Mkfs.nodes, Mkfs.init, Flash.placed]) _ (List.mem_map_of_mem _ hp)

/-- After write_data, mkfs leaves the index list alone and writes no more leaves. -/
theorem mkfs_leaves (h : (mkfs e root now uuid).run (Mkfs.init e.info) = .ok ((), s')) :
    ∃ s₁, (writeData e root now).run (Mkfs.init e.info) = .ok ((), s₁) ∧ s'.idxList = s₁.idxList ∧
      s'.flash.leaves = s₁.flash.leaves := by
  obtain ⟨s₁, s₂, s₃, h₁, h₂, h₃, -, ha⟩ := mkfs_tail h
  obtain ⟨-, -, hs₂, hb₂, -, hi₂⟩ := setGcLnum_flash h₂
  obtain ⟨X, hX, hn⟩ := ha.sink
  obtain ⟨-, -, -, -, -, -, hb₃⟩ := writeIndex_nodes h₃ hb₂
  refine ⟨s₁, h₁, by rw [ha.idxList, (writeIndex_frame h₃).1, hi₂], ?_⟩
  rw [Flash.leaves_of_sink hb₃ ha.lebBuf hX hn, writeIndex_leaves h₃,
    Flash.leaves_of_sink (writeData_ledger h₁).2.2.1 hb₂ hs₂ (by simp [NoLeaves, Leb.placed])]

/-- The index list of a successful mkfs names every leaf node of the image once, in the order
write_data wrote them: each entry holds the LEB and offset where its node lies, the node's length
and the node's hash. No node is left in leb_buf. -/
theorem mkfs_idxList (h : (mkfs e root now uuid).run (Mkfs.init e.info) = .ok ((), s')) :
    s'.idxList.map IdxEntry.ref = s'.flash.leaves.map (nodeRef e.info) ∧ s'.flash.lebBuf = [] := by
  obtain ⟨s₁, h₁, hi, hl⟩ := mkfs_leaves h
  obtain ⟨hx, hl₁⟩ := writeData_indexed h₁
  obtain ⟨_, _, _, -, -, -, -, ha⟩ := mkfs_tail h
  rw [hi, hl, hl₁]
  exact ⟨hx, ha.lebBuf⟩

theorem mkfs_idxList_sampleRoot :
    ∃ s', (mkfs treeEnv (some sampleRoot) 0 []).run (Mkfs.init treeEnv.info) = .ok ((), s') ∧
      s'.idxList.length = 17 ∧
      s'.idxList.map IdxEntry.ref = s'.flash.leaves.map (nodeRef treeEnv.info) ∧ s'.flash.lebBuf = [] := by
  obtain ⟨s', h, -⟩ := mkfs_sampleRoot
  obtain ⟨s₁, h₁, -, hx, -⟩ := writeData_sampleRoot
  obtain ⟨t, ht, hi, -⟩ := mkfs_leaves h
  obtain rfl : t = s₁ := (Prod.mk.inj (Except.ok.inj (ht.symm.trans h₁))).2
  exact ⟨s', h, hi ▸ hx, mkfs_idxList h⟩

end Mkfs

/-! ### Sequence numbers -/

/-- The sqnums of the nodes on flash so far rise in write order, none above max_sqnum. -/
def SqnumsRise (s : Mkfs) : Prop := (s.nodes.map Node.sqnum).Pairwise (· < ·) ∧ ∀ n ∈ s.nodes, n.sqnum ≤ s.maxSqnum

section Sqnums
variable {c : Info} {s s' : Mkfs}

theorem pairwise_append_range' {A : List Nat} {q n : Nat} (hA : A.Pairwise (· < ·)) (hq : ∀ a ∈ A, a ≤ q) :
    (A ++ List.range' (q + 1) n).Pairwise (· < ·) := by
  refine List.pairwise_append.mpr ⟨hA, List.pairwise_lt_range' _ _, fun a ha b hb => ?_⟩
  rw [List.mem_range'_1] at hb
  have := hq a ha
  omega

theorem SqnumsRise.append {W : List Node} (h : SqnumsRise s) (hn : s'.nodes = s.nodes ++ W)
    (hW : W.map Node.sqnum = List.range' (s.maxSqnum + 1) W.length) (hm : s.maxSqnum + W.length ≤ s'.maxSqnum) :
    SqnumsRise s' := by
  refine ⟨?_, fun n hn' => ?_⟩
  · rw [hn, List.map_append, hW]
    exact pairwise_append_range' h.1 fun a ha => by
      obtain ⟨m, hm', rfl⟩ := List.mem_map.mp ha
      exact h.2 m hm'
  · rw [hn, List.mem_append] at hn'
    rcases hn' with hn' | hn'
    · exact le_trans (h.2 n hn') (by omega)
    · have := List.mem_map_of_mem Node.sqnum hn'
      rw [hW, List.mem_range'_1] at this
      omega

theorem LeafSteps.sqnumsRise (h : LeafSteps c s s') (hs : SqnumsRise s) : SqnumsRise s' :=
  h.induct SqnumsRise hs fun {t t'} hst ht => by
    rcases hst.flash with ⟨len, body, -, -, -, hf, hm⟩ | ⟨hf, hm⟩
    · exact ht.append (W := [⟨t.maxSqnum + 1, len, body⟩]) (by simp [Mkfs.nodes, hf, pushLeaf_placed]) rfl
        (by rw [hm]; rfl)
    · exact ht.append (W := []) (by simp [Mkfs.nodes, hf]) rfl (by simpa using hm)

end Sqnums

/-- The sequence numbers of a successful mkfs rise strictly in the order mkfs writes the nodes:
the leaves, the index nodes, the two master nodes, the superblock and its signature, and the
commit start node. No two nodes of the image share a sqnum. -/
theorem mkfs_sqnums {e : Env} {root : Option HostFile} {now : Int} {uuid : Bytes} {s' : Mkfs}
    (h : (mkfs e root now uuid).run (Mkfs.init e.info) = .ok ((), s')) : (s'.nodes.map Node.sqnum).Pairwise (· < ·) := by
  obtain ⟨s₁, W, mst, sup, sig, h₁, -, -, hW, -, -, hn⟩ := mkfs_image h
  -- write_data: the leaves' sqnums rise, none above the counter it leaves
  have h₁' : SqnumsRise s₁ := by
    obtain ⟨t, ht, rfl⟩ := writeData_steps (fun _ _ hi => by simp [Mkfs.init] at hi) h₁
    obtain ⟨hp, hle⟩ := ht.sqnumsRise (by simp [SqnumsRise, Mkfs.nodes, Mkfs.init, Flash.placed])
    exact ⟨by simpa [Mkfs.nodes] using hp, by simpa [Mkfs.nodes] using hle⟩
  -- the index nodes and the five after them take the counter's next values
  have hrest : (s'.nodes.map Node.sqnum) = s₁.nodes.map Node.sqnum ++ List.range' (s₁.maxSqnum + 1) (5 + W.length) := by
    rw [hn, List.map_append, List.map_append, hW, List.append_assoc,
      ← List.range'_append_1 (s₁.maxSqnum + 1) W.length 5]
    congr 2
    simp only [List.map_cons, List.map_nil, List.range', List.cons.injEq, and_true]
    omega
  rw [hrest]
  exact pairwise_append_range' h₁'.1 fun a ha => by
    obtain ⟨m, hm, rfl⟩ := List.mem_map.mp ha
    exact h₁'.2 m hm

theorem mkfs_sqnums_sampleRoot :
    ∃ s', (mkfs treeEnv (some sampleRoot) 0 []).run (Mkfs.init treeEnv.info) = .ok ((), s') ∧
    (s'.nodes.map Node.sqnum).Pairwise (· < ·) := by
  obtain ⟨s', h, -⟩ := mkfs_sampleRoot
  exact ⟨s', h, mkfs_sqnums h⟩

end MkfsUbifs

import MkfsUbifs.Steps

/-! # The image mkfs leaves

What mkfs has written once it returns: the nodes of write_data, then the index nodes, then the
two master nodes, the superblock and its signature, and the commit start node. leb_buf holds
nodes only between a copy and the next flush, so the stages that erase LEBs through it lose
nothing. -/

namespace MkfsUbifs

/-! ### leb_buf between flushes -/

/-- leb_buf is empty whenever the head is at the start of its LEB: every node copied into it
has a positive length and moves the head on. -/
def BufOk (fl : Flash) : Prop := fl.lebBuf = [] ∨ 0 < fl.headOffs

section Buf
variable {c : Info} {s s' : Mkfs}

theorem pushLeaf_bufOk {len : Nat} {n : Node} {fl : Flash} (hl : 0 < len) : BufOk (pushLeaf c len n fl) := by
  right
  show 0 < (reserveSpace c len fl).2.headOffs
  unfold reserveSpace align
  dsimp only
  omega

theorem flushNodes_lebBuf {fl : Flash} (h : BufOk fl) : (flushNodes c fl).lebBuf = [] := by
  unfold flushNodes
  split
  · rcases h with h | h
    · exact h
    · omega
  · rfl

theorem LeafSteps.bufOk (h : LeafSteps c s s') (hs : BufOk s.flash) : BufOk s'.flash :=
  h.induct (fun t => BufOk t.flash) hs fun hst ht => by
    rcases hst.flash with ⟨len, body, hl, -, -, hf, -⟩ | ⟨hf, -⟩
    · rw [hf]
      exact pushLeaf_bufOk hl
    · rw [hf]
      exact ht

theorem IdxSteps.bufOk (h : IdxSteps c s s') (hs : BufOk s.flash) : BufOk s'.flash :=
  h.induct (fun t => BufOk t.flash) hs fun hst _ => by
    obtain ⟨x, len, hl, -, rfl⟩ := hst.ok
    exact pushLeaf_bufOk hl

end Buf

/-- The walk writes only leaves. -/
theorem LeafSteps.leaves {c : Info} {s s' : Mkfs} (h : LeafSteps c s s') (hs : ∀ n ∈ s.nodes, n.body.isLeaf) :
    ∀ n ∈ s'.nodes, n.body.isLeaf :=
  h.induct (fun t => ∀ n ∈ t.nodes, n.body.isLeaf) hs fun {t t'} hst ht n hn => by
    rcases hst.flash with ⟨len, body, -, hb, -, hf, -⟩ | ⟨hf, -⟩
    · simp only [Mkfs.nodes, hf, pushLeaf_placed, List.map_append, List.map_cons, List.map_nil, List.mem_append,
        List.mem_singleton] at hn
      rcases hn with hn | rfl
      · exact ht n hn
      · exact hb
    · exact ht n (by rw [Mkfs.nodes, ← hf]; exact hn)

/-! ### The nodes of the index -/

/-- The index loops add index nodes, with the sqnums that follow, and leave the inode counter. -/
theorem IdxSteps.nodes {c : Info} {s s' : Mkfs} (h : IdxSteps c s s') :
    ∃ W, s'.nodes = s.nodes ++ W ∧ (∀ n ∈ W, ∃ x, n.body = .idx x) ∧
      W.map Node.sqnum = List.range' (s.maxSqnum + 1) W.length ∧ s'.maxSqnum = s.maxSqnum + W.length ∧
      s'.highestInum = s.highestInum := by
  refine h.induct (fun t => ∃ W, t.nodes = s.nodes ++ W ∧ (∀ n ∈ W, ∃ x, n.body = .idx x) ∧
      W.map Node.sqnum = List.range' (s.maxSqnum + 1) W.length ∧ t.maxSqnum = s.maxSqnum + W.length ∧
      t.highestInum = s.highestInum) ⟨[], by simp, by simp, rfl, rfl, rfl⟩ fun {t t'} hst ih => ?_
  obtain ⟨W, hn, hx, hq, hm, hh⟩ := ih
  obtain ⟨x, len, -, -, rfl⟩ := hst.ok
  refine ⟨W ++ [⟨t.maxSqnum + 1, len, .idx x⟩], ?_, ?_, ?_, by simp [hm]; omega, hh⟩
  · simp only [Mkfs.nodes, pushLeaf_placed, List.map_append, List.map_cons, List.map_nil] at hn ⊢
    rw [hn, List.append_assoc]
  · simp only [List.mem_append, List.mem_singleton]
    rintro n (hn' | rfl)
    · exact hx n hn'
    · exact ⟨x, rfl⟩
  · rw [List.map_append, hq, List.length_append, List.length_singleton, List.range'_concat, hm]
    simp
    omega

/-! ### The image -/

section Stages
variable {e : Env} {c : Info} {s s' : Mkfs} {u : Unit}

/-- The nodes of LEBs handed to the sink, in order. -/
def sinkNodes (xs : List (Nat × Leb)) : List Node := xs.flatMap fun x => x.2.placed.map Prod.snd

theorem Mkfs.nodes_eq (s : Mkfs) : s.nodes = sinkNodes s.flash.sink ++ s.flash.lebBuf.map Prod.snd := by
  simp [Mkfs.nodes, Flash.placed, sinkNodes, List.map_flatMap, Function.comp_def]

@[simp] theorem sinkNodes_append {xs ys : List (Nat × Leb)} : sinkNodes (xs ++ ys) = sinkNodes xs ++ sinkNodes ys :=
  List.flatMap_append _ _ _

@[simp] theorem sinkNodes_nil : sinkNodes [] = [] := rfl

@[simp] theorem sinkNodes_cons {x : Nat × Leb} {xs : List (Nat × Leb)} :
    sinkNodes (x :: xs) = x.2.placed.map Prod.snd ++ sinkNodes xs := rfl

/-- LEBs written without nodes add none. -/
theorem sinkNodes_map_nil (g : Nat → Leb) (hg : ∀ n, (g n).placed = []) :
    ∀ l : List Nat, sinkNodes (l.map fun n => (n, g n)) = []
  | [] => rfl
  | n :: l => by rw [List.map_cons, sinkNodes_cons, hg, sinkNodes_map_nil g hg l]; rfl

@[simp] theorem sinkNodes_empties {l : List Nat} : sinkNodes (l.map fun n => (n, Leb.empty)) = [] :=
  sinkNodes_map_nil (fun _ => .empty) (fun _ => rfl) l

@[simp] theorem sinkNodes_createLptWrites {pos : LptPos} : sinkNodes (createLptWrites c pos) = [] :=
  sinkNodes_map_nil (fun _ => .lpt) (fun _ => rfl) _

theorem setGcLnum_nodes (h : (setGcLnum c).run s = .ok (u, s')) (hb : s.flash.lebBuf = []) :
    s'.nodes = s.nodes ∧ s'.flash.lebBuf = [] ∧ s'.maxSqnum = s.maxSqnum ∧ s'.highestInum = s.highestInum := by
  rw [setGcLnum_run] at h
  obtain ⟨-, rfl⟩ := Prod.mk.inj (Except.ok.inj h)
  refine ⟨?_, rfl, rfl, rfl⟩
  rw [Mkfs.nodes_eq, Mkfs.nodes_eq]
  simp [writeEmptyLeb, setLprops, Leb.placed, hb]

theorem writeIndex_nodes (h : (writeIndex c).run s = .ok (u, s')) (hb : s.flash.lebBuf = []) :
    ∃ W, s'.nodes = s.nodes ++ W ∧ (∀ n ∈ W, ∃ x, n.body = .idx x) ∧
      W.map Node.sqnum = List.range' (s.maxSqnum + 1) W.length ∧ s'.maxSqnum = s.maxSqnum + W.length ∧
      s'.highestInum = s.highestInum ∧ s'.flash.lebBuf = [] := by
  obtain ⟨t, hash, ht, rfl⟩ := writeIndex_steps h
  obtain ⟨W, hn, hx, hq, hm, hh⟩ := ht.nodes
  refine ⟨W, ?_, hx, hq, hm, hh, flushNodes_lebBuf (ht.bufOk (.inl hb))⟩
  simp only [Mkfs.nodes, flushNodes_placed] at hn ⊢
  exact hn

theorem finalizeLebCnt_nodes (h : (finalizeLebCnt c).run s = .ok ((), s')) :
    s'.nodes = s.nodes ∧ s'.flash = s.flash ∧ s'.maxSqnum = s.maxSqnum ∧ s'.highestInum = s.highestInum := by
  obtain ⟨-, rfl⟩ := finalizeLebCnt_ok.mp h
  exact ⟨rfl, rfl, rfl, rfl⟩

theorem writeLpt_nodes (h : (writeLpt e).run s = .ok ((), s')) (hb : s.flash.lebBuf = []) :
    s'.nodes = s.nodes ∧ s'.flash.lebBuf = [] ∧ s'.maxSqnum = s.maxSqnum ∧ s'.highestInum = s.highestInum := by
  obtain ⟨pos, -, rfl⟩ := writeLpt_ok.mp h
  refine ⟨?_, by simp [hb], rfl, rfl⟩
  rw [Mkfs.nodes_eq, Mkfs.nodes_eq]
  simp [hb]

theorem writeMaster_nodes (h : (writeMaster e).run s = .ok ((), s')) (hb : s.flash.lebBuf = []) :
    s'.nodes = s.nodes ++ [⟨s.maxSqnum + 1, ubifsMstNodeSz, .mst (masterNode e s)⟩,
      ⟨s.maxSqnum + 2, ubifsMstNodeSz, .mst (masterNode e s)⟩] ∧
    s'.flash.lebBuf = [] ∧ s'.maxSqnum = s.maxSqnum + 2 ∧ s'.highestInum = s.highestInum := by
  obtain ⟨-, rfl⟩ := writeMaster_ok.mp h
  refine ⟨?_, rfl, rfl, rfl⟩
  rw [Mkfs.nodes_eq, Mkfs.nodes_eq]
  simp [Leb.placed, hb]

theorem writeSuper_nodes {uuid : Bytes} (h : (writeSuper e uuid).run s = .ok ((), s')) (hb : s.flash.lebBuf = []) :
    ∃ sig, s'.nodes = s.nodes ++ [⟨s.maxSqnum + 1, ubifsSbNodeSz, .sb (superNode e s uuid)⟩,
      ⟨s.maxSqnum + 2, ubifsSigNodeSz + sig.length, .sig sig⟩] ∧
    s'.flash.lebBuf = [] ∧ s'.maxSqnum = s.maxSqnum + 2 ∧ s'.highestInum = s.highestInum := by
  obtain ⟨sig, -, rfl⟩ := writeSuper_ok.mp h
  refine ⟨sig, ?_, hb, rfl, rfl⟩
  rw [Mkfs.nodes_eq, Mkfs.nodes_eq]
  simp [Leb.placed, hb]

theorem writeLog_nodes (h : (writeLog c).run s = .ok ((), s')) (hb : s.flash.lebBuf = []) :
    s'.nodes = s.nodes ++ [⟨s.maxSqnum + 1, ubifsCsNodeSz, .cs 0⟩] ∧
    s'.flash.lebBuf = [] ∧ s'.maxSqnum = s.maxSqnum + 1 ∧ s'.highestInum = s.highestInum := by
  obtain ⟨-, rfl⟩ := writeLog_ok.mp h
  refine ⟨?_, rfl, rfl, rfl⟩
  rw [Mkfs.nodes_eq, Mkfs.nodes_eq]
  simp [Leb.placed, hb]

theorem writeOrphanArea_nodes (h : (writeOrphanArea c).run s = .ok (u, s')) (hb : s.flash.lebBuf = []) :
    s'.nodes = s.nodes ∧ s'.maxSqnum = s.maxSqnum ∧ s'.highestInum = s.highestInum := by
  rw [writeOrphanArea, writeEmptyLebs_run] at h
  obtain ⟨-, rfl⟩ := Prod.mk.inj (Except.ok.inj h)
  refine ⟨?_, rfl, rfl⟩
  rw [Mkfs.nodes_eq, Mkfs.nodes_eq]
  simp [hb]

end Stages

/-- The image of a successful mkfs: the nodes write_data wrote, then the index nodes with the
sqnums that follow, then the master node twice, the superblock, its signature and the commit
start node. The master node records the inode counter write_data left, which no later stage
moves. -/
theorem mkfs_image {e : Env} {root : Option HostFile} {now : Int} {uuid : Bytes} {s' : Mkfs}
    (h : (mkfs e root now uuid).run (Mkfs.init e.info) = .ok ((), s')) :
    ∃ s₁ W mst sup sig, (writeData e root now).run (Mkfs.init e.info) = .ok ((), s₁) ∧
      (∀ n ∈ s₁.nodes, n.body.isLeaf) ∧ (∀ n ∈ W, ∃ x, n.body = .idx x) ∧ W.map Node.sqnum = List.range' (s₁.maxSqnum + 1) W.length ∧
      mst.highestInum = s₁.highestInum ∧ s'.highestInum = s₁.highestInum ∧
      s'.nodes = s₁.nodes ++ W ++
        [⟨s₁.maxSqnum + W.length + 1, ubifsMstNodeSz, .mst mst⟩,
          ⟨s₁.maxSqnum + W.length + 2, ubifsMstNodeSz, .mst mst⟩,
          ⟨s₁.maxSqnum + W.length + 3, ubifsSbNodeSz, .sb sup⟩,
          ⟨s₁.maxSqnum + W.length + 4, ubifsSigNodeSz + sig.length, .sig sig⟩,
          ⟨s₁.maxSqnum + W.length + 5, ubifsCsNodeSz, .cs 0⟩] := by
  obtain ⟨s₁, s₂, s₃, s₄, s₅, s₆, s₇, s₈, h₁, h₂, h₃, h₄, h₅, h₆, h₇, h₈, h₉⟩ := mkfs_ok h
  obtain ⟨hb₁, hl₁⟩ : s₁.flash.lebBuf = [] ∧ ∀ n ∈ s₁.nodes, n.body.isLeaf := by
    obtain ⟨t, ht, rfl⟩ := writeData_steps (fun _ _ hi => by simp [Mkfs.init] at hi) h₁
    refine ⟨flushNodes_lebBuf (ht.bufOk (.inl rfl)), ?_⟩
    simpa [Mkfs.nodes] using ht.leaves (by simp [Mkfs.nodes, Mkfs.init, Flash.placed])
  obtain ⟨n₂, b₂, m₂, i₂⟩ := setGcLnum_nodes h₂ hb₁
  obtain ⟨W, n₃, hx, hq, m₃, i₃, b₃⟩ := writeIndex_nodes h₃ b₂
  obtain ⟨n₄, f₄, m₄, i₄⟩ := finalizeLebCnt_nodes h₄
  obtain ⟨n₅, b₅, m₅, i₅⟩ := writeLpt_nodes h₅ (f₄ ▸ b₃)
  obtain ⟨n₆, b₆, m₆, i₆⟩ := writeMaster_nodes h₆ b₅
  obtain ⟨sig, n₇, b₇, m₇, i₇⟩ := writeSuper_nodes h₇ b₆
  obtain ⟨n₈, b₈, m₈, i₈⟩ := writeLog_nodes h₈ b₇
  obtain ⟨n₉, -, i₉⟩ := writeOrphanArea_nodes h₉ b₈
  have hm : s₅.maxSqnum = s₁.maxSqnum + W.length := by rw [m₅, m₄, m₃, m₂]
  refine ⟨s₁, W, masterNode e s₅, superNode e s₆ uuid, sig, h₁, hl₁, hx, m₂ ▸ hq, ?_, ?_, ?_⟩
  · show s₅.highestInum = s₁.highestInum
    rw [i₅, i₄, i₃, i₂]
  · rw [i₉, i₈, i₇, i₆, i₅, i₄, i₃, i₂]
  · rw [n₉, n₈, n₇, n₆, n₅, n₄, n₃, n₂, m₇, m₆, hm]
    simp

end MkfsUbifs

import Mathlib.Logic.Relation
import MkfsUbifs.Nodes
import MkfsUbifs.Pipeline

/-! # The build, step by step

Every node the build puts in the main area goes through reserve_space and a copy into leb_buf:
add_node for the leaves, add_idx_node for the index. Between two such writes the walk moves only
its counters, the creation sqnum and the link-counting table. This file takes the runs of
write_data and write_index apart into these steps, so that a property of the flash side is
proved once per step and holds over every run, and it takes mkfs apart into its stages. -/

namespace MkfsUbifs

/-! ### The steps of write_data -/

/-- The nodes add_node writes: inodes, directory and xattr entries, data. -/
def NodeBody.isLeaf : NodeBody → Bool
  | .ino _ | .dent _ | .xent _ | .data _ => true
  | _ => false

/-- One step of write_data: add_node writes a leaf of positive length, or the counters, the
creation sqnum and the link-counting table move while the flash side and the index list stay
and the sequence counter does not go back. -/
inductive LeafStep (c : Info) : Mkfs → Mkfs → Prop
  | node {s s' : Mkfs} {key : Key} {name : Option Bytes} {body : NodeBody} {len : Nat} :
      0 < len → body.isLeaf → (addNode c key name body len).run s = .ok ((), s') → LeafStep c s s'
  | other {s s' : Mkfs} : s'.flash = s.flash → s'.idxList = s.idxList → s.maxSqnum ≤ s'.maxSqnum →
      LeafStep c s s'

/-- A run of write_data's walk, as its steps. -/
def LeafSteps (c : Info) : Mkfs → Mkfs → Prop := Relation.ReflTransGen (LeafStep c)

namespace LeafSteps
variable {c : Info} {s s₁ s' : Mkfs}

theorem refl : LeafSteps c s s := Relation.ReflTransGen.refl

theorem trans (h₁ : LeafSteps c s s₁) (h₂ : LeafSteps c s₁ s') : LeafSteps c s s' :=
  Relation.ReflTransGen.trans h₁ h₂

theorem node {key : Key} {name : Option Bytes} {body : NodeBody} {len : Nat} (hl : 0 < len)
    (h : (addNode c key name body len).run s = .ok ((), s')) (hb : body.isLeaf) : LeafSteps c s s' :=
  Relation.ReflTransGen.single (.node hl hb h)

/-- A step of the counters alone. -/
theorem other (hf : s'.flash = s.flash) (hi : s'.idxList = s.idxList) (hm : s.maxSqnum ≤ s'.maxSqnum) :
    LeafSteps c s s' :=
  Relation.ReflTransGen.single (.other hf hi hm)

/-- A run that starts after a step of the counters alone. -/
theorem pre (s : Mkfs) {t : Mkfs} (h : LeafSteps c t s') (hf : t.flash = s.flash) (hi : t.idxList = s.idxList)
    (hm : s.maxSqnum ≤ t.maxSqnum) : LeafSteps c s s' :=
  Relation.ReflTransGen.head (.other hf hi hm) h

/-- A property of states that every step keeps holds after every run. -/
theorem induct (P : Mkfs → Prop) (h : LeafSteps c s s') (hs : P s)
    (step : ∀ {t t'}, LeafStep c t t' → P t → P t') : P s' := by
  induction h with
  | refl => exact hs
  | tail _ h₂ ih => exact step h₂ ih

end LeafSteps

/-- What a step does to the flash side: add_node puts a node of positive length that fits where
reserve_space says, with the next sqnum; or the flash side stays. -/
theorem LeafStep.flash {c : Info} {s s' : Mkfs} (h : LeafStep c s s') :
    (∃ len body, 0 < len ∧ body.isLeaf ∧ (reserveSpace c len s.flash).1.2 + align len 8 ≤ c.lebSize ∧
      s'.flash = pushLeaf c len ⟨s.maxSqnum + 1, len, body⟩ s.flash ∧ s'.maxSqnum = s.maxSqnum + 1) ∨
    (s'.flash = s.flash ∧ s.maxSqnum ≤ s'.maxSqnum) := by
  cases h with
  | node hl hb h =>
    obtain ⟨-, hfit, rfl⟩ := addNode_ok h
    exact .inl ⟨_, _, hl, hb, hfit, rfl, rfl⟩
  | other hf _ hm => exact .inr ⟨hf, hm⟩

section Emitters
variable {e : Env} {st : Stat} {inum flags : Nat} {s s' : Mkfs} {u : Unit}

theorem addXattr_steps {host host' : InoNode} {name data : Bytes}
    (h : (addXattr e host st inum name data).run s = .ok (host', s')) : LeafSteps e.info s s' := by
  obtain ⟨-, s₁, h₁, h₂⟩ := addXattr_ok h
  exact ((LeafSteps.node (by simp [ubifsXentNodeSz]) h₁ rfl).trans
    (LeafSteps.node (by simp only [ubifsInoNodeSz]; omega) h₂ rfl)).pre s rfl rfl (Nat.le_succ _)

theorem AddXattrs.steps {xs : List (Bytes × Bytes)} {host host' : InoNode}
    (h : AddXattrs e st inum xs host s host' s') : LeafSteps e.info s s' := by
  induction h with
  | nil => exact .refl
  | cons hx _ ih => exact (addXattr_steps hx).trans ih

theorem addInode_steps {data : Bytes} {xattrPath : Option (Bytes × List (Bytes × Bytes))}
    {fctx : Option Bytes} (h : (addInode e st inum data flags xattrPath fctx).run s = .ok (u, s')) :
    LeafSteps e.info s s' := by
  obtain ⟨d, ino, s₁, -, hx, hn⟩ := addInode_ok h
  exact hx.steps.trans (.node (by simp only [ubifsInoNodeSz]; omega) hn rfl)

theorem Leaves.steps {c : Info} {ls : List (Key × Option Bytes × NodeBody × Nat)} (h : Leaves c ls s s')
    (hl : ∀ l ∈ ls, 0 < l.2.2.2 ∧ l.2.2.1.isLeaf) : LeafSteps c s s' := by
  induction h with
  | nil => exact .refl
  | cons h₁ _ ih =>
    obtain ⟨hp, hb⟩ := hl _ (List.mem_cons_self _ _)
    exact (LeafSteps.node hp h₁ hb).trans (ih fun l hm => hl l (List.mem_cons_of_mem _ hm))

theorem addNonDirNodes_steps {path : Bytes} {hf : HostFile} {fctx : Option Bytes}
    (h : (addNonDirNodes e path hf st inum flags fctx).run s = .ok (u, s')) : LeafSteps e.info s s' := by
  obtain ⟨-, ls, s₁, hl, hd, -, hi⟩ := addNonDirNodes_ok h
  refine (hl.steps fun l hm => ?_).trans (addInode_steps hi)
  obtain ⟨-, b, dn, -, hb, hlen⟩ := hd l hm
  exact ⟨lt_of_lt_of_le (by decide) hlen, by rw [hb]; rfl⟩

theorem linkInumMapping_steps {c : Info} {path : Bytes} {hf : HostFile} {r : Nat}
    (h : (linkInumMapping path hf st inum).run s = .ok (r, s')) : LeafSteps c s s' := by
  rcases linkInumMapping_ok h with ⟨-, -, rfl⟩ | ⟨_, -, -, rfl⟩ <;> exact .other rfl rfl le_rfl

theorem addNonDir_steps {path : Bytes} {hf : HostFile} {nlink : Nat} {fctx : Option Bytes} {r : Nat × Nat}
    (h : (addNonDir e path hf inum nlink st fctx).run s = .ok (r, s')) : LeafSteps e.info s s' := by
  rcases (addNonDir_ok h).2 with ⟨-, -, h₁⟩ | ⟨-, -, h₁⟩
  · exact linkInumMapping_steps h₁
  · exact (addNonDirNodes_steps h₁).pre s rfl rfl (Nat.le_succ _)

theorem addDentNode_steps {dirInum type klen : Nat} {name : Bytes} {fctx : Option Bytes}
    (h : (addDentNode e dirInum name inum type fctx).run s = .ok (klen, s')) : LeafSteps e.info s s' := by
  obtain ⟨kname, -, -, hn⟩ := addDentNode_ok h
  exact .node (by simp [ubifsDentNodeSz]) hn rfl

end Emitters

section Walk
variable {e : Env}

/-- The walk is a run of steps. -/
theorem walk_steps :
    (∀ dirName hf dirInum st existing fctx s s',
      (addDirectory e dirName hf dirInum st existing fctx).run s = .ok ((), s') → LeafSteps e.info s s') ∧
    (∀ dirName dirInum fctx entries size nlink res s s',
      (addEntries e dirName dirInum fctx entries size nlink).run s = .ok (res, s') →
      LeafSteps e.info s s') := by
  have hc : WalkCases e (fun _ _ _ _ _ _ s s' => LeafSteps e.info s s')
      (fun _ _ _ _ _ _ _ s s' => LeafSteps e.info s s') := by
    refine ⟨?_, .refl, fun _ h => h, ?_, ?_⟩
    · intro dirName hf dirInum st existing fctx s s₁ s' r hr h₁
      have he : LeafSteps e.info s s₁ := by
        cases existing
        · simp only [Bool.false_eq_true, if_false] at hr
          rw [hr.2]
          exact .other rfl rfl (Nat.le_succ _)
        · have hr : LeafSteps e.info _ s₁ := hr
          exact hr.pre s rfl rfl (Nat.le_succ _)
      unfold addDirInode at h₁
      exact he.trans ((addInode_steps h₁).pre s₁ rfl rfl le_rfl)
    · intro _ _ _ _ _ _ _ _ _ _ s _ _ _ _ _ h₁ h₂ h₃
      exact ((h₁.trans (addDentNode_steps h₂)).trans h₃).pre s rfl rfl le_rfl
    · intro _ _ _ _ _ _ _ _ _ _ s _ _ _ _ _ _ h₁ h₂ h₃
      exact (((addNonDir_steps h₁).trans (addDentNode_steps h₂)).trans h₃).pre s rfl rfl le_rfl
  exact hc.sound

theorem LinkedRuns.steps {chain : List InumMapping} {s s' : Mkfs} (h : LinkedRuns e chain s s') :
    LeafSteps e.info s s' := by
  induction h with
  | nil => exact .refl
  | cons h₁ _ ih => exact (addNonDir_steps h₁).trans ih

/-- write_data: the head set to write leaves, the steps of the walk and of the deferred files,
and the last flush. -/
theorem writeData_steps {root : Option HostFile} {now : Int} {s s' : Mkfs} {u : Unit} (hs : TableOk s)
    (h : (writeData e root now).run s = .ok (u, s')) :
    ∃ s₁, LeafSteps e.info { s with flash := { s.flash with headFlags := 0 } } s₁ ∧
      s' = { s₁ with flash := flushNodes e.info s₁.flash } := by
  obtain ⟨s₁, s₂, h₁, h₂, rfl⟩ := writeData_ok h
  rw [addRootDirectory_run] at h₁
  exact ⟨s₂, (walk_steps.1 _ _ _ _ _ _ _ _ h₁).trans (addMultiLinkedFiles_ok (addDirectory_tableOk h₁ hs) h₂).1.steps,
    rfl⟩

end Walk

/-! ### The steps of write_index -/

/-- One step of write_index: add_idx_node writes an index node. -/
def IdxStep (c : Info) (s s' : Mkfs) : Prop := ∃ x cc n, (addIdxNode c x cc).run s = .ok (n, s')

/-- A run of write_index's loops, as its steps. -/
def IdxSteps (c : Info) : Mkfs → Mkfs → Prop := Relation.ReflTransGen (IdxStep c)

section Index
variable {c : Info} {ptrs : List IdxEntry}

/-- add_idx_node writes a node of positive length that fits where reserve_space puts it, with
the next sqnum, and records it as the root so far. -/
theorem IdxStep.ok {s s' : Mkfs} (h : IdxStep c s s') :
    ∃ x len, 0 < len ∧ (reserveSpace c len s.flash).1.2 + align len 8 ≤ c.lebSize ∧ s' = { s with
      flash := pushLeaf c len ⟨s.maxSqnum + 1, len, .idx x⟩ s.flash
      maxSqnum := s.maxSqnum + 1
      oldIdxSz := s.oldIdxSz + align len 8
      zroot := ((reserveSpace c len s.flash).1.1, (reserveSpace c len s.flash).1.2, len) } := by
  obtain ⟨x, cc, n, h⟩ := h
  rw [addIdxNode_run] at h
  dsimp only at h
  split at h
  · cases h
  · rename_i hfit
    simp only [Except.ok.injEq, Prod.mk.injEq] at h
    exact ⟨x, _, by simp only [ubifsIdxNodeSz, ubifsIdxNodeSzBase]; omega, Nat.le_of_not_lt hfit, h.2.symm⟩

theorem IdxSteps.induct (P : Mkfs → Prop) {s s' : Mkfs} (h : IdxSteps c s s') (hs : P s)
    (step : ∀ {t t'}, IdxStep c t t' → P t → P t') : P s' := by
  induction h with
  | refl => exact hs
  | tail _ h₂ ih => exact step h₂ ih

theorem writeLevel0_steps {idxCnt cnt : Nat} : ∀ k i p hashes cc s s' (r : List Bytes × Nat),
    (writeLevel0 c idxCnt cnt k i p hashes cc).run s = .ok (r, s') → IdxSteps c s s' := by
  intro k
  induction k with
  | zero =>
    intro i p hashes cc s s' r h
    simp only [writeLevel0, run_pure, Except.ok.injEq, Prod.mk.injEq] at h
    rw [← h.2]
    exact .refl
  | succ k ih =>
    intro i p hashes cc s s' r h
    rw [writeLevel0] at h
    obtain ⟨n, s₁, h₁, h₂⟩ := run_bind_ok.mp h
    exact Relation.ReflTransGen.head ⟨_, _, _, h₁⟩ (ih _ _ _ _ _ _ _ h₂)

theorem levelRow_steps {level cnt bcnt blastLen idxSz pstep : Nat} :
    ∀ k i p blnum boffs hashes cc s s' (r : Nat × Nat × List Bytes × Nat),
      (levelRow c ptrs level cnt bcnt blastLen idxSz pstep k i p blnum boffs hashes cc).run s = .ok (r, s') →
      IdxSteps c s s' := by
  intro k
  induction k with
  | zero =>
    intro i p blnum boffs hashes cc s s' r h
    simp only [levelRow, run_pure, Except.ok.injEq, Prod.mk.injEq] at h
    rw [← h.2]
    exact .refl
  | succ k ih =>
    intro i p blnum boffs hashes cc s s' r h
    rw [levelRow] at h
    dsimp only at h
    obtain ⟨n, s₁, h₁, h₂⟩ := run_bind_ok.mp h
    exact Relation.ReflTransGen.head ⟨_, _, _, h₁⟩ (ih _ _ _ _ _ _ _ _ _ h₂)

theorem writeLevels_steps {idxSz : Nat} : ∀ cnt level pstep blnum boffs hashes cc s s' (r : List Bytes),
    (writeLevels c ptrs idxSz level cnt pstep blnum boffs hashes cc).run s = .ok (r, s') → IdxSteps c s s' := by
  intro cnt
  induction cnt using Nat.strong_induction_on with
  | _ cnt ih =>
  intro level pstep blnum boffs hashes cc s s' r h
  rw [writeLevels] at h
  split at h
  · rename_i h1
    obtain ⟨q, s₁, h₁, h₂⟩ := run_bind_ok.mp h
    have hlt := ceil_div_lt (le_trans (by decide) c.fanout_ge) h1
    exact (levelRow_steps _ _ _ _ _ _ _ _ _ _ h₁).trans
      (ih _ (by split <;> omega) _ _ _ _ _ _ _ _ _ h₂)
  · simp only [run_pure, Except.ok.injEq, Prod.mk.injEq] at h
    rw [← h.2]
    exact .refl

/-- The level-0 loop with a node left to write writes it first. -/
theorem writeLevel0_first {idxCnt cnt k i : Nat} {p : List IdxEntry} {hashes : List Bytes} {cc : Nat}
    {s s' : Mkfs} {r : List Bytes × Nat} (hk : 0 < k)
    (h : (writeLevel0 c idxCnt cnt k i p hashes cc).run s = .ok (r, s')) : ∃ t, IdxStep c s t ∧ IdxSteps c t s' := by
  cases k with
  | zero => omega
  | succ k =>
    rw [writeLevel0] at h
    obtain ⟨n, s₁, h₁, h₂⟩ := run_bind_ok.mp h
    exact ⟨s₁, ⟨_, _, _, h₁⟩, writeLevel0_steps _ _ _ _ _ _ _ _ h₂⟩

/-- write_index: the head set to write index nodes, a first index node (the index list is not
empty, so level 0 has a node), the other steps of its loops, the index head recorded, and the last
flush. -/
theorem writeIndex_steps_first {s s' : Mkfs} {u : Unit} (h : (writeIndex c).run s = .ok (u, s')) :
    ∃ t s₁ hash, IdxStep c { s with flash := { s.flash with headFlags := lpropsIndex } } t ∧ IdxSteps c t s₁ ∧
      s' = { s₁ with
        flash := flushNodes c s₁.flash
        rootIdxHash := hash
        iheadLnum := s₁.flash.headLnum
        iheadOffs := align s₁.flash.headOffs c.minIoSize } := by
  unfold writeIndex at h
  rw [run_bind_of_ok run_onFlash] at h
  dsimp only at h
  rw [run_bind_of_ok run_get] at h
  dsimp only at h
  by_cases h1 : s.idxList.length * 8 % 2 ^ 64 / 8 ≠ s.idxList.length
  · rw [if_pos h1, run_bind_of_error run_throw] at h
    cases h
  rw [if_neg h1, run_bind_of_ok run_pure] at h
  by_cases h0 : s.idxList.length = 0
  · rw [if_pos h0, run_bind_of_error run_throw] at h
    cases h
  rw [if_neg h0, run_bind_of_ok run_pure] at h
  obtain ⟨⟨hashes, cc⟩, s₁, h₁, h₂⟩ := run_bind_ok.mp h
  obtain ⟨r₁, s₂, h₃, h₄⟩ := run_bind_ok.mp h₂
  rw [run_bind_of_ok run_modify, run_bind_of_ok run_modify, run_onFlash] at h₄
  simp only [Except.ok.injEq, Prod.mk.injEq] at h₄
  -- level 0 has a node: m leaves fill m / fanout nodes, and one more takes a remainder
  have hcnt : 0 < s.idxList.length / c.fanout + if s.idxList.length % c.fanout ≠ 0 then 1 else 0 := by
    split
    · exact Nat.succ_pos _
    · rename_i hr
      have hdm := Nat.div_add_mod s.idxList.length c.fanout
      refine Nat.pos_of_ne_zero fun hz => ?_
      rw [Nat.add_zero] at hz
      rw [hz, Nat.mul_zero] at hdm
      omega
  obtain ⟨t, ht, ht₁⟩ := writeLevel0_first hcnt h₁
  exact ⟨t, s₂, _, ht, ht₁.trans (writeLevels_steps _ _ _ _ _ _ _ _ _ _ h₃), h₄.2.symm⟩

/-- write_index: the head set to write index nodes, the steps of its loops, the index head
recorded, and the last flush. -/
theorem writeIndex_steps {s s' : Mkfs} {u : Unit} (h : (writeIndex c).run s = .ok (u, s')) :
    ∃ s₁ hash, IdxSteps c { s with flash := { s.flash with headFlags := lpropsIndex } } s₁ ∧
      s' = { s₁ with
        flash := flushNodes c s₁.flash
        rootIdxHash := hash
        iheadLnum := s₁.flash.headLnum
        iheadOffs := align s₁.flash.headOffs c.minIoSize } := by
  obtain ⟨t, s₁, hash, ht, ht₁, rfl⟩ := writeIndex_steps_first h
  exact ⟨s₁, hash, .head ht ht₁, rfl⟩

end Index

/-! ### The stages of mkfs -/

section Stages
variable {e : Env} {c : Info} {s s' : Mkfs} {u : Unit}

theorem setGcLnum_run : (setGcLnum c).run s = .ok ((), { s with
    gcLnum := s.flash.headLnum
    flash :=
      let fl := setLprops c s.flash.headLnum 0 0
        (writeEmptyLeb s.flash.headLnum { s.flash with headLnum := s.flash.headLnum + 1 })
      { fl with lst := { fl.lst with emptyLebs := fl.lst.emptyLebs + 1 } } }) := rfl

theorem finalizeLebCnt_ok : (finalizeLebCnt c).run s = .ok ((), s') ↔
    s.flash.headLnum ≤ c.maxLebCnt ∧ s' = { s with lebCnt := s.flash.headLnum } := by
  unfold finalizeLebCnt
  rw [run_bind_of_ok run_get, run_bind_of_ok run_modify]
  by_cases hc : c.maxLebCnt < s.flash.headLnum
  · simp [hc]
  · simp [hc, Nat.le_of_not_lt hc, eq_comm]

/-- k calls of write_empty_leb: the LEBs from lnum on erased, leb_buf emptied by the first. -/
theorem writeEmptyLebs_run (lnum k : Nat) (s : Mkfs) : (writeEmptyLebs lnum k).run s = .ok ((), { s with
    flash := { s.flash with
      sink := s.flash.sink ++ (List.range' lnum k).map fun l => (l, Leb.empty)
      lebBuf := if k = 0 then s.flash.lebBuf else [] } }) := by
  induction k generalizing lnum s with
  | zero => simp [writeEmptyLebs]
  | succ k ih =>
    rw [writeEmptyLebs, run_bind_of_ok run_onFlash, ih]
    simp [writeEmptyLeb, List.range'_succ]

theorem writeLpt_ok : (writeLpt e).run s = .ok ((), s') ↔
    ∃ pos, e.createLpt s.flash.lpt (s.lebCnt - e.info.mainFirst) = some pos ∧
      s' = { s with
        lscanLnum := e.info.mainFirst
        lptPos := pos
        flash := { s.flash with
          sink := s.flash.sink ++ createLptWrites e.info pos ++
            (List.range' (pos.nheadLnum + 1) (e.info.lptLast - pos.nheadLnum)).map fun l => (l, Leb.empty)
          lebBuf := if e.info.lptLast - pos.nheadLnum = 0 then s.flash.lebBuf else [] } } := by
  unfold writeLpt
  rw [run_bind_of_ok run_modify, run_bind_of_ok run_get]
  dsimp only
  split
  · rename_i hpos
    simp [hpos]
  · rename_i pos hpos
    rw [run_bind_of_ok run_set, run_bind_of_ok run_onFlash, writeEmptyLebs_run]
    simp [hpos, eq_comm]

/-- write_node: the node alone at the start of its LEB, leb_buf used for it. -/
theorem writeNode_ok {body : NodeBody} {len lnum : Nat} : (writeNode c body len lnum).run s = .ok ((), s') ↔
    align len c.minIoSize ≤ c.lebSize ∧ s' = { s with
      maxSqnum := s.maxSqnum + 1
      flash := { s.flash with
        sink := s.flash.sink ++
          [(lnum, .nodes [(0, ⟨s.maxSqnum + 1, len, body⟩)] (align len 8) (align len c.minIoSize))]
        lebBuf := [] } } := by
  unfold writeNode
  rw [run_bind_of_ok prepareNode_run]
  by_cases hc : c.lebSize < align len c.minIoSize
  · rw [if_pos hc, run_bind_of_error run_throw]
    simp [hc]
  · rw [if_neg hc, run_bind_of_ok run_pure, run_onFlash]
    simp [Nat.le_of_not_lt hc, eq_comm]

theorem writeMaster_ok : (writeMaster e).run s = .ok ((), s') ↔
    align ubifsMstNodeSz e.info.minIoSize ≤ e.info.lebSize ∧ s' = { s with
      maxSqnum := s.maxSqnum + 2
      mstHash := e.masterCalcHash (masterNode e s)
      flash := { s.flash with
        sink := s.flash.sink ++
          [(ubifsMstLnum, .nodes [(0, ⟨s.maxSqnum + 1, ubifsMstNodeSz, .mst (masterNode e s)⟩)]
              (align ubifsMstNodeSz 8) (align ubifsMstNodeSz e.info.minIoSize)),
            (ubifsMstLnum + 1, .nodes [(0, ⟨s.maxSqnum + 2, ubifsMstNodeSz, .mst (masterNode e s)⟩)]
              (align ubifsMstNodeSz 8) (align ubifsMstNodeSz e.info.minIoSize))]
        lebBuf := [] } } := by
  unfold writeMaster
  rw [run_bind_of_ok run_get]
  by_cases hc : align ubifsMstNodeSz e.info.minIoSize ≤ e.info.lebSize
  · rw [run_bind_of_ok (writeNode_ok.mpr ⟨hc, rfl⟩), run_bind_of_ok (writeNode_ok.mpr ⟨hc, rfl⟩), run_modify]
    simp [hc, eq_comm]
  · refine ⟨fun h => ?_, fun h => absurd h.1 hc⟩
    obtain ⟨_, s₁, h₁, -⟩ := run_bind_ok.mp h
    exact absurd (writeNode_ok.mp h₁).1 hc

theorem writeSuper_ok {uuid : Bytes} : (writeSuper e uuid).run s = .ok ((), s') ↔
    ∃ sig, e.signSb (superNode e s uuid) = some sig ∧ s' = { s with
      maxSqnum := s.maxSqnum + 2
      flash := { s.flash with
        sink := s.flash.sink ++
          [(ubifsSbLnum, .super [(0, ⟨s.maxSqnum + 1, ubifsSbNodeSz, .sb (superNode e s uuid)⟩),
              (ubifsSbNodeSz, ⟨s.maxSqnum + 2, ubifsSigNodeSz + sig.length, .sig sig⟩)]
            (ubifsSbNodeSz + align (align (ubifsSigNodeSz + sig.length) 8) e.info.minIoSize))] } } := by
  unfold writeSuper
  rw [run_bind_of_ok run_get, run_bind_of_ok prepareNode_run]
  dsimp only
  split
  · rename_i hsig
    simp [hsig]
  · rename_i sig hsig
    rw [run_bind_of_ok prepareNode_run, run_onFlash]
    simp [hsig, eq_comm]

theorem writeLog_ok : (writeLog c).run s = .ok ((), s') ↔
    align ubifsCsNodeSz c.minIoSize ≤ c.lebSize ∧ s' = { s with
      maxSqnum := s.maxSqnum + 1
      flash := { s.flash with
        sink := s.flash.sink ++
          [(ubifsLogLnum, .nodes [(0, ⟨s.maxSqnum + 1, ubifsCsNodeSz, .cs 0⟩)] (align ubifsCsNodeSz 8)
            (align ubifsCsNodeSz c.minIoSize))] ++
          (List.range' (ubifsLogLnum + 1) (c.logLebs - 1)).map fun l => (l, Leb.empty)
        lebBuf := [] } } := by
  unfold writeLog
  by_cases hc : align ubifsCsNodeSz c.minIoSize ≤ c.lebSize
  · rw [run_bind_of_ok (writeNode_ok.mpr ⟨hc, rfl⟩), writeEmptyLebs_run]
    simp [hc, eq_comm]
  · refine ⟨fun h => ?_, fun h => absurd h.1 hc⟩
    obtain ⟨_, s₁, h₁, -⟩ := run_bind_ok.mp h
    exact absurd (writeNode_ok.mp h₁).1 hc

/-- mkfs runs its stages in order, each from where the one before left the builder. -/
theorem mkfs_ok {root : Option HostFile} {now : Int} {uuid : Bytes}
    (h : (mkfs e root now uuid).run s = .ok (u, s')) :
    ∃ s₁ s₂ s₃ s₄ s₅ s₆ s₇ s₈, (writeData e root now).run s = .ok ((), s₁) ∧
      (setGcLnum e.info).run s₁ = .ok ((), s₂) ∧ (writeIndex e.info).run s₂ = .ok ((), s₃) ∧
      (finalizeLebCnt e.info).run s₃ = .ok ((), s₄) ∧ (writeLpt e).run s₄ = .ok ((), s₅) ∧
      (writeMaster e).run s₅ = .ok ((), s₆) ∧ (writeSuper e uuid).run s₆ = .ok ((), s₇) ∧
      (writeLog e.info).run s₇ = .ok ((), s₈) ∧ (writeOrphanArea e.info).run s₈ = .ok (u, s') := by
  unfold mkfs at h
  obtain ⟨⟨⟩, s₁, h₁, h⟩ := run_bind_ok.mp h
  obtain ⟨⟨⟩, s₂, h₂, h⟩ := run_bind_ok.mp h
  obtain ⟨⟨⟩, s₃, h₃, h⟩ := run_bind_ok.mp h
  obtain ⟨⟨⟩, s₄, h₄, h⟩ := run_bind_ok.mp h
  obtain ⟨⟨⟩, s₅, h₅, h⟩ := run_bind_ok.mp h
  obtain ⟨⟨⟩, s₆, h₆, h⟩ := run_bind_ok.mp h
  obtain ⟨⟨⟩, s₇, h₇, h⟩ := run_bind_ok.mp h
  obtain ⟨⟨⟩, s₈, h₈, h⟩ := run_bind_ok.mp h
  exact ⟨s₁, s₂, s₃, s₄, s₅, s₆, s₇, s₈, h₁, h₂, h₃, h₄, h₅, h₆, h₇, h₈, h⟩

end Stages

end MkfsUbifs

import MkfsUbifs.Inums

/-! # Where each LEB goes

The LEB numbers mkfs hands to ubifs_leb_change, stage by stage. write_data, set_gc_lnum and
write_index fill the main area from main_first up, each LEB once, as the write head leaves it;
finalize_leb_cnt ends the image at the head. The later stages write the areas init laid out
below main_first: the LPT (ubifs_create_lpt, then the LEBs write_lpt erases after its head), the
two master LEBs, the superblock, the log and the orphan area. Every call hands a whole LEB image,
as every ubifs_leb_change call of mkfs.ubifs.c passes leb_size. -/

namespace MkfsUbifs

/-! ### The main area -/

/-- The main area so far: the head LEB at main_first or above, and every LEB below it handed to
the sink once, in order. -/
def MainSink (c : Info) (fl : Flash) : Prop :=
  c.mainFirst ≤ fl.headLnum ∧ fl.sink.map Prod.fst = List.range' c.mainFirst (fl.headLnum - c.mainFirst)

section Main
variable {e : Env} {c : Info} {fl : Flash} {s s' : Mkfs} {u : Unit}

/-- The head LEB handed to the sink and the head moved to the next one. -/
theorem MainSink.next {fl' : Flash} (h : MainSink c fl) (hl : fl'.headLnum = fl.headLnum + 1)
    (hs : fl'.sink.map Prod.fst = fl.sink.map Prod.fst ++ [fl.headLnum]) : MainSink c fl' := by
  obtain ⟨hle, hs₀⟩ := h
  refine ⟨by omega, ?_⟩
  rw [hs, hs₀, hl, show fl.headLnum + 1 - c.mainFirst = fl.headLnum - c.mainFirst + 1 by omega,
    List.range'_concat, show c.mainFirst + 1 * (fl.headLnum - c.mainFirst) = fl.headLnum by omega]

theorem flushNodes_mainSink (h : MainSink c fl) : MainSink c (flushNodes c fl) := by
  unfold flushNodes
  split
  · exact h
  · exact h.next rfl (by simp)

theorem pushLeaf_mainSink {len : Nat} {n : Node} (h : MainSink c fl) : MainSink c (pushLeaf c len n fl) := by
  unfold pushLeaf reserveSpace
  split
  · exact flushNodes_mainSink h
  · exact h

theorem LeafSteps.mainSink (h : LeafSteps c s s') (hs : MainSink c s.flash) : MainSink c s'.flash :=
  h.induct (fun t => MainSink c t.flash) hs fun hst ht => by
    rcases hst.flash with ⟨len, body, -, -, -, hf, -⟩ | ⟨hf, -⟩
    · rw [hf]
      exact pushLeaf_mainSink ht
    · rw [hf]
      exact ht

theorem IdxSteps.mainSink (h : IdxSteps c s s') (hs : MainSink c s.flash) : MainSink c s'.flash :=
  h.induct (fun t => MainSink c t.flash) hs fun hst ht => by
    obtain ⟨x, len, -, -, rfl⟩ := hst.ok
    exact pushLeaf_mainSink ht

theorem writeData_mainSink {root : Option HostFile} {now : Int} (hs : TableOk s)
    (h : (writeData e root now).run s = .ok (u, s')) (hm : MainSink e.info s.flash) : MainSink e.info s'.flash := by
  obtain ⟨t, ht, rfl⟩ := writeData_steps hs h
  exact flushNodes_mainSink (ht.mainSink hm)

theorem setGcLnum_mainSink (h : (setGcLnum c).run s = .ok (u, s')) (hm : MainSink c s.flash) :
    MainSink c s'.flash := by
  rw [setGcLnum_run] at h
  obtain ⟨-, rfl⟩ := Prod.mk.inj (Except.ok.inj h)
  exact hm.next rfl (by simp [writeEmptyLeb])

theorem writeIndex_mainSink (h : (writeIndex c).run s = .ok (u, s')) (hm : MainSink c s.flash) :
    MainSink c s'.flash := by
  obtain ⟨t, hash, ht, rfl⟩ := writeIndex_steps h
  exact flushNodes_mainSink (ht.mainSink hm)

end Main

/-! ### The areas -/

/-- What ubifs_create_lpt is taken to do: write the LPT from lpt_first on and leave its head in
the LPT area. -/
def Env.LptInArea (e : Env) : Prop :=
  ∀ lpt n pos, e.createLpt lpt n = some pos → e.info.lptFirst ≤ pos.nheadLnum ∧ pos.nheadLnum ≤ e.info.lptLast

@[simp] theorem createLptWrites_fst {c : Info} {pos : LptPos} :
    (createLptWrites c pos).map Prod.fst = List.range' c.lptFirst (pos.nheadLnum + 1 - c.lptFirst) := by
  simp [createLptWrites, Function.comp_def]

@[simp] theorem empties_fst {l : List Nat} : (l.map fun n => (n, Leb.empty)).map Prod.fst = l := by
  simp [Function.comp_def]

/-! ### The stages after finalize_leb_cnt -/

section Stages
variable {e : Env} {c : Info} {s s' : Mkfs} {u : Unit}

/-- write_lpt hands the sink what ubifs_create_lpt wrote, then the LPT LEBs after its head. -/
theorem writeLpt_sink (h : (writeLpt e).run s = .ok ((), s')) :
    ∃ pos, e.createLpt s.flash.lpt (s.lebCnt - e.info.mainFirst) = some pos ∧
      s'.flash.sink = s.flash.sink ++ (createLptWrites e.info pos ++
        (List.range' (pos.nheadLnum + 1) (e.info.lptLast - pos.nheadLnum)).map fun l => (l, Leb.empty)) ∧
      s'.lebCnt = s.lebCnt := by
  obtain ⟨pos, hpos, rfl⟩ := writeLpt_ok.mp h
  exact ⟨pos, hpos, List.append_assoc _ _ _, rfl⟩

/-- write_master hands the sink the master LEBs, the same node in each with the next two sqnums. -/
theorem writeMaster_sink (h : (writeMaster e).run s = .ok ((), s')) :
    s'.flash.sink = s.flash.sink ++
      [(ubifsMstLnum, .nodes [(0, ⟨s.maxSqnum + 1, ubifsMstNodeSz, .mst (masterNode e s)⟩)]
          (align ubifsMstNodeSz 8) (align ubifsMstNodeSz e.info.minIoSize)),
        (ubifsMstLnum + 1, .nodes [(0, ⟨s.maxSqnum + 2, ubifsMstNodeSz, .mst (masterNode e s)⟩)]
          (align ubifsMstNodeSz 8) (align ubifsMstNodeSz e.info.minIoSize))] ∧
      s'.lebCnt = s.lebCnt := by
  obtain ⟨-, rfl⟩ := writeMaster_ok.mp h
  exact ⟨rfl, rfl⟩

/-- write_super hands the sink the superblock LEB. -/
theorem writeSuper_sink {uuid : Bytes} (h : (writeSuper e uuid).run s = .ok ((), s')) :
    ∃ ps ff, s'.flash.sink = s.flash.sink ++ [(ubifsSbLnum, .super ps ff)] ∧ s'.lebCnt = s.lebCnt := by
  obtain ⟨sig, -, rfl⟩ := writeSuper_ok.mp h
  exact ⟨_, _, rfl, rfl⟩

/-- write_log hands the sink the first log LEB, then the others erased. -/
theorem writeLog_sink (h : (writeLog c).run s = .ok ((), s')) :
    ∃ cs, s'.flash.sink = s.flash.sink ++
      (ubifsLogLnum, cs) :: (List.range' (ubifsLogLnum + 1) (c.logLebs - 1)).map (fun l => (l, Leb.empty)) ∧
      s'.lebCnt = s.lebCnt := by
  obtain ⟨-, rfl⟩ := writeLog_ok.mp h
  exact ⟨_, List.append_assoc _ _ _, rfl⟩

theorem writeOrphanArea_sink (h : (writeOrphanArea c).run s = .ok (u, s')) :
    s'.flash.sink = s.flash.sink ++
      (List.range' (ubifsLogLnum + c.logLebs + c.lptLebs) c.orphLebs).map (fun l => (l, Leb.empty)) ∧
      s'.lebCnt = s.lebCnt := by
  rw [writeOrphanArea, writeEmptyLebs_run] at h
  obtain ⟨-, rfl⟩ := Prod.mk.inj (Except.ok.inj h)
  exact ⟨rfl, rfl⟩

end Stages

theorem range'_split {a m n : Nat} (h : m ≤ n) :
    List.range' a n = List.range' a m ++ List.range' (a + m) (n - m) := by
  rw [List.range'_append_1, Nat.sub_add_cancel h]

/-- The areas, in the order mkfs writes them (main, LPT, master, superblock, log, orphans), are
the LEB numbers below leb_cnt, each once. -/
theorem areas_perm {log lpt orph n : Nat} (hn : ubifsLogLnum + log + lpt + orph ≤ n) :
    (List.range' (ubifsLogLnum + log + lpt + orph) (n - (ubifsLogLnum + log + lpt + orph)) ++
      List.range' (ubifsLogLnum + log) lpt ++ [ubifsMstLnum, ubifsMstLnum + 1, ubifsSbLnum] ++
      List.range' ubifsLogLnum log ++ List.range' (ubifsLogLnum + log + lpt) orph).Perm (List.range n) := by
  simp only [ubifsLogLnum, ubifsMstLnum, ubifsSbLnum] at hn ⊢
  rw [List.range_eq_range', range'_split (show 3 ≤ n by omega), range'_split (show log ≤ n - 3 by omega),
    range'_split (show lpt ≤ n - 3 - log by omega), range'_split (show orph ≤ n - 3 - log - lpt by omega)]
  simp only [List.append_assoc, Nat.zero_add, Nat.sub_sub]
  -- the main area to the end, then the LPT after the master LEBs and the log
  refine List.perm_append_comm.trans ?_
  simp only [List.append_assoc]
  exact (List.perm_append_comm_assoc _ _ _).trans (((List.perm_append_comm_assoc _ _ _).append_left _).trans
    ((by decide : List.Perm [1, 2, 0] (List.range' 0 3)).append_right _))

/-- The LEBs of a successful mkfs whose log has a LEB (validate_options asks for
UBIFS_MIN_LOG_LEBS): every LEB number below leb_cnt is handed to the sink exactly once and none
above, and leb_cnt is within max_leb_cnt. In the order the stages write them: the main area
[main_first, leb_cnt), the LPT area [lpt_first, lpt_last], the two master LEBs, the superblock at
LEB 0, the log [UBIFS_LOG_LNUM, UBIFS_LOG_LNUM + log_lebs) and the orphan area
[lpt_last + 1, main_first). The two master LEBs hold the same node with the same padding; only
the sqnum in its common header differs. -/
theorem mkfs_layout {e : Env} {root : Option HostFile} {now : Int} {uuid : Bytes} {s' : Mkfs}
    (hlog : 0 < e.info.logLebs) (hlpt : e.LptInArea)
    (h : (mkfs e root now uuid).run (Mkfs.init e.info) = .ok ((), s')) :
    e.info.mainFirst ≤ s'.lebCnt ∧ s'.lebCnt ≤ e.info.maxLebCnt ∧
      (s'.flash.sink.map Prod.fst).Perm (List.range s'.lebCnt) ∧
      ∃ main lpt log orph mst q a w sb ff, s'.flash.sink = main ++ lpt ++
          [(ubifsMstLnum, .nodes [(0, ⟨q + 1, ubifsMstNodeSz, .mst mst⟩)] a w),
            (ubifsMstLnum + 1, .nodes [(0, ⟨q + 2, ubifsMstNodeSz, .mst mst⟩)] a w),
            (ubifsSbLnum, .super sb ff)] ++ log ++ orph ∧
        main.map Prod.fst = List.range' e.info.mainFirst (s'.lebCnt - e.info.mainFirst) ∧
        lpt.map Prod.fst = List.range' e.info.lptFirst (e.info.lptLast + 1 - e.info.lptFirst) ∧
        log.map Prod.fst = List.range' ubifsLogLnum e.info.logLebs ∧
        orph.map Prod.fst = List.range' (e.info.lptLast + 1) (e.info.mainFirst - (e.info.lptLast + 1)) := by
  obtain ⟨s₁, s₂, s₃, s₄, s₅, s₆, s₇, s₈, h₁, h₂, h₃, h₄, h₅, h₆, h₇, h₈, h₉⟩ := mkfs_ok h
  obtain ⟨hle, hmain⟩ : MainSink e.info s₃.flash :=
    writeIndex_mainSink h₃ (setGcLnum_mainSink h₂
      (writeData_mainSink (fun _ _ hi => by simp [Mkfs.init] at hi) h₁ ⟨le_rfl, by simp [Mkfs.init]⟩))
  obtain ⟨hmax, rfl⟩ := finalizeLebCnt_ok.mp h₄
  obtain ⟨pos, hpos, k₅, l₅⟩ := writeLpt_sink h₅
  obtain ⟨hf, hl⟩ := hlpt _ _ _ hpos
  obtain ⟨k₆, l₆⟩ := writeMaster_sink h₆
  obtain ⟨ps, ff, k₇, l₇⟩ := writeSuper_sink h₇
  obtain ⟨cs, k₈, l₈⟩ := writeLog_sink h₈
  obtain ⟨k₉, l₉⟩ := writeOrphanArea_sink h₉
  rw [l₉, l₈, l₇, l₆, l₅, k₉, k₈, k₇, k₆, k₅]
  -- the LPT area: what ubifs_create_lpt wrote, then the LEBs after its head
  have hlf : e.info.lptFirst = ubifsLogLnum + e.info.logLebs := rfl
  have hlast : e.info.lptLast + 1 = e.info.lptFirst + e.info.lptLebs := by
    rw [Info.lptLast] at hl ⊢
    omega
  have hA : List.range' (ubifsLogLnum + e.info.logLebs) e.info.lptLebs = List.range' e.info.lptFirst
      (pos.nheadLnum + 1 - e.info.lptFirst) ++ List.range' (pos.nheadLnum + 1) (e.info.lptLast - pos.nheadLnum) := by
    rw [← hlf, range'_split (show pos.nheadLnum + 1 - e.info.lptFirst ≤ e.info.lptLebs by omega)]
    congr 2 <;> omega
  -- the log: the commit start node, then the erased LEBs
  have hL : List.range' ubifsLogLnum e.info.logLebs = ubifsLogLnum :: List.range' (ubifsLogLnum + 1) (e.info.logLebs - 1) := by
    rw [← List.range'_succ, Nat.sub_add_cancel hlog]
  have hp := areas_perm hle
  rw [hA, hL] at hp
  refine ⟨hle, hmax, by simpa only [List.map_append, List.map_cons, List.map_nil, hmain, createLptWrites_fst, empties_fst,
    List.append_assoc, List.cons_append, List.singleton_append, List.nil_append] using hp, s₃.flash.sink,
    createLptWrites e.info pos ++ _, _ :: _, _, _, _, _, _, _, _, by simp only [List.append_assoc, List.cons_append, List.singleton_append, List.nil_append]; rfl, hmain, ?_, ?_, ?_⟩
  · rw [List.map_append, createLptWrites_fst, empties_fst, ← hA, hlast, Nat.add_sub_cancel_left, hlf]
  · rw [List.map_cons, empties_fst, hL]
  · rw [empties_fst, hlast, hlf, Info.mainFirst, Nat.add_sub_cancel_left]

/-- The build of the sample tree, whose LPT fits LEB 5, lays its LEBs out so. -/
theorem mkfs_layout_sampleRoot : 0 < treeEnv.info.logLebs ∧ treeEnv.LptInArea ∧ ∃ s',
    (mkfs treeEnv (some sampleRoot) 0 []).run (Mkfs.init treeEnv.info) = .ok ((), s') ∧
      (s'.flash.sink.map Prod.fst).Perm (List.range s'.lebCnt) := by
  have hlpt : treeEnv.LptInArea := fun _ _ _ h => by
    obtain rfl := Option.some.inj h
    decide
  obtain ⟨s', h, -⟩ := mkfs_sampleRoot
  exact ⟨by decide, hlpt, s', h, (mkfs_layout (by decide) hlpt h).2.2.1⟩

end MkfsUbifs

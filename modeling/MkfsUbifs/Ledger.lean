import Mathlib
import MkfsUbifs.Layout

/-! # The LEB properties ledger

set_lprops records each LEB of the main area once: flush_nodes for every LEB write_data and
write_index fill, set_gc_lnum for the garbage collector's LEB between them. This file pairs the
calls with the LEB images handed to the sink, phase by phase, and follows what they leave in
c->lpt, the table write_lpt hands ubifs_create_lpt, and in c->lst, the totals write_master copies
into the master node. The stages after write_index only hand the sink more LEBs (`Appends`). -/

namespace MkfsUbifs

/-! ### Node writes on the flash side -/

/-- The nodes add_idx_node writes. -/
def NodeBody.isIdx : NodeBody → Bool
  | .idx _ => true
  | _ => false

section Induct
variable {c : Info} {s s' : Mkfs}

/-- pushLeaf is a flush when the node does not fit, then a copy into leb_buf at the head: a
property of the flash that both keep holds after it. -/
theorem pushLeaf_induct (P : Flash → Prop) {len : Nat} {n : Node} {fl : Flash} (h : P fl)
    (flush : ∀ {fl}, P fl → P (flushNodes c fl))
    (copy : ∀ {fl : Flash}, P fl →
      P { fl with headOffs := fl.headOffs + align len 8, lebBuf := fl.lebBuf ++ [(fl.headOffs, n)] }) :
    P (pushLeaf c len n fl) := by
  unfold pushLeaf reserveSpace
  split
  · exact copy (flush h)
  · exact copy h

theorem LeafSteps.flash_induct (P : Flash → Prop) (h : LeafSteps c s s') (hs : P s.flash)
    (push : ∀ {fl : Flash} {len : Nat} {n : Node}, 0 < len → n.body.isLeaf → P fl → P (pushLeaf c len n fl)) :
    P s'.flash :=
  h.induct (fun t => P t.flash) hs fun hst ht => by
    rcases hst.flash with ⟨len, body, hl, hb, -, hf, -⟩ | ⟨hf, -⟩
    · rw [hf]
      exact push hl hb ht
    · rw [hf]
      exact ht

theorem IdxSteps.flash_induct (P : Flash → Prop) (h : IdxSteps c s s') (hs : P s.flash)
    (push : ∀ {fl : Flash} {len : Nat} {n : Node}, 0 < len → n.body.isIdx → P fl → P (pushLeaf c len n fl)) :
    P s'.flash :=
  h.induct (fun t => P t.flash) hs fun hst ht => by
    obtain ⟨x, len, hl, -, rfl⟩ := hst.ok
    exact push hl rfl ht

theorem IdxSteps.frame (h : IdxSteps c s s') :
    s'.idxList = s.idxList ∧ s'.gcLnum = s.gcLnum ∧ s'.highestInum = s.highestInum :=
  h.induct (fun t => t.idxList = s.idxList ∧ t.gcLnum = s.gcLnum ∧ t.highestInum = s.highestInum)
    ⟨rfl, rfl, rfl⟩ fun hst ht => by
      obtain ⟨x, len, -, -, rfl⟩ := hst.ok
      exact ht

end Induct

/-! ### Filling the main area -/

/-- A set_lprops call of flush_nodes beside the LEB it handed the sink: the same LEB, the end
offset of the LEB's nodes, never 0, the head flags the LEB was filled under, and at least one
node, each of the kind P. -/
def Flushed (f : Nat) (P : NodeBody → Bool) (call : Nat × Nat × Nat) (leb : Nat × Leb) : Prop :=
  call.1 = leb.1 ∧ 0 < call.2.1 ∧ call.2.2 = f ∧
    ∃ ps w, leb.2 = .nodes ps call.2.1 w ∧ ps ≠ [] ∧ ∀ q ∈ ps, P q.2.body

/-- The flash while a stage fills the main area with nodes of the kind P under the head flags f,
from the calls₀ and the sink₀ it found: each set_lprops call since then is flush_nodes' for the
LEB it handed the sink, and the head LEB holds nodes of that kind, at least one once the head
has moved. -/
structure Filling (f : Nat) (P : NodeBody → Bool) (calls₀ : List (Nat × Nat × Nat))
    (sink₀ : List (Nat × Leb)) (fl : Flash) : Prop where
  ledger : ∃ C S, fl.lpropsCalls = calls₀ ++ C ∧ fl.sink = sink₀ ++ S ∧ List.Forall₂ (Flushed f P) C S
  flags : fl.headFlags = f
  kind : ∀ q ∈ fl.lebBuf, P q.2.body
  filled : fl.headOffs ≠ 0 → fl.lebBuf ≠ []

section Filling
variable {c : Info} {f : Nat} {P : NodeBody → Bool} {C₀ : List (Nat × Nat × Nat)} {S₀ : List (Nat × Leb)}
  {fl : Flash}

theorem Filling.start (fl : Flash) (hb : fl.lebBuf = []) (ho : fl.headOffs = 0) (hf : fl.headFlags = f) :
    Filling f P fl.lpropsCalls fl.sink fl :=
  ⟨⟨[], [], by simp, by simp, .nil⟩, hf, by simp [hb], fun h => absurd ho h⟩

theorem Filling.flushNodes (h : Filling f P C₀ S₀ fl) : Filling f P C₀ S₀ (flushNodes c fl) := by
  unfold MkfsUbifs.flushNodes
  split
  · exact h
  · rename_i h0
    obtain ⟨C, S, hC, hS, hCS⟩ := h.ledger
    refine ⟨⟨C ++ [(fl.headLnum, fl.headOffs, fl.headFlags)],
      S ++ [(fl.headLnum, .nodes fl.lebBuf fl.headOffs (align fl.headOffs c.minIoSize))], ?_, ?_,
      List.rel_append hCS (.cons ⟨rfl, Nat.pos_of_ne_zero h0, h.flags, _, _, rfl, h.filled h0, h.kind⟩ .nil)⟩,
      h.flags, by simp, by simp⟩
    · simp [setLprops, hC]
    · simp [hS]

theorem Filling.pushLeaf {len : Nat} {n : Node} (h : Filling f P C₀ S₀ fl) (hb : P n.body) :
    Filling f P C₀ S₀ (pushLeaf c len n fl) :=
  pushLeaf_induct (Filling f P C₀ S₀) h Filling.flushNodes fun {fl} h =>
    ⟨h.ledger, h.flags, fun q hq => by
      rcases List.mem_append.mp hq with hq | hq
      · exact h.kind q hq
      · rw [List.mem_singleton.mp hq]
        exact hb, by simp⟩

/-- The head LEB after a flush is empty, whether or not the flush wrote it. -/
@[simp] theorem flushNodes_headOffs : (MkfsUbifs.flushNodes c fl).headOffs = 0 := by
  unfold MkfsUbifs.flushNodes
  split <;> simp_all

theorem Flushed.offs_pos {C : List (Nat × Nat × Nat)} {S : List (Nat × Leb)} (h : List.Forall₂ (Flushed f P) C S) :
    ∀ x ∈ C, 0 < x.2.1 := by
  induction h with
  | nil => simp
  | cons hx _ ih =>
    simp only [List.mem_cons, forall_eq_or_imp]
    exact ⟨hx.2.1, ih⟩

end Filling

/-! ### What set_lprops records -/

/-- The LEB properties set_lprops computes from the end offset of a LEB's data and its flags. -/
def lpropsOf (c : Info) (offs flags : Nat) : Lprops :=
  let free : Int := c.lebSize - align offs (max c.minIoSize 8)
  ⟨free, c.lebSize - free - align offs 8, flags⟩

@[simp] theorem lpropsOf_flags {c : Info} {offs flags : Nat} : (lpropsOf c offs flags).flags = flags := rfl

theorem align_eq_zero_iff {x a : Nat} (ha : 0 < a) : align x a = 0 ↔ x = 0 := by
  unfold align
  rw [Nat.mul_eq_zero, Nat.div_eq_zero_iff ha]
  omega

theorem lpropsOf_free_eq_iff {c : Info} {offs flags : Nat} : (lpropsOf c offs flags).free = c.lebSize ↔ offs = 0 := by
  show (c.lebSize : Int) - align offs (max c.minIoSize 8) = c.lebSize ↔ offs = 0
  rw [← align_eq_zero_iff (lt_of_lt_of_le (by decide) (le_max_right c.minIoSize 8))]
  omega

/-- What set_lprops adds to total_used, total_dead and total_dark for a LEB: nothing for an index
LEB; otherwise its used space, and its free and dirty space as dead space below dead_wm, as dark
space above. -/
def Lprops.spaceTotals (c : Info) (lp : Lprops) : Int × Int × Int :=
  if lp.flags &&& lpropsIndex ≠ 0 then (0, 0, 0)
  else
    let spc := lp.free + lp.dirty
    (c.lebSize - spc, if spc < c.deadWm then spc else 0, if spc < c.deadWm then 0 else calcDark c spc)

section Lst
variable {c : Info} {lst : Lst} {free dirty : Int} {flags : Nat}

@[simp] theorem Lst.add_totalFree : (lst.add c free dirty flags).totalFree = lst.totalFree + free := by
  unfold Lst.add; dsimp only; split_ifs <;> rfl

@[simp] theorem Lst.add_totalDirty : (lst.add c free dirty flags).totalDirty = lst.totalDirty + dirty := by
  unfold Lst.add; dsimp only; split_ifs <;> rfl

@[simp] theorem Lst.add_emptyLebs : (lst.add c free dirty flags).emptyLebs = lst.emptyLebs := by
  unfold Lst.add; dsimp only; split_ifs <;> rfl

@[simp] theorem Lst.add_idxLebs :
    (lst.add c free dirty flags).idxLebs = lst.idxLebs + if flags &&& lpropsIndex ≠ 0 then 1 else 0 := by
  unfold Lst.add; dsimp only; split_ifs <;> simp_all

theorem Lst.add_space (lst : Lst) (lp : Lprops) : ((lst.add c lp.free lp.dirty lp.flags).totalUsed,
    (lst.add c lp.free lp.dirty lp.flags).totalDead, (lst.add c lp.free lp.dirty lp.flags).totalDark) =
      (lst.totalUsed + (lp.spaceTotals c).1, lst.totalDead + (lp.spaceTotals c).2.1,
        lst.totalDark + (lp.spaceTotals c).2.2) := by
  unfold Lst.add Lprops.spaceTotals
  dsimp only
  split_ifs <;> simp_all

end Lst

/-- c->lpt and c->lst against the ledger so far: one call for each LEB from main_first up to the
head, in order; for each, an lpt entry with the properties of the call when the table has room
for it; the totals summed over the calls, and k empty LEBs. -/
structure Recorded (c : Info) (k : Nat) (fl : Flash) : Prop where
  first : c.mainFirst ≤ fl.headLnum
  lnums : fl.lpropsCalls.map Prod.fst = List.range' c.mainFirst (fl.headLnum - c.mainFirst)
  lpt : ∀ l o f, (l, o, f) ∈ fl.lpropsCalls → l - c.mainFirst < c.mainLebs →
    fl.lpt (l - c.mainFirst) = lpropsOf c o f
  free : fl.lst.totalFree = (fl.lpropsCalls.map fun x => (lpropsOf c x.2.1 x.2.2).free).sum
  dirty : fl.lst.totalDirty = (fl.lpropsCalls.map fun x => (lpropsOf c x.2.1 x.2.2).dirty).sum
  idx : fl.lst.idxLebs = (fl.lpropsCalls.filter fun x => x.2.2 &&& lpropsIndex ≠ 0).length
  used : fl.lst.totalUsed = (fl.lpropsCalls.map fun x => ((lpropsOf c x.2.1 x.2.2).spaceTotals c).1).sum
  dead : fl.lst.totalDead = (fl.lpropsCalls.map fun x => ((lpropsOf c x.2.1 x.2.2).spaceTotals c).2.1).sum
  dark : fl.lst.totalDark = (fl.lpropsCalls.map fun x => ((lpropsOf c x.2.1 x.2.2).spaceTotals c).2.2).sum
  empty : fl.lst.emptyLebs = k

section Recorded
variable {c : Info} {k : Nat} {fl : Flash}

theorem Recorded.init : Recorded c 0 { (Mkfs.init c).flash with headFlags := 0 } :=
  ⟨le_rfl, by simp [Mkfs.init], by simp [Mkfs.init], rfl, rfl, rfl, rfl, rfl, rfl, rfl⟩

/-- set_lprops for the head LEB, and the head moved to the next LEB. -/
theorem Recorded.next {fl' : Flash} {o f : Nat} (h : Recorded c k fl) (hl : fl'.headLnum = fl.headLnum + 1)
    (hc : fl'.lpropsCalls = fl.lpropsCalls ++ [(fl.headLnum, o, f)])
    (ht : fl'.lpt = (setLprops c fl.headLnum o f fl).lpt) (hs : fl'.lst = (setLprops c fl.headLnum o f fl).lst) :
    Recorded c k fl' := by
  have hu := Lst.add_space (c := c) fl.lst (lpropsOf c o f)
  simp only [Prod.mk.injEq] at hu
  have hlst : fl'.lst = fl.lst.add c (lpropsOf c o f).free (lpropsOf c o f).dirty (lpropsOf c o f).flags := hs
  refine ⟨by rw [hl]; exact Nat.le_succ_of_le h.first, ?_, ?_, ?_, ?_, ?_, ?_, ?_, ?_, ?_⟩
  · rw [hc, List.map_append, h.lnums, hl, show fl.headLnum + 1 - c.mainFirst = fl.headLnum - c.mainFirst + 1 by
      have := h.first; omega, List.range'_concat]
    simp only [List.map_cons, List.map_nil, Nat.one_mul]
    rw [Nat.add_sub_cancel' h.first]
  · intro l o' f' hm hi
    rw [ht]
    rw [hc, List.mem_append, List.mem_singleton] at hm
    rcases hm with hm | hm
    · -- an earlier call: its LEB is below the head
      have hlt : l < fl.headLnum ∧ c.mainFirst ≤ l := by
        have := List.mem_map_of_mem Prod.fst hm
        rw [h.lnums, List.mem_range'_1] at this
        have := h.first
        omega
      simp only [setLprops]
      split
      · rw [Function.update_noteq (by omega)]
        exact h.lpt l o' f' hm hi
      · exact h.lpt l o' f' hm hi
    · simp only [Prod.mk.injEq] at hm
      obtain ⟨rfl, rfl, rfl⟩ := hm
      simp only [setLprops, if_pos hi, Function.update_same]
      rfl
  · rw [hlst, Lst.add_totalFree, h.free, hc]
    simp
  · rw [hlst, Lst.add_totalDirty, h.dirty, hc]
    simp
  · rw [hlst, Lst.add_idxLebs, h.idx, hc, List.filter_append, List.length_append, lpropsOf_flags]
    by_cases hf : f &&& lpropsIndex = 0 <;> simp [hf]
  · rw [hlst, hu.1, h.used, hc]
    simp
  · rw [hlst, hu.2.1, h.dead, hc]
    simp
  · rw [hlst, hu.2.2, h.dark, hc]
    simp
  · rw [hlst, Lst.add_emptyLebs]
    exact h.empty

theorem Recorded.flushNodes (h : Recorded c k fl) : Recorded c k (MkfsUbifs.flushNodes c fl) := by
  unfold MkfsUbifs.flushNodes
  split
  · exact h
  · exact h.next rfl rfl rfl rfl

theorem Recorded.pushLeaf {len : Nat} {n : Node} (h : Recorded c k fl) : Recorded c k (pushLeaf c len n fl) :=
  pushLeaf_induct (Recorded c k) h Recorded.flushNodes fun h => { h with }

/-- The i-th call is for LEB main_first + i, and entry i of c->lpt, when the table has room for
it, holds what that call computed. -/
theorem Recorded.getElem? (h : Recorded c k fl) {i : Nat} (hi : i < fl.headLnum - c.mainFirst)
    (hm : i < c.mainLebs) : ∃ o f, fl.lpropsCalls[i]? = some (c.mainFirst + i, o, f) ∧ fl.lpt i = lpropsOf c o f := by
  have h1 : (fl.lpropsCalls.map Prod.fst)[i]? = some (c.mainFirst + i) := by
    rw [h.lnums, List.getElem?_range' _ _ hi, Nat.one_mul]
  rw [List.getElem?_map] at h1
  obtain ⟨⟨l, o, f⟩, hx, rfl⟩ := Option.map_eq_some'.mp h1
  have := h.lpt _ o f (List.mem_iff_getElem?.mpr ⟨i, hx⟩) (by rw [Nat.add_sub_cancel_left]; exact hm)
  rw [Nat.add_sub_cancel_left] at this
  exact ⟨o, f, hx, this⟩

/-- When c->lpt has room for every LEB up to the head, its entries are the calls' properties, in
order. -/
theorem Recorded.lpt_eq (h : Recorded c k fl) (hm : fl.headLnum - c.mainFirst ≤ c.mainLebs) :
    (List.range (fl.headLnum - c.mainFirst)).map fl.lpt = fl.lpropsCalls.map fun x => lpropsOf c x.2.1 x.2.2 := by
  have hlen : fl.lpropsCalls.length = fl.headLnum - c.mainFirst := by
    rw [← List.length_map _ Prod.fst, h.lnums, List.length_range']
  refine List.ext_getElem? fun i => ?_
  by_cases hi : i < fl.headLnum - c.mainFirst
  · obtain ⟨o, f, hx, ht⟩ := h.getElem? hi (by omega)
    rw [List.getElem?_map, List.getElem?_range hi, List.getElem?_map, hx, Option.map_some', ht]
    rfl
  · rw [List.getElem?_eq_none (by simpa using hi), List.getElem?_eq_none (by simpa [hlen] using hi)]

theorem Recorded.of_eq {fl' : Flash} (h : Recorded c k fl) (hl : fl'.headLnum = fl.headLnum)
    (hc : fl'.lpropsCalls = fl.lpropsCalls) (ht : fl'.lpt = fl.lpt) (hs : fl'.lst = fl.lst) : Recorded c k fl' := by
  cases fl'
  simp only at hl hc ht hs
  subst hl hc ht hs
  exact { h with }

theorem Recorded.setGcLnum {s s' : Mkfs} {u : Unit} (h : Recorded c k s.flash) (hr : (setGcLnum c).run s = .ok (u, s')) :
    Recorded c (k + 1) s'.flash := by
  rw [setGcLnum_run] at hr
  obtain ⟨-, rfl⟩ := Prod.mk.inj (Except.ok.inj hr)
  have h' : Recorded c k (setLprops c s.flash.headLnum 0 0
      (writeEmptyLeb s.flash.headLnum { s.flash with headLnum := s.flash.headLnum + 1 })) := h.next rfl rfl rfl rfl
  exact { h' with empty := by simp [h'.empty] }

end Recorded

/-! ### The phases of the main area -/

section Phases
variable {e : Env} {root : Option HostFile} {now : Int} {c : Info} {k : Nat} {s s' : Mkfs} {u : Unit}

/-- write_data from init: the LEBs of leaves recorded, and the head at the start of an empty LEB. -/
theorem writeData_ledger (h : (writeData e root now).run (Mkfs.init e.info) = .ok (u, s')) :
    Filling 0 NodeBody.isLeaf [] [] s'.flash ∧ Recorded e.info 0 s'.flash ∧ s'.flash.lebBuf = [] ∧
      s'.flash.headOffs = 0 := by
  obtain ⟨t, ht, rfl⟩ := writeData_steps (fun _ _ hi => by simp [Mkfs.init] at hi) h
  have hf : Filling 0 NodeBody.isLeaf [] [] t.flash :=
    ht.flash_induct _ (Filling.start { (Mkfs.init e.info).flash with headFlags := 0 } rfl rfl rfl) fun _ hb hf => hf.pushLeaf hb
  exact ⟨hf.flushNodes, (ht.flash_induct _ Recorded.init fun _ _ h => h.pushLeaf).flushNodes,
    flushNodes_lebBuf (ht.bufOk (.inl rfl)), flushNodes_headOffs⟩

/-- set_gc_lnum: the head LEB handed to the sink empty and recorded with offset and flags 0. -/
theorem setGcLnum_flash (h : (setGcLnum c).run s = .ok (u, s')) :
    s'.gcLnum = s.flash.headLnum ∧ s'.flash.lpropsCalls = s.flash.lpropsCalls ++ [(s.flash.headLnum, 0, 0)] ∧
      s'.flash.sink = s.flash.sink ++ [(s.flash.headLnum, .empty)] ∧ s'.flash.lebBuf = [] ∧
      s'.flash.headOffs = s.flash.headOffs ∧ s'.idxList = s.idxList := by
  rw [setGcLnum_run] at h
  obtain ⟨-, rfl⟩ := Prod.mk.inj (Except.ok.inj h)
  exact ⟨rfl, rfl, rfl, rfl, rfl, rfl⟩

theorem pushLeaf_headOffs_pos {len : Nat} {n : Node} {fl : Flash} (hl : 0 < len) : 0 < (pushLeaf c len n fl).headOffs := by
  show 0 < (reserveSpace c len fl).1.2 + align len 8
  unfold align
  omega

/-- The root so far is the last node on the head LEB: the head is right after it. -/
def RootAtHead (s : Mkfs) : Prop :=
  s.zroot.1 = s.flash.headLnum ∧ s.flash.headOffs = s.zroot.2.1 + align s.zroot.2.2 8

theorem IdxStep.rootAtHead {t t' : Mkfs} (h : IdxStep c t t') : RootAtHead t' := by
  obtain ⟨x, len, -, -, rfl⟩ := h.ok
  exact ⟨rfl, rfl⟩

/-- write_index on an empty head LEB: the LEBs of index nodes recorded, at least one, the last
for the LEB of the root, which ends its data; the index head is that end rounded up to the I/O
unit. -/
theorem writeIndex_ledger (h : (writeIndex c).run s = .ok (u, s')) (hb : s.flash.lebBuf = [])
    (ho : s.flash.headOffs = 0) (hr : Recorded c k s.flash) :
    Recorded c k s'.flash ∧ (∃ C S, s'.flash.lpropsCalls = s.flash.lpropsCalls ++ C ∧
      s'.flash.sink = s.flash.sink ++ S ∧ List.Forall₂ (Flushed lpropsIndex NodeBody.isIdx) C S ∧ S ≠ []) ∧
    s'.zroot.1 = s'.iheadLnum ∧ s'.iheadOffs = align (s'.zroot.2.1 + align s'.zroot.2.2 8) c.minIoSize ∧
    s'.flash.lpropsCalls.getLast? = some (s'.iheadLnum, s'.zroot.2.1 + align s'.zroot.2.2 8, lpropsIndex) := by
  obtain ⟨t, s₁, hash, ht, ht₁, rfl⟩ := writeIndex_steps_first h
  have hroot : RootAtHead s₁ := ht₁.induct _ ht.rootAtHead fun hst _ => hst.rootAtHead
  obtain ⟨x, len, hl, -, rfl⟩ := ht.ok
  have hf₀ : Filling lpropsIndex NodeBody.isIdx s.flash.lpropsCalls s.flash.sink
      { s.flash with headFlags := lpropsIndex } := Filling.start { s.flash with headFlags := lpropsIndex } hb ho rfl
  have hf₁ := ht₁.flash_induct _ (hf₀.pushLeaf rfl) fun _ hb hf => hf.pushLeaf hb
  have hr₁ := ht₁.flash_induct (Recorded c k) (({ hr with } : Recorded c k { s.flash with headFlags := lpropsIndex }).pushLeaf)
    fun _ _ h => h.pushLeaf
  -- the head has moved since the first index node, so the last flush writes a LEB
  have ho₁ : s₁.flash.headOffs ≠ 0 := Nat.pos_iff_ne_zero.mp <|
    ht₁.flash_induct (fun fl => 0 < fl.headOffs) (pushLeaf_headOffs_pos hl) fun hl _ _ => pushLeaf_headOffs_pos hl
  obtain ⟨C₁, S₁, -, hS₁, -⟩ := hf₁.ledger
  obtain ⟨C, S, hC, hS, hCS⟩ := hf₁.flushNodes.ledger
  refine ⟨hr₁.flushNodes, ⟨C, S, hC, hS, hCS, fun hS₀ => ?_⟩, hroot.1, by rw [hroot.2], ?_⟩
  · have hlen : (s.flash.sink ++ S).length = (s.flash.sink ++ S₁).length + 1 := by
      rw [← hS, ← hS₁]
      simp [flushNodes, ho₁]
    simp only [hS₀, List.append_nil, List.length_append] at hlen
    omega
  · show (flushNodes c s₁.flash).lpropsCalls.getLast? = _
    rw [← hroot.2]
    simp [flushNodes, ho₁, setLprops, hf₁.flags]

theorem writeIndex_frame (h : (writeIndex c).run s = .ok (u, s')) : s'.idxList = s.idxList ∧ s'.gcLnum = s.gcLnum := by
  obtain ⟨t, hash, ht, rfl⟩ := writeIndex_steps h
  obtain ⟨hi, hg, -⟩ := ht.frame
  exact ⟨hi, hg⟩

end Phases

/-! ### The stages after write_index -/

/-- The LEBs handed to the sink hold no leaf node. -/
def NoLeaves (X : List (Nat × Leb)) : Prop := ∀ n ∈ sinkNodes X, n.body.isLeaf = false

/-- What the stages after write_index do to the builder: hand the sink more LEBs, none with a leaf
node, with leb_buf left empty, and leave the ledger, c->lpt, c->lst, the index list, the garbage
collector's LEB, leb_cnt, the head LEB, the root and the index head alone. -/
structure Appends (s s' : Mkfs) : Prop where
  sink : ∃ X, s'.flash.sink = s.flash.sink ++ X ∧ NoLeaves X
  lebBuf : s'.flash.lebBuf = []
  headLnum : s'.flash.headLnum = s.flash.headLnum
  calls : s'.flash.lpropsCalls = s.flash.lpropsCalls
  lpt : s'.flash.lpt = s.flash.lpt
  lst : s'.flash.lst = s.flash.lst
  idxList : s'.idxList = s.idxList
  gcLnum : s'.gcLnum = s.gcLnum
  lebCnt : s'.lebCnt = s.lebCnt
  zroot : s'.zroot = s.zroot
  iheadLnum : s'.iheadLnum = s.iheadLnum
  iheadOffs : s'.iheadOffs = s.iheadOffs

section Appends
variable {e : Env} {c : Info} {s s₁ s' : Mkfs} {u : Unit}

theorem Appends.trans (h₁ : Appends s s₁) (h₂ : Appends s₁ s') : Appends s s' where
  sink := by
    obtain ⟨X₁, hX₁, hn₁⟩ := h₁.sink
    obtain ⟨X₂, hX₂, hn₂⟩ := h₂.sink
    refine ⟨X₁ ++ X₂, by rw [hX₂, hX₁, List.append_assoc], fun n hn => ?_⟩
    rw [sinkNodes_append, List.mem_append] at hn
    exact hn.elim (hn₁ n) (hn₂ n)
  lebBuf := h₂.lebBuf
  headLnum := h₂.headLnum.trans h₁.headLnum
  calls := h₂.calls.trans h₁.calls
  lpt := h₂.lpt.trans h₁.lpt
  lst := h₂.lst.trans h₁.lst
  idxList := h₂.idxList.trans h₁.idxList
  gcLnum := h₂.gcLnum.trans h₁.gcLnum
  lebCnt := h₂.lebCnt.trans h₁.lebCnt
  zroot := h₂.zroot.trans h₁.zroot
  iheadLnum := h₂.iheadLnum.trans h₁.iheadLnum
  iheadOffs := h₂.iheadOffs.trans h₁.iheadOffs

theorem writeLpt_appends (h : (writeLpt e).run s = .ok ((), s')) (hb : s.flash.lebBuf = []) : Appends s s' := by
  obtain ⟨pos, -, rfl⟩ := writeLpt_ok.mp h
  exact ⟨⟨_, List.append_assoc _ _ _, by simp [NoLeaves]⟩, by simp [hb], rfl, rfl, rfl, rfl, rfl, rfl, rfl, rfl, rfl, rfl⟩

theorem writeMaster_appends (h : (writeMaster e).run s = .ok ((), s')) : Appends s s' := by
  obtain ⟨-, rfl⟩ := writeMaster_ok.mp h
  exact ⟨⟨_, rfl, by simp [NoLeaves, Leb.placed, NodeBody.isLeaf]⟩, rfl, rfl, rfl, rfl, rfl, rfl, rfl, rfl, rfl, rfl, rfl⟩

theorem writeSuper_appends {uuid : Bytes} (h : (writeSuper e uuid).run s = .ok ((), s')) (hb : s.flash.lebBuf = []) :
    Appends s s' := by
  obtain ⟨sig, -, rfl⟩ := writeSuper_ok.mp h
  exact ⟨⟨_, rfl, by simp [NoLeaves, Leb.placed, NodeBody.isLeaf]⟩, hb, rfl, rfl, rfl, rfl, rfl, rfl, rfl, rfl, rfl, rfl⟩

theorem writeLog_appends (h : (writeLog c).run s = .ok ((), s')) : Appends s s' := by
  obtain ⟨-, rfl⟩ := writeLog_ok.mp h
  exact ⟨⟨_, List.append_assoc _ _ _, by simp [NoLeaves, Leb.placed, NodeBody.isLeaf]⟩, rfl, rfl, rfl, rfl, rfl, rfl,
    rfl, rfl, rfl, rfl, rfl⟩

theorem writeOrphanArea_appends (h : (writeOrphanArea c).run s = .ok (u, s')) (hb : s.flash.lebBuf = []) :
    Appends s s' := by
  rw [writeOrphanArea, writeEmptyLebs_run] at h
  obtain ⟨-, rfl⟩ := Prod.mk.inj (Except.ok.inj h)
  exact ⟨⟨_, rfl, by simp [NoLeaves]⟩, by simp [hb], rfl, rfl, rfl, rfl, rfl, rfl, rfl, rfl, rfl, rfl⟩

end Appends

section Mkfs
variable {e : Env} {root : Option HostFile} {now : Int} {uuid : Bytes} {s' : Mkfs}

/-- A successful mkfs: write_data, set_gc_lnum and write_index fill the main area, finalize_leb_cnt
ends the image at the head, within max_leb_cnt, and the stages after it only hand the sink more
LEBs. -/
theorem mkfs_tail (h : (mkfs e root now uuid).run (Mkfs.init e.info) = .ok ((), s')) :
    ∃ s₁ s₂ s₃, (writeData e root now).run (Mkfs.init e.info) = .ok ((), s₁) ∧
      (setGcLnum e.info).run s₁ = .ok ((), s₂) ∧ (writeIndex e.info).run s₂ = .ok ((), s₃) ∧
      s₃.flash.headLnum ≤ e.info.maxLebCnt ∧ Appends { s₃ with lebCnt := s₃.flash.headLnum } s' := by
  obtain ⟨s₁, s₂, s₃, s₄, s₅, s₆, s₇, s₈, h₁, h₂, h₃, h₄, h₅, h₆, h₇, h₈, h₉⟩ := mkfs_ok h
  obtain ⟨hmax, rfl⟩ := finalizeLebCnt_ok.mp h₄
  obtain ⟨-, -, -, -, -, -, hb₃⟩ := writeIndex_nodes h₃ (setGcLnum_flash h₂).2.2.2.1
  have a₅ := writeLpt_appends h₅ hb₃
  have a₇ := writeSuper_appends h₇ (writeMaster_appends h₆).lebBuf
  exact ⟨s₁, s₂, s₃, h₁, h₂, h₃, hmax, a₅.trans ((writeMaster_appends h₆).trans (a₇.trans
    ((writeLog_appends h₈).trans (writeOrphanArea_appends h₉ (writeLog_appends h₈).lebBuf))))⟩

/-- The main area of a successful mkfs, as set_lprops recorded it: the ledger and the tables
against it, leb_cnt at the head, within max_leb_cnt, and the calls beside the LEBs they record: the
LEBs of leaves, the garbage collector's LEB, the LEBs of index nodes (at least one), then the
LEBs of the other areas. -/
theorem mkfs_phases (h : (mkfs e root now uuid).run (Mkfs.init e.info) = .ok ((), s')) :
    Recorded e.info 1 s'.flash ∧ s'.lebCnt = s'.flash.headLnum ∧ s'.lebCnt ≤ e.info.maxLebCnt ∧
    ∃ C₁ S₁ C₃ S₃ rest, s'.flash.lpropsCalls = C₁ ++ (s'.gcLnum, 0, 0) :: C₃ ∧
      s'.flash.sink = S₁ ++ (s'.gcLnum, .empty) :: S₃ ++ rest ∧
      List.Forall₂ (Flushed 0 NodeBody.isLeaf) C₁ S₁ ∧
      List.Forall₂ (Flushed lpropsIndex NodeBody.isIdx) C₃ S₃ ∧ S₃ ≠ [] := by
  obtain ⟨s₁, s₂, s₃, h₁, h₂, h₃, hmax, ha⟩ := mkfs_tail h
  obtain ⟨hf₁, hr₁, -, ho₁⟩ := writeData_ledger h₁
  obtain ⟨C₁, S₁, hC₁, hS₁, h₁₁⟩ := hf₁.ledger
  obtain ⟨hg, hc₂, hs₂, hb₂, ho₂, -⟩ := setGcLnum_flash h₂
  obtain ⟨hr₃, ⟨C₃, S₃, hC₃, hS₃, h₃₃, hne⟩, -⟩ := writeIndex_ledger h₃ hb₂ (ho₂.trans ho₁) (hr₁.setGcLnum h₂)
  obtain ⟨⟨X, hX, -⟩, -, hl, hc, ht, hst, -, hgc, hcnt, -⟩ := ha
  have hg' : s'.gcLnum = s₁.flash.headLnum := by rw [hgc, ← hg]; exact (writeIndex_frame h₃).2
  refine ⟨hr₃.of_eq hl hc ht hst, by rw [hcnt, hl], by rw [hcnt]; exact hmax, C₁, S₁, C₃, S₃, X, ?_, ?_, h₁₁, h₃₃,
    hne⟩
  · rw [hc, hC₃, hc₂, hC₁, hg']
    simp
  · rw [hX, hS₃, hs₂, hS₁, hg']
    simp

/-- The ledger of a successful mkfs. set_lprops is called once for each LEB of the main area, in
order, and for no other LEB. First come the LEBs write_data filled: each with the end offset of its
nodes, flags 0, and leaves only. Then the garbage collector's LEB, empty, with offset and flags 0.
Then the LEBs write_index filled, at least one: each with the end offset of its nodes,
LPROPS_INDEX, and index nodes only. -/
theorem mkfs_ledger (h : (mkfs e root now uuid).run (Mkfs.init e.info) = .ok ((), s')) :
    s'.flash.lpropsCalls.map Prod.fst = List.range' e.info.mainFirst (s'.lebCnt - e.info.mainFirst) ∧
    ∃ C₁ S₁ C₃ S₃ rest, s'.flash.lpropsCalls = C₁ ++ (s'.gcLnum, 0, 0) :: C₃ ∧
      s'.flash.sink = S₁ ++ (s'.gcLnum, .empty) :: S₃ ++ rest ∧
      List.Forall₂ (Flushed 0 NodeBody.isLeaf) C₁ S₁ ∧
      List.Forall₂ (Flushed lpropsIndex NodeBody.isIdx) C₃ S₃ ∧ S₃ ≠ [] := by
  obtain ⟨hr, hl, -, hs⟩ := mkfs_phases h
  exact ⟨hl ▸ hr.lnums, hs⟩

theorem mkfs_ledger_sampleRoot :
    ∃ s', (mkfs treeEnv (some sampleRoot) 0 []).run (Mkfs.init treeEnv.info) = .ok ((), s') ∧
    s'.flash.lpropsCalls.map Prod.fst = List.range' treeEnv.info.mainFirst (s'.lebCnt - treeEnv.info.mainFirst) := by
  obtain ⟨s', h, -⟩ := mkfs_sampleRoot
  exact ⟨s', h, (mkfs_ledger h).1⟩

/-- The LEB properties write_lpt hands ubifs_create_lpt, when c->lpt has room for every LEB of
the main area up to max_leb_cnt (init sizes it so). Entry i is what set_lprops computed for LEB
main_first + i in the i-th call, from the end offset of that LEB's data and its flags. -/
theorem mkfs_lpt (hm : e.info.maxLebCnt ≤ e.info.mainFirst + e.info.mainLebs)
    (h : (mkfs e root now uuid).run (Mkfs.init e.info) = .ok ((), s')) :
    ∀ i < s'.lebCnt - e.info.mainFirst, ∃ offs flags,
      s'.flash.lpropsCalls[i]? = some (e.info.mainFirst + i, offs, flags) ∧
        s'.flash.lpt i = lpropsOf e.info offs flags := by
  obtain ⟨hr, hl, hmax, -⟩ := mkfs_phases h
  intro i hi
  exact hr.getElem? (hl ▸ hi) (by omega)

theorem mkfs_lpt_sampleRoot : treeEnv.info.maxLebCnt ≤ treeEnv.info.mainFirst + treeEnv.info.mainLebs ∧
    ∃ s', (mkfs treeEnv (some sampleRoot) 0 []).run (Mkfs.init treeEnv.info) = .ok ((), s') ∧
      ∀ i < s'.lebCnt - treeEnv.info.mainFirst, ∃ offs flags,
        s'.flash.lpropsCalls[i]? = some (treeEnv.info.mainFirst + i, offs, flags) ∧
          s'.flash.lpt i = lpropsOf treeEnv.info offs flags := by
  obtain ⟨s', h, -⟩ := mkfs_sampleRoot
  exact ⟨by decide, s', h, mkfs_lpt (by decide) h⟩

theorem masterNode_writeMaster (h : (writeMaster e).run s = .ok ((), s')) : masterNode e s' = masterNode e s := by
  obtain ⟨-, rfl⟩ := writeMaster_ok.mp h
  rfl

theorem masterNode_writeSuper (h : (writeSuper e uuid).run s = .ok ((), s')) : masterNode e s' = masterNode e s := by
  obtain ⟨sig, -, rfl⟩ := writeSuper_ok.mp h
  rfl

theorem masterNode_writeLog (h : (writeLog e.info).run s = .ok ((), s')) : masterNode e s' = masterNode e s := by
  obtain ⟨-, rfl⟩ := writeLog_ok.mp h
  rfl

theorem masterNode_writeOrphanArea {u : Unit} (h : (writeOrphanArea e.info).run s = .ok (u, s')) :
    masterNode e s' = masterNode e s := by
  rw [writeOrphanArea, writeEmptyLebs_run] at h
  obtain ⟨-, rfl⟩ := Prod.mk.inj (Except.ok.inj h)
  rfl

/-- The first master LEB of a successful mkfs holds the master node of the builder it leaves. -/
theorem mkfs_master (h : (mkfs e root now uuid).run (Mkfs.init e.info) = .ok ((), s')) :
    ∃ q a w, (ubifsMstLnum, Leb.nodes [(0, ⟨q, ubifsMstNodeSz, .mst (masterNode e s')⟩)] a w) ∈ s'.flash.sink := by
  obtain ⟨s₁, s₂, s₃, s₄, s₅, s₆, s₇, s₈, -, -, -, -, -, h₆, h₇, h₈, h₉⟩ := mkfs_ok h
  obtain ⟨k₆, -⟩ := writeMaster_sink h₆
  obtain ⟨X, hX, -⟩ := ((writeSuper_appends h₇ (writeMaster_appends h₆).lebBuf).trans ((writeLog_appends h₈).trans
    (writeOrphanArea_appends h₉ (writeLog_appends h₈).lebBuf))).sink
  rw [masterNode_writeOrphanArea h₉, masterNode_writeLog h₈, masterNode_writeSuper h₇, masterNode_writeMaster h₆, hX, k₆]
  exact ⟨_, _, _, List.mem_append_left _ (List.mem_append_right _ (List.mem_cons_self _ _))⟩

/-- The totals of c->lst, which write_master copies into the master node of the image, against
the table write_lpt hands ubifs_create_lpt, when c->lpt has room for every LEB of the main area.
Free and dirty space are the sums over the entries of the main LEBs. idx_lebs counts the entries
with LPROPS_INDEX. Used, dead and dark space sum what set_lprops adds for the other entries.
empty_lebs counts the entries whose whole LEB is free, and that is the garbage collector's alone. -/
theorem mkfs_totals (hm : e.info.maxLebCnt ≤ e.info.mainFirst + e.info.mainLebs)
    (h : (mkfs e root now uuid).run (Mkfs.init e.info) = .ok ((), s')) :
    (∃ q a w, (ubifsMstLnum, Leb.nodes [(0, ⟨q, ubifsMstNodeSz, .mst (masterNode e s')⟩)] a w) ∈ s'.flash.sink) ∧
    let mst := masterNode e s'
    let lpt := (List.range (s'.lebCnt - e.info.mainFirst)).map s'.flash.lpt
    mst.totalFree = (lpt.map Lprops.free).sum ∧ mst.totalDirty = (lpt.map Lprops.dirty).sum ∧
      mst.idxLebs = (lpt.filter fun lp => lp.flags &&& lpropsIndex ≠ 0).length ∧
      mst.totalUsed = (lpt.map fun lp => (lp.spaceTotals e.info).1).sum ∧
      mst.totalDead = (lpt.map fun lp => (lp.spaceTotals e.info).2.1).sum ∧
      mst.totalDark = (lpt.map fun lp => (lp.spaceTotals e.info).2.2).sum ∧
      mst.emptyLebs = (lpt.filter fun lp => lp.free = (e.info.lebSize : Int)).length ∧ mst.emptyLebs = 1 := by
  obtain ⟨hr, hl, hmax, C₁, S₁, C₃, S₃, rest, hC, -, h₁, h₃, -⟩ := mkfs_phases h
  refine ⟨mkfs_master h, ?_⟩
  intro mst lpt
  have hlpt : lpt = s'.flash.lpropsCalls.map fun x => lpropsOf e.info x.2.1 x.2.2 := by
    show (List.range (s'.lebCnt - e.info.mainFirst)).map s'.flash.lpt = _
    rw [hl]
    exact hr.lpt_eq (by omega)
  -- only the garbage collector's call has offset 0
  have hempty : (lpt.filter fun lp => lp.free = (e.info.lebSize : Int)).length = 1 := by
    have hpos : ∀ x ∈ C₁ ++ C₃, (lpropsOf e.info x.2.1 x.2.2).free ≠ e.info.lebSize := by
      intro x hx
      rw [Ne, lpropsOf_free_eq_iff]
      rcases List.mem_append.mp hx with hx | hx
      · exact Nat.pos_iff_ne_zero.mp (Flushed.offs_pos h₁ x hx)
      · exact Nat.pos_iff_ne_zero.mp (Flushed.offs_pos h₃ x hx)
    rw [hlpt, hC, List.filter_map, List.length_map, List.filter_append, List.filter_cons,
      List.filter_eq_nil_iff.mpr fun x hx => ?_, List.filter_eq_nil_iff.mpr fun x hx => ?_]
    · simp [lpropsOf_free_eq_iff]
    · simpa using hpos x (List.mem_append_right _ hx)
    · simpa using hpos x (List.mem_append_left _ hx)
  refine ⟨?_, ?_, ?_, ?_, ?_, ?_, ?_, ?_⟩
  · show s'.flash.lst.totalFree = _
    rw [hr.free, hlpt, List.map_map]
    rfl
  · show s'.flash.lst.totalDirty = _
    rw [hr.dirty, hlpt, List.map_map]
    rfl
  · show s'.flash.lst.idxLebs = _
    rw [hr.idx, hlpt, List.filter_map, List.length_map]
    rfl
  · show s'.flash.lst.totalUsed = _
    rw [hr.used, hlpt, List.map_map]
    rfl
  · show s'.flash.lst.totalDead = _
    rw [hr.dead, hlpt, List.map_map]
    rfl
  · show s'.flash.lst.totalDark = _
    rw [hr.dark, hlpt, List.map_map]
    rfl
  · rw [hempty]
    exact hr.empty
  · exact hr.empty

theorem mkfs_totals_sampleRoot : treeEnv.info.maxLebCnt ≤ treeEnv.info.mainFirst + treeEnv.info.mainLebs ∧
    ∃ s', (mkfs treeEnv (some sampleRoot) 0 []).run (Mkfs.init treeEnv.info) = .ok ((), s') ∧
      (masterNode treeEnv s').totalFree =
        (((List.range (s'.lebCnt - treeEnv.info.mainFirst)).map s'.flash.lpt).map Lprops.free).sum := by
  obtain ⟨s', h, -⟩ := mkfs_sampleRoot
  exact ⟨by decide, s', h, (mkfs_totals (by decide) h).2.1⟩

/-- The index head of a successful mkfs, as the master node records it: the root index node is the
last node of the last index LEB. It lies in ihead_lnum, and ihead_offs is the end of its data
rounded up to min_io_size. The last set_lprops call is for that LEB, with the end offset of the
root and LPROPS_INDEX. -/
theorem mkfs_index_head (h : (mkfs e root now uuid).run (Mkfs.init e.info) = .ok ((), s')) :
    let mst := masterNode e s'
    mst.rootLnum = mst.iheadLnum ∧ mst.iheadOffs = align (mst.rootOffs + align mst.rootLen 8) e.info.minIoSize ∧
      s'.flash.lpropsCalls.getLast? = some (mst.iheadLnum, mst.rootOffs + align mst.rootLen 8, lpropsIndex) := by
  obtain ⟨s₁, s₂, s₃, h₁, h₂, h₃, -, ha⟩ := mkfs_tail h
  obtain ⟨-, hr₁, -, ho₁⟩ := writeData_ledger h₁
  obtain ⟨-, -, -, hb₂, ho₂, -⟩ := setGcLnum_flash h₂
  obtain ⟨-, -, hz, hi, hlast⟩ := writeIndex_ledger h₃ hb₂ (ho₂.trans ho₁) (hr₁.setGcLnum h₂)
  show s'.zroot.1 = s'.iheadLnum ∧ s'.iheadOffs = align (s'.zroot.2.1 + align s'.zroot.2.2 8) e.info.minIoSize ∧
    s'.flash.lpropsCalls.getLast? = some (s'.iheadLnum, s'.zroot.2.1 + align s'.zroot.2.2 8, lpropsIndex)
  rw [ha.zroot, ha.iheadLnum, ha.iheadOffs, ha.calls]
  exact ⟨hz, hi, hlast⟩

theorem mkfs_index_head_sampleRoot :
    ∃ s', (mkfs treeEnv (some sampleRoot) 0 []).run (Mkfs.init treeEnv.info) = .ok ((), s') ∧
    (masterNode treeEnv s').rootLnum = (masterNode treeEnv s').iheadLnum := by
  obtain ⟨s', h, -⟩ := mkfs_sampleRoot
  exact ⟨s', h, (mkfs_index_head h).1⟩

end Mkfs

end MkfsUbifs

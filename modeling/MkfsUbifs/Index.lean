import MkfsUbifs.Head

/-! # The index builder

write_index sorts the index list and builds the on-flash index bottom-up: level 0 packs the
sorted leaves fanout at a time, each higher level packs the nodes of the level below. A branch
of a higher level takes its key from the leaf array by stepping pstep = fanout ^ level, and its
place from a shadow cursor (blnum, boffs) that re-walks the row below as reserve_space laid it
out. The loops are written as in C, one recursive function per loop. -/

namespace MkfsUbifs

/-! ### Ordering the leaves -/

/-- memcmp over two names of the same length: the first differing byte decides. -/
def memcmp : Bytes → Bytes → Int
  | a :: as, b :: bs => if a < b then -1 else if b < a then 1 else memcmp as bs
  | _, _ => 0

/-- namecmp: the common prefix, then the shorter name first; never 0. A node without a name
compares as an empty name. -/
def namecmp (e1 e2 : IdxEntry) : Int :=
  let n1 := e1.name.getD []
  let n2 := e2.name.getD []
  let clen := min n1.length n2.length
  let cmp := memcmp (n1.take clen) (n2.take clen)
  if cmp ≠ 0 then cmp else if n1.length < n2.length then -1 else 1

/-- cmp_idx: by key, colliding keys by name. -/
def cmpIdx (e1 e2 : IdxEntry) : Int :=
  let cmp := keysCmp e1.key e2.key
  if cmp ≠ 0 then cmp else namecmp e1 e2

/-- qsort with cmp_idx. On a list where cmp_idx is a strict total order every sorting algorithm
returns the same list; the stable merge sort stands for glibc's. -/
def qsortIdx (l : List IdxEntry) : List IdxEntry := l.mergeSort fun a b => cmpIdx a b ≤ 0

/-! ### The loops of write_index -/

/-- The child count of node i of a row of cnt nodes over below children: full nodes, except
the last of the row, which takes the remainder. -/
def rowChildCnt (f cnt below i : Nat) : Nat :=
  if i = cnt - 1 then (if below % f = 0 then f else below % f) else f

/-- The branch of a level-0 node for one leaf. -/
def IdxEntry.branch (e : IdxEntry) : Branch := ⟨e.key, e.lnum, e.offs, e.len, e.hash⟩

/-- The level-0 loop, k nodes left from node i on, p the leaves not yet used. It returns the
hashes buffer and the child count of the last node written. -/
def writeLevel0 (c : Info) (idxCnt cnt : Nat) :
    Nat → Nat → List IdxEntry → List Bytes → Nat → M (List Bytes × Nat)
  | 0, _, _, hashes, childCnt => pure (hashes, childCnt)
  | k + 1, i, p, hashes, _ => do
    let childCnt := rowChildCnt c.fanout cnt idxCnt i
    let n ← addIdxNode c ⟨childCnt, 0, (p.take childCnt).map IdxEntry.branch⟩ childCnt
    writeLevel0 c idxCnt cnt k (i + 1) (p.drop childCnt) (hashes.set i (c.calcHash n)) childCnt

/-- The branch loop of a node above level 0: k branches left, bn the number of the next child
in the row below, p its first leaf, (blnum, boffs) the shadow cursor. -/
def levelBranches (c : Info) (ptrs : List IdxEntry) (hashes : List Bytes)
    (bcnt blastLen idxSz pstep : Nat) :
    Nat → Nat → Nat → Nat → Nat → List Branch × Nat × Nat × Nat
  | 0, _, p, blnum, boffs => ([], p, blnum, boffs)
  | k + 1, bn, p, blnum, boffs =>
    let blen := if bn = bcnt - 1 then blastLen else idxSz
    let (blnum, boffs) := if c.lebSize < boffs + blen then (blnum + 1, 0) else (blnum, boffs)
    let br : Branch := ⟨(ptrs.getD p default).key, blnum, boffs, blen, hashes.getD bn []⟩
    let (rest, p, blnum, boffs) :=
      levelBranches c ptrs hashes bcnt blastLen idxSz pstep k (bn + 1) (p + pstep) blnum
        (boffs + align blen 8)
    (br :: rest, p, blnum, boffs)

/-- The node loop of a level above 0: k nodes left from node i on. It returns the shadow
cursor, the hashes buffer and the child count of the last node written. -/
def levelRow (c : Info) (ptrs : List IdxEntry) (level cnt bcnt blastLen idxSz pstep : Nat) :
    Nat → Nat → Nat → Nat → Nat → List Bytes → Nat → M (Nat × Nat × List Bytes × Nat)
  | 0, _, _, blnum, boffs, hashes, childCnt => pure (blnum, boffs, hashes, childCnt)
  | k + 1, i, p, blnum, boffs, hashes, _ => do
    let childCnt := rowChildCnt c.fanout cnt bcnt i
    let (brs, p, blnum, boffs) :=
      levelBranches c ptrs hashes bcnt blastLen idxSz pstep childCnt (i * c.fanout) p blnum boffs
    let n ← addIdxNode c ⟨childCnt, level, brs⟩ childCnt
    levelRow c ptrs level cnt bcnt blastLen idxSz pstep k (i + 1) p blnum boffs
      (hashes.set i (c.calcHash n)) childCnt

theorem ceil_div_lt {cnt f : Nat} (hf : 2 ≤ f) (hc : 1 < cnt) : (cnt + f - 1) / f < cnt := by
  rw [Nat.div_lt_iff_lt_mul (by omega)]
  have h₁ : cnt * f = cnt * (f - 1) + cnt := by
    rw [Nat.mul_sub_one, Nat.sub_add_cancel (Nat.le_mul_of_pos_right cnt (by omega))]
  have h₂ : 2 * (f - 1) ≤ cnt * (f - 1) := Nat.mul_le_mul_right _ hc
  omega

/-- The while loop over the levels above 0, cnt the number of nodes in the row below. -/
def writeLevels (c : Info) (ptrs : List IdxEntry) (idxSz : Nat) (level cnt pstep blnum boffs : Nat)
    (hashes : List Bytes) (childCnt : Nat) : M (List Bytes) :=
  if _h : 1 < cnt then do
    let blastLen := ubifsIdxNodeSz c childCnt
    let bcnt := cnt
    let cnt' := (cnt + c.fanout - 1) / c.fanout
    let cnt' := if cnt' = 0 then 1 else cnt'
    let (blnum, boffs, hashes, childCnt) ←
      levelRow c ptrs (level + 1) cnt' bcnt blastLen idxSz (pstep * c.fanout) cnt' 0 0 blnum boffs
        hashes childCnt
    writeLevels c ptrs idxSz (level + 1) cnt' (pstep * c.fanout) blnum boffs hashes childCnt
  else pure hashes
termination_by cnt
decreasing_by
  have := ceil_div_lt (le_trans (by decide) c.fanout_ge) _h
  split <;> omega

/-- write_index. The pointer array must fit a size_t; an empty one is written at index 0 all
the same, past its end. -/
def writeIndex (c : Info) : M Unit := do
  onFlash fun fl => ((), { fl with headFlags := lpropsIndex })
  let idxSz := ubifsIdxNodeSz c c.fanout
  let s ← get
  let idxCnt := s.idxList.length
  if idxCnt * 8 % 2 ^ 64 / 8 ≠ idxCnt then throw (.indexTooBig idxCnt)
  if idxCnt = 0 then throw .overrun
  let ptrs := qsortIdx s.idxList
  let cnt := idxCnt / c.fanout + if idxCnt % c.fanout ≠ 0 then 1 else 0
  let (hashes, childCnt) ← writeLevel0 c idxCnt cnt cnt 0 ptrs (List.replicate cnt []) 0
  let hashes ← writeLevels c ptrs idxSz 0 cnt 1 s.flash.headLnum s.flash.headOffs hashes childCnt
  modify fun s => { s with rootIdxHash := hashes.headD [] }
  modify fun s => { s with iheadLnum := s.flash.headLnum, iheadOffs := align s.flash.headOffs c.minIoSize }
  onFlash fun fl => ((), flushNodes c fl)

end MkfsUbifs

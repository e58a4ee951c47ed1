import Mathlib.Algebra.BigOperators.Group.List
import Mathlib.Algebra.Order.Ring.Nat
import MkfsUbifs.Index
import MkfsUbifs.Options

/-! # The index tree write_index builds

write_index never builds a tree in memory: each level is written as a row of index nodes on the
head, and the branches of the next row are computed from the row below by re-walking its node
sizes with a shadow cursor, by stepping through the sorted leaves for keys, and by reading the
hashes buffer. This module states what the rows are (`IsRow`, `IndexRows`) and proves that the
loops produce them: every branch points at the node add_idx_node really placed below. -/

namespace MkfsUbifs

/-! ### Placed index nodes -/

/-- The key of an index node: the key of its first branch. -/
def IdxNode.firstKey (x : IdxNode) : Key :=
  match x.branches with
  | b :: _ => b.key
  | [] => default

/-- An index node as add_idx_node wrote it: its place and its sequence number. -/
structure PlacedIdx where
  lnum : Nat
  offs : Nat
  sqnum : Nat
  node : IdxNode

namespace PlacedIdx

def pos (q : PlacedIdx) : Nat × Nat := (q.lnum, q.offs)

/-- The node length add_idx_node gives it. -/
def len (c : Info) (q : PlacedIdx) : Nat := ubifsIdxNodeSz c q.node.childCnt

def toNode (c : Info) (q : PlacedIdx) : Node := ⟨q.sqnum, q.len c, .idx q.node⟩

def placed (c : Info) (q : PlacedIdx) : Nat × Nat × Node := (q.lnum, q.offs, q.toNode c)

def hash (c : Info) (q : PlacedIdx) : Bytes := c.calcHash (q.toNode c)

/-- The branch that points at q: where it is, its length, its key and its hash. -/
def branch (c : Info) (q : PlacedIdx) : Branch := ⟨q.node.firstKey, q.lnum, q.offs, q.len c, q.hash c⟩

end PlacedIdx

/-! ### What a run of add_idx_node calls did -/

/-- The index nodes W were written, in order, one after the other from the head. -/
structure Emitted (c : Info) (s s' : Mkfs) (W : List PlacedIdx) : Prop where
  placed : s'.flash.placed = s.flash.placed ++ W.map (PlacedIdx.placed c)
  pos : W.map PlacedIdx.pos = walkPos c.lebSize s.flash.head (W.map (PlacedIdx.len c))
  head : s'.flash.head = walkEnd c.lebSize s.flash.head (W.map (PlacedIdx.len c))
  maxSqnum : s'.maxSqnum = s.maxSqnum + W.length
  oldIdxSz : s'.oldIdxSz = s.oldIdxSz + (W.map fun q => align (q.len c) 8).sum
  zroot : s'.zroot = (W.getLast?.map fun q => (q.lnum, q.offs, q.len c)).getD s.zroot
  idxList : s'.idxList = s.idxList
  headFlags : s'.flash.headFlags = s.flash.headFlags

namespace Emitted
variable {c : Info} {s s₁ s₂ : Mkfs} {W W₁ W₂ : List PlacedIdx}

theorem refl : Emitted c s s [] :=
  ⟨by simp, rfl, rfl, rfl, by simp, rfl, rfl, rfl⟩

theorem trans (h₁ : Emitted c s s₁ W₁) (h₂ : Emitted c s₁ s₂ W₂) : Emitted c s s₂ (W₁ ++ W₂) where
  placed := by rw [h₂.placed, h₁.placed, List.map_append, List.append_assoc]
  pos := by rw [List.map_append, List.map_append, walkPos_append, ← h₁.pos, ← h₁.head, ← h₂.pos]
  head := by rw [h₂.head, h₁.head, List.map_append, walkEnd_append]
  maxSqnum := by rw [h₂.maxSqnum, h₁.maxSqnum, List.length_append, Nat.add_assoc]
  oldIdxSz := by rw [h₂.oldIdxSz, h₁.oldIdxSz, List.map_append, List.sum_append, Nat.add_assoc]
  zroot := by
    rw [h₂.zroot, h₁.zroot, List.getLast?_append]
    cases W₂.getLast? <;> rfl
  idxList := h₂.idxList.trans h₁.idxList
  headFlags := h₂.headFlags.trans h₁.headFlags

end Emitted

/-- add_idx_node on a well-placed head writes one node where the head puts it. -/
theorem addIdxNode_emitted {c : Info} {s : Mkfs} {x : IdxNode} (h8 : c.lebSize % 8 = 0)
    (hp : HeadOk c s.flash.head) (hl : ubifsIdxNodeSz c x.childCnt ≤ c.lebSize) :
    let q : PlacedIdx :=
      ⟨(place c.lebSize s.flash.head (ubifsIdxNodeSz c x.childCnt)).1,
        (place c.lebSize s.flash.head (ubifsIdxNodeSz c x.childCnt)).2, s.maxSqnum + 1, x⟩
    ∃ s', (addIdxNode c x x.childCnt).run s = .ok (q.toNode c, s') ∧ Emitted c s s' [q] := by
  intro q
  obtain ⟨s', hrun, hpl, hhead, hsq, hsz, hz, hidx, hfl⟩ := addIdxNode_ok (x := x) h8 hp hl
  exact ⟨s', hrun, ⟨by simpa using hpl, by simp [walkPos, PlacedIdx.pos, PlacedIdx.len, q],
    by simpa using hhead, hsq, by simpa using hsz, by simpa using hz, hidx, hfl⟩⟩

/-! ### Rows -/

/-- A row of index nodes of one level whose branches, read in order, are brs: every node is full
except the last, which has between 1 and fanout children. -/
structure IsRow (c : Info) (level : Nat) (brs : List Branch) (row : List PlacedIdx) : Prop where
  level : ∀ q ∈ row, q.node.level = level
  childCnt : ∀ q ∈ row, q.node.childCnt = q.node.branches.length
  full : ∀ q ∈ row.dropLast, q.node.childCnt = c.fanout
  last : ∀ q ∈ row.getLast?, 1 ≤ q.node.childCnt ∧ q.node.childCnt ≤ c.fanout
  branches : row.flatMap (·.node.branches) = brs

/-- The rows above a row R of level L: each row points at the one below, up to a row of one node. -/
inductive IndexRows (c : Info) : Nat → List PlacedIdx → List (List PlacedIdx) → Prop
  | top {L : Nat} {R : List PlacedIdx} : R.length = 1 → IndexRows c L R []
  | up {L : Nat} {R U : List PlacedIdx} {rows : List (List PlacedIdx)} : 1 < R.length →
      IsRow c (L + 1) (R.map (PlacedIdx.branch c)) U → IndexRows c (L + 1) U rows →
      IndexRows c L R (U :: rows)

/-! ### Child counts -/

section Count
variable {f m cnt i : Nat}

theorem rowChildCnt_of_lt (hi : i < cnt - 1) : rowChildCnt f cnt m i = f := by
  simp only [rowChildCnt]
  rw [if_neg (by omega)]

/-- The row count write_index computes is the number of fanout-sized pieces of m children. -/
theorem rowCount_bounds (hf : 0 < f) (hm : 0 < m)
    (hcnt : cnt = m / f + if m % f ≠ 0 then 1 else 0) :
    0 < cnt ∧ (cnt - 1) * f < m ∧ m ≤ cnt * f ∧ rowChildCnt f cnt m (cnt - 1) = m - (cnt - 1) * f := by
  have hdm : m / f * f + m % f = m := by rw [Nat.mul_comm]; exact Nat.div_add_mod m f
  have hlt := Nat.mod_lt m hf
  simp only [rowChildCnt, if_true]
  by_cases hr : m % f = 0
  · simp only [hr, ne_eq, not_true_eq_false, if_false, Nat.add_zero, if_true] at hcnt ⊢
    subst hcnt
    have hq : 0 < m / f := Nat.pos_of_ne_zero fun h => by rw [h, hr] at hdm; omega
    have h1 : (m / f - 1) * f = m / f * f - f := Nat.sub_one_mul _ _
    have h2 : f ≤ m / f * f := Nat.le_mul_of_pos_left f hq
    refine ⟨hq, ?_, ?_, ?_⟩ <;> omega
  · simp only [hr, ne_eq, not_false_eq_true, if_true, if_false] at hcnt ⊢
    subst hcnt
    rw [Nat.add_sub_cancel, Nat.add_mul, Nat.one_mul]
    exact ⟨Nat.succ_pos _, by omega, by omega, by omega⟩

/-- Node i of a row of cnt nodes over m children, with k nodes after it: it takes fanout
children, or the rest when it is the last. -/
theorem nodeChildCnt (hf : 0 < f) (hm : 0 < m)
    (hcnt : cnt = m / f + if m % f ≠ 0 then 1 else 0) {k : Nat} (hk : i + (k + 1) = cnt) :
    i * f + rowChildCnt f cnt m i ≤ m ∧ 1 ≤ rowChildCnt f cnt m i ∧ rowChildCnt f cnt m i ≤ f ∧
      (0 < k → rowChildCnt f cnt m i = f) ∧ (k = 0 → i * f + rowChildCnt f cnt m i = m) := by
  obtain ⟨hc0, hlo, hhi, hlast⟩ := rowCount_bounds hf hm hcnt
  have hcf : (cnt - 1) * f + f = cnt * f := by
    rw [← Nat.succ_mul, Nat.succ_eq_add_one, Nat.sub_add_cancel hc0]
  rcases Nat.eq_zero_or_pos k with h | h
  · subst h
    obtain rfl : i = cnt - 1 := by omega
    rw [hlast]
    refine ⟨by omega, by omega, by omega, by omega, fun _ => by omega⟩
  · have h1 : (i + 1) * f ≤ (cnt - 1) * f := Nat.mul_le_mul_right _ (by omega)
    rw [Nat.succ_mul] at h1
    rw [rowChildCnt_of_lt (by omega)]
    exact ⟨by omega, hf, le_rfl, fun _ => rfl, by omega⟩

theorem ceil_div_eq (hf : 0 < f) : (m + f - 1) / f = m / f + if m % f ≠ 0 then 1 else 0 := by
  have hdm : m / f * f + m % f = m := by rw [Nat.mul_comm]; exact Nat.div_add_mod m f
  have hlt := Nat.mod_lt m hf
  apply Nat.div_eq_of_lt_le
  · split <;> simp only [Nat.add_mul, Nat.one_mul, Nat.add_zero] <;> omega
  · split <;> simp only [Nat.add_mul, Nat.one_mul, Nat.add_zero] <;> omega

end Count

/-! ### The hashes buffer -/

section Buffer
variable {H B : List Bytes} {i j : Nat} {v : Bytes}

theorem set_append_drop (hH : H.length = i) (hi : i < B.length) :
    (H ++ B.drop i).set i v = (H ++ [v]) ++ B.drop (i + 1) := by
  subst hH
  rw [List.set_append_right _ _ (Nat.le_refl _), Nat.sub_self, List.append_assoc]
  obtain ⟨b, B', hb⟩ : ∃ b B', B.drop H.length = b :: B' :=
    List.exists_cons_of_ne_nil (by simp; omega)
  rw [hb, ← List.drop_drop, hb]
  rfl

theorem getElem?_append_drop (hH : H.length = i) (hj : i ≤ j) : (H ++ B.drop i)[j]? = B[j]? := by
  subst hH
  rw [List.getElem?_append_right hj, List.getElem?_drop, Nat.add_sub_cancel' hj]

end Buffer

/-! ### Level 0 -/

theorem IsRow.cons {c : Info} {L : Nat} {q : PlacedIdx} {row : List PlacedIdx} {brs : List Branch}
    (hlev : q.node.level = L) (hcc : q.node.childCnt = q.node.branches.length)
    (hfull : row ≠ [] → q.node.childCnt = c.fanout)
    (hlast : row = [] → 1 ≤ q.node.childCnt ∧ q.node.childCnt ≤ c.fanout)
    (h : IsRow c L brs row) : IsRow c L (q.node.branches ++ brs) (q :: row) where
  level := by simpa [hlev] using h.level
  childCnt := by simpa [hcc] using h.childCnt
  full := by
    cases row with
    | nil => simp
    | cons r row => simpa [List.dropLast_cons₂, hfull] using h.full
  last := by
    cases row with
    | nil => simpa using hlast rfl
    | cons r row => simpa [List.getLast?_cons_cons] using h.last
  branches := by simp [h.branches]

theorem IsRow.nil {c : Info} {L : Nat} : IsRow c L [] [] :=
  ⟨by simp, by simp, by simp, by simp, rfl⟩

section Level0
variable {c : Info} {m cnt : Nat}

/-- The level-0 loop from node i on writes one row over the leaves p that are left. -/
theorem writeLevel0_row (h8 : c.lebSize % 8 = 0) (hsz : ubifsIdxNodeSz c c.fanout ≤ c.lebSize)
    (hm : 0 < m) (hcnt : cnt = m / c.fanout + if m % c.fanout ≠ 0 then 1 else 0) :
    ∀ k i (p : List IdxEntry) (H B : List Bytes) cc (s : Mkfs), i + k = cnt →
      p.length = m - i * c.fanout → H.length = i → i + k ≤ B.length → HeadOk c s.flash.head →
      ∃ row s' cc', (writeLevel0 c m cnt k i p (H ++ B.drop i) cc).run s =
          .ok ((H ++ row.map (PlacedIdx.hash c) ++ B.drop (i + k), cc'), s') ∧
        Emitted c s s' row ∧ row.length = k ∧ IsRow c 0 (p.map IdxEntry.branch) row ∧
        (∀ t (h : t < row.length), row[t].node.firstKey = (p.getD (t * c.fanout) default).key) ∧
        (row.getLast?.map (·.node.childCnt)).getD cc = cc' := by
  have hf : 0 < c.fanout := lt_of_lt_of_le (by decide) c.fanout_ge
  obtain ⟨-, -, hhi, -⟩ := rowCount_bounds hf hm hcnt
  intro k
  induction k with
  | zero =>
    intro i p H B cc s hk hp hH _ _
    obtain rfl : i = cnt := hk
    have : p = [] := List.eq_nil_of_length_eq_zero (by rw [hp]; exact Nat.sub_eq_zero_of_le hhi)
    subst this
    exact ⟨[], s, cc, by simp only [writeLevel0, List.map_nil, List.append_nil, Nat.add_zero]; rfl,
      Emitted.refl, rfl, IsRow.nil, by simp, rfl⟩
  | succ k ih =>
    intro i p H B cc s hk hp hH hB hs
    -- node i takes a full fanout of leaves, or what is left when it is the last
    obtain ⟨hcm, hc1, hle, hfull, hlast'⟩ := nodeChildCnt hf hm hcnt hk
    set cc₀ := rowChildCnt c.fanout cnt m i with hcc₀
    have hlen : cc₀ ≤ p.length := by omega
    set x : IdxNode := ⟨cc₀, 0, (p.take cc₀).map IdxEntry.branch⟩ with hx
    have hxsz : ubifsIdxNodeSz c x.childCnt ≤ c.lebSize :=
      le_trans (by simp only [ubifsIdxNodeSz]; exact Nat.add_le_add_left (Nat.mul_le_mul_left _ hle) _) hsz
    obtain ⟨s₁, hrun₁, he₁⟩ := addIdxNode_emitted (x := x) h8 hs hxsz
    set q : PlacedIdx := ⟨_, _, s.maxSqnum + 1, x⟩
    have hs₁ : HeadOk c s₁.flash.head := by
      rw [he₁.head]
      exact HeadOk.walkEnd h8 hs (by simpa [PlacedIdx.len, q] using hxsz)
    have hp' : (p.drop cc₀).length = m - (i + 1) * c.fanout := by
      rw [List.length_drop, hp, Nat.succ_mul]
      rcases Nat.eq_zero_or_pos k with h | h
      · have := hlast' h; omega
      · rw [hfull h]; omega
    obtain ⟨row, s', cc', hrun, he, hrl, hrow, hkey, hcc'⟩ :=
      ih (i + 1) (p.drop cc₀) (H ++ [q.hash c]) B cc₀ s₁ (by omega) hp' (by simp [hH]) (by omega) hs₁
    refine ⟨q :: row, s', cc', ?_, he₁.trans he, by simp [hrl], ?_, ?_, ?_⟩
    · rw [writeLevel0, run_bind_of_ok hrun₁]
      have : c.calcHash (q.toNode c) = q.hash c := rfl
      rw [this, set_append_drop hH (by omega), hrun]
      simp [Nat.add_assoc, Nat.add_comm 1 k]
    · have hbr : x.branches.length = cc₀ := by simp [x, hlen]
      have := IsRow.cons (q := q) (L := 0) rfl hbr.symm
        (fun hne => hfull (hrl ▸ List.length_pos.mpr hne)) (fun _ => ⟨hc1, hle⟩) hrow
      rwa [← List.map_append, List.take_append_drop] at this
    · intro t ht
      cases t with
      | zero =>
        obtain ⟨e, p', rfl⟩ : ∃ e p', p = e :: p' := List.exists_cons_of_ne_nil (by
          intro h; subst h; simp at hlen; omega)
        obtain ⟨n, hn⟩ : ∃ n, cc₀ = n + 1 := Nat.exists_eq_succ_of_ne_zero (by omega)
        simp [q, x, hn, IdxNode.firstKey, IdxEntry.branch]
      | succ t =>
        have hk0 : 0 < k := by simp [hrl] at ht; omega
        have := hkey t (by simpa using ht)
        simp only [List.getElem_cons_succ, this, hfull hk0, List.getD_eq_getElem?_getD,
          List.getElem?_drop, Nat.succ_mul, Nat.add_comm]
    · rw [← hcc']
      cases hr : row.getLast? with
      | none => simp [List.getLast?_eq_none_iff.mp hr, q, x]
      | some z => simp [List.getLast?_cons, hr]

end Level0

/-! ### The shadow cursor -/

section Branches
variable {c : Info} {ptrs : List IdxEntry} {hashes : List Bytes} {bcnt blastLen idxSz pstep : Nat}

/-- The branch loop of a node above level 0 re-walks the row below: from child bn on, with the
shadow cursor where child bn was placed, it produces the branches that point at the children. -/
theorem levelBranches_eq :
    ∀ k bn (T : List PlacedIdx) (pos : Nat × Nat), k ≤ T.length →
      T.map PlacedIdx.pos = walkPos c.lebSize pos (T.map (PlacedIdx.len c)) →
      (∀ t (h : t < T.length), T[t].len c = if bn + t = bcnt - 1 then blastLen else idxSz) →
      (∀ t (h : t < T.length), T[t].node.firstKey = (ptrs.getD ((bn + t) * pstep) default).key) →
      (∀ t (h : t < T.length), hashes[bn + t]? = some (T[t].hash c)) →
      levelBranches c ptrs hashes bcnt blastLen idxSz pstep k bn (bn * pstep) pos.1 pos.2 =
        ((T.take k).map (PlacedIdx.branch c), (bn + k) * pstep,
          (walkEnd c.lebSize pos ((T.take k).map (PlacedIdx.len c))).1,
          (walkEnd c.lebSize pos ((T.take k).map (PlacedIdx.len c))).2) := by
  intro k
  induction k with
  | zero => intro bn T pos _ _ _ _ _; simp [levelBranches]
  | succ k ih =>
    intro bn T pos hk hpos hlen hkey hhash
    obtain ⟨q, T', rfl⟩ : ∃ q T', T = q :: T' := List.exists_cons_of_ne_nil (by
      rintro rfl; simp at hk)
    have hq := hlen 0 (by simp)
    have hq₁ : q.len c = if bn = bcnt - 1 then blastLen else idxSz := by simpa using hq
    simp only [List.map_cons, walkPos, List.cons.injEq] at hpos
    have hpl : place c.lebSize pos (q.len c) = (q.lnum, q.offs) := hpos.1.symm
    have hrest := ih (bn + 1) T' (advance c.lebSize pos (q.len c)) (by simpa using hk) hpos.2
      (fun t h => by simpa [Nat.add_assoc, Nat.add_comm 1 t] using hlen (t + 1) (by simpa using h))
      (fun t h => by simpa [Nat.add_assoc, Nat.add_comm 1 t] using hkey (t + 1) (by simpa using h))
      (fun t h => by simpa [Nat.add_assoc, Nat.add_comm 1 t] using hhash (t + 1) (by simpa using h))
    have hk0 := hkey 0 (by simp)
    have hh0 := hhash 0 (by simp)
    simp only [Nat.add_zero, List.getElem_cons_zero] at hk0 hh0
    unfold place at hpl
    simp only [levelBranches, ← hq₁, hpl]
    rw [show (bn + 1) * pstep = bn * pstep + pstep from Nat.succ_mul _ _] at hrest
    simp only [advance, hpl, place] at hrest
    rw [hrest]
    simp [PlacedIdx.branch, hk0, hh0, walkEnd, advance, place, hpl, Nat.add_assoc, Nat.add_comm 1 k]

end Branches

/-! ### The rows above level 0 -/

section Upper
variable {c : Info} {ptrs : List IdxEntry} {level cnt bcnt blastLen idxSz pstep : Nat}
  {R : List PlacedIdx} {pos₀ : Nat × Nat} {B : List Bytes}

/-- The node loop of a level above 0, from node i on: it writes the row over the nodes of the
row below R that are left, each branch pointing at the node of R it stands for. -/
theorem levelRow_row (h8 : c.lebSize % 8 = 0) (hsz : ubifsIdxNodeSz c c.fanout ≤ c.lebSize)
    (hR : R.length = bcnt) (hb : 0 < bcnt)
    (hcnt : cnt = bcnt / c.fanout + if bcnt % c.fanout ≠ 0 then 1 else 0)
    (hRpos : R.map PlacedIdx.pos = walkPos c.lebSize pos₀ (R.map (PlacedIdx.len c)))
    (hRlen : ∀ j (h : j < R.length), R[j].len c = if j = bcnt - 1 then blastLen else idxSz)
    (hRkey : ∀ j (h : j < R.length), R[j].node.firstKey = (ptrs.getD (j * pstep) default).key)
    (hRhash : ∀ j (h : j < R.length), B[j]? = some (R[j].hash c)) (hB : cnt ≤ B.length) :
    ∀ k i p (H : List Bytes) cc (s : Mkfs), i + k = cnt → (0 < k → p = i * c.fanout * pstep) →
      H.length = i → HeadOk c s.flash.head →
      let sh := walkEnd c.lebSize pos₀ ((R.map (PlacedIdx.len c)).take (i * c.fanout))
      let fin := walkEnd c.lebSize pos₀ (R.map (PlacedIdx.len c))
      ∃ U s' cc', (levelRow c ptrs level cnt bcnt blastLen idxSz pstep k i p sh.1 sh.2
          (H ++ B.drop i) cc).run s =
          .ok ((fin.1, fin.2, H ++ U.map (PlacedIdx.hash c) ++ B.drop (i + k), cc'), s') ∧
        Emitted c s s' U ∧ U.length = k ∧
        IsRow c level ((R.drop (i * c.fanout)).map (PlacedIdx.branch c)) U ∧
        (∀ t (h : t < U.length),
          U[t].node.firstKey = (ptrs.getD ((i + t) * (pstep * c.fanout)) default).key) ∧
        (U.getLast?.map (·.node.childCnt)).getD cc = cc' := by
  have hf : 0 < c.fanout := lt_of_lt_of_le (by decide) c.fanout_ge
  obtain ⟨hc0, hlo, hhi, -⟩ := rowCount_bounds hf hb hcnt
  have hfin : ∀ n, bcnt ≤ n →
      walkEnd c.lebSize pos₀ ((R.map (PlacedIdx.len c)).take n) =
        walkEnd c.lebSize pos₀ (R.map (PlacedIdx.len c)) := fun n hn => by
    rw [List.take_of_length_le (by simp [hR]; omega)]
  intro k
  induction k with
  | zero =>
    intro i p H cc s hk _ hH _
    simp only [Nat.add_zero] at hk
    subst hk
    refine ⟨[], s, cc, ?_, Emitted.refl, rfl, ?_, by simp, rfl⟩
    · simp only [levelRow, hfin _ hhi, List.map_nil, List.append_nil, Nat.add_zero]; rfl
    · rw [List.drop_eq_nil_of_le (by rw [hR]; omega)]
      exact IsRow.nil
  | succ k ih =>
    intro i p H cc s hk hp hH hs
    obtain ⟨hcm, hc1, hcf, hfull, hlast⟩ := nodeChildCnt hf hb hcnt hk
    set cc₀ := rowChildCnt c.fanout cnt bcnt i with hcc₀
    set T := R.drop (i * c.fanout) with hT
    have hTlen : T.length = bcnt - i * c.fanout := by simp [T, hR]
    have hil : i ≤ i * c.fanout := Nat.le_mul_of_pos_right i hf
    have hend : k = 0 → bcnt ≤ i * c.fanout + c.fanout := fun h => by
      have : i * c.fanout + c.fanout = cnt * c.fanout := by rw [← Nat.succ_mul]; congr 1; omega
      omega
    -- the branches of node i point at the next cc₀ nodes of R
    have hbr := @levelBranches_eq c ptrs (H ++ B.drop i) bcnt blastLen idxSz pstep cc₀ (i * c.fanout) T
      (walkEnd c.lebSize pos₀ ((R.map (PlacedIdx.len c)).take (i * c.fanout))) (by omega)
      (by rw [hT, List.map_drop, hRpos, walkPos_drop, List.map_drop])
      (fun t h => by simpa [T] using hRlen (i * c.fanout + t) (by simp [T] at h; omega))
      (fun t h => by simpa [T] using hRkey (i * c.fanout + t) (by simp [T] at h; omega))
      (fun t h => by
        rw [getElem?_append_drop hH (by omega)]
        simpa [T] using hRhash (i * c.fanout + t) (by simp [T] at h; omega))
    set x : IdxNode := ⟨cc₀, level, (T.take cc₀).map (PlacedIdx.branch c)⟩ with hx
    have hxsz : ubifsIdxNodeSz c x.childCnt ≤ c.lebSize :=
      le_trans (by simp only [ubifsIdxNodeSz]; exact Nat.add_le_add_left (Nat.mul_le_mul_left _ hcf) _) hsz
    obtain ⟨s₁, hrun₁, he₁⟩ := addIdxNode_emitted (x := x) h8 hs hxsz
    set q : PlacedIdx := ⟨_, _, s.maxSqnum + 1, x⟩
    have hs₁ : HeadOk c s₁.flash.head := by
      rw [he₁.head]
      exact HeadOk.walkEnd h8 hs (by simpa [PlacedIdx.len, q] using hxsz)
    -- the shadow cursor ends where the next node's first child was placed
    have hsh : walkEnd c.lebSize (walkEnd c.lebSize pos₀ ((R.map (PlacedIdx.len c)).take (i * c.fanout)))
        ((T.take cc₀).map (PlacedIdx.len c)) =
        walkEnd c.lebSize pos₀ ((R.map (PlacedIdx.len c)).take ((i + 1) * c.fanout)) := by
      rw [← walkEnd_append, hT, List.map_take, List.map_drop, ← List.take_add, Nat.succ_mul]
      rcases Nat.eq_zero_or_pos k with h | h
      · rw [hfin _ (hlast h).ge, hfin _ (hend h)]
      · rw [hfull h]
    have hsplit : (T.take cc₀).map (PlacedIdx.branch c) ++
        (R.drop ((i + 1) * c.fanout)).map (PlacedIdx.branch c) = T.map (PlacedIdx.branch c) := by
      rw [← List.map_append, Nat.succ_mul]
      rcases Nat.eq_zero_or_pos k with h | h
      · rw [List.take_of_length_le (by omega), List.drop_eq_nil_of_le (by rw [hR]; exact hend h),
          List.append_nil]
      · rw [show i * c.fanout + c.fanout = i * c.fanout + cc₀ by rw [hfull h],
          ← List.drop_drop, ← hT, List.take_append_drop]
    obtain ⟨U, s', cc', hrun, he, hUl, hrow, hkey, hcc'⟩ :=
      ih (i + 1) ((i * c.fanout + cc₀) * pstep) (H ++ [q.hash c]) cc₀ s₁ (by omega)
        (fun h => by rw [hfull h, ← Nat.succ_mul]) (by simp [hH]) hs₁
    refine ⟨q :: U, s', cc', ?_, he₁.trans he, by simp [hUl], ?_, ?_, ?_⟩
    · have hrun₁' : (addIdxNode c ⟨cc₀, level, (T.take cc₀).map (PlacedIdx.branch c)⟩ cc₀).run s =
          .ok (q.toNode c, s₁) := hrun₁
      rw [levelRow, hp (by omega)]
      simp only [← hcc₀, hbr]
      rw [run_bind_of_ok hrun₁']
      have : c.calcHash (q.toNode c) = q.hash c := rfl
      rw [this, set_append_drop hH (by omega), hsh, hrun]
      simp [Nat.add_assoc, Nat.add_comm 1 k]
    · have hbrl : x.branches.length = cc₀ := by simp [x, hTlen]; omega
      have := IsRow.cons (q := q) rfl hbrl.symm
        (fun hne => hfull (hUl ▸ List.length_pos.mpr hne))
        (fun he => ⟨hc1, hcf⟩) hrow
      rwa [hsplit] at this
    · intro t ht
      cases t with
      | zero =>
        obtain ⟨r, T', hr⟩ : ∃ r T', T = r :: T' := List.exists_cons_of_ne_nil (by
          rw [← List.length_pos, hTlen]; omega)
        obtain ⟨n, hn⟩ : ∃ n, cc₀ = n + 1 := Nat.exists_eq_succ_of_ne_zero (by omega)
        have h0 : T[0]? = some r := by rw [hr]; simp
        rw [hT, List.getElem?_drop, Nat.add_zero] at h0
        obtain ⟨hlt, hr0⟩ := List.getElem?_eq_some_iff.mp h0
        have hkey0 := hRkey (i * c.fanout) hlt
        rw [hr0] at hkey0
        rw [Nat.add_zero, Nat.mul_comm pstep, ← Nat.mul_assoc, ← hkey0]
        simp only [List.getElem_cons_zero, q, x, hr, hn, List.take_succ_cons, List.map_cons,
          IdxNode.firstKey, PlacedIdx.branch]
      | succ t =>
        have := hkey t (by simpa using ht)
        simp only [List.getElem_cons_succ, this, Nat.add_assoc, Nat.add_comm 1 t]
    · rw [← hcc']
      cases hr : U.getLast? with
      | none => simp [List.getLast?_eq_none_iff.mp hr, q, x]
      | some z => simp [List.getLast?_cons, hr]

/-- The while loop: from a row R of level L, written on the head from pos₀ on, it writes the
rows above R up to a single node, and leaves that node's hash first in the buffer. -/
theorem writeLevels_rows (h8 : c.lebSize % 8 = 0) (hsz : ubifsIdxNodeSz c c.fanout ≤ c.lebSize) :
    ∀ cnt L pstep (R : List PlacedIdx) (pos₀ : Nat × Nat) (hashes : List Bytes) cc (s : Mkfs),
      R.length = cnt → 0 < cnt →
      R.map PlacedIdx.pos = walkPos c.lebSize pos₀ (R.map (PlacedIdx.len c)) →
      (∀ q ∈ R.dropLast, q.node.childCnt = c.fanout) →
      R.getLast?.map (·.node.childCnt) = some cc →
      (∀ j (h : j < R.length), R[j].node.firstKey = (ptrs.getD (j * (pstep * c.fanout)) default).key) →
      (∀ j (h : j < R.length), hashes[j]? = some (R[j].hash c)) →
      s.flash.head = walkEnd c.lebSize pos₀ (R.map (PlacedIdx.len c)) → HeadOk c s.flash.head →
      ∃ rows s' hashes', (writeLevels c ptrs (ubifsIdxNodeSz c c.fanout) L cnt pstep pos₀.1 pos₀.2
          hashes cc).run s = .ok (hashes', s') ∧
        Emitted c s s' rows.flatten ∧ IndexRows c L R rows ∧
        ∃ top, (R :: rows).getLast? = some [top] ∧ hashes'[0]? = some (top.hash c) := by
  have hf : 0 < c.fanout := lt_of_lt_of_le (by decide) c.fanout_ge
  intro cnt
  induction cnt using Nat.strong_induction_on with
  | _ cnt ih =>
  intro L pstep R pos₀ hashes cc s hR hc hRpos hRfull hRlast hRkey hhash hhead hs
  rw [writeLevels]
  by_cases h1 : 1 < cnt
  · rw [dif_pos h1]
    have hc' : 0 < (cnt + c.fanout - 1) / c.fanout := Nat.div_pos (by omega) hf
    have hlt : (cnt + c.fanout - 1) / c.fanout < cnt :=
      ceil_div_lt (le_trans (by decide) c.fanout_ge) h1
    simp only [if_neg (Nat.pos_iff_ne_zero.mp hc')]
    set cnt' := (cnt + c.fanout - 1) / c.fanout with hcnt'
    have hhl : cnt ≤ hashes.length := by
      obtain ⟨h, -⟩ := List.getElem?_eq_some_iff.mp (hhash (cnt - 1) (by omega))
      omega
    -- the lengths of R's nodes: full ones, then the last one's
    have hRlen : ∀ j (h : j < R.length), R[j].len c =
        if j = cnt - 1 then ubifsIdxNodeSz c cc else ubifsIdxNodeSz c c.fanout := by
      intro j hj
      split
      · have : R.getLast? = some R[j] := by
          rw [List.getLast?_eq_getElem?]; simp [hR, *]
        rw [this] at hRlast
        simp only [Option.map_some', Option.some.injEq] at hRlast
        simp [PlacedIdx.len, hRlast]
      · have hj' : j < R.dropLast.length := by simp; omega
        have hm := List.getElem_mem hj'
        rw [List.getElem_dropLast] at hm
        simp [PlacedIdx.len, hRfull _ hm]
    obtain ⟨U, s₁, cc', hrun, he, hUl, hrow, hkey, hcc'⟩ := @levelRow_row c ptrs (L + 1) cnt' cnt
      (ubifsIdxNodeSz c cc) (ubifsIdxNodeSz c c.fanout) (pstep * c.fanout) R pos₀ hashes h8 hsz hR (by omega)
      (ceil_div_eq hf) hRpos hRlen hRkey hhash (by omega)
      cnt' 0 0 [] cc s (by simp) (fun _ => by simp) rfl hs
    simp only [Nat.zero_mul, List.take_zero, walkEnd_nil, List.nil_append, List.drop_zero,
      Nat.zero_add] at hrun hrow hkey
    rw [run_bind_of_ok hrun]
    have hU : U ≠ [] := List.ne_nil_of_length_pos (by omega)
    have hs₁ : HeadOk c s₁.flash.head := by
      rw [he.head]
      refine HeadOk.walkEnd h8 hs fun len hl => ?_
      obtain ⟨q, hq, rfl⟩ := List.mem_map.mp hl
      refine le_trans (Nat.add_le_add_left (Nat.mul_le_mul_left _ ?_) _) hsz
      rw [← List.dropLast_append_getLast hU, List.mem_append, List.mem_singleton] at hq
      rcases hq with hq | rfl
      · exact (hrow.full q hq).le
      · exact (hrow.last _ (List.getLast_mem_getLast? hU)).2
    obtain ⟨rows, s', hashes', hrun', he', hrows, top, htop, hhash'⟩ :=
      ih cnt' hlt (L + 1) (pstep * c.fanout) U (walkEnd c.lebSize pos₀ (R.map (PlacedIdx.len c)))
        (U.map (PlacedIdx.hash c) ++ hashes.drop cnt') cc' s₁ hUl hc'
        (by rw [he.pos, hhead]) hrow.full
        (by
          rw [← hcc']
          cases h : U.getLast? with
          | none => exact absurd (List.getLast?_eq_none_iff.mp h) hU
          | some z => rfl)
        hkey
        (fun j hj => by
          rw [List.getElem?_append_left (by simpa using hj), List.getElem?_map,
            List.getElem?_eq_getElem hj]
          rfl)
        (by rw [he.head, hhead]) hs₁
    exact ⟨U :: rows, s', hashes', hrun', he.trans he', .up (by omega) hrow hrows, top,
      by rw [List.getLast?_cons_cons]; exact htop, hhash'⟩
  · rw [dif_neg h1]
    obtain ⟨top, rfl⟩ : ∃ top, R = [top] := List.length_eq_one.mp (by omega)
    exact ⟨[], s, hashes, rfl, Emitted.refl, .top rfl, top, rfl, by simpa using hhash 0 (by simp)⟩

end Upper

/-! ### write_index -/

theorem getLast?_flatten_of_getLast? {α : Type} {L : List (List α)} {a : α}
    (h : L.getLast? = some [a]) : L.flatten.getLast? = some a := by
  obtain ⟨L', rfl⟩ := List.getLast?_eq_some_iff.mp h
  simp

/-- A pointer array that overflows size_t: write_index stops before writing anything. -/
theorem writeIndex_of_too_big {c : Info} {s : Mkfs}
    (h : s.idxList.length * 8 % 2 ^ 64 / 8 ≠ s.idxList.length) :
    (writeIndex c).run s = .error (.indexTooBig s.idxList.length) := by
  unfold writeIndex
  rw [run_bind_of_ok run_onFlash]
  dsimp only
  rw [run_bind_of_ok run_get]
  dsimp only
  rw [if_pos h]
  exact run_bind_of_error run_throw

/-- The geometry of the smallest LEB, with the default fanout and no authentication:
-m 8 -e 15360 -c 17 with two log LEBs, two LPT LEBs and one orphan LEB. -/
def smallInfo : Info where
  minIoSize := 8
  lebSize := ubifsMinLebSz
  maxLebCnt := 17
  fanout := 8
  fanout_ge := by decide
  keyLen := ubifsSkLen
  hashLen := 0
  logLebs := 2
  lptLebs := 2
  orphLebs := 1
  mainLebs := 9
  calcHash := fun _ => []

section WriteIndex
variable {c : Info} {s : Mkfs}

/-- write_index on a nonempty index list whose pointer array fits a size_t, with a head where
the head can be and a fanout whose full index node fits a LEB: the loop ends, and the nodes it
wrote are the level-0 row over the sorted leaves and the rows above it, each branch pointing at
the node it stands for, up to the root, which zroot and root_idx_hash name. -/
theorem writeIndex_tree (h8 : c.lebSize % 8 = 0) (hsz : ubifsIdxNodeSz c c.fanout ≤ c.lebSize)
    (hs : HeadOk c s.flash.head) (hne : s.idxList ≠ []) (hfit : s.idxList.length < 2 ^ 61) :
    ∃ s' row₀ rows top, (writeIndex c).run s = .ok ((), s') ∧
      s'.flash.placed = s.flash.placed ++ (row₀ ++ rows.flatten).map (PlacedIdx.placed c) ∧
      IsRow c 0 ((qsortIdx s.idxList).map IdxEntry.branch) row₀ ∧ IndexRows c 0 row₀ rows ∧
      (row₀ :: rows).getLast? = some [top] ∧
      s'.zroot = (top.lnum, top.offs, top.len c) ∧ s'.rootIdxHash = top.hash c ∧
      s'.oldIdxSz = s.oldIdxSz + ((row₀ ++ rows.flatten).map fun q => align (q.len c) 8).sum := by
  have hf : 0 < c.fanout := lt_of_lt_of_le (by decide) c.fanout_ge
  set m := s.idxList.length with hm
  have hm0 : 0 < m := List.length_pos.mpr hne
  set cnt := m / c.fanout + if m % c.fanout ≠ 0 then 1 else 0 with hcnt
  obtain ⟨hc0, -, -, -⟩ := rowCount_bounds hf hm0 hcnt
  set s₀ : Mkfs := { s with flash := { s.flash with headFlags := lpropsIndex } }
  have hs₀ : HeadOk c s₀.flash.head := hs
  obtain ⟨row₀, s₁, cc₁, hrun₀, he₀, hl₀, hrow₀, hkey₀, hcc₁⟩ :=
    writeLevel0_row h8 hsz hm0 hcnt cnt 0 (qsortIdx s.idxList) [] (List.replicate cnt []) 0 s₀
      (by omega) (by simp [qsortIdx, hm]) rfl (by simp) hs₀
  simp only [List.nil_append, List.drop_zero, Nat.zero_add, List.drop_replicate, Nat.sub_self,
    List.replicate_zero, List.append_nil] at hrun₀
  have hne₀ : row₀ ≠ [] := List.ne_nil_of_length_pos (by omega)
  have hs₁ : HeadOk c s₁.flash.head := by
    rw [he₀.head]
    refine HeadOk.walkEnd h8 hs₀ fun len hl => ?_
    obtain ⟨q, hq, rfl⟩ := List.mem_map.mp hl
    refine le_trans (Nat.add_le_add_left (Nat.mul_le_mul_left _ ?_) _) hsz
    rw [← List.dropLast_append_getLast hne₀, List.mem_append, List.mem_singleton] at hq
    rcases hq with hq | rfl
    · exact (hrow₀.full q hq).le
    · exact (hrow₀.last _ (List.getLast_mem_getLast? hne₀)).2
  obtain ⟨rows, s₂, hashes, hrun₁, he₁, hrows, top, htop, hhash⟩ :=
    @writeLevels_rows c (qsortIdx s.idxList) h8 hsz cnt 0 1 row₀ s.flash.head _ cc₁ s₁ hl₀ hc0
      he₀.pos hrow₀.full
      (by
        rw [← hcc₁]
        cases h : row₀.getLast? with
        | none => exact absurd (List.getLast?_eq_none_iff.mp h) hne₀
        | some z => rfl)
      (by simpa using hkey₀)
      (fun j hj => by rw [List.getElem?_map, List.getElem?_eq_getElem hj]; rfl)
      he₀.head hs₁
  have he := he₀.trans he₁
  have hlast : (row₀ ++ rows.flatten).getLast? = some top := by
    simpa using getLast?_flatten_of_getLast? htop
  refine ⟨{ s₂ with
      flash := flushNodes c s₂.flash
      rootIdxHash := hashes.headD []
      iheadLnum := s₂.flash.headLnum
      iheadOffs := align s₂.flash.headOffs c.minIoSize }, row₀, rows, top, ?_, ?_, hrow₀, hrows, htop,
    ?_, ?_, ?_⟩
  · have h1 : ¬ m * 8 % 2 ^ 64 / 8 ≠ m := by
      rw [Nat.mod_eq_of_lt (by omega), Nat.mul_div_cancel _ (by decide)]; simp
    unfold writeIndex
    rw [run_bind_of_ok run_onFlash]
    dsimp only
    rw [run_bind_of_ok run_get]
    dsimp only
    rw [if_neg h1, run_bind_of_ok run_pure, if_neg (by omega), run_bind_of_ok run_pure]
    refine (run_bind_of_ok hrun₀).trans ?_
    refine (run_bind_of_ok hrun₁).trans ?_
    rfl
  · rw [flushNodes_placed]
    exact he.placed
  · rw [show s₂.zroot = _ from he.zroot, hlast]
    rfl
  · show hashes.headD [] = top.hash c
    rw [List.headD_eq_head?_getD, List.head?_eq_getElem?, hhash]
    rfl
  · exact he.oldIdxSz

end WriteIndex

/-- Nine leaves, one more than the fanout 8: the index needs a level above level 0. -/
theorem writeIndex_tree_nine_leaves :
    ∃ s', (writeIndex smallInfo).run { Mkfs.init smallInfo with idxList := List.replicate 9 default } =
      .ok ((), s') :=
  let ⟨s', _, _, _, h, _⟩ := writeIndex_tree (c := smallInfo)
    (s := { Mkfs.init smallInfo with idxList := List.replicate 9 default })
    (by decide) (by decide) ⟨rfl, by decide⟩ (by simp) (by decide)
  ⟨s', h⟩

/-! ### An index of one node -/

section OneNode
variable {c : Info} {s : Mkfs}

theorem writeLevels_of_not_lt {ptrs : List IdxEntry} {idxSz level cnt pstep blnum boffs : Nat}
    {hashes : List Bytes} {cc : Nat} (h : ¬ 1 < cnt) :
    writeLevels c ptrs idxSz level cnt pstep blnum boffs hashes cc = pure hashes := by
  rw [writeLevels, dif_neg h]

theorem writeIndex_of_le_fanout (hm0 : 0 < s.idxList.length) (hmf : s.idxList.length ≤ c.fanout)
    (hbig : s.idxList.length < 2 ^ 61) :
    (writeIndex c).run s = (do
      let (hashes, _) ← writeLevel0 c s.idxList.length 1 1 0 (qsortIdx s.idxList) [[]] 0
      modify fun t : Mkfs => { t with rootIdxHash := hashes.headD [] }
      modify fun t : Mkfs => { t with iheadLnum := t.flash.headLnum, iheadOffs := align t.flash.headOffs c.minIoSize }
      onFlash fun fl => ((), flushNodes c fl) : M Unit).run
        { s with flash := { s.flash with headFlags := lpropsIndex } } := by
  have hf : 0 < c.fanout := lt_of_lt_of_le (by decide) c.fanout_ge
  have h1 : ¬ s.idxList.length * 8 % 2 ^ 64 / 8 ≠ s.idxList.length := by
    rw [Nat.mod_eq_of_lt (by omega), Nat.mul_div_cancel _ (by decide)]; simp
  have hcnt : (s.idxList.length / c.fanout + if s.idxList.length % c.fanout ≠ 0 then 1 else 0) = 1 := by
    rcases Nat.lt_or_eq_of_le hmf with h | h
    · rw [Nat.div_eq_of_lt h, Nat.mod_eq_of_lt h, if_pos (by omega)]
    · rw [h, Nat.div_self hf, Nat.mod_self]; rfl
  unfold writeIndex
  rw [run_bind_of_ok run_onFlash]
  dsimp only
  rw [run_bind_of_ok run_get]
  dsimp only
  rw [if_neg h1, run_bind_of_ok run_pure, if_neg (by omega), run_bind_of_ok run_pure, hcnt]
  simp only [writeLevels_of_not_lt (lt_irrefl 1), pure_bind, List.replicate]

theorem rowChildCnt_one (hm0 : 0 < s.idxList.length) (hmf : s.idxList.length ≤ c.fanout) :
    rowChildCnt c.fanout 1 s.idxList.length 0 = s.idxList.length := by
  rcases Nat.lt_or_eq_of_le hmf with h | h
  · simp only [rowChildCnt, Nat.sub_self, if_true, Nat.mod_eq_of_lt h]
    rw [if_neg (by omega)]
  · simp [rowChildCnt, h]

/-- write_index over fanout leaves or fewer, when their node fits a LEB: the root is written
where the head puts it, and its LEB is flushed. -/
theorem writeIndex_one_node (h8 : c.lebSize % 8 = 0) (hm0 : 0 < s.idxList.length)
    (hmf : s.idxList.length ≤ c.fanout) (hbig : s.idxList.length < 2 ^ 61) (hp : HeadOk c s.flash.head)
    (hl : ubifsIdxNodeSz c s.idxList.length ≤ c.lebSize) :
    ∃ s', (writeIndex c).run s = .ok ((), s') ∧
      s'.flash.headLnum = (place c.lebSize s.flash.head (ubifsIdxNodeSz c s.idxList.length)).1 + 1 := by
  obtain ⟨s₁, h₁, -, hh, -⟩ := addIdxNode_ok (s := { s with flash := { s.flash with headFlags := lpropsIndex } })
    (x := ⟨s.idxList.length, 0, ((qsortIdx s.idxList).take s.idxList.length).map IdxEntry.branch⟩) h8 hp hl
  have hoffs : s₁.flash.headOffs ≠ 0 := by
    have h2 := congrArg Prod.snd hh
    have : 0 < ubifsIdxNodeSz c s.idxList.length := Nat.lt_of_lt_of_le (by decide) (Nat.le_add_right _ _)
    simp only [Flash.head, advance, align] at h2
    omega
  exact ⟨_, by rw [writeIndex_of_le_fanout hm0 hmf hbig, writeLevel0, rowChildCnt_one hm0 hmf, bind_assoc,
      run_bind_of_ok h₁]; rfl,
    by exact (congrArg Prod.fst (flushNodes_head hoffs)).trans (congrArg (· + 1) (congrArg Prod.fst hh))⟩

end OneNode

/-- write_index over fanout leaves or fewer writes one index node; when that node is longer
than the LEB, reserve_space still hands out offset 0 of an empty LEB and the copy overruns
leb_buf. -/
theorem writeIndex_one_node_overrun {c : Info} {s : Mkfs} (hm0 : 0 < s.idxList.length)
    (hmf : s.idxList.length ≤ c.fanout) (hbig : s.idxList.length < 2 ^ 61)
    (hoff : s.flash.headOffs = 0) (hov : c.lebSize < align (ubifsIdxNodeSz c s.idxList.length) 8) :
    (writeIndex c).run s = .error .overrun := by
  rw [writeIndex_of_le_fanout hm0 hmf hbig]
  apply run_bind_of_error
  rw [writeLevel0, rowChildCnt_one hm0 hmf]
  apply run_bind_of_error
  refine addIdxNode_run.trans ?_
  dsimp only
  rw [reserveSpace_offs_of_zero, Nat.zero_add, if_pos hov]
  exact hoff


/-- mkfs.ubifs -m 8 -e 15360 -c 100 -f 547 -l 2 -j 15360: the largest fanout validate_options
allows for the smallest LEB. -/
def authConfig : Config where
  devName := true
  rootContained := none
  minIoSize := 8
  lebSize := ubifsMinLebSz
  maxLebCnt := 100
  fanout := 547
  logLebs := 2
  lptLebs := 0
  orphLebs := 1
  jheadCnt := 1
  maxBudBytes := ubifsMinLebSz
  rpSize := 0

/-- The same geometry once init has run, with sha256 authentication: 32-byte hashes after each
branch key. -/
def authInfo : Info where
  minIoSize := 8
  lebSize := ubifsMinLebSz
  maxLebCnt := 100
  fanout := 547
  fanout_ge := by decide
  keyLen := ubifsSkLen
  hashLen := 32
  logLebs := 2
  lptLebs := 2
  orphLebs := 1
  mainLebs := 92
  calcHash := fun _ => List.replicate 32 0

/-- validate_options accepts the geometry, and over 295 leaves write_index asks reserve_space
for an index node of 15368 bytes: it gets offset 0 of a 15360-byte LEB, and the copy overruns. -/
theorem writeIndex_overrun_authenticated :
    validateOptions authConfig = .ok () ∧
    (reserveSpace authInfo (ubifsIdxNodeSz authInfo 295) (Mkfs.init authInfo).flash).1 =
      (authInfo.mainFirst, 0) ∧
    authInfo.lebSize < 0 + align (ubifsIdxNodeSz authInfo 295) 8 ∧
    (writeIndex authInfo).run { Mkfs.init authInfo with idxList := List.replicate 295 default } =
      .error .overrun :=
  have hl : (List.replicate 295 (default : IdxEntry)).length = 295 := List.length_replicate _ _
  ⟨validateOptions_eq_ok.mpr (by constructor <;> decide), rfl, by decide, writeIndex_one_node_overrun (by rw [hl]; decide) (by rw [hl]; decide)
    (by rw [hl]; decide) rfl (by rw [hl]; decide)⟩

end MkfsUbifs

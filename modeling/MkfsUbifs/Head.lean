import MkfsUbifs.State

/-! # The write head

One append-only cursor (head_lnum, head_offs) over the main area. reserve_space hands out
8-aligned places, flushing the current LEB first when the node does not fit; flush_nodes pads
the LEB, hands it to the sink and records its properties in the ledger (set_lprops). -/

namespace MkfsUbifs

/-! ### The ledger -/

/-- calc_dark. -/
def calcDark (c : Info) (spc : Int) : Int :=
  if spc < c.darkWm then spc
  else if spc - c.darkWm < minWriteSz then spc - minWriteSz
  else c.darkWm

/-- The totals after set_lprops adds a LEB with this free and dirty space and flags. -/
def Lst.add (c : Info) (lst : Lst) (free dirty : Int) (flags : Nat) : Lst :=
  let lst := { lst with totalFree := lst.totalFree + free, totalDirty := lst.totalDirty + dirty }
  if flags &&& lpropsIndex ≠ 0 then { lst with idxLebs := lst.idxLebs + 1 }
  else
    let spc := free + dirty
    let lst := if spc < c.deadWm then { lst with totalDead := lst.totalDead + spc }
      else { lst with totalDark := lst.totalDark + calcDark c spc }
    { lst with totalUsed := lst.totalUsed + (c.lebSize - spc) }

/-- set_lprops: free is what follows the end offset rounded up to the I/O unit, dirty the
padding between the 8-aligned end offset and that. lnum is never below main_first here. -/
def setLprops (c : Info) (lnum offs flags : Nat) (fl : Flash) : Flash :=
  let i := lnum - c.mainFirst
  let a := max c.minIoSize 8
  let free : Int := c.lebSize - align offs a
  let dirty : Int := c.lebSize - free - align offs 8
  { fl with
    lpt := if i < c.mainLebs then Function.update fl.lpt i ⟨free, dirty, flags⟩ else fl.lpt
    lst := fl.lst.add c free dirty flags
    lpropsCalls := fl.lpropsCalls ++ [(lnum, offs, flags)] }

/-! ### Flushing and reserving -/

/-- flush_nodes: pad the head LEB, hand it to the sink, move the head to the next LEB. -/
def flushNodes (c : Info) (fl : Flash) : Flash :=
  if fl.headOffs = 0 then fl
  else
    let len := align fl.headOffs c.minIoSize
    let fl := { fl with sink := fl.sink ++ [(fl.headLnum, .nodes fl.lebBuf fl.headOffs len)] }
    let fl := setLprops c fl.headLnum fl.headOffs fl.headFlags fl
    { fl with headLnum := fl.headLnum + 1, headOffs := 0, lebBuf := [] }

/-- reserve_space: the place (lnum, offs) for a node of length len. The C test
len > leb_size - head_offs is over ints; written here without the subtraction. -/
def reserveSpace (c : Info) (len : Nat) (fl : Flash) : (Nat × Nat) × Flash :=
  let fl := if c.lebSize < fl.headOffs + len then flushNodes c fl else fl
  ((fl.headLnum, fl.headOffs), { fl with headOffs := fl.headOffs + align len 8 })

/-- write_empty_leb: an all-0xFF LEB from leb_buf, whatever it held. -/
def writeEmptyLeb (lnum : Nat) (fl : Flash) : Flash :=
  { fl with sink := fl.sink ++ [(lnum, .empty)], lebBuf := [] }

/-! ### Where the head puts a node -/

/-- The place of a node of length len with the head at pos, when the node fits an empty LEB:
the head LEB, or the start of the next one when the node does not fit after the head. The
shadow cursor of write_index makes the same step. -/
def place (leb : Nat) (pos : Nat × Nat) (len : Nat) : Nat × Nat :=
  if leb < pos.2 + len then (pos.1 + 1, 0) else pos

/-- The head after a node of length len. -/
def advance (leb : Nat) (pos : Nat × Nat) (len : Nat) : Nat × Nat :=
  ((place leb pos len).1, (place leb pos len).2 + align len 8)

/-- The places of consecutive nodes of the given lengths, from pos on. -/
def walkPos (leb : Nat) : Nat × Nat → List Nat → List (Nat × Nat)
  | _, [] => []
  | pos, len :: lens => place leb pos len :: walkPos leb (advance leb pos len) lens

/-- The head after consecutive nodes of the given lengths. -/
def walkEnd (leb : Nat) (pos : Nat × Nat) (lens : List Nat) : Nat × Nat :=
  lens.foldl (advance leb) pos

@[simp] theorem walkPos_nil {leb : Nat} {pos : Nat × Nat} : walkPos leb pos [] = [] := rfl

@[simp] theorem walkEnd_nil {leb : Nat} {pos : Nat × Nat} : walkEnd leb pos [] = pos := rfl

@[simp] theorem walkEnd_cons {leb len : Nat} {pos : Nat × Nat} {lens : List Nat} :
    walkEnd leb pos (len :: lens) = walkEnd leb (advance leb pos len) lens := rfl

theorem walkPos_append {leb : Nat} (pos : Nat × Nat) (l₁ l₂ : List Nat) :
    walkPos leb pos (l₁ ++ l₂) = walkPos leb pos l₁ ++ walkPos leb (walkEnd leb pos l₁) l₂ := by
  induction l₁ generalizing pos with
  | nil => rfl
  | cons len l₁ ih => simp [walkPos, ih]

theorem walkEnd_append {leb : Nat} (pos : Nat × Nat) (l₁ l₂ : List Nat) :
    walkEnd leb pos (l₁ ++ l₂) = walkEnd leb (walkEnd leb pos l₁) l₂ := by
  simp [walkEnd]

/-- The places from the n-th node on are a walk from where the first n nodes end. -/
theorem walkPos_drop {leb : Nat} (pos : Nat × Nat) (l : List Nat) (n : Nat) :
    (walkPos leb pos l).drop n = walkPos leb (walkEnd leb pos (l.take n)) (l.drop n) := by
  induction l generalizing pos n with
  | nil => simp
  | cons len l ih => cases n <;> simp [walkPos, ih]

/-- The head is at an 8-aligned offset inside the LEB. -/
structure HeadOk (c : Info) (pos : Nat × Nat) : Prop where
  aligned : pos.2 % 8 = 0
  le : pos.2 ≤ c.lebSize

section Place
variable {c : Info} {pos : Nat × Nat} {len : Nat}

/-- A node no longer than a LEB fits where the head puts it. -/
theorem place_fits (h8 : c.lebSize % 8 = 0) (hp : HeadOk c pos) (hl : len ≤ c.lebSize) :
    (place c.lebSize pos len).2 + align len 8 ≤ c.lebSize := by
  have := hp.le
  have := hp.aligned
  unfold place align
  split <;> omega

theorem HeadOk.advance (h8 : c.lebSize % 8 = 0) (hp : HeadOk c pos) (hl : len ≤ c.lebSize) :
    HeadOk c (MkfsUbifs.advance c.lebSize pos len) := by
  have hfit := place_fits h8 hp hl
  have := hp.aligned
  refine ⟨?_, hfit⟩
  unfold MkfsUbifs.advance place align at *
  split <;> omega

theorem HeadOk.walkEnd (h8 : c.lebSize % 8 = 0) {lens : List Nat} (hp : HeadOk c pos)
    (hl : ∀ len ∈ lens, len ≤ c.lebSize) : HeadOk c (MkfsUbifs.walkEnd c.lebSize pos lens) := by
  induction lens generalizing pos with
  | nil => exact hp
  | cons len lens ih =>
    simp only [List.mem_cons, forall_eq_or_imp] at hl
    exact ih (hp.advance h8 hl.1) hl.2

end Place

/-! ### The nodes on flash -/

/-- The nodes of a LEB image. -/
def Leb.placed : Leb → List (Nat × Node)
  | .empty => []
  | .nodes ps _ _ => ps
  | .super ps _ => ps
  | .lpt => []

/-- Every node handed to the sink or waiting in leb_buf, with the LEB and offset it is at. -/
def Flash.placed (fl : Flash) : List (Nat × Nat × Node) :=
  fl.sink.flatMap (fun e => e.2.placed.map fun q => (e.1, q)) ++ fl.lebBuf.map fun q => (fl.headLnum, q)

section Frame
variable {c : Info} {fl : Flash} {lnum offs flags len : Nat}

@[simp] theorem setLprops_headLnum : (setLprops c lnum offs flags fl).headLnum = fl.headLnum := rfl
@[simp] theorem setLprops_headOffs : (setLprops c lnum offs flags fl).headOffs = fl.headOffs := rfl
@[simp] theorem setLprops_headFlags : (setLprops c lnum offs flags fl).headFlags = fl.headFlags := rfl
@[simp] theorem setLprops_lebBuf : (setLprops c lnum offs flags fl).lebBuf = fl.lebBuf := rfl
@[simp] theorem setLprops_sink : (setLprops c lnum offs flags fl).sink = fl.sink := rfl

@[simp] theorem flushNodes_headFlags : (flushNodes c fl).headFlags = fl.headFlags := by
  unfold flushNodes; split <;> rfl

@[simp] theorem flushNodes_placed : (flushNodes c fl).placed = fl.placed := by
  unfold flushNodes Flash.placed
  split <;> simp [Leb.placed]

theorem flushNodes_head (h : fl.headOffs ≠ 0) : (flushNodes c fl).head = (fl.headLnum + 1, 0) := by
  simp [flushNodes, h, Flash.head]

@[simp] theorem reserveSpace_placed : (reserveSpace c len fl).2.placed = fl.placed := by
  unfold reserveSpace
  split
  · exact flushNodes_placed
  · rfl

@[simp] theorem reserveSpace_headFlags : (reserveSpace c len fl).2.headFlags = fl.headFlags := by
  unfold reserveSpace
  split <;> simp

/-- reserve_space hands out the place the head would give. -/
theorem reserveSpace_fst (hl : len ≤ c.lebSize) :
    (reserveSpace c len fl).1 = place c.lebSize fl.head len := by
  unfold reserveSpace place
  by_cases h : c.lebSize < fl.headOffs + len
  · have : (flushNodes c fl).head = (fl.headLnum + 1, 0) := flushNodes_head (by omega)
    simp only [Flash.head, Prod.mk.injEq] at this
    simp [h, Flash.head, this]
  · simp [h, Flash.head]

/-- On an empty head LEB, reserve_space hands out offset 0 whatever the length. -/
theorem reserveSpace_offs_of_zero (h : fl.headOffs = 0) : (reserveSpace c len fl).1.2 = 0 := by
  unfold reserveSpace flushNodes
  simp [h]

theorem reserveSpace_head (hl : len ≤ c.lebSize) :
    (reserveSpace c len fl).2.head = advance c.lebSize fl.head len := by
  rw [advance, ← reserveSpace_fst hl]
  rfl

end Frame

/-! ### Nodes -/

/-- A write-head function run on the builder's flash side. -/
def onFlash {α : Type} (g : Flash → α × Flash) : M α :=
  modifyGet fun s => let r := g s.flash; (r.1, { s with flash := r.2 })

@[simp] theorem run_onFlash {α : Type} {g : Flash → α × Flash} {s : Mkfs} :
    (onFlash g).run s = .ok ((g s.flash).1, { s with flash := (g s.flash).2 }) := rfl

/-- Modelled from the spec: ubifs_prepare_node fills the common header, with the length and
the sequence number ++max_sqnum. -/
def prepareNode (body : NodeBody) (len : Nat) : M Node :=
  modifyGet fun s => (⟨s.maxSqnum + 1, len, body⟩, { s with maxSqnum := s.maxSqnum + 1 })

/-- The memcpy of a node into leb_buf at offs and the 0xFF fill to the next 8-byte boundary.
Past the end of leb_buf this overruns the buffer. -/
def copyNode (c : Info) (offs : Nat) (n : Node) : M Unit := do
  if c.lebSize < offs + align n.len 8 then throw .overrun
  onFlash fun fl => ((), { fl with lebBuf := fl.lebBuf ++ [(offs, n)] })

/-- add_to_index. -/
def addToIndex (key : Key) (name : Option Bytes) (lnum offs len : Nat) (hash : Bytes) : M Unit :=
  modify fun s => { s with idxList := s.idxList ++ [⟨key, name, lnum, offs, len, hash⟩] }

/-- The name check of add_node: directory and xattr entries carry a name, other nodes none. -/
def checkName (key : Key) (name : Option Bytes) : M Unit :=
  if keyType key = ubifsDentKey ∨ keyType key = ubifsXentKey then
    if name.isNone then throw .dentWithoutName else pure ()
  else if name.isSome then throw .nameForNonDent else pure ()

/-- add_node: a leaf node on the head, recorded in the index list. -/
def addNode (c : Info) (key : Key) (name : Option Bytes) (body : NodeBody) (len : Nat) :
    M Unit := do
  checkName key name
  let n ← prepareNode body len
  let pos ← onFlash (reserveSpace c len)
  copyNode c pos.2 n
  addToIndex key name pos.1 pos.2 len (c.calcHash n)

/-- add_idx_node: an index node on the head. It returns the prepared node, which write_index
hashes. -/
def addIdxNode (c : Info) (node : IdxNode) (childCnt : Nat) : M Node := do
  let len := ubifsIdxNodeSz c childCnt
  let n ← prepareNode (.idx node) len
  let (lnum, offs) ← onFlash (reserveSpace c len)
  copyNode c offs n
  modify fun s => { s with oldIdxSz := s.oldIdxSz + align len 8, zroot := (lnum, offs, len) }
  pure n

section AddIdxNode
variable {c : Info} {x : IdxNode} {cc : Nat} {s : Mkfs}

@[simp] theorem Flash.placed_push {fl : Flash} {o : Nat} {n : Node} :
    ({ fl with lebBuf := fl.lebBuf ++ [(o, n)] } : Flash).placed = fl.placed ++ [(fl.headLnum, o, n)] := by
  simp [Flash.placed]

theorem addIdxNode_run : (addIdxNode c x cc).run s =
    let len := ubifsIdxNodeSz c cc
    let n : Node := ⟨s.maxSqnum + 1, len, .idx x⟩
    let r := reserveSpace c len s.flash
    if c.lebSize < r.1.2 + align len 8 then .error .overrun
    else .ok (n, { s with
      flash := { r.2 with lebBuf := r.2.lebBuf ++ [(r.1.2, n)] }
      maxSqnum := s.maxSqnum + 1
      oldIdxSz := s.oldIdxSz + align len 8
      zroot := (r.1.1, r.1.2, len) }) := by
  simp only [addIdxNode, prepareNode, copyNode, onFlash, StateT.run, bind, StateT.bind, modifyGet,
    MonadStateOf.modifyGet, StateT.modifyGet, pure, StateT.pure, Except.pure, Except.bind]
  by_cases h : c.lebSize < (reserveSpace c (ubifsIdxNodeSz c cc) s.flash).1.2 +
    align (ubifsIdxNodeSz c cc) 8 <;> simp only [h, if_true, if_false] <;> rfl

/-- add_idx_node on a well-placed head, for a node no longer than a LEB: the node lands where
the head puts it. -/
theorem addIdxNode_ok (h8 : c.lebSize % 8 = 0) (hp : HeadOk c s.flash.head)
    (hl : ubifsIdxNodeSz c cc ≤ c.lebSize) :
    let len := ubifsIdxNodeSz c cc
    let n : Node := ⟨s.maxSqnum + 1, len, .idx x⟩
    let q := place c.lebSize s.flash.head len
    ∃ s', (addIdxNode c x cc).run s = .ok (n, s') ∧
      s'.flash.placed = s.flash.placed ++ [(q.1, q.2, n)] ∧
      s'.flash.head = advance c.lebSize s.flash.head len ∧
      s'.maxSqnum = s.maxSqnum + 1 ∧ s'.oldIdxSz = s.oldIdxSz + align len 8 ∧
      s'.zroot = (q.1, q.2, len) ∧ s'.idxList = s.idxList ∧
      s'.flash.headFlags = s.flash.headFlags := by
  intro len n q
  have hq : (reserveSpace c (ubifsIdxNodeSz c cc) s.flash).1 =
      place c.lebSize s.flash.head (ubifsIdxNodeSz c cc) := reserveSpace_fst hl
  have hfit := place_fits h8 hp hl
  have hpl : (reserveSpace c len s.flash).2.placed = s.flash.placed := reserveSpace_placed
  have hlnum : (reserveSpace c len s.flash).2.headLnum = q.1 := congrArg Prod.fst hq
  rw [addIdxNode_run]
  dsimp only
  rw [if_neg (by rw [hq]; omega)]
  refine ⟨_, rfl, ?_, ?_, rfl, rfl, by rw [hq], rfl, reserveSpace_headFlags⟩
  · unfold Flash.placed at hpl ⊢
    simp only [List.map_append, ← List.append_assoc]
    rw [hpl, hlnum, hq]
    rfl
  · rw [← reserveSpace_head hl]
    rfl

end AddIdxNode

/-- write_node: a node alone in a LEB, the rest padded and filled. -/
def writeNode (c : Info) (body : NodeBody) (len lnum : Nat) : M Unit := do
  let alen := align len 8
  let wlen := align len c.minIoSize
  let n ← prepareNode body len
  if c.lebSize < wlen then throw .overrun
  onFlash fun fl => ((), { fl with sink := fl.sink ++ [(lnum, .nodes [(0, n)] alen wlen)], lebBuf := [] })

end MkfsUbifs

import Mathlib.Algebra.Group.Int
import MkfsUbifs.Media

/-! # Option validation

validate_options over the values get_options leaves in ubifs_info, together with the size
arithmetic it and get_options rely on (get_bytes, calc_min_log_lebs, add_space_overhead). The
C types are kept: a C int or long long holding x is x.bmod 2^32 or x.bmod 2^64, the two's
complement of its low bits, which is what the build's arithmetic gives where it overflows; an
unsigned long long is x % 2^64. -/

namespace MkfsUbifs

/-- The ubifs_info fields validate_options reads. The sizes, the fanout and the orphan count are
the positive ints the option loop accepted; log_lebs and rp_size are the int and long long
get_options leaves, which its defaults and add_space_overhead can make negative. maxBudBytes is
the long long journal size as the unsigned long long calc_min_log_lebs takes. lptLebs is still
0 at that point (init computes it later) and jheadCnt is what main's init_ubifs_info left there. -/
structure Config where
  devName : Bool
  rootContained : Option Int
  minIoSize : Nat
  lebSize : Nat
  maxLebCnt : Nat
  fanout : Nat
  logLebs : Int
  lptLebs : Nat
  orphLebs : Nat
  jheadCnt : Nat
  maxBudBytes : Nat
  rpSize : Int
  deriving DecidableEq, Repr

/-- is_power_of_2. -/
def isPowerOf2 (n : Nat) : Bool := n != 0 && n &&& (n - 1) == 0

/-- calc_min_log_lebs: enough log LEBs to reference every bud of the journal. buds and log_lebs
are ints and log_size an unsigned long long: the bud count keeps its low 32 bits, and the sums
their low 64. -/
def calcMinLogLebs (cfg : Config) (maxBudBytes : Nat) : Int :=
  let buds := (((maxBudBytes + cfg.lebSize - 1) % 2 ^ 64 / cfg.lebSize : Nat) : Int).bmod (2 ^ 32)
  let logSize := (align ubifsRefNodeSz cfg.minIoSize * (buds % 2 ^ 64).toNat +
    align (ubifsCsNodeSz + ubifsRefNodeSz * (cfg.jheadCnt + 2)) cfg.minIoSize) % 2 ^ 64
  let logLebs := (((logSize + cfg.lebSize - 1) % 2 ^ 64 / cfg.lebSize : Nat) : Int).bmod (2 ^ 32)
  (logLebs + 1).bmod (2 ^ 32)

/-- validate_options, with its messages. rootContained is what is_contained returned for the
output path, none when no root directory was given and the check is skipped. -/
def validateOptions (cfg : Config) : Except String Unit := do
  if !cfg.devName then throw "no output file or UBI volume specified"
  if let some r := cfg.rootContained then
    if r < 0 then throw "failed to perform output file root check"
    if r ≠ 0 then throw "output file cannot be in the UBIFS root directory"
  if !isPowerOf2 cfg.minIoSize then throw "min. I/O unit size should be power of 2"
  if cfg.lebSize < cfg.minIoSize then throw "min. I/O unit cannot be larger than LEB size"
  if cfg.lebSize < ubifsMinLebSz then
    throw s!"too small LEB size {cfg.lebSize}, minimum is {ubifsMinLebSz}"
  if cfg.lebSize % cfg.minIoSize ≠ 0 then throw "LEB should be multiple of min. I/O units"
  if cfg.lebSize % 8 ≠ 0 then throw "LEB size has to be multiple of 8"
  if cfg.lebSize > ubifsMaxLebSz then
    throw s!"too large LEB size {cfg.lebSize}, maximum is {ubifsMaxLebSz}"
  if cfg.maxLebCnt < ubifsMinLebCnt then
    throw s!"too low max. count of LEBs, minimum is {ubifsMinLebCnt}"
  if cfg.fanout < ubifsMinFanout then throw s!"too low fanout, minimum is {ubifsMinFanout}"
  let tmp := (cfg.lebSize - ubifsIdxNodeSzBase) / (ubifsBranchSz + ubifsMaxKeyLen)
  if cfg.fanout > tmp then throw s!"too high fanout, maximum is {tmp}"
  if cfg.logLebs < ubifsMinLogLebs then throw s!"too few log LEBs, minimum is {ubifsMinLogLebs}"
  let most := cfg.maxLebCnt - ubifsMinLebCnt
  if cfg.logLebs ≥ most then throw s!"too many log LEBs, maximum is {most}"
  if cfg.orphLebs < ubifsMinOrphLebs then
    throw s!"too few orphan LEBs, minimum is {ubifsMinOrphLebs}"
  if cfg.orphLebs ≥ most then throw s!"too many orphan LEBs, maximum is {most}"
  let need := (ubifsSbLebs + ubifsMstLebs + cfg.logLebs + cfg.lptLebs + cfg.orphLebs + 4).bmod (2 ^ 32)
  if need > cfg.maxLebCnt then throw s!"too low max. count of LEBs, expected at least {need}"
  let minLog := calcMinLogLebs cfg cfg.maxBudBytes
  if cfg.logLebs < minLog then throw s!"too few log LEBs, expected at least {minLog}"
  if cfg.rpSize ≥ (cfg.lebSize * cfg.maxLebCnt / 2 : Nat) then
    throw s!"too much reserved space {cfg.rpSize}"

/-- What validate_options accepts, one field per check. -/
@[mk_iff]
structure Validated (cfg : Config) : Prop where
  devName : cfg.devName = true
  root : cfg.rootContained = none ∨ cfg.rootContained = some 0
  minIoPow : isPowerOf2 cfg.minIoSize = true
  minIoLe : cfg.minIoSize ≤ cfg.lebSize
  lebGe : ubifsMinLebSz ≤ cfg.lebSize
  lebDvd : cfg.lebSize % cfg.minIoSize = 0
  lebMod8 : cfg.lebSize % 8 = 0
  lebLe : cfg.lebSize ≤ ubifsMaxLebSz
  cntGe : ubifsMinLebCnt ≤ cfg.maxLebCnt
  fanoutGe : ubifsMinFanout ≤ cfg.fanout
  fanoutLe : cfg.fanout ≤ (cfg.lebSize - ubifsIdxNodeSzBase) / (ubifsBranchSz + ubifsMaxKeyLen)
  logGe : (ubifsMinLogLebs : Int) ≤ cfg.logLebs
  logLt : cfg.logLebs < (cfg.maxLebCnt - ubifsMinLebCnt : Nat)
  orphGe : ubifsMinOrphLebs ≤ cfg.orphLebs
  orphLt : cfg.orphLebs < cfg.maxLebCnt - ubifsMinLebCnt
  needLe : (ubifsSbLebs + ubifsMstLebs + cfg.logLebs + cfg.lptLebs + cfg.orphLebs + 4).bmod (2 ^ 32) ≤
    cfg.maxLebCnt
  logMin : calcMinLogLebs cfg cfg.maxBudBytes ≤ cfg.logLebs
  rpLt : cfg.rpSize < (cfg.lebSize * cfg.maxLebCnt / 2 : Nat)

instance (cfg : Config) : Decidable (Validated cfg) := decidable_of_iff _ (validated_iff cfg).symm

theorem except_guard_ok {p : Prop} [Decidable p] {e : String} {f : PUnit → Except String Unit}
    {k : Except String Unit} :
    (if p then throw e >>= f else k) = .ok () ↔ ¬p ∧ k = .ok () := by
  split <;> simp_all [throw, throwThe, MonadExceptOf.throw, bind, Except.bind]

theorem except_check_ok {p : Prop} [Decidable p] {e : String} :
    (if p then throw e else pure PUnit.unit : Except String Unit) = .ok () ↔ ¬p := by
  split <;> simp_all [throw, throwThe, MonadExceptOf.throw, pure, Except.pure]

theorem validateOptions_eq_ok {cfg : Config} : validateOptions cfg = .ok () ↔ Validated cfg := by
  unfold validateOptions
  rw [validated_iff]
  rcases hr : cfg.rootContained with _ | r <;>
    simp only [pure_bind, except_guard_ok, except_check_ok, Nat.not_lt, Nat.not_le, Int.not_lt,
      Int.not_le, ne_eq, not_not, Bool.not_eq_true', Bool.not_eq_false, ge_iff_le, gt_iff_lt,
      reduceCtorEq, true_or, false_or, true_and, Option.some.injEq]
  exact ⟨fun ⟨h, _, h'⟩ => ⟨h, h'⟩, fun ⟨h, h0, h'⟩ => ⟨h, h0 ▸ Int.le_refl 0, h0, h'⟩⟩

/-! ### The size arithmetic of get_options -/

/-- get_multiplier: the size specifier after the number, blanks before it skipped. -/
def getMultiplier (str : Bytes) : Int :=
  let str := str.dropWhile fun ch => ch == 32 || ch == 9
  if str = ascii "KiB" then 1024
  else if str = ascii "MiB" then 1024 * 1024
  else if str = ascii "GiB" then 1024 * 1024 * 1024
  else -1

/-- get_bytes, from what strtoull made of the argument: the value it returned and the text from
endp on, none when it read no number (endp is str). The value is read back as a long long and
multiplied by the multiplier in 64 bits; -1 is what errmsg returns. -/
def getBytes : Option (Nat × Bytes) → Int
  | none => -1
  | some (v, endp) =>
    let bytes := (v : Int).bmod (2 ^ 64)
    if bytes < 0 then -1
    else if endp = [] then bytes
    else
      let mult := getMultiplier endp
      if mult = -1 then -1 else (bytes * mult).bmod (2 ^ 64)

/-- The -R case of the option loop. -/
def optReserved (arg : Option (Nat × Bytes)) : Except String Int := do
  let rpSize := getBytes arg
  if rpSize < 0 then throw "bad reserved bytes count"
  pure rpSize

/-- The -j case of the option loop. -/
def optJournal (arg : Option (Nat × Bytes)) : Except String Int := do
  let maxBudBytes := getBytes arg
  if maxBudBytes ≤ 0 then throw "bad maximum amount of buds"
  pure maxBudBytes

/-- The int factor of add_space_overhead: a data node of a full block plus three index nodes of
the fanout shared among f - 1. ubifs_idx_node_sz reads c->key_len, UBIFS_SK_LEN, and
c->hash_len, still 0 when get_options runs. -/
def overheadFactor (fanout : Nat) : Int :=
  let maxIdxNodeSz := ((ubifsIdxNodeSzBase + (ubifsBranchSz + ubifsSkLen) * fanout : Nat) : Int).bmod (2 ^ 32)
  let f : Nat := if fanout > 3 then fanout >>> 1 else 2
  (ubifsMaxDataNodeSz + ((maxIdxNodeSz * 3).bmod (2 ^ 32)).tdiv (f - 1 : Nat)).bmod (2 ^ 32)

/-- add_space_overhead: the long long size times the factor, over UBIFS_BLOCK_SIZE with C's
division. -/
def addSpaceOverhead (fanout : Nat) (size : Int) : Int :=
  ((size * overheadFactor fanout).bmod (2 ^ 64)).tdiv ubifsBlockSize

/-- The journal size get_options picks without -j: an eighth of the LEBs left for the main area
(an int) times the LEB size, at most 8 MiB and at least four LEBs (an int product). -/
def defaultMaxBudBytes (lebSize maxLebCnt orphLebs : Nat) (logLebs : Option Nat) : Int :=
  let lebs := ((maxLebCnt : Int) - ubifsSbLebs - ubifsMstLebs - orphLebs -
    logLebs.getD ubifsMinLogLebs - ubifsMinLptLebs).bmod (2 ^ 32)
  let maxBudBytes := lebs.tdiv 8 * lebSize
  let maxBudBytes := if maxBudBytes > 8 * 1024 * 1024 then 8 * 1024 * 1024 else maxBudBytes
  let least := ((4 * lebSize : Nat) : Int).bmod (2 ^ 32)
  if maxBudBytes < least then least else maxBudBytes

/-- What the option loop of get_options leaves for the geometry, writing to a file: the ints of
-m, -e, -c and -l as the loop accepted them (positive), none where the option was not given (the
C's -1); -f and -p, 8 and 1 by default; what strtoull made of the arguments of -j and -R, none
where the option was not given; and whether -R stands before -j on the command line, each given
at most once. -/
structure Args where
  devName : Bool
  rootContained : Option Int
  minIoSize : Option Nat
  lebSize : Option Nat
  maxLebCnt : Option Nat
  fanout : Nat
  logLebs : Option Nat
  orphLebs : Nat
  journal : Option (Option (Nat × Bytes))
  reserved : Option (Option (Nat × Bytes))
  reservedFirst : Bool
  deriving DecidableEq, Repr

/-- The -j case of the loop when -j was given; max_bud_bytes stays -1 otherwise. -/
def journalArg (a : Args) : Except String Int :=
  match a.journal with
  | some arg => optJournal arg
  | none => pure (-1)

/-- The -R case of the loop when -R was given; rp_size stays 0 otherwise. -/
def reservedArg (a : Args) : Except String Int :=
  match a.reserved with
  | some arg => optReserved arg
  | none => pure 0

/-- The -j and -R cases in their order on the command line: the first that fails stops
get_options with its message. -/
def optSizes (a : Args) : Except String (Int × Int) :=
  if a.reservedFirst then do
    let rpSize ← reservedArg a
    let maxBudBytes ← journalArg a
    pure (maxBudBytes, rpSize)
  else do
    let maxBudBytes ← journalArg a
    let rpSize ← reservedArg a
    pure (maxBudBytes, rpSize)

/-- get_options for the geometry up to validate_options: the -j and -R cases of the loop, the
three required sizes, the journal and log defaults, the floor of 8 on the min. I/O unit and the
reserved-space overhead. -/
def optionsConfig (jheadCnt : Nat) (a : Args) : Except String Config := do
  let (maxBudBytes, rpSize) ← optSizes a
  let some minIoSize := a.minIoSize | throw "min. I/O unit was not specified (use -h for help)"
  let some lebSize := a.lebSize | throw "LEB size was not specified (use -h for help)"
  let some maxLebCnt := a.maxLebCnt
    | throw "Maximum count of LEBs was not specified (use -h for help)"
  let maxBudBytes :=
    if maxBudBytes = -1 then defaultMaxBudBytes lebSize maxLebCnt a.orphLebs a.logLebs
    else maxBudBytes
  let base : Config := ⟨a.devName, a.rootContained, minIoSize, lebSize, maxLebCnt, a.fanout, 0, 0,
    a.orphLebs, jheadCnt, (maxBudBytes % 2 ^ 64).toNat, 0⟩
  let logLebs : Int := match a.logLebs with
    | some l => l
    | none => (calcMinLogLebs base base.maxBudBytes + 2).bmod (2 ^ 32)
  pure { base with
    logLebs := logLebs
    minIoSize := if minIoSize < 8 then 8 else minIoSize
    rpSize := addSpaceOverhead a.fanout rpSize }

/-- get_options for the geometry: the values above, then validate_options. The result is what
validate_options accepted. -/
def getOptions (jheadCnt : Nat) (a : Args) : Except String Config := do
  let cfg ← optionsConfig jheadCnt a
  validateOptions cfg
  pure cfg

theorem except_bind_ok {α β : Type} {x : Except String α} {f : α → Except String β} {b : β} :
    x >>= f = .ok b ↔ ∃ a, x = .ok a ∧ f a = .ok b := by
  cases x <;> simp [bind, Except.bind]

theorem getOptions_eq_ok {jheadCnt : Nat} {a : Args} {cfg : Config} :
    getOptions jheadCnt a = .ok cfg ↔ optionsConfig jheadCnt a = .ok cfg ∧ Validated cfg := by
  unfold getOptions
  simp only [except_bind_ok, ← validateOptions_eq_ok]
  constructor
  · rintro ⟨c, hc, u, hv, hu⟩
    cases hu
    exact ⟨hc, hv⟩
  · rintro ⟨hc, hv⟩
    exact ⟨cfg, hc, (), hv, rfl⟩

/-- Whatever their order, -j and -R both pass exactly when each does. -/
theorem optSizes_eq_ok {a : Args} {j r : Int} :
    optSizes a = .ok (j, r) ↔ journalArg a = .ok j ∧ reservedArg a = .ok r := by
  unfold optSizes
  split <;> cases journalArg a <;> cases reservedArg a <;>
    simp [bind, Except.bind, pure, Except.pure, and_comm]

/-- Where -j and -R both fail, get_options reports the one given first. -/
theorem optSizes_both_fail {a : Args} {m₁ m₂ : String} (hj : journalArg a = .error m₁)
    (hr : reservedArg a = .error m₂) : optSizes a = .error (if a.reservedFirst then m₂ else m₁) := by
  unfold optSizes
  cases a.reservedFirst <;> simp [hj, hr, bind, Except.bind]

/-- The reserved space get_options hands on is add_space_overhead of what -R accepted. -/
theorem optionsConfig_reserved {jheadCnt : Nat} {a : Args} {cfg : Config}
    {arg : Option (Nat × Bytes)} (h : optionsConfig jheadCnt a = .ok cfg)
    (hR : a.reserved = some arg) :
    cfg.fanout = a.fanout ∧ ∃ r, optReserved arg = .ok r ∧ cfg.rpSize = addSpaceOverhead a.fanout r := by
  unfold optionsConfig at h
  obtain ⟨⟨j, r⟩, hs, h⟩ := except_bind_ok.mp h
  have hr : optReserved arg = .ok r := by
    simpa only [reservedArg, hR] using (optSizes_eq_ok.mp hs).2
  dsimp only at h
  refine ⟨?_, r, hr, ?_⟩ <;> (split at h; split at h; split at h) <;> cases h <;> rfl

/-! ### Where the size arithmetic wraps -/

theorem bmod_eq_self {x : Int} {m : Nat} (h0 : 0 ≤ x) (h : 2 * x < m) : x.bmod m = x := by
  have hx : x % m = x := Int.emod_eq_of_lt h0 (by omega)
  rw [Int.bmod_pos x m (by omega), hx]

theorem getMultiplier_pos {str : Bytes} (h : getMultiplier str ≠ -1) : 0 < getMultiplier str := by
  unfold getMultiplier at *
  dsimp only at *
  split_ifs at * <;> first | decide | exact absurd rfl h

/-- Modelled from the spec: the bytes an argument denotes, its number times the multiplier of
its size specifier. -/
def denotedBytes (v : Nat) (sfx : Bytes) : Int := if sfx = [] then v else v * getMultiplier sfx

theorem optReserved_eq_ok {arg : Option (Nat × Bytes)} {r : Int} :
    optReserved arg = .ok r ↔ r = getBytes arg ∧ 0 ≤ r := by
  unfold optReserved
  by_cases h : getBytes arg < 0
  · simp [h, throw, throwThe, MonadExceptOf.throw, bind, Except.bind]
    omega
  · simp [h, bind, Except.bind, pure, Except.pure, eq_comm]
    omega

/-- A count get_bytes returns that is not negative is the count the argument denotes, as a
long long. -/
theorem getBytes_of_nonneg {v : Nat} {sfx : Bytes} (h : 0 ≤ getBytes (some (v, sfx))) :
    getBytes (some (v, sfx)) = (denotedBytes v sfx).bmod (2 ^ 64) ∧ 0 ≤ denotedBytes v sfx := by
  unfold getBytes denotedBytes at *
  dsimp only at *
  split_ifs at h ⊢ with h1 h2 h3 h4
  · exact absurd h (by decide)
  · exact absurd h (by decide)
  · exact ⟨rfl, Int.natCast_nonneg v⟩
  · exact absurd h (by decide)
  · exact ⟨Int.bmod_mul_bmod,
      Int.mul_nonneg (Int.natCast_nonneg v) (Int.le_of_lt (getMultiplier_pos h4))⟩

/-- Modelled from the spec: the factor of add_space_overhead over the unbounded integers,
UBIFS_MAX_DATA_NODE_SZ + floor(3 * ubifs_idx_node_sz(c, fanout) / (f - 1)). -/
def overheadFactorSpec (fanout : Nat) : Nat :=
  ubifsMaxDataNodeSz + 3 * (ubifsIdxNodeSzBase + (ubifsBranchSz + ubifsSkLen) * fanout) /
    ((if fanout > 3 then fanout >>> 1 else 2) - 1)

/-- For a fanout validate_options accepts, no int of add_space_overhead's factor overflows. -/
theorem overheadFactor_eq {fanout : Nat} (h : fanout ≤ 74897) :
    overheadFactor fanout = overheadFactorSpec fanout := by
  unfold overheadFactor overheadFactorSpec
  dsimp only
  generalize (if fanout > 3 then fanout >>> 1 else 2) - 1 = d
  generalize hx : ubifsIdxNodeSzBase + (ubifsBranchSz + ubifsSkLen) * fanout = x
  have hx' : x ≤ 1497968 := by
    simp only [ubifsIdxNodeSzBase, ubifsBranchSz, ubifsSkLen] at hx; omega
  have e1 : ((x : Nat) : Int).bmod (2 ^ 32) = x := bmod_eq_self (by omega) (by omega)
  have e2 : ((x : Int) * 3).bmod (2 ^ 32) = ((x * 3 : Nat) : Int) :=
    bmod_eq_self (by omega) (by omega)
  have hq : 3 * x / d ≤ 3 * x := Nat.div_le_self _ _
  rw [e1, e2, Int.tdiv_eq_ediv (Int.natCast_nonneg _) (Int.natCast_nonneg _), ← Int.natCast_div,
    ← Int.natCast_add, Nat.mul_comm x 3]
  exact bmod_eq_self (Int.natCast_nonneg _)
    (by simp only [ubifsMaxDataNodeSz, ubifsDataNodeSz, ubifsBlockSize]; omega)

theorem Validated.fanout_le {cfg : Config} (hv : Validated cfg) : cfg.fanout ≤ 74897 := by
  have h1 := hv.fanoutLe
  have h2 := hv.lebLe
  simp only [ubifsIdxNodeSzBase, ubifsBranchSz, ubifsMaxKeyLen, ubifsMaxLebSz] at h1 h2
  omega

/-- A long long product over UBIFS_BLOCK_SIZE is the exact quotient of a non-negative P exactly
when P fits a long long. -/
theorem tdiv_bmod_eq_iff {P : Int} (h0 : 0 ≤ P) :
    (P.bmod (2 ^ 64)).tdiv ubifsBlockSize = P / ubifsBlockSize ↔ P < 2 ^ 63 := by
  have hb : (ubifsBlockSize : Int) = 4096 := rfl
  constructor
  · intro h
    have hlt : P.bmod (2 ^ 64) < 2 ^ 63 := Int.bmod_lt (by decide)
    rcases Int.le_or_lt 0 (P.bmod (2 ^ 64)) with hp | hn
    · rw [Int.tdiv_eq_ediv hp (by decide), hb] at h
      omega
    · have : (P.bmod (2 ^ 64)).tdiv ubifsBlockSize ≤ 0 := by
        rw [← Int.neg_neg (P.bmod _), Int.neg_tdiv]
        exact Int.neg_nonpos_of_nonneg (Int.tdiv_nonneg (by omega) (by decide))
      rw [hb] at h this
      omega
  · intro hP
    rw [bmod_eq_self h0 (by omega), Int.tdiv_eq_ediv h0 (by decide)]

/-- The reserved space of an accepted run is the exact overhead-added -R count only while that
count times add_space_overhead's factor fits a long long. -/
theorem getOptions_rpSize {jheadCnt v : Nat} {a : Args} {cfg : Config} {sfx : Bytes}
    (h : getOptions jheadCnt a = .ok cfg) (hR : a.reserved = some (some (v, sfx))) :
    cfg.rpSize = denotedBytes v sfx * overheadFactorSpec a.fanout / ubifsBlockSize ↔
      denotedBytes v sfx * overheadFactorSpec a.fanout < 2 ^ 63 := by
  obtain ⟨hc, hv⟩ := getOptions_eq_ok.mp h
  obtain ⟨hf, r, hr, hrp⟩ := optionsConfig_reserved hc hR
  obtain ⟨hre, hr0⟩ := optReserved_eq_ok.mp hr
  rw [hre] at hr0
  obtain ⟨hb, hd⟩ := getBytes_of_nonneg hr0
  rw [hrp, hre, addSpaceOverhead, hb, Int.bmod_mul_bmod, overheadFactor_eq (hf ▸ hv.fanout_le)]
  exact tdiv_bmod_eq_iff (Int.mul_nonneg hd (Int.natCast_nonneg _))

/-- calc_min_log_lebs keeps only the low 32 bits of the bud count: a journal 2^32 LEBs longer
asks for the same log. -/
theorem calcMinLogLebs_add_buds (cfg : Config) (J : Nat) (h0 : 0 < cfg.lebSize)
    (h : J + 2 ^ 32 * cfg.lebSize + cfg.lebSize ≤ 2 ^ 64) :
    calcMinLogLebs cfg (J + 2 ^ 32 * cfg.lebSize) = calcMinLogLebs cfg J := by
  have e : (J + 2 ^ 32 * cfg.lebSize + cfg.lebSize - 1) % 2 ^ 64 / cfg.lebSize =
      (J + cfg.lebSize - 1) % 2 ^ 64 / cfg.lebSize + 2 ^ 32 := by
    rw [Nat.mod_eq_of_lt (by omega), Nat.mod_eq_of_lt (by omega),
      show J + 2 ^ 32 * cfg.lebSize + cfg.lebSize - 1 = J + cfg.lebSize - 1 + cfg.lebSize * 2 ^ 32
        by omega, Nat.add_mul_div_left _ _ h0]
  unfold calcMinLogLebs
  rw [e, Int.natCast_add, Int.bmod_add_cancel]

/-- Modelled from the spec: the least log_lebs the spec asks for a journal of J bytes,
ceil((ceil(J / leb_size) * ALIGN(UBIFS_REF_NODE_SZ, min_io_size) + ALIGN(UBIFS_CS_NODE_SZ +
3 * UBIFS_REF_NODE_SZ, min_io_size)) / leb_size) + 1. -/
def minLogLebsSpec (minIoSize lebSize J : Nat) : Nat :=
  ((J + lebSize - 1) / lebSize * align ubifsRefNodeSz minIoSize +
    align (ubifsCsNodeSz + 3 * ubifsRefNodeSz) minIoSize + lebSize - 1) / lebSize + 1

/-- mkfs.ubifs -m 8 -e 15360 -c 100 -l 2 -j 61440GiB -R 2147483648GiB: a journal of 2^32 LEBs and
a reserve of 2^61 bytes. -/
def wrapArgs : Args :=
  ⟨true, none, some 8, some ubifsMinLebSz, some 100, 8, some 2, 1,
    some (some (61440, ascii "GiB")), some (some (2147483648, ascii "GiB")), false⟩

/-- What get_options leaves for it: 2^61 times the factor 4332 is 2^63 modulo 2^64, so the
reserved space is -2^51. -/
def wrapCfg : Config :=
  ⟨true, none, 8, ubifsMinLebSz, 100, 8, 2, 0, 1, 1, 61440 * 2 ^ 30, -2 ^ 51⟩

theorem getOptions_reserve_wraps :
    getOptions 1 wrapArgs = .ok wrapCfg ∧
      ¬ wrapCfg.rpSize = denotedBytes 2147483648 (ascii "GiB") * overheadFactorSpec 8 / ubifsBlockSize ∧
      wrapCfg.rpSize < 0 ∧ wrapCfg.logLebs < minLogLebsSpec 8 ubifsMinLebSz wrapCfg.maxBudBytes ∧
      calcMinLogLebs wrapCfg wrapCfg.maxBudBytes = calcMinLogLebs wrapCfg 0 :=
  have h : getOptions 1 wrapArgs = .ok wrapCfg :=
    getOptions_eq_ok.mpr ⟨rfl, by constructor <;> decide⟩
  ⟨h, fun he => absurd ((getOptions_rpSize h rfl).mp he) (by decide), by decide, by decide,
    calcMinLogLebs_add_buds wrapCfg 0 (by decide) (by decide)⟩

/-! ### The output path check -/

/-- strstr: the offset of the first occurrence of needle in haystack. -/
def strstr (hay needle : Bytes) : Option Nat :=
  if needle.isPrefixOf hay then some 0
  else match hay with
    | [] => none
    | _ :: t => (strstr t needle).map (· + 1)

/-- The C library calls of is_contained: dirname on its copy of the path, and realpath, none
where it fails. -/
structure PathOps where
  dirname : Bytes → Bytes
  realpath : Bytes → Option Bytes

/-- is_contained: 1 when the canonical directory of the file holds the canonical directory as
a substring, 0 when not, -1 when either cannot be canonicalized. -/
def isContained (ops : PathOps) (file dir : Bytes) : Int :=
  match ops.realpath (ops.dirname file), ops.realpath dir with
  | some realFile, some realDir => if (strstr realFile realDir).isSome then 1 else 0
  | _, _ => -1

/-- Modelled from the spec: f is d or lies beneath it, d being a prefix of f that ends at a
path-component boundary (47 is '/'). -/
def IsBeneath (f d : Bytes) : Prop :=
  ∃ rest, f = d ++ rest ∧ (rest = [] ∨ rest.head? = some 47 ∨ d.getLast? = some 47)

theorem strstr_isSome_iff (hay needle : Bytes) : (strstr hay needle).isSome ↔ needle <:+: hay := by
  induction hay with
  | nil =>
    unfold strstr
    cases needle <;> simp
  | cons c t ih =>
    unfold strstr
    by_cases hp : needle.isPrefixOf (c :: t)
    · simp only [hp, if_true, Option.isSome_some, true_iff]
      exact (List.isPrefixOf_iff_prefix.mp hp).isInfix
    · simp only [hp, if_false, Bool.false_eq_true, Option.isSome_map', ih, List.infix_cons_iff,
        List.isPrefixOf_iff_prefix.not.mp hp, false_or]

/-- is_contained over two canonical paths answers whether the root's is a substring of the
file's directory's. -/
theorem isContained_eq_one_iff {ops : PathOps} {file dir f d : Bytes}
    (hf : ops.realpath (ops.dirname file) = some f) (hd : ops.realpath dir = some d) :
    isContained ops file dir = 1 ↔ d <:+: f := by
  unfold isContained
  rw [hf, hd]
  dsimp only
  split <;> simp_all [strstr_isSome_iff]

/-- A directory whose canonical path extends the root's last name, such as /a/bc for the root
/a/b, is taken for one inside the root, which it is not. -/
theorem isContained_extends_name {ops : PathOps} {file dir d rest : Bytes}
    (hf : ops.realpath (ops.dirname file) = some (d ++ rest)) (hd : ops.realpath dir = some d)
    (hl : d.getLast? ≠ some 47) (hr : rest ≠ []) (hh : rest.head? ≠ some 47) :
    isContained ops file dir = 1 ∧ ¬ IsBeneath (d ++ rest) d := by
  refine ⟨(isContained_eq_one_iff hf hd).mpr (List.prefix_append d rest).isInfix, ?_⟩
  rintro ⟨r, he, hb⟩
  obtain rfl := List.append_cancel_left he
  rcases hb with hb | hb | hb
  · exact hr hb
  · exact hh hb
  · exact hl hb

/-- Paths that exist as written, canonical already; dirname cuts the last name off a path
with a slash before it. -/
def plainPaths : PathOps :=
  ⟨fun p => ((p.reverse.dropWhile (· ≠ 47)).drop 1).reverse, some⟩

theorem isContained_sibling_root :
    isContained plainPaths (ascii "/a/bc/img") (ascii "/a/b") = 1 ∧
      ¬ IsBeneath (ascii "/a/b" ++ ascii "c") (ascii "/a/b") :=
  isContained_extends_name rfl rfl (by decide) (by decide) (by decide)

end MkfsUbifs

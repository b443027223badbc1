import Xv6.Log

/-!
# The invariant of the log

`Inv` says, phase by phase, what the disk, the cache and the header hold. Its core is
`Recoverable`: whatever the phase, `recover_from_log` run on the present disk yields the
state after the commits that have reached the disk.
-/

namespace Xv6.Log

/-! ## Writes and header -/

theorem applyWrites_append (d : BlockNo → Block) (ws vs : List Write) :
    applyWrites d (ws ++ vs) = applyWrites (applyWrites d ws) vs := by
  simp [applyWrites]

theorem afterCommits_append (base : BlockNo → Block) (cs : List (List Write)) (ws : List Write) :
    afterCommits base (cs ++ [ws]) = applyWrites (afterCommits base cs) ws := by
  simp [afterCommits, applyWrites]

theorem afterCommits_concat_nil (base : BlockNo → Block) (cs : List (List Write)) :
    afterCommits base (cs ++ [[]]) = afterCommits base cs := by
  simp [afterCommits]

theorem writesOf_append (i : Nat) (ws vs : List Write) :
    writesOf i (ws ++ vs) = writesOf i ws ++ writesOf i vs := by
  simp [writesOf]

theorem absorb_le (lh : LogHeader) (b : BlockNo) : absorb lh b ≤ lh.n := by
  unfold absorb
  cases h : (List.range lh.n).find? fun i => lh.block i == b with
  | none => simp
  | some => grind

variable {b : BlockNo} {lh : LogHeader}

theorem absorb_hit (h : absorb lh b ≠ lh.n) : lh.block (absorb lh b) = b := by
  unfold absorb at h ⊢
  cases hf : (List.range lh.n).find? fun i => lh.block i == b with
  | none => simp [hf] at h
  | some => simpa using List.find?_some hf

theorem update_absorb (h : absorb lh b ≠ lh.n) :
    Function.update lh.block (absorb lh b) b = lh.block :=
  Function.update_eq_self_iff.mpr (absorb_hit h).symm

theorem absorb_miss (h : absorb lh b = lh.n) (j : Nat) (hj : j < lh.n) : lh.block j ≠ b := by
  unfold absorb at h
  cases hf : (List.range lh.n).find? fun i => lh.block i == b with
  | none => grind
  | some => grind

theorem decodeHead_encodeHead_n (d : Block) (h : lh.n ≤ logSize) :
    (decodeHead (encodeHead lh d)).n = lh.n := by
  have hn : lh.n ≤ 30 := h
  have ht : (BitVec.ofNat 32 lh.n).toInt = lh.n := by
    rw [BitVec.toInt_eq_toNat_cond, BitVec.toNat_ofNat, Nat.mod_eq_of_lt (by omega)]
    omega
  simp [decodeHead, word, encodeHead, ht]

theorem decodeHead_encodeHead_block (d : Block) (h : lh.n ≤ logSize) {j : Nat} (hj : j < lh.n) :
    (decodeHead (encodeHead lh d)).block j = lh.block j := by
  have hn : lh.n ≤ 30 := h
  have h1 : j + 1 < 256 := by omega
  simp [decodeHead, word, encodeHead, h1, hj, Nat.succ_le_of_lt hj]

/-! ## Block numbers of the log region -/

variable {cfg : Config}
variable {i : Nat}

theorem Config.logBlock_toNat (cfg : Config) (h : i < cfg.size) :
    (cfg.logBlock i).toNat = cfg.start + i := by
  have := cfg.fit
  rw [Config.logBlock, BitVec.toNat_ofNat, Nat.mod_eq_of_lt (by omega)]

theorem Config.not_home_logBlock (cfg : Config) (h : i < cfg.size) :
    ¬ cfg.Home (cfg.logBlock i) := by
  rw [Config.Home, cfg.logBlock_toNat h]
  omega

theorem Config.logBlock_inj (cfg : Config) {j : Nat} (hi : i < cfg.size) (hj : j < cfg.size)
    (h : cfg.logBlock i = cfg.logBlock j) : i = j := by
  have := congrArg BitVec.toNat h
  rw [cfg.logBlock_toNat hi, cfg.logBlock_toNat hj] at this
  omega

theorem Config.home_ne_logBlock (hb : cfg.Home b) (h : i < cfg.size) : b ≠ cfg.logBlock i := by
  rintro rfl
  exact cfg.not_home_logBlock h hb

/-! ## The invariant -/

/-- Recovery of this disk yields the home blocks `T`: the header lists home blocks whose log
copies hold `T`, and every home block it does not list already holds `T`. -/
structure Recoverable (cfg : Config) (d T : BlockNo → Block) : Prop where
  fits : (decodeHead (d (cfg.logBlock 0))).n < cfg.size
  home : ∀ j < (decodeHead (d (cfg.logBlock 0))).n,
    cfg.Home ((decodeHead (d (cfg.logBlock 0))).block j)
  copies : ∀ j < (decodeHead (d (cfg.logBlock 0))).n,
    d (cfg.logBlock (j + 1)) = T ((decodeHead (d (cfg.logBlock 0))).block j)
  rest : ∀ b, cfg.Home b → (∀ j < (decodeHead (d (cfg.logBlock 0))).n,
    (decodeHead (d (cfg.logBlock 0))).block j ≠ b) → d b = T b

/-- The home blocks once every commit and the open transaction are applied. -/
def target (base : BlockNo → Block) (s : State) : BlockNo → Block :=
  afterCommits base (s.commits ++ [s.txn])

/-- The in-memory header lists distinct home blocks that fit the log region. -/
structure HeaderOk (cfg : Config) (lh : LogHeader) : Prop where
  size : lh.n ≤ logSize
  fits : lh.n < cfg.size
  home : ∀ j < lh.n, cfg.Home (lh.block j)
  distinct : ∀ j < lh.n, ∀ k < lh.n, lh.block j = lh.block k → j = k

/-- What holds of the cache outside of recovery, when the blocks from index `t` on are still
pinned: an unlocked home block reads as the target, and only pinned blocks may differ from it
on disk. -/
structure Live (cfg : Config) (base : BlockNo → Block) (t : Nat) (s : State) : Prop where
  view : ∀ b, cfg.Home b → s.lock b = none → bread s b = target base s b
  home : ∀ b, cfg.Home b → s.pin b = 0 → s.disk b = target base s b
  pins : ∀ b, s.pin b = 0 ↔ ∀ j, t ≤ j → j < s.lh.n → s.lh.block j ≠ b
  pin_le : ∀ b, s.pin b ≤ 1
  header : HeaderOk cfg s.lh

/-- Blocks of the log region are never dirty in the cache. -/
def Coherent (cfg : Config) (s : State) : Prop :=
  ∀ b, ¬ cfg.Home b → s.cache b = none ∨ s.cache b = some (s.disk b)

/-- The bookkeeping of operations: the writes of an operation are together in one commit, or
in the open transaction, or were lost. -/
structure History (cfg : Config) (s : State) : Prop where
  nodup : s.active.Nodup
  count : s.active.length = s.outstanding
  sub : ∀ i ∈ s.active, i ∈ s.started
  lock : ∀ b i, s.lock b = some i → i ∈ s.active ∧ cfg.Home b
  whole : ∀ i pre, pre <+: s.commits →
    writesOf i pre.flatten = [] ∨ writesOf i pre.flatten = s.wrote i
  txn : ∀ i, writesOf i s.txn = [] ∨
    (writesOf i s.commits.flatten = [] ∧ writesOf i s.txn = s.wrote i)
  open_op : ∀ i ∈ s.active, writesOf i s.commits.flatten = [] ∧ writesOf i s.txn = s.wrote i
  fresh : ∀ i, i ∉ s.started →
    s.wrote i = [] ∧ writesOf i s.commits.flatten = [] ∧ writesOf i s.txn = []

/-- The process in `end_op` runs alone: no operation is open. -/
structure Quiet (s : State) : Prop where
  committing : s.committing = true
  txn : s.txn = []
  active : s.active = []

/-- The first `t` log blocks hold what the listed blocks are to become. -/
def Logged (cfg : Config) (base : BlockNo → Block) (t : Nat) (s : State) : Prop :=
  ∀ j < t, s.disk (cfg.logBlock (j + 1)) = target base s (s.lh.block j)

def HeadEmpty (cfg : Config) (s : State) : Prop := (decodeHead (s.disk (cfg.logBlock 0))).n = 0

def HeadStored (cfg : Config) (s : State) : Prop :=
  (decodeHead (s.disk (cfg.logBlock 0))).n = s.lh.n ∧
    ∀ j < s.lh.n, (decodeHead (s.disk (cfg.logBlock 0))).block j = s.lh.block j

def HomeIs (cfg : Config) (s : State) (T : BlockNo → Block) : Prop :=
  ∀ b, cfg.Home b → s.disk b = T b

/-- What recovery relies on: memory was reset, and the cache holds only clean blocks. -/
structure Recovering (cfg : Config) (base : BlockNo → Block) (s : State) : Prop where
  cache : ∀ b, s.cache b = none ∨ s.cache b = some (s.disk b)
  pin : ∀ b, s.pin b = 0
  committing : s.committing = false
  txn : s.txn = []
  active : s.active = []
  disk : Recoverable cfg s.disk (afterCommits base s.commits)

def PhaseInv (cfg : Config) (base : BlockNo → Block) (s : State) : Phase → Prop
  | .running => Live cfg base 0 s ∧ s.committing = false ∧ HeadEmpty cfg s ∧
      HomeIs cfg s (afterCommits base s.commits)
  | .writeLog t => Live cfg base 0 s ∧ Quiet s ∧ t ≤ s.lh.n ∧ HeadEmpty cfg s ∧
      Logged cfg base t s ∧ HomeIs cfg s (afterCommits base s.commits.dropLast)
  | .writeHead => Live cfg base 0 s ∧ Quiet s ∧ HeadEmpty cfg s ∧
      Logged cfg base s.lh.n s ∧ HomeIs cfg s (afterCommits base s.commits.dropLast)
  | .install t => Live cfg base t s ∧ Quiet s ∧ t ≤ s.lh.n ∧ HeadStored cfg s ∧
      Logged cfg base s.lh.n s
  | .erase => Live cfg base 0 s ∧ Quiet s ∧ s.lh.n = 0 ∧
      Recoverable cfg s.disk (afterCommits base s.commits)
  | .finish => Live cfg base 0 s ∧ Quiet s ∧ s.lh.n = 0 ∧ HeadEmpty cfg s
  | .readHead => Recovering cfg base s
  | .reinstall t => Recovering cfg base s ∧ t ≤ s.lh.n ∧
      s.lh = decodeHead (s.disk (cfg.logBlock 0)) ∧
      ∀ j < t, s.disk (s.lh.block j) = afterCommits base s.commits (s.lh.block j)
  | .clear => Recovering cfg base s ∧ s.lh.n = 0 ∧ HomeIs cfg s (afterCommits base s.commits)

structure Inv (cfg : Config) (base : BlockNo → Block) (s : State) : Prop where
  history : History cfg s
  coherent : Coherent cfg s
  phase : PhaseInv cfg base s s.phase

end Xv6.Log

import Xv6.Log.Invariant

/-!
# Every step keeps the invariant of the log
-/

namespace Xv6.Log

open Function (update update_apply update_of_ne update_self)
open Config (home_ne_logBlock)

variable {cfg : Config} {base : BlockNo → Block} {s : State}
variable {T : BlockNo → Block} {b : BlockNo} {i : Nat}
variable {d : BlockNo → Block} {t : Nat}

attribute [local simp] Log.bwrite writesOf_append Log.fill

/-! ## Reading the disk and the cache -/

theorem bread_eq_disk (h : s.cache b = none ∨ s.cache b = some (s.disk b)) :
    bread s b = s.disk b := by
  rcases h with h | h <;> simp [bread, h]

theorem Coherent.bread_log (h : Coherent cfg s) (hi : i < cfg.size) :
    bread s (cfg.logBlock i) = s.disk (cfg.logBlock i) :=
  bread_eq_disk (h _ (cfg.not_home_logBlock hi))

theorem bread_fill (s : State) (b c : BlockNo) : bread (fill s b) c = bread s c := by
  by_cases h : c = b
  · subst h; simp [bread, fill]
  · simp [bread, fill, h]

theorem Coherent.fill (h : Coherent cfg s) (b : BlockNo) : Coherent cfg (fill s b) := by
  intro c hc
  by_cases hcb : c = b
  · subst hcb
    simp [bread_eq_disk (h c hc)]
  · simpa [hcb] using h c hc

theorem Coherent.bwrite (h : Coherent cfg s) (b : BlockNo) (d : Block) :
    Coherent cfg (bwrite s b d) := by
  intro c hc
  by_cases hcb : c = b
  · subst hcb; simp
  · simpa [hcb] using h c hc

theorem Coherent.writeHead (h : Coherent cfg s) : Coherent cfg (writeHead cfg s) := h.bwrite _ _

theorem Coherent.installTail (h : Coherent cfg s) (r : Bool) (t : Nat) :
    Coherent cfg (installTail cfg r t s) := by
  cases r <;> exact (h.fill _).bwrite _ _

/-! ## Recoverability -/

theorem Recoverable.of_empty
    (hd : (decodeHead (d (cfg.logBlock 0))).n = 0) (hT : ∀ b, cfg.Home b → d b = T b) :
    Recoverable cfg d T where
  fits := by rw [hd]; exact cfg.pos
  home := by rw [hd]; intro j hj; omega
  copies := by rw [hd]; intro j hj; omega
  rest := fun b hb _ => hT b hb

theorem Recoverable.of_stored (hh : HeaderOk cfg s.lh)
    (hs : HeadStored cfg s) (hl : ∀ j < s.lh.n, s.disk (cfg.logBlock (j + 1)) = T (s.lh.block j))
    (hr : ∀ b, cfg.Home b → (∀ j < s.lh.n, s.lh.block j ≠ b) → s.disk b = T b) :
    Recoverable cfg s.disk T where
  fits := by rw [hs.1]; exact hh.fits
  home := by
    rw [hs.1]
    intro j hj
    rw [hs.2 j hj]
    exact hh.home j hj
  copies := by
    rw [hs.1]
    intro j hj
    rw [hs.2 j hj]
    exact hl j hj
  rest := by
    rw [hs.1]
    intro b hb hn
    exact hr b hb (fun j hj => by rw [← hs.2 j hj]; exact hn j hj)

theorem Recoverable.update_home (h : Recoverable cfg d T) (hb : cfg.Home b) :
    Recoverable cfg (update d b (T b)) T := by
  have h0 : update d b (T b) (cfg.logBlock 0) = d (cfg.logBlock 0) :=
    update_of_ne (Ne.symm (home_ne_logBlock hb cfg.pos)) _ _
  have hcopy : ∀ j < (decodeHead (d (cfg.logBlock 0))).n,
      update d b (T b) (cfg.logBlock (j + 1)) = d (cfg.logBlock (j + 1)) := by
    intro j hj
    have hfit := h.fits
    exact update_of_ne (Ne.symm (home_ne_logBlock hb (by omega))) _ _
  refine ⟨?_, ?_, ?_, ?_⟩
  · rw [h0]; exact h.fits
  · rw [h0]; exact h.home
  · grind [h.copies]
  · rw [h0]
    intro c hc hn
    by_cases hcb : c = b
    · subst hcb; simp
    · rw [update_of_ne hcb]
      exact h.rest c hc hn

theorem writeHead_home (hb : cfg.Home b) : (writeHead cfg s).disk b = s.disk b :=
  update_of_ne (home_ne_logBlock hb cfg.pos) _ _

theorem writeHead_headStored (hn : s.lh.n ≤ logSize) : HeadStored cfg (writeHead cfg s) := by
  simp only [HeadStored, writeHead, bwrite, update_self]
  exact ⟨decodeHead_encodeHead_n _ hn, fun j hj => decodeHead_encodeHead_block _ hn hj⟩

theorem Inv.at (h : Inv cfg base s) {φ : Phase} (hphase : s.phase = φ) : PhaseInv cfg base s φ :=
  hphase ▸ h.phase

theorem Inv.recoverable (h : Inv cfg base s) :
    Recoverable cfg s.disk (afterCommits base (crash s).commits) := by
  have hp := h.phase
  simp only [crash]
  generalize s.phase = φ at hp ⊢
  cases φ with
  | running =>
    obtain ⟨-, -, he, hhome⟩ := hp
    exact .of_empty he hhome
  | writeLog =>
    obtain ⟨-, -, -, he, -, hhome⟩ := hp
    exact .of_empty he hhome
  | writeHead =>
    obtain ⟨-, -, he, -, hhome⟩ := hp
    exact .of_empty he hhome
  | install =>
    obtain ⟨hlive, hq, ht, hs, hl⟩ := hp
    have htgt : target base s = afterCommits base s.commits := by
      rw [target, hq.txn, afterCommits_concat_nil]
    rw [Logged, htgt] at hl
    refine .of_stored hlive.header hs hl ?_
    intro b hb hn
    change s.disk b = afterCommits base s.commits b
    rw [← htgt]
    exact hlive.home b hb ((hlive.pins b).mpr fun j _ hj => hn j hj)
  | erase => exact hp.2.2.2
  | finish =>
    obtain ⟨hlive, hq, hn, he⟩ := hp
    refine .of_empty he fun b hb => ?_
    have := hlive.home b hb ((hlive.pins b).mpr (by rw [hn]; intro j _ hj; omega))
    rwa [target, hq.txn, afterCommits_concat_nil] at this
  | readHead => exact hp.disk
  | reinstall | clear => exact hp.1.disk

/-! ## Operations -/

theorem writesOf_nil_mono {pre cs : List (List Write)} (hp : pre <+: cs)
    (h : writesOf i cs.flatten = []) : writesOf i pre.flatten = [] := by
  obtain ⟨rest, rfl⟩ := hp
  rw [List.flatten_append, writesOf_append] at h
  exact (List.append_eq_nil_iff.mp h).1

theorem History.crash (h : History cfg s) : History cfg (crash s) := by
  have hpre : (Log.crash s).commits <+: s.commits := by
    simp only [Log.crash]
    split
    · exact List.dropLast_prefix _
    · exact List.prefix_rfl
  refine ⟨List.nodup_nil, rfl, by simp [Log.crash], by simp [Log.crash], ?_, ?_, by simp [Log.crash], ?_⟩
  · intro i pre hp
    exact h.whole i pre (hp.trans hpre)
  · intro i
    exact .inl rfl
  · intro i hi
    obtain ⟨h1, h2, -⟩ := h.fresh i hi
    exact ⟨h1, writesOf_nil_mono hpre h2, rfl⟩

theorem Inv.crash (h : Inv cfg base s) : Inv cfg base (crash s) where
  history := h.history.crash
  coherent := fun _ _ => .inl rfl
  phase := ⟨fun _ => .inl rfl, fun _ => rfl, rfl, rfl, rfl, h.recoverable⟩

theorem Inv.phase_of_active (h : Inv cfg base s) (hi : i ∈ s.active) : s.phase = .running := by
  have hp := h.phase
  cases hphase : s.phase with
  | running => rfl
  | writeLog | writeHead | install | erase | finish =>
    rw [hphase] at hp; rw [hp.2.1.active] at hi; cases hi
  | readHead => rw [hphase] at hp; rw [hp.active] at hi; cases hi
  | reinstall | clear => rw [hphase] at hp; rw [hp.1.active] at hi; cases hi

theorem Inv.phase_of_canBegin (h : Inv cfg base s) (hr : s.phase.recovering = false)
    (hc : canBegin s = true) : s.phase = .running := by
  have hcom : s.committing = false := by
    simp only [canBegin, Bool.and_eq_true, Bool.not_eq_true'] at hc
    exact hc.1
  have hp := h.phase
  cases hphase : s.phase with
  | running => rfl
  | writeLog | writeHead | install | erase | finish =>
    rw [hphase] at hp; rw [hp.2.1.committing] at hcom; cases hcom
  | readHead | reinstall | clear => rw [hphase] at hr; cases hr

theorem History.beginOp (h : History cfg s) (hi : i ∉ s.started) : History cfg (beginOp s i) where
  nodup := List.nodup_cons.mpr ⟨fun hm => hi (h.sub i hm), h.nodup⟩
  count := by simp [Log.beginOp, h.count]
  sub := by
    intro j hj
    rcases List.mem_cons.mp hj with rfl | hj
    · exact List.mem_cons_self
    · exact List.mem_cons_of_mem _ (h.sub j hj)
  lock := fun b j hb => ⟨List.mem_cons_of_mem _ (h.lock b j hb).1, (h.lock b j hb).2⟩
  whole := h.whole
  txn := h.txn
  open_op := by
    intro j hj
    rcases List.mem_cons.mp hj with rfl | hj
    · obtain ⟨h1, h2, h3⟩ := h.fresh j hi
      exact ⟨h2, h3.trans h1.symm⟩
    · exact h.open_op j hj
  fresh := fun j hj => h.fresh j (fun hm => hj (List.mem_cons_of_mem _ hm))

theorem Inv.beginOp (h : Inv cfg base s) (hr : s.phase.recovering = false) (hc : canBegin s = true)
    (hi : i ∉ s.started) : Inv cfg base (beginOp s i) := by
  have hphase := h.phase_of_canBegin hr hc
  obtain ⟨hlive, hcom, he, hhome⟩ := h.at hphase
  refine ⟨h.history.beginOp hi, h.coherent, ?_⟩
  change PhaseInv cfg base (Log.beginOp s i) s.phase
  rw [hphase]
  exact ⟨{ hlive with }, hcom, he, hhome⟩

theorem Inv.modify (h : Inv cfg base s) {d : Block} (hi : i ∈ s.active) (hb : cfg.Home b) :
    Inv cfg base (modify s i b d) := by
  have hphase := h.phase_of_active hi
  obtain ⟨hlive, hcom, he, hhome⟩ := h.at hphase
  have hh := h.history
  refine ⟨?_, ?_, ?_⟩
  · refine { hh with lock := ?_ }
    intro c j hc
    by_cases hcb : c = b
    · subst hcb
      simp only [Log.modify, update_self, Option.some.injEq] at hc
      exact ⟨hc ▸ hi, hb⟩
    · simp only [Log.modify, update_of_ne hcb] at hc
      exact hh.lock c j hc
  · intro c hc
    have hcb : c ≠ b := by rintro rfl; exact hc hb
    simpa [Log.modify, hcb] using h.coherent c hc
  · change PhaseInv cfg base (Log.modify s i b d) s.phase
    rw [hphase]
    refine ⟨{ hlive with view := ?_ }, hcom, he, hhome⟩
    intro c hc hl
    by_cases hcb : c = b
    · subst hcb; simp [Log.modify] at hl
    · simp only [Log.modify, update_of_ne hcb] at hl
      change bread (Log.modify s i b d) c = target base s c
      rw [← hlive.view c hc hl]
      simp [bread, Log.modify, hcb]

theorem History.logWrite (h : History cfg s) (hl : s.lock b = some i) :
    History cfg (logWrite s i b) := by
  have hi := (h.lock b i hl).1
  obtain ⟨hopen1, hopen2⟩ := h.open_op i hi
  have hself : writesOf i [(⟨i, b, bread s b⟩ : Write)] = [⟨i, b, bread s b⟩] := by simp [writesOf]
  have hother : ∀ j, j ≠ i → writesOf j [(⟨i, b, bread s b⟩ : Write)] = [] := by
    intro j hj
    simp [writesOf, Ne.symm hj]
  refine ⟨h.nodup, h.count, h.sub, ?_, ?_, ?_, ?_, ?_⟩
  · intro c j hc
    by_cases hcb : c = b
    · subst hcb; simp [Log.logWrite] at hc
    · simp only [Log.logWrite, update_of_ne hcb] at hc
      exact h.lock c j hc
  · intro j pre hp
    by_cases hj : j = i
    · subst hj
      exact .inl (writesOf_nil_mono hp hopen1)
    · simpa [Log.logWrite, hj] using h.whole j pre hp
  · intro j
    by_cases hj : j = i
    · subst hj
      right
      refine ⟨hopen1, ?_⟩
      simp only [Log.logWrite, writesOf_append, hself, hopen2, update_self]
    · simpa [Log.logWrite, hother j hj, hj] using h.txn j
  · intro j hja
    by_cases hj : j = i
    · subst hj
      refine ⟨hopen1, ?_⟩
      simp only [Log.logWrite, writesOf_append, hself, hopen2, update_self]
    · simpa [Log.logWrite, hother j hj, hj] using h.open_op j hja
  · intro j hjs
    have hj : j ≠ i := by rintro rfl; exact hjs (h.sub j hi)
    simpa [Log.logWrite, hother j hj, hj] using h.fresh j hjs

theorem HeaderOk.logWrite (h : HeaderOk cfg s.lh) (hb : cfg.Home b)
    (hp : logWritePanics cfg s = false) : HeaderOk cfg (logWrite s i b).lh := by
  simp only [logWritePanics, Bool.or_eq_false_iff, decide_eq_false_iff_not, Nat.not_le,
    ge_iff_le] at hp
  obtain ⟨⟨hp1, hp2⟩, -⟩ := hp
  by_cases hk : absorb s.lh b = s.lh.n
  · have hmiss := fun j hj => absorb_miss hk j hj
    have hb1 : ∀ j, j < s.lh.n → update s.lh.block s.lh.n b j = s.lh.block j :=
      fun j hj => update_of_ne (by omega) _ _
    simp only [Log.logWrite, hk, if_pos]
    refine ⟨hp1, by change s.lh.n + 1 < cfg.size; omega, ?_, ?_⟩
    · intro j hj
      change j < s.lh.n + 1 at hj
      change cfg.Home (update s.lh.block s.lh.n b j)
      by_cases hjn : j = s.lh.n
      · subst hjn; simpa using hb
      · rw [hb1 j (by omega)]
        exact h.home j (by omega)
    · intro j hj k hk' heq
      by_cases hjn : j = s.lh.n <;> by_cases hkn : k = s.lh.n
      · omega
      · grind
      · grind
      · grind [h.distinct]
  · simp only [Log.logWrite, hk, if_false, update_absorb hk]
    exact h

theorem listed_logWrite (s : State) (i : Nat) (b c : BlockNo) :
    (∀ j, 0 ≤ j → j < (logWrite s i b).lh.n → (logWrite s i b).lh.block j ≠ c) ↔
      c ≠ b ∧ ∀ j, 0 ≤ j → j < s.lh.n → s.lh.block j ≠ c := by
  have hle := absorb_le s.lh b
  by_cases hk : absorb s.lh b = s.lh.n
  · simp only [Log.logWrite, hk, if_pos]
    constructor
    · intro h
      refine ⟨?_, fun j _ hj => ?_⟩
      · grind
      · have := h j (by omega) (by omega)
        rwa [update_of_ne (by omega)] at this
    · grind
  · have hhit := absorb_hit hk
    simp only [Log.logWrite, hk, if_false, update_absorb hk]
    constructor
    · grind
    · rintro ⟨-, h⟩
      exact h

theorem target_logWrite (base : BlockNo → Block) (s : State) (i : Nat) (b : BlockNo) :
    target base (logWrite s i b) = update (target base s) b (bread s b) := by
  simp only [target, Log.logWrite, afterCommits_append, applyWrites_append]
  rfl

theorem Inv.logWrite (h : Inv cfg base s) (hl : s.lock b = some i)
    (hpanic : logWritePanics cfg s = false) : Inv cfg base (logWrite s i b) := by
  obtain ⟨hi, hb⟩ := h.history.lock b i hl
  have hphase := h.phase_of_active hi
  obtain ⟨hlive, hcom, he, hhome⟩ := h.at hphase
  have hpin : ∀ c, c ≠ b → (Log.logWrite s i b).pin c = s.pin c := by
    intro c hc
    simp only [Log.logWrite]
    split
    · exact update_of_ne hc _ _
    · rfl
  have hpinb : (Log.logWrite s i b).pin b = 1 := by
    have h0 := hlive.pins b
    have h1 := hlive.pin_le b
    simp only [Log.logWrite]
    split
    · grind [absorb_miss]
    · next hk =>
      have hne : s.pin b ≠ 0 := by
        intro h2
        have hle := absorb_le s.lh b
        exact h0.mp h2 _ (Nat.zero_le _) (by omega) (absorb_hit hk)
      omega
  refine ⟨h.history.logWrite hl, h.coherent, ?_⟩
  change PhaseInv cfg base (Log.logWrite s i b) s.phase
  rw [hphase]
  refine ⟨⟨?_, ?_, ?_, ?_, hlive.header.logWrite hb hpanic⟩, hcom, he, hhome⟩
  · intro c hc hlc
    rw [target_logWrite]
    change bread s c = _
    by_cases hcb : c = b
    · subst hcb; simp
    · rw [update_of_ne hcb]
      refine hlive.view c hc ?_
      simpa [Log.logWrite, hcb] using hlc
  · intro c hc hpc
    have hcb : c ≠ b := by rintro rfl; omega
    rw [target_logWrite, update_of_ne hcb]
    exact hlive.home c hc ((hpin c hcb).symm.trans hpc)
  · intro c
    rw [listed_logWrite]
    by_cases hcb : c = b
    · subst hcb; simp [hpinb]
    · simp only [ne_eq, hcb, not_false_eq_true, true_and, hpin c hcb]
      exact hlive.pins c
  · intro c
    by_cases hcb : c = b
    · subst hcb; omega
    · rw [hpin c hcb]; exact hlive.pin_le c

theorem History.leaveOp (h : History cfg s) (hi : i ∈ s.active)
    (hl : ∀ b, s.lock b ≠ some i) : History cfg (leaveOp s i) := by
  refine { h with
    nodup := h.nodup.erase i
    count := ?_
    sub := fun j hj => h.sub j (List.mem_of_mem_erase hj)
    lock := ?_
    open_op := fun j hj => h.open_op j (List.mem_of_mem_erase hj) }
  · change (s.active.erase i).length = s.outstanding - 1
    rw [List.length_erase_of_mem hi, h.count]
  · intro b j hb
    have hj : j ≠ i := by rintro rfl; exact hl b hb
    exact ⟨(List.mem_erase_of_ne hj).mpr (h.lock b j hb).1, (h.lock b j hb).2⟩

theorem History.startCommit (h : History cfg s) (ha : s.active = []) :
    History cfg (startCommit s) := by
  refine { h with whole := ?_, txn := fun _ => .inl rfl, open_op := ?_, fresh := ?_ }
  · intro i pre hp
    rcases List.prefix_concat_iff.mp hp with rfl | hp
    · rw [List.flatten_append, writesOf_append]
      simp only [List.flatten_cons, List.flatten_nil, List.append_nil]
      rcases h.txn i with ht | ⟨ht1, ht2⟩
      · rw [ht, List.append_nil]
        exact h.whole i s.commits List.prefix_rfl
      · rw [ht1, ht2, List.nil_append]
        exact .inr rfl
    · exact h.whole i pre hp
  · intro i hi
    change i ∈ s.active at hi
    rw [ha] at hi
    cases hi
  · intro i hi
    obtain ⟨h1, h2, h3⟩ := h.fresh i hi
    exact ⟨h1, by simp [Log.startCommit, h2, h3], rfl⟩

theorem target_startCommit (base : BlockNo → Block) (s : State) :
    target base (startCommit s) = target base s := by
  simp only [target, startCommit, afterCommits_concat_nil]

theorem Live.startCommit (h : Live cfg base 0 s) : Live cfg base 0 (startCommit s) := by
  refine { h with view := ?_, home := ?_ }
  · rw [target_startCommit]; exact h.view
  · rw [target_startCommit]; exact h.home

theorem Inv.leaveOp (h : Inv cfg base s) (hi : i ∈ s.active) (hl : ∀ b, s.lock b ≠ some i) :
    Inv cfg base (leaveOp s i) := by
  refine ⟨h.history.leaveOp hi hl, h.coherent, ?_⟩
  have hp := h.phase
  change PhaseInv cfg base (Log.leaveOp s i) s.phase
  rw [h.phase_of_active hi] at hp ⊢
  obtain ⟨hlive, hcom, he, hhome⟩ := hp
  exact ⟨{ hlive with }, hcom, he, hhome⟩

theorem Inv.startCommit (h : Inv cfg base s) (hr : s.phase = .running) (ha : s.active = []) :
    Inv cfg base (startCommit s) := by
  refine ⟨h.history.startCommit ha, h.coherent, ?_⟩
  obtain ⟨hlive, -, he, hhome⟩ := h.at hr
  have hq : Quiet (Log.startCommit s) := ⟨rfl, rfl, ha⟩
  by_cases hn : 0 < s.lh.n
  · have hphase : (Log.startCommit s).phase = .writeLog 0 := if_pos hn
    rw [hphase]
    refine ⟨hlive.startCommit, hq, Nat.zero_le _, he, fun j hj => by omega, ?_⟩
    change HomeIs cfg s (afterCommits base (s.commits ++ [s.txn]).dropLast)
    rw [List.dropLast_concat]
    exact hhome
  · have hphase : (Log.startCommit s).phase = .finish := if_neg hn
    rw [hphase]
    exact ⟨hlive.startCommit, hq, Nat.eq_zero_of_not_pos hn, he⟩

theorem Inv.endOp (h : Inv cfg base s) (hi : i ∈ s.active) (hl : ∀ b, s.lock b ≠ some i) :
    Inv cfg base (endOp s i) := by
  have hleave := h.leaveOp hi hl
  unfold Log.endOp
  split
  · next hz =>
    refine hleave.startCommit (h.phase_of_active hi) ?_
    exact List.length_eq_zero_iff.mp (hleave.history.count.trans hz)
  · exact hleave

/-! ## The cache -/

theorem bread_bwrite (s : State) (b c : BlockNo) (d : Block) :
    bread (bwrite s b d) c = if c = b then d else bread s c := by
  by_cases h : c = b
  · subst h; simp [bread, bwrite]
  · simp [bread, bwrite, h]

theorem bread_writeHead_home (hb : cfg.Home b) : bread (writeHead cfg s) b = bread s b := by
  rw [writeHead, bread_bwrite, if_neg (home_ne_logBlock hb cfg.pos)]

theorem Inv.setCache (h : Inv cfg base s) {c : BlockNo → Option Block}
    (hco : Coherent cfg { s with cache := c })
    (hview : ∀ t, Live cfg base t s → ∀ b, cfg.Home b → s.lock b = none →
      bread { s with cache := c } b = target base s b)
    (hrec : Recovering cfg base s → ∀ b, c b = none ∨ c b = some (s.disk b)) :
    Inv cfg base { s with cache := c } := by
  refine ⟨{ h.history with }, hco, ?_⟩
  have hlive : ∀ t, Live cfg base t s → Live cfg base t { s with cache := c } :=
    fun t ht => { ht with view := hview t ht }
  have hq : Quiet s → Quiet { s with cache := c } := fun q => { q with }
  have hr : Recovering cfg base s → Recovering cfg base { s with cache := c } :=
    fun r => { r with cache := hrec r }
  have hphase : ∀ φ, PhaseInv cfg base s φ → PhaseInv cfg base { s with cache := c } φ := by
    intro φ hp
    cases φ with
    | running => exact ⟨hlive 0 hp.1, hp.2⟩
    | writeLog | writeHead | erase | finish => exact ⟨hlive 0 hp.1, hq hp.2.1, hp.2.2⟩
    | install t => exact ⟨hlive t hp.1, hq hp.2.1, hp.2.2⟩
    | readHead => exact hr hp
    | reinstall | clear => exact ⟨hr hp.1, hp.2⟩
  exact hphase s.phase h.phase

theorem Inv.fill (h : Inv cfg base s) (b : BlockNo) : Inv cfg base (fill s b) := by
  refine h.setCache (h.coherent.fill b) ?_ ?_
  · intro t ht c hc hl
    exact (bread_fill s b c).trans (ht.view c hc hl)
  · intro hr c
    by_cases hcb : c = b
    · subst hcb
      simp [bread_eq_disk (hr.cache c)]
    · simpa [hcb] using hr.cache c

theorem Inv.evict (h : Inv cfg base s) (hpin : s.pin b = 0) :
    Inv cfg base { s with cache := update s.cache b none } := by
  refine h.setCache ?_ ?_ ?_
  · intro c hc
    by_cases hcb : c = b
    · subst hcb; simp
    · simpa [hcb] using h.coherent c hc
  · intro t ht c hc hl
    by_cases hcb : c = b
    · subst hcb
      simpa [bread] using ht.home c hc hpin
    · rw [← ht.view c hc hl]
      simp [bread, hcb]
  · intro hr c
    by_cases hcb : c = b
    · subst hcb; simp
    · simpa [hcb] using hr.cache c

/-! ## Commit -/

theorem Inv.unlocked (h : Inv cfg base s) (ha : s.active = []) (b : BlockNo) : s.lock b = none := by
  cases hl : s.lock b with
  | none => rfl
  | some i =>
    have := (h.history.lock b i hl).1
    rw [ha] at this
    cases this

theorem target_of_txn (base : BlockNo → Block) (ht : s.txn = []) :
    target base s = afterCommits base s.commits := by
  rw [target, ht, afterCommits_concat_nil]

theorem HeaderOk.of_zero {lh : LogHeader} (h : lh.n = 0) : HeaderOk cfg lh := by
  constructor <;> simp [h, cfg.pos]

theorem Live.writeHead (h : Live cfg base t s) : Live cfg base t (writeHead cfg s) := by
  refine { h with view := ?_, home := ?_ }
  · intro b hb hl
    rw [bread_writeHead_home hb]
    exact h.view b hb hl
  · intro b hb hp
    rw [writeHead_home hb]
    exact h.home b hb hp

section

variable (h : Inv cfg base s)

include h

theorem Inv.writeLog (hphase : s.phase = .writeLog t) (ht : t < s.lh.n) :
    Inv cfg base { writeLogTail cfg t s with phase := .writeLog (t + 1) } := by
  obtain ⟨hlive, hq, -, he, hl, hhome⟩ := h.at hphase
  have hfit : t + 1 < cfg.size := by have := hlive.header.fits; omega
  have hdisk : ∀ b, b ≠ cfg.logBlock (t + 1) → (writeLogTail cfg t s).disk b = s.disk b :=
    fun b hb => update_of_ne hb _ _
  have hview : ∀ b, cfg.Home b → bread (writeLogTail cfg t s) b = bread s b := by
    intro b hb
    rw [writeLogTail, bread_bwrite, if_neg (home_ne_logBlock hb hfit), bread_fill]
  refine ⟨{ h.history with }, (h.coherent.fill _).bwrite _ _, ?_⟩
  refine ⟨{ hlive with view := ?_, home := ?_ }, { hq with }, ht, ?_, ?_, ?_⟩
  · intro b hb hlb
    exact (hview b hb).trans (hlive.view b hb hlb)
  · intro b hb hpb
    exact (hdisk b (home_ne_logBlock hb hfit)).trans (hlive.home b hb hpb)
  · change (decodeHead ((writeLogTail cfg t s).disk (cfg.logBlock 0))).n = 0
    rw [hdisk]
    · exact he
    · intro heq
      have := cfg.logBlock_inj cfg.pos hfit heq
      omega
  · intro j hj
    change (writeLogTail cfg t s).disk (cfg.logBlock (j + 1)) = target base s (s.lh.block j)
    by_cases hjt : j = t
    · subst hjt
      have hb := hlive.header.home j ht
      rw [← hlive.view _ hb (h.unlocked hq.active _)]
      simp [writeLogTail]
    · rw [hdisk]
      · exact hl j (by omega)
      · intro heq
        have := cfg.logBlock_inj (by omega) hfit heq
        omega
  · intro b hb
    exact (hdisk b (home_ne_logBlock hb hfit)).trans (hhome b hb)

theorem Inv.writeHead (hphase : s.phase = .writeHead) :
    Inv cfg base { writeHead cfg s with phase := .install 0 } := by
  obtain ⟨hlive, hq, -, hl, -⟩ := h.at hphase
  have hlive' := hlive.writeHead
  refine ⟨{ h.history with }, h.coherent.writeHead, ?_⟩
  refine ⟨{ hlive' with }, { hq with }, Nat.zero_le _, writeHead_headStored hlive.header.size, ?_⟩
  intro j hj
  change (Log.writeHead cfg s).disk (cfg.logBlock (j + 1)) = target base s (s.lh.block j)
  rw [← hl j hj]
  refine update_of_ne ?_ _ _
  intro heq
  have hj' : j < s.lh.n := hj
  have hfit := hlive.header.fits
  have := cfg.logBlock_inj (by omega) cfg.pos heq
  omega

theorem Inv.install (hphase : s.phase = .install t) (ht : t < s.lh.n) :
    Inv cfg base { installTail cfg false t s with phase := .install (t + 1) } := by
  let s' := installTail cfg false t s
  obtain ⟨hlive, hq, -, hs, hl⟩ := h.at hphase
  have hok := hlive.header
  have hfit := hok.fits
  have hdst := hok.home t ht
  have hval : bread s (cfg.logBlock (t + 1)) = target base s (s.lh.block t) := by
    rw [h.coherent.bread_log (by omega)]
    exact hl t ht
  have hdisk : s'.disk = update s.disk (s.lh.block t) (target base s (s.lh.block t)) := by
    rw [← hval]; rfl
  have hlog : ∀ j < s.lh.n + 1, s'.disk (cfg.logBlock j) = s.disk (cfg.logBlock j) := by
    intro j hj
    exact update_of_ne (Ne.symm (home_ne_logBlock hdst (by omega))) _ _
  have hread : ∀ b, bread s' b = if b = s.lh.block t then target base s b else bread s b := by
    intro b
    change bread (Log.bwrite (Log.fill s _) _ _) b = _
    rw [bread_bwrite, bread_fill, hval]
    split
    · next hb => rw [hb]
    · rfl
  have hpinv : s'.pin = update s.pin (s.lh.block t) (s.pin (s.lh.block t) - 1) := rfl
  have hpin1 := hlive.pin_le (s.lh.block t)
  refine ⟨{ h.history with }, h.coherent.installTail false t, ?_⟩
  refine ⟨⟨?_, ?_, ?_, ?_, hok⟩, { hq with }, ht, ?_, ?_⟩
  · intro b hb hlb
    refine (hread b).trans ?_
    split
    · rfl
    · exact hlive.view b hb hlb
  · intro b hb hpb
    change s'.disk b = target base s b
    rw [hdisk]
    by_cases hbt : b = s.lh.block t
    · subst hbt; simp
    · rw [update_of_ne hbt]
      exact hlive.home b hb ((update_of_ne hbt _ _).symm.trans hpb)
  · intro b
    change s'.pin b = 0 ↔ ∀ j, t + 1 ≤ j → j < s.lh.n → s.lh.block j ≠ b
    rw [hpinv]
    by_cases hbt : b = s.lh.block t
    · grind [hok.distinct, update_apply]
    · rw [update_of_ne hbt, hlive.pins]
      grind
  · intro b
    change s'.pin b ≤ 1
    rw [hpinv]
    by_cases hbt : b = s.lh.block t
    · grind
    · rw [update_of_ne hbt]; exact hlive.pin_le b
  · change (decodeHead (s'.disk _)).n = s.lh.n ∧ ∀ j < s.lh.n, (decodeHead (s'.disk _)).block j = _
    rw [hlog 0 (by omega)]
    exact hs
  · intro j hj
    change j < s.lh.n at hj
    change s'.disk _ = _
    rw [hlog (j + 1) (by omega)]
    exact hl j hj

theorem Inv.installEnd (hphase : s.phase = .install s.lh.n) :
    Inv cfg base { s with phase := .erase, lh := { s.lh with n := 0 } } := by
  have hrec := h.recoverable
  obtain ⟨hlive, hq, -, -, -⟩ := h.at hphase
  have hpin : ∀ b, s.pin b = 0 := fun b => (hlive.pins b).mpr fun j hj hjn => by omega
  simp only [Log.crash, hphase, Phase.uncommitted] at hrec
  refine ⟨{ h.history with }, h.coherent, { hlive with pins := ?_, header := .of_zero rfl },
    { hq with }, rfl, hrec⟩
  grind

theorem Inv.erase (hphase : s.phase = .erase) :
    Inv cfg base { Log.writeHead cfg s with phase := .finish } := by
  obtain ⟨hlive, hq, hn, -⟩ := h.at hphase
  have hlive' := hlive.writeHead
  refine ⟨{ h.history with }, h.coherent.writeHead, ?_⟩
  refine ⟨{ hlive' with }, { hq with }, hn, ?_⟩
  exact (writeHead_headStored hlive.header.size).1.trans hn

theorem Inv.finish (hphase : s.phase = .finish) :
    Inv cfg base { s with committing := false, phase := .running } := by
  obtain ⟨hlive, hq, hn, he⟩ := h.at hphase
  refine ⟨{ h.history with }, h.coherent, { hlive with }, rfl, he, ?_⟩
  intro b hb
  rw [← target_of_txn base hq.txn]
  refine hlive.home b hb ((hlive.pins b).mpr fun j _ hj => ?_)
  omega

/-! ## Recovery -/

theorem Inv.readHead (hphase : s.phase = .readHead) :
    Inv cfg base { Log.fill s (cfg.logBlock 0) with
      lh := decodeHead (bread s (cfg.logBlock 0)), phase := .reinstall 0 } := by
  have hfill := h.fill (cfg.logBlock 0)
  have hp : Recovering cfg base (Log.fill s (cfg.logBlock 0)) := hfill.at hphase
  refine ⟨{ hfill.history with }, hfill.coherent, { hp with },
    Nat.zero_le _, ?_, fun j hj => absurd hj (Nat.not_lt_zero j)⟩
  exact congrArg decodeHead (h.coherent.bread_log cfg.pos)

theorem Inv.reinstall (hphase : s.phase = .reinstall t) (ht : t < s.lh.n) :
    Inv cfg base { installTail cfg true t s with phase := .reinstall (t + 1) } := by
  obtain ⟨hr, -, hlh, hdone⟩ := h.at hphase
  obtain ⟨hfit, hlisted, hcopies, -⟩ := hr.disk
  rw [← hlh] at hfit hlisted hcopies
  have hdst := hlisted t ht
  have hval : bread s (cfg.logBlock (t + 1)) = afterCommits base s.commits (s.lh.block t) := by
    rw [h.coherent.bread_log (by omega)]
    exact hcopies t ht
  have hdisk : (installTail cfg true t s).disk =
      update s.disk (s.lh.block t) (afterCommits base s.commits (s.lh.block t)) := by
    rw [← hval]; rfl
  refine ⟨{ h.history with }, h.coherent.installTail true t, { hr with cache := ?_, disk := ?_ }, ht, ?_, ?_⟩
  · intro b
    change (Log.bwrite (Log.fill s _) _ _).cache b = none ∨ (Log.bwrite (Log.fill s _) _ _).cache b =
      some ((Log.bwrite (Log.fill s _) _ _).disk b)
    by_cases hb : b = s.lh.block t
    · subst hb; simp
    · by_cases hb' : b = cfg.logBlock (t + 1)
      · subst hb'
        simp [hb, bread_eq_disk (hr.cache (cfg.logBlock (t + 1)))]
      · simpa [hb, hb'] using hr.cache b
  · rw [hdisk]
    exact hr.disk.update_home hdst
  · rw [hdisk, update_of_ne (Ne.symm (home_ne_logBlock hdst cfg.pos))]
    exact hlh
  · intro j hj
    change (installTail cfg true t s).disk (s.lh.block j) =
      afterCommits base s.commits (s.lh.block j)
    rw [hdisk]
    by_cases hjt : s.lh.block j = s.lh.block t
    · rw [hjt]; simp
    · grind

theorem Inv.reinstallEnd (hphase : s.phase = .reinstall s.lh.n) :
    Inv cfg base { s with phase := .clear, lh := { s.lh with n := 0 } } := by
  obtain ⟨hr, -, hlh, hdone⟩ := h.at hphase
  refine ⟨{ h.history with }, h.coherent, { hr with }, rfl, ?_⟩
  intro b hb
  by_cases hlisted : ∃ j < s.lh.n, s.lh.block j = b
  · grind
  · grind [hr.disk.rest]

theorem Inv.clear (hphase : s.phase = .clear) :
    Inv cfg base { Log.writeHead cfg s with phase := .running } := by
  obtain ⟨hr, hn, hhome⟩ := h.at hphase
  have hsize : s.lh.n ≤ logSize := by omega
  refine ⟨{ h.history with }, h.coherent.writeHead, ⟨?_, ?_, ?_, ?_, .of_zero hn⟩, hr.committing,
    ?_, ?_⟩
  · intro b hb _
    change bread (Log.writeHead cfg s) b = target base s b
    rw [bread_writeHead_home hb, target_of_txn base hr.txn, bread_eq_disk (hr.cache b)]
    exact hhome b hb
  · intro b hb _
    change (Log.writeHead cfg s).disk b = target base s b
    rw [writeHead_home hb, target_of_txn base hr.txn]
    exact hhome b hb
  · intro b
    refine ⟨fun _ j _ hj => ?_, fun _ => hr.pin b⟩
    change j < s.lh.n at hj
    omega
  · intro b
    change s.pin b ≤ 1
    rw [hr.pin b]
    exact Nat.zero_le 1
  · exact (writeHead_headStored hsize).1.trans hn
  · intro b hb
    exact (writeHead_home hb).trans (hhome b hb)

end

end Xv6.Log

import Xv6.Kernel.CopyoutContract

/-!
# What `copyinstr` promises

`copyinstr` of `kernel/vm.c` copies page by page. It does what a copy of single bytes does that
stops at a NUL, at the end of user memory or after `max` bytes. The buffer is kernel memory that
`copyinstr` does not read: neither a page table nor a page of the process.
-/

namespace Xv6

open ByteMem
open Function (update update_of_ne update_self)

variable {L : Layout} {km : Kmem} {g : Account} {r : Nat}

/-- The inner loop of `copyinstr`: `got_null`, and the buffer. -/
def copyBytes (m : Mem) : Nat → Nat → Nat → (Nat → Byte) → Bool × (Nat → Byte)
  | 0, _, _, buf => (false, buf)
  | n + 1, p, dst, buf =>
    if m p = 0 then
      (true, update buf dst 0)
    else
      copyBytes m n (p + 1) (dst + 1) (update buf dst (m p))

/-- The outer loop of `copyinstr`. Each round lowers `max`, so `max` rounds are enough. -/
def copyinstrLoop (pagetable : Nat) :
    Nat → Nat → Nat → Nat → (Nat → Byte) → Vm (Int × (Nat → Byte))
  | 0, _, _, _, buf => return (-1, buf)
  | fuel + 1, dst, srcva, max, buf => do
    if max = 0 then
      return (-1, buf)
    else do
      let va0 := pgrounddown srcva
      let pa0 ← walkaddr pagetable va0
      if pa0 = 0 then
        return (-1, buf)
      else do
        let n := min (pgsize - (srcva - va0)) max
        let km ← get
        match copyBytes km.mem n (pa0 + (srcva - va0)) dst buf with
        | (true, buf) => return (0, buf)
        | (false, buf) => copyinstrLoop pagetable fuel (dst + n) (va0 + pgsize) (max - n) buf

def copyinstr (pagetable : Nat) (buf : Nat → Byte) (srcva max : Nat) : Vm (Int × (Nat → Byte)) :=
  copyinstrLoop pagetable max 0 srcva max buf

/-! ## Byte by byte -/

/-- Copy the bytes of a source to a buffer from index `i` on, at most `max`, up to a NUL. -/
def copyStr (src : Nat → Option Byte) : Nat → Nat → (Nat → Byte) → Int × (Nat → Byte)
  | 0, _, buf => (-1, buf)
  | max + 1, i, buf =>
    match src i with
    | none => (-1, buf)
    | some b =>
      if b = 0 then (0, update buf i 0)
      else copyStr src max (i + 1) (update buf i b)

variable {src : Nat → Option Byte}

theorem copyBytes_eq (src : Nat → Option Byte) (m : Mem) (k n : Nat) :
    ∀ (p i : Nat) (buf : Nat → Byte),
    (∀ j < n, src (i + j) = some (m (p + j))) →
    copyStr src (n + k) i buf =
      match copyBytes m n p i buf with
      | (true, buf') => (0, buf')
      | (false, buf') => copyStr src k (i + n) buf' := by
  induction n with
  | zero =>
    intro p i buf _
    rw [Nat.zero_add]
    rfl
  | succ n ih =>
    intro p i buf hsrc
    have h0 : src i = some (m p) := hsrc 0 (Nat.succ_pos n)
    rw [Nat.succ_add, copyStr, h0, copyBytes]
    dsimp only
    by_cases hp : m p = 0
    · rw [if_pos hp, if_pos hp]
    · rw [if_neg hp, if_neg hp, ih (p + 1) (i + 1), Nat.succ_add_eq_add_succ]
      intro j hj
      have := hsrc (j + 1) (by omega)
      rwa [← Nat.add_assoc, ← Nat.add_assoc, Nat.add_right_comm, Nat.add_right_comm p] at this

theorem copyinstrLoop_spec (h : Rep L none km g) (ht : Table g r) (srcva fuel : Nat) :
    ∀ (i max : Nat) (buf : Nat → Byte), max ≤ fuel →
      Total (copyinstrLoop (r * pgsize) fuel i (srcva + i) max buf) km fun res km' =>
        km' = km ∧ res = copyStr (fun j => userByte km.mem (r * pgsize) (srcva + j)) max i buf := by
  induction fuel with
  | zero =>
    intro i max buf hmax
    obtain rfl : max = 0 := by omega
    exact .pure ⟨rfl, rfl⟩
  | succ fuel ih =>
    intro i max buf hmax
    unfold copyinstrLoop
    by_cases hzero : max = 0
    · subst hzero
      exact .pure ⟨rfl, rfl⟩
    rw [if_neg hzero]
    refine (walkaddr_spec h ht ((srcva + i) / pgsize)).seq ?_
    rintro pa km1 ⟨rfl, ⟨rfl, hno⟩ | ⟨hu, rfl, hne⟩⟩
    · refine .pure ⟨rfl, ?_⟩
      obtain ⟨max, rfl⟩ := Nat.exists_eq_succ_of_ne_zero hzero
      rw [copyStr, userByte_unmapped h ht hno]
    rw [if_neg hne]
    refine .bind (.get ?_)
    have e1 := Nat.div_add_mod (srcva + i) pgsize
    have e2 := Nat.mod_lt (srcva + i) pgsize_pos
    have e3 : pgsize * ((srcva + i) / pgsize) = (srcva + i) / pgsize * pgsize := Nat.mul_comm _ _
    have hoff : srcva + i - pgrounddown (srcva + i) = (srcva + i) % pgsize := by
      unfold pgrounddown
      omega
    have hphys : ppn (g.map r ((srcva + i) / pgsize)) * pgsize + (srcva + i) % pgsize =
      g.phys r (srcva + i) := rfl
    rw [hoff, hphys]
    obtain ⟨n, hn⟩ : ∃ n, n = min (pgsize - (srcva + i) % pgsize) max := ⟨_, rfl⟩
    have hsrc : ∀ j < n, userByte km1.mem (r * pgsize) (srcva + (i + j)) =
        some (km1.mem (g.phys r (srcva + i) + j)) := by
      intro j hj
      obtain ⟨hdiv, hadd⟩ : (srcva + i + j) / pgsize = _ ∧ g.phys r (srcva + i + j) = _ :=
        g.phys_add r (by omega)
      rw [← Nat.add_assoc, userByte_mapped h ht (by rwa [hdiv]), hadd]
    have hcopy := copyBytes_eq (fun j => userByte km1.mem (r * pgsize) (srcva + j)) km1.mem
      (max - n) n _ i buf hsrc
    rw [Nat.add_sub_cancel' (by omega)] at hcopy
    rw [← hn, hcopy]
    split
    · exact .pure ⟨rfl, rfl⟩
    · next buf' _ =>
      by_cases hrest : max - n = 0
      · rw [hrest]
        cases fuel <;> exact .pure ⟨rfl, rfl⟩
      · have hva : pgrounddown (srcva + i) + pgsize = srcva + (i + n) := by
          unfold pgrounddown
          omega
        rw [hva]
        exact ih (i + n) (max - n) buf' (by omega)

/-! ## The contract -/

/-- The source has a string of `k` bytes and a NUL from index `i` on. -/
def IsStr (src : Nat → Option Byte) (i k : Nat) : Prop :=
  src (i + k) = some 0 ∧ ∀ j < k, ∃ b, b ≠ 0 ∧ src (i + j) = some b

theorem isStr_zero {i : Nat} : IsStr src i 0 ↔ src i = some 0 := by simp [IsStr]

theorem isStr_succ {i k : Nat} :
    IsStr src i (k + 1) ↔ (∃ b, b ≠ 0 ∧ src i = some b) ∧ IsStr src (i + 1) k := by
  simp only [IsStr, Nat.forall_lt_succ_left', Nat.add_zero, Nat.add_assoc, Nat.add_comm 1]
  tauto

theorem isStr_unique {i k k' : Nat} (h : IsStr src i k) (h' : IsStr src i k') : k = k' := by
  rcases Nat.lt_trichotomy k k' with hlt | heq | hlt
  · obtain ⟨b, hb, hs⟩ := h'.2 k hlt
    exact absurd (Option.some.inj (hs.symm.trans h.1)) hb
  · exact heq
  · obtain ⟨b, hb, hs⟩ := h.2 k' hlt
    exact absurd (Option.some.inj (hs.symm.trans h'.1)) hb

theorem copyStr_spec (src : Nat → Option Byte) (max : Nat) : ∀ (i : Nat) (buf : Nat → Byte),
    let res := copyStr src max i buf
    (∀ j, j < i ∨ i + max ≤ j → res.2 j = buf j) ∧
    ((res.1 = -1 ∧ ∀ k < max, ¬IsStr src i k) ∨
      res.1 = 0 ∧ ∃ k < max, IsStr src i k ∧ (∀ j ≤ k, src (i + j) = some (res.2 (i + j))) ∧
        ∀ j, i + k < j → res.2 j = buf j) := by
  induction max with
  | zero => exact fun i buf => ⟨fun _ _ => rfl, .inl ⟨rfl, fun k hk => by omega⟩⟩
  | succ max ih =>
    intro i buf
    unfold copyStr
    cases hi : src i with
    | none =>
      refine ⟨fun _ _ => rfl, .inl ⟨rfl, fun k _ hk => ?_⟩⟩
      cases k <;> simp [isStr_zero, isStr_succ, hi] at hk
    | some b =>
      by_cases hb : b = 0
      · subst hb
        dsimp only
        rw [if_pos rfl]
        refine ⟨fun j hj => update_of_ne (by omega) _ _, .inr ⟨rfl, 0, by omega, ?_⟩⟩
        refine ⟨isStr_zero.mpr hi, fun j hj => ?_, fun j hj => update_of_ne (by omega) _ _⟩
        obtain rfl : j = 0 := by omega
        simpa using hi
      · dsimp only
        rw [if_neg hb]
        obtain ⟨hout, hres⟩ := ih (i + 1) (update buf i b)
        refine ⟨fun j hj => ?_, ?_⟩
        · rw [hout j (by omega), update_of_ne (by omega)]
        · rcases hres with ⟨hr, hno⟩ | ⟨hr, k, hk, hstr, hbytes, hrest⟩
          · refine .inl ⟨hr, fun k hk hstr => ?_⟩
            cases k with
            | zero => exact hb (Option.some.inj (hi.symm.trans hstr.1))
            | succ k => exact hno k (by omega) (isStr_succ.mp hstr).2
          · refine .inr ⟨hr, k + 1, by omega, isStr_succ.mpr ⟨⟨b, hb, hi⟩, hstr⟩, ?_, ?_⟩
            · intro j hj
              cases j with
              | zero => rw [Nat.add_zero, hout i (by omega), update_self, hi]
              | succ j =>
                have := hbytes j (by omega)
                rwa [Nat.add_assoc, Nat.add_comm 1] at this
            · intro j hj
              rw [hrest j (by omega), update_of_ne (by omega)]

/-- For every page table, address, buffer and `max`, `copyinstr` returns 0 if and only if user
memory has a string of less than `max` bytes at `srcva`. It then copies the string with its NUL, and
writes nothing else. It never writes behind the first `max` bytes of the buffer. -/
theorem copyinstr_contract (h : Rep L none km g) (ht : Table g r) (buf : Nat → Byte)
    (srcva max : Nat) :
    let str := IsStr fun va => userByte km.mem (r * pgsize) va
    ∃ ret buf', copyinstr (r * pgsize) buf srcva max km = .ok ((ret, buf'), km) ∧
      (ret = 0 ∨ ret = -1) ∧ (ret = 0 ↔ ∃ k < max, str srcva k) ∧
      (∀ k < max, str srcva k →
        (∀ j ≤ k, userByte km.mem (r * pgsize) (srcva + j) = some (buf' j)) ∧
        ∀ j, k < j → buf' j = buf j) ∧
      ∀ j, max ≤ j → buf' j = buf j := by
  intro str
  obtain ⟨⟨ret, buf'⟩, km1, hok, rfl, hres⟩ :=
    (copyinstrLoop_spec h ht srcva max 0 max buf (Nat.le_refl _)).total
  have hstr : ∀ k, IsStr (fun j => userByte km1.mem (r * pgsize) (srcva + j)) 0 k ↔
      str srcva k := by
    simp [IsStr, str]
  obtain ⟨hout, hcopy⟩ :=
    copyStr_spec (fun j => userByte km1.mem (r * pgsize) (srcva + j)) max 0 buf
  rw [← hres] at hout hcopy
  simp only [hstr, Nat.zero_add] at hcopy
  refine ⟨ret, buf', hok, ?_, ?_, ?_, fun j hj => hout j (by omega)⟩
  · rcases hcopy with ⟨hr, -⟩ | ⟨hr, -⟩
    · exact .inr hr
    · exact .inl hr
  · constructor
    · rintro rfl
      rcases hcopy with ⟨hr, -⟩ | ⟨-, k, hk, hs, -⟩
      · cases hr
      · exact ⟨k, hk, hs⟩
    · rintro ⟨k, hk, hs⟩
      rcases hcopy with ⟨-, hno⟩ | ⟨hr, -⟩
      · exact absurd hs (hno k hk)
      · exact hr
  · intro k hk hs
    rcases hcopy with ⟨-, hno⟩ | ⟨-, k', hk', hs', hbytes, hrest⟩
    · exact absurd hs (hno k hk)
    · obtain rfl := isStr_unique hs hs'
      exact ⟨hbytes, hrest⟩

/-- The first process gets two more pages, which are zero, and writes the end of the string `ab` at
the end of the first. -/
theorem copyinstr_contract_crossing : ∃ steps k r buf', Run smallLayout .RR steps k ∧
    (k.proc initproc).pagetable = r * pgsize ∧
    copyinstr (r * pgsize) (fun _ => 7) 8190 16 k.km = .ok ((0, buf'), k.km) ∧
    buf' 0 = 97 ∧ buf' 1 = 98 ∧ buf' 2 = 0 ∧ buf' 3 = 7 := by
  obtain ⟨steps, k, hrun, hd, hstate, h0, h1, h2⟩ := exists_disciplined_run
    (startOps initproc ++ callOps initproc 12 8192 0 ++
      [.store initproc 8190 97, .store initproc 8191 98])
    (fun _ k => (k.proc initproc).state = .running ∧
      userByte k.km.mem (k.proc initproc).pagetable 8190 = some 97 ∧
      userByte k.km.mem (k.proc initproc).pagetable 8191 = some 98 ∧
      userByte k.km.mem (k.proc initproc).pagetable 8192 = some 0) (by decide +kernel)
  obtain ⟨g, hk⟩ := hrun.inv hd
  obtain ⟨r, t, hpt, -, hi⟩ := hk.user (.of_state hstate (by decide))
  rw [hpt] at h0 h1 h2
  obtain ⟨ret, buf', hok, -, hret, hbuf, -⟩ := copyinstr_contract hk.sound.rep
    (hk.sound.table r hi.live) (fun _ => 7) 8190 16
  have hstr := isStr_succ.mpr ⟨⟨97, by decide, h0⟩, isStr_succ.mpr ⟨⟨98, by decide, h1⟩,
    isStr_zero.mpr h2⟩⟩
  obtain rfl := hret.mpr ⟨2, by decide, hstr⟩
  obtain ⟨hbytes, hrest⟩ := hbuf 2 (by decide) hstr
  have hget : ∀ i ≤ 2, ∀ x, userByte k.km.mem (r * pgsize) (8190 + i) = some x → buf' i = x := by
    intro i hi x hx
    rw [hbytes i hi] at hx
    exact Option.some.inj hx
  exact ⟨steps, k, r, buf', hrun, hpt, hok, hget 0 (by decide) _ h0, hget 1 (by decide) _ h1,
    hget 2 (by decide) _ h2, hrest 3 (by decide)⟩

end Xv6

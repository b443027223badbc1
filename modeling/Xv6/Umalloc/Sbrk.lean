import Xv6.Kernel.BootSpec
import Xv6.Umalloc.Runs

/-!
# The memory that `malloc` gets

`morecore` asks for `nu * sizeof(Header)` bytes, and `sbrk` takes an `int`. What `sbrk` does is that
`sys_sbrk` calls `growproc`; the heap of a process that gets the answer of the kernel is set beside
the process.
-/

namespace Xv6.Umalloc

variable {K : Xv6.Layout} {k k' : Kernel} {g : Account} {p : Slot}

/-- `sys_sbrk` of process `p` for its argument `n`: the old size, or nothing for -1. -/
def kernelSbrk (K : Xv6.Layout) (p : Slot) (n : Int) : Xv6.K (Option Nat) := do
  let k ← get
  let r ← growproc K p n
  if r < 0 then return none else return some (k.proc p).sz

theorem sysSbrk_eq (K : Xv6.Layout) (p : Slot) : sysSbrk K p = (do
    let n ← argint p 0
    let r ← kernelSbrk K p n
    return r.elim (ofInt64 (-1)) (BitVec.ofNat 64)) := by
  simp only [sysSbrk, kernelSbrk, bind_assoc]
  refine bind_congr fun n => bind_congr fun k => bind_congr fun r => ?_
  split <;> simp

def Mapped (k : Kernel) (p : Slot) (x : Nat) : Prop :=
  hasFlag (leafPte k.km.mem (k.proc p).pagetable x) pteV = true

theorem uvmdealloc_le {oldsz : Nat} (pagetable newsz : Nat) {km : Kmem} :
    Wp (fun _ => True) (uvmdealloc K pagetable oldsz newsz) km fun ret _ => ret ≤ oldsz := by
  unfold uvmdealloc
  refine .ite (fun _ => .pure (Nat.le_refl _)) fun hlt => ?_
  have hle : newsz ≤ oldsz := Nat.le_of_not_le hlt
  dsimp only
  split
  · exact Wp.bind (Wp.any.mono fun _ _ _ => .pure hle)
  · exact .pure hle

section

variable (hk : KInv K k g) (hp : k.Live p)

include hk hp

theorem mapped_of_lt {x : Nat} (hx : x < (k.proc p).sz) : Mapped k p x := by
  obtain ⟨r, t, hpt, -, hi⟩ := hk.user hp
  have hv : x / pgsize < pagesOf (k.proc p).sz := by
    unfold pagesOf
    rw [pgsize_eq]
    omega
  have hmax : x < maxva := by
    have hsmall := hi.small
    have hpages := userPages_lt
    apply Nat.lt_of_not_ge
    rw [← maxva_page]
    exact va_lt_maxva (by omega)
  rw [Mapped, hpt, hk.sound.rep.leafPte hi.live, if_pos hmax]
  exact ((hk.sound.table r hi.live).leaf _ (hi.full _ hv)).hasFlag_v

theorem growproc_size {n : Int} (h0 : 0 < n) (hn : n < 2 ^ 31) :
    Wp (fun _ => False) (growproc K p n) k fun ret k' =>
      (k'.proc p).sz = (k.proc p).sz + if ret < 0 then 0 else n.toNat := by
  obtain ⟨r, t, hpt, -, hi⟩ := hk.user hp
  refine .bind (.get ?_)
  rw [if_pos h0, hpt, addInt_grow (lt_of_pagesOf (Nat.le_of_lt hi.small)) h0 hn]
  refine Wp.call (imageAlloc_spec hk.sound lowPerm_w hi (Nat.le_add_right _ _)) ?_
  rintro sz km1 ⟨g1, h1, ⟨rfl, -⟩ | ⟨rfl, hne, -⟩⟩
  · exact .pure rfl
  · rw [if_neg hne]
    refine .bind (Wp.setProc (.bind (Wp.record (.pure ?_))))
    dsimp only
    rw [Function.update_self]
    rfl

/-- The process needs a page to grow by `n` bytes, and `F` does not suffice for the page and its
page tables. -/
def NoPage (k : Kernel) (p : Slot) (F : List Nat) (n : Nat) : Prop :=
  pagesOf (k.proc p).sz < pagesOf ((k.proc p).sz + n) ∧
    F.length < 1 + missingTables k.km.mem (k.proc p).pagetable (pagesOf (k.proc p).sz * pgsize)

theorem uvmalloc_one {n : Nat} (h0 : 0 < n) (hn : n ≤ pgsize) :
    Wp (fun _ => True) (uvmalloc K (k.proc p).pagetable (k.proc p).sz ((k.proc p).sz + n) pteW) k.km
      fun ret _ => ret = 0 ↔ NoPage k p g.free n := by
  obtain ⟨r, t, hpt, -, hi⟩ := hk.user hp
  have hsmall := hi.small
  have hpages := userPages_lt
  have hcount := pageCount_alloc (Nat.le_add_right (k.proc p).sz n)
  have hone : pagesOf ((k.proc p).sz + n) ≤ pagesOf (k.proc p).sz + 1 := by
    unfold pagesOf
    rw [pgsize_eq] at hn ⊢
    omega
  have hmiss := hk.sound.rep.missingTables hi.live (v := pagesOf (k.proc p).sz) (by omega)
  unfold NoPage uvmalloc
  rw [hpt, hmiss, if_neg (by omega), pgroundup_eq (lt_of_pagesOf (Nat.le_of_lt hsmall))]
  by_cases hnew : pagesOf (k.proc p).sz < pagesOf ((k.proc p).sz + n)
  · rw [show pageCount (pagesOf (k.proc p).sz * pgsize) ((k.proc p).sz + n) = 1 by omega]
    refine (kalloc_spec hk.sound.rep).weaken.seq ?_
    rintro pa km1 (⟨hfree, rfl, rfl⟩ | ⟨f, fs, hfree, rfl, hman, -, hrep, -⟩)
    · rw [if_pos rfl]
      refine Wp.bind (Wp.any.mono fun _ _ _ => .pure (iff_of_true rfl ⟨hnew, ?_⟩))
      rw [hfree]
      exact Nat.lt_of_lt_of_le Nat.one_pos (Nat.le_add_right _ _)
    rw [if_neg hman.ne_zero, hfree, List.length_cons]
    refine .bind (Wp.memset ?_)
    refine (mappages_spec hrep.cleared hi.live (by omega)
      (hi.empty _ (Nat.le_refl _) hsmall) _ _).weaken.seq ?_
    rintro ret km2 ⟨g2, -, ⟨rfl, -, -, hfew⟩ | ⟨rfl, -, hadds⟩⟩
    · rw [if_pos (by decide)]
      have hlt : fs.length < g.missing r (pagesOf (k.proc p).sz) := hfew
      refine Wp.bind (Wp.any.mono fun _ _ _ => Wp.bind (Wp.any.mono fun _ _ _ => ?_))
      exact .pure (iff_of_true rfl ⟨hnew, by omega⟩)
    · rw [if_neg (by decide)]
      have hge : g2.free.length + g.missing r (pagesOf (k.proc p).sz) = fs.length := hadds.free
      exact .pure (iff_of_false (by omega) fun hno => by omega)
  · rw [show pageCount (pagesOf (k.proc p).sz * pgsize) ((k.proc p).sz + n) = 0 by omega]
    exact .pure (iff_of_false (by omega) fun hno => hnew hno.1)

theorem growproc_one {n : Nat} (h0 : 0 < n) (hn : n ≤ pgsize) :
    Wp (fun _ => True) (growproc K p n) k fun ret _ => ret < 0 ↔ NoPage k p g.free n := by
  obtain ⟨r, t, -, -, hi⟩ := hk.user hp
  have hsz : (k.proc p).sz < 2 ^ 63 := lt_of_pagesOf (Nat.le_of_lt hi.small)
  have hlt : n < 2 ^ 31 := by
    rw [pgsize_eq] at hn
    omega
  refine .bind (.get ?_)
  rw [if_pos (by omega), addInt_grow hsz (by omega) (by omega), Int.toNat_natCast]
  refine .bind (Wp.vm ((uvmalloc_one hk hp h0 hn).mono fun sz km1 hiff => ?_))
  split
  · next hz => exact .pure (iff_of_true (by decide) (hiff.mp hz))
  · next hz =>
    exact .bind (Wp.setProc (.bind (Wp.record (.pure (iff_of_false (by decide)
      fun hno => hz (hiff.mpr hno))))))

theorem kernelSbrk_spec {n : Int} (h0 : 0 < n) (hn : n < 2 ^ 31) :
    Wp (fun _ => False) (kernelSbrk K p n) k fun a k' =>
      (∃ g', KInv K k' g') ∧ k'.Live p ∧ (a = none ∧ (k'.proc p).sz = (k.proc p).sz ∨
          a = some (k.proc p).sz ∧ (k'.proc p).sz = (k.proc p).sz + n.toNat) := by
  refine .bind (.get ?_)
  refine ((growproc_spec hk hp (by omega) hn).and (growproc_size hk hp h0 hn)).seq ?_
  rintro ret k' ⟨⟨g', hact⟩, hsz⟩
  have hinv : KInv K k' g' ∧ k'.Live p := by
    rcases hact with ⟨-, h⟩ | ⟨-, h | h | h⟩ <;> exact ⟨h.inv hk, h.live (by simp) hp⟩
  split
  · next hr => exact .pure ⟨⟨g', hinv.1⟩, hinv.2, .inl ⟨rfl, by rwa [if_pos hr] at hsz⟩⟩
  · next hr => exact .pure ⟨⟨g', hinv.1⟩, hinv.2, .inr ⟨rfl, by rwa [if_neg hr] at hsz⟩⟩

theorem kernelSbrk_nonpos {n : Int} (h0 : n ≤ 0) (hn : -2 ^ 31 ≤ n) :
    Wp (fun _ => False) (kernelSbrk K p n) k fun a k' =>
      a = some (k.proc p).sz ∧ (k'.proc p).sz ≤ (k.proc p).sz := by
  have hsize : Wp (fun _ => True) (growproc K p n) k fun ret k' =>
      ret = 0 ∧ (k'.proc p).sz ≤ (k.proc p).sz := by
    refine .bind (.get ?_)
    rw [if_neg (by omega)]
    split
    · refine .bind (Wp.vm ((uvmdealloc_le _ _).mono fun sz km1 hle => ?_))
      refine .bind (Wp.setProc (.pure ⟨rfl, ?_⟩))
      dsimp only
      rw [Function.update_self]
      exact hle
    · exact .pure ⟨rfl, Nat.le_refl _⟩
  refine .bind (.get ?_)
  refine ((growproc_spec hk hp hn (by omega)).and hsize).seq ?_
  rintro ret k' ⟨-, rfl, hle⟩
  exact .pure ⟨rfl, hle⟩

end

variable {L : Layout} {h h' : Heap} {V : List Block} {n nbytes : Nat}

def asked (nbytes : Nat) : Int := (BitVec.ofNat 32 (request (units nbytes) * 16)).toInt

theorem malloc_top {a : Option Nat} (ha : h.answers = [a]) :
    Wp (fun _ => True) (malloc L n nbytes) h fun _ h' =>
      h'.obtained ≤ h.obtained + (asked nbytes).toNat ∧
      (h'.answers = [a] ∧ h'.top = h.top ∧ h'.obtained = h.obtained ∨
        h'.answers = [] ∧ h'.top = h.top + a.elim 0 (· + (asked nbytes).toNat)) := by
  apply malloc_keeps ⟨Nat.le_add_right _ _, .inl ⟨ha, rfl, rfl⟩⟩
  refine ⟨fun _ _ _ hh => hh, fun h1 hh => ?_⟩
  apply Wp.bind
  apply Wp.get
  obtain ⟨hle, ⟨hans, htop, hobt⟩ | ⟨hans, htop⟩⟩ := hh
  · rw [hans]
    rcases a with _ | gap
    · apply Wp.bind
      apply Wp.set
      exact .pure ⟨hle, .inr ⟨rfl, htop⟩⟩
    · apply Wp.bind
      apply Wp.set
      refine .pure ⟨?_, .inr ⟨rfl, ?_⟩⟩
      · rw [← hobt]
        exact Nat.le_of_eq (Nat.add_comm _ _)
      · rw [htop]
        exact Nat.add_assoc _ _ _
  · rw [hans]
    exact .pure ⟨hle, .inr ⟨hans, htop⟩⟩

def Offers (L : Layout) (h : Heap) (V : List Block) (k : Nat) : Prop :=
  ∃ F, Ok L h F V ∧ ∃ c ∈ F, k ≤ c.units

/-- With the answer `a` of `sbrk`, which takes the kernel from `k` to `k'`, `malloc` returns 0 or a
block of `nbytes` bytes that are mapped; and if it has recorded the memory from `sbrk`, the process
has grown by that. -/
def GetsMemory (k k' : Kernel) (p : Slot) (a : Option Nat) (L : Layout) (h : Heap)
    (nbytes : Nat) : Prop :=
  ∃ N, ∀ n ≥ N, ∃ ptr h',
    malloc L n nbytes { h with answers := [a.map (· - h.top)] } = .ok (ptr, h') ∧
    (h'.answers = [] → a ≠ none → (k'.proc p).sz = (k.proc p).sz + 16 * request (units nbytes)) ∧
    (ptr = 0 ∨ nbytes ≤ 16 * ((h'.mem (ptr - 16)).size - 1) ∧
      ∀ x, ptr ≤ x → x < ptr + nbytes → Mapped (if h'.answers = [] then k' else k) p x)

theorem Offers.setAnswers {c : Nat} (ho : Offers L h V c) (answers : List (Option Nat)) :
    Offers L { h with answers := answers } V c := by
  obtain ⟨F, hok, hc⟩ := ho
  exact ⟨F, hok.setAnswers answers, hc⟩

theorem Has.setAnswers (hh : Has L h V) (answers : List (Option Nat)) :
    Has L { h with answers := answers } V := by
  rcases hh with ⟨hu, rfl⟩ | ⟨F, hok⟩
  · exact .inl ⟨⟨hu.freep, hu.regions, hu.top⟩, rfl⟩
  · exact .inr ⟨F, hok.setAnswers answers⟩

theorem Allocated.mapped {ptr : Nat} {k₀ : Kernel} {g₀ : Account}
    (ha : Allocated L V (units nbytes) ptr h') (hn : nbytes < 2 ^ 32) (hk : KInv K k₀ g₀)
    (hp : k₀.Live p) (htop : h'.top ≤ (k₀.proc p).sz) :
    nbytes ≤ 16 * ((h'.mem (ptr - 16)).size - 1) ∧
      ∀ x, ptr ≤ x → x < ptr + nbytes → Mapped k₀ p x := by
  obtain ⟨F, b, rfl, hbu, hok⟩ := ha
  have hunits := units_eq hn
  have hb : b ∈ F ++ b :: V := by simp
  rw [Nat.add_sub_cancel, hok.size b hb, hbu]
  refine ⟨by omega, fun x _ hx => mapped_of_lt hk hp ?_⟩
  have hstop := hok.stop_le hb
  unfold Block.stop at hstop
  omega

theorem malloc_offered (ho : Offers L h V (units nbytes)) (hn : nbytes < 2 ^ 32) :
    ∃ N, ∀ n, Wp (fun _ => n < N) (malloc L n nbytes) h fun p h' =>
      Allocated L V (units nbytes) p h' ∧ h'.answers = h.answers := by
  obtain ⟨F, hok, c, hc, hcu⟩ := ho
  have hunits := units_eq hn
  refine ⟨F.length + 1, fun n => ?_⟩
  apply Wp.bind
  apply Wp.modify
  rw [prepare, if_neg (Nat.ne_of_gt hok.freep_pos)]
  apply Wp.bind
  apply Wp.get
  exact (mallocLoop_found hok (by omega) hc hcu).imp_error fun _ hle => Nat.lt_succ_of_le hle

theorem malloc_asks {a : Option Nat} (hh : Has L h V) (hno : ¬ Offers L h V (units nbytes))
    (hn : nbytes < 2 ^ 32) (ha : h.answers = [a]) :
    ∃ N, ∀ n, Wp (fun _ => a = none → n < N) (malloc L n nbytes) h fun p h' =>
      h'.answers = [] ∧ (a = none → p = 0) := by
  have hunits := units_eq hn
  obtain ⟨F, hok, hsmall⟩ : ∃ F, Ok L (prepare L h) F V ∧ ∀ c ∈ F, c.units < units nbytes := by
    rcases hh with ⟨hu, rfl⟩ | ⟨F, hok⟩
    · exact ⟨[], hu.prepare, by simp⟩
    · refine ⟨F, ?_, fun c hc => Nat.lt_of_not_le fun hle => hno ⟨F, hok, c, hc, hle⟩⟩
      rw [prepare, if_neg (Nat.ne_of_gt hok.freep_pos)]
      exact hok
  have hans : (prepare L h).answers = [a] := by
    unfold prepare
    split <;> exact ha
  refine ⟨F.length + 1, fun n => ?_⟩
  apply Wp.bind
  apply Wp.modify
  apply Wp.bind
  apply Wp.get
  exact (mallocLoop_asks hok (by omega) hsmall hans).imp_error fun _ hle h0 =>
    Nat.lt_succ_of_le (hle h0)

theorem kernelSbrk_huge (hk : KInv K k g) (hp : k.Live p) (hn : 2 ^ 31 - 32 < nbytes)
    (hn' : nbytes < 2 ^ 32) :
    Wp (fun _ => False) (kernelSbrk K p (asked nbytes)) k fun a k' =>
      (a = none ↔ 2 ^ 32 - 16 < nbytes ∧ NoPage k p g.free 16) ∧
        (k'.proc p).sz < (k.proc p).sz + 16 * request (units nbytes) := by
  have hunits := units_eq hn'
  have hreq : request (units nbytes) = units nbytes := by
    unfold request
    split <;> omega
  by_cases hlast : 2 ^ 32 - 16 < nbytes
  · have hasked : asked nbytes = ((16 : Nat) : Int) := by
      unfold asked
      rw [hreq, show units nbytes * 16 = 2 ^ 32 + 16 by omega]
      rfl
    rw [hasked]
    refine .bind (.get ?_)
    refine ((growproc_size hk hp (n := (16 : Nat)) (by decide) (by decide)).and
      (growproc_one hk hp (n := 16) (by decide) (by rw [pgsize_eq]; decide))).seq ?_
    rintro ret k' ⟨hsz, hiff⟩
    have hgrow : (k'.proc p).sz ≤ (k.proc p).sz + 16 := by
      rw [hsz]
      split
      · omega
      · exact Nat.le_refl _
    split
    · next hr => exact .pure ⟨iff_of_true rfl ⟨hlast, hiff.mp hr⟩, by omega⟩
    · next hr => exact .pure ⟨iff_of_false nofun fun hno => hr (hiff.mpr hno.2), by omega⟩
  · have hasked : asked nbytes = (units nbytes * 16 : Int) - 2 ^ 32 := by
      unfold asked
      rw [hreq, BitVec.toInt_eq_toNat_bmod, BitVec.toNat_ofNat]
      simp only [Int.bmod]
      omega
    refine (kernelSbrk_nonpos hk hp (by omega) (by omega)).mono ?_
    rintro a k' ⟨rfl, hle⟩
    exact ⟨iff_of_false nofun fun hno => hlast hno.1, by omega⟩

/-- For every request, heap inside the process and state of the kernel: `malloc` gets the memory
that it records if and only if the request is at most `2 ^ 31 - 32` bytes, or the free list has a
block for it, or `sbrk` is asked for 16 bytes and fails. -/
theorem malloc_gets_its_memory {F : List Nat} (hk : KInv K k g) (hp : k.Live p)
    (hF : k.km.Frees F) (hh : Has L h V) (htop : h.top ≤ (k.proc p).sz) (hn : nbytes < 2 ^ 32)
    (hobt : h.obtained + 16 * request (units nbytes) < 2 ^ 36) :
    ∃ a k', kernelSbrk K p (asked nbytes) k = .ok (a, k') ∧
      (GetsMemory k k' p a L h nbytes ↔ nbytes ≤ 2 ^ 31 - 32 ∨ Offers L h V (units nbytes) ∨
        2 ^ 32 - 16 < nbytes ∧ NoPage k p F 16) := by
  obtain rfl : F = g.free := hF.eq hk.sound.rep
  by_cases hsmall : nbytes ≤ 2 ^ 31 - 32
  · have hunits := units_eq hn
    have hasked : (asked nbytes).toNat = 16 * request (units nbytes) := request_int (by omega)
    have hreq := request_pos (units nbytes)
    have hpos : 0 < asked nbytes := by omega
    obtain ⟨a, k', hok, ⟨g', hk'⟩, hp', hsz⟩ := (kernelSbrk_spec hk hp hpos BitVec.toInt_lt).total
    rw [hasked] at hsz
    refine ⟨a, k', hok, iff_of_true ?_ (.inl hsmall)⟩
    obtain ⟨N, hspec⟩ := malloc_spec (hh.setAnswers [a.map (· - h.top)]) hsmall
    refine ⟨N, fun n hN => ?_⟩
    obtain ⟨ptr, h', hm, hpost⟩ := ((hspec n).imp_error fun _ he =>
      he.elim (Nat.not_lt.mpr hN) (Nat.not_le.mpr hobt)).total
    obtain ⟨hle, hstay⟩ := (malloc_top rfl).of_ok hm
    refine ⟨ptr, h', hm, fun _ ha => ?_, ?_⟩
    · rcases hsz with ⟨hnone, -⟩ | ⟨-, hsz⟩
      · exact absurd hnone ha
      · exact hsz
    have hobt' : h'.obtained < 2 ^ 36 := Nat.lt_of_le_of_lt (hasked ▸ hle) hobt
    rcases hpost hobt' with ⟨h0, -⟩ | halloc
    · exact .inl h0
    refine .inr ?_
    rcases hstay with ⟨hans, htop', -⟩ | ⟨hans, htop'⟩
    · rw [hans, if_neg (by simp)]
      exact halloc.mapped hn hk hp (htop' ▸ htop)
    · rw [if_pos hans]
      refine halloc.mapped hn hk' hp' ?_
      rcases hsz with ⟨rfl, hsz⟩ | ⟨rfl, hsz⟩
      · simp at htop'
        omega
      · simp at htop'
        omega
  · obtain ⟨a, k', hok, hnone, hlt⟩ := (kernelSbrk_huge hk hp (by omega) hn).total
    refine ⟨a, k', hok, ?_⟩
    by_cases ho : Offers L h V (units nbytes)
    · refine iff_of_true ?_ (.inr (.inl ho))
      obtain ⟨N, hspec⟩ := malloc_offered (ho.setAnswers [a.map (· - h.top)]) hn
      refine ⟨N, fun n hN => ?_⟩
      obtain ⟨ptr, h', hm, halloc, hans⟩ :=
        ((hspec n).imp_error fun _ he => Nat.not_lt.mpr hN he).total
      have hne : h'.answers ≠ [] := by
        rw [hans]
        simp
      refine ⟨ptr, h', hm, fun he => absurd he hne, .inr ?_⟩
      rw [if_neg hne]
      refine halloc.mapped hn hk hp ?_
      obtain ⟨-, ⟨-, htop', -⟩ | ⟨he, -⟩⟩ := (malloc_top rfl).of_ok hm
      · exact htop' ▸ htop
      · exact absurd he hne
    · have hno : ¬ Offers L { h with answers := [a.map (· - h.top)] } V (units nbytes) :=
        fun ho' => ho (ho'.setAnswers h.answers)
      obtain ⟨N, hspec⟩ := malloc_asks (hh.setAnswers _) hno hn rfl
      rcases a with _ | q
      · refine iff_of_true ⟨N, fun n hN => ?_⟩ (.inr (.inr (hnone.mp rfl)))
        obtain ⟨ptr, h', hm, -, h0⟩ :=
          ((hspec n).imp_error fun _ he => Nat.not_lt.mpr hN (he rfl)).total
        exact ⟨ptr, h', hm, fun _ ha => absurd rfl ha, .inl (h0 rfl)⟩
      · refine iff_of_false ?_ ?_
        · rintro ⟨N', hgets⟩
          obtain ⟨ptr, h', hm, hgrow, -⟩ := hgets N' (Nat.le_refl _)
          have := hgrow ((hspec N').of_ok hm).1 nofun
          omega
        · rintro (hle | ho' | hfail)
          · exact hsmall hle
          · exact ho ho'
          · exact nomatch hnone.mpr hfail

/-- The first process has one page, its heap is behind that, and there is memory for more. -/
theorem malloc_gets_its_memory_hundred : ∃ steps k k', Run smallLayout .RR steps k ∧
    kernelSbrk smallLayout initproc 65536 k = .ok (some 4096, k') ∧
    GetsMemory k k' initproc (some 4096) lowLayout (start lowLayout (fun _ => ⟨0, 0⟩) []) 100 := by
  obtain ⟨steps, k, hrun, hd, hlive, hsz, hsbrk⟩ := exists_disciplined_run (startOps initproc)
    (fun _ k => (k.proc initproc).hold.live ∧ (k.proc initproc).sz = 4096 ∧
      ((kernelSbrk smallLayout initproc 65536 k).toOption.bind Prod.fst) = some 4096)
    (by decide +kernel)
  obtain ⟨g, hk⟩ := hrun.inv hd
  have hunused : Unused lowLayout (start lowLayout (fun _ => ⟨0, 0⟩) []) :=
    ⟨rfl, rfl, Nat.le_refl _⟩
  obtain ⟨a, k', hok, hiff⟩ := malloc_gets_its_memory hk hlive hk.sound.rep.frees
    (.inl ⟨hunused, rfl⟩) (Nat.le_of_eq hsz.symm) (show 100 < 2 ^ 32 by decide) (by decide)
  have hasked : asked 100 = 65536 := by decide
  rw [hasked] at hok
  obtain rfl : a = some 4096 := by
    rw [hok] at hsbrk
    exact hsbrk
  exact ⟨steps, k, k', hrun, hok, hiff.mpr (.inl (by decide))⟩

/-- `malloc(2^32 - 1)` asks for `2 ^ 32 + 16` bytes, which is 16 as an `int`: it returns a block of
`2 ^ 28 + 1` units, of which the process has one. -/
theorem malloc_claims_too_much : ∃ h', malloc lowLayout 3 (2 ^ 32 - 1)
      (start lowLayout (fun _ => ⟨0, 0⟩) [some 0]) = .ok (4112, h') ∧
    (h'.mem 4096).size = 2 ^ 28 + 1 ∧ h'.regions = [⟨4096, 16⟩] := by
  exact ⟨_, rfl, rfl, rfl⟩

end Xv6.Umalloc

import Xv6.Kernel.Replay
import Xv6.Kernel.RunSpec

/-!
# The first process

`main` brings the kernel to a state with the invariant: `kinit`, the pages that other code
allocates, and `userinit`.
-/

namespace Xv6

open ByteMem
open Finset (notMem_empty)

variable {L : Layout} {k k' : Kernel} {g g' : Account} {km km' : Kmem} {p : Slot} {r t : Nat}

/-! ## `uvmfirst` -/

theorem perm_first : pteW ||| pteR ||| pteX ||| pteU = pteR ||| pteU ||| (pteW ||| pteX) := by
  decide

theorem lowPerm_first : LowPerm (pteR ||| pteU ||| (pteW ||| pteX)) :=
  ((lowPerm_twoPow (by decide)).or (lowPerm_twoPow (by decide))).or
    ((lowPerm_twoPow (by decide)).or (lowPerm_twoPow (by decide)))

theorem uvmfirst_spec (h : Sound L km g) (hi : Image L g r 0 t) (src : Nat → Byte) {sz : Nat}
    (hsz : sz < pgsize) :
    Wp (fun _ => True) (uvmfirst (r * pgsize) src sz) km fun _ km' => km'.freelist = 0 ∨
      ∃ g', Sound L km' g' ∧ Frame r km g km' g' ∧ Image L g' r 1 t := by
  have hmap : g.map r 0 = 0 := hi.empty 0 (Nat.le_refl _) (by rw [userPages_eq]; decide)
  unfold uvmfirst
  rw [if_neg (by omega)]
  refine (kalloc_spec h.rep).weaken.seq ?_
  rintro pa km1 (⟨-, rfl, rfl⟩ | ⟨f, fs, -, rfl, hman, ho, hrep, hmem⟩)
  · exact .of_error rfl trivial
  rw [if_neg hman.ne_zero]
  refine .bind (Wp.memset ?_)
  have hcall := mapFresh_spec hi.live (v := 0) (by decide) hmap lowPerm_first hman ho hrep hmem
  rw [Nat.zero_mul, ← perm_first] at hcall
  refine hcall.weaken.seq ?_
  rintro ret km2 (⟨-, g2, h2, -, -, hfree⟩ | ⟨-, g2, h2, he, hppn⟩)
  · refine Wp.memput (.inl ?_)
    have := h2.chain
    rw [hfree] at this
    exact this
  · rw [perm_first] at he
    have hs2 := h.extend hi.live h2 he (getLsbD_read _) (by rw [userPages_eq]; decide)
      (by
        intro v _ hv
        have : v = 0 := by omega
        rw [this]
        exact hmap)
    have hi2 := hi.extend he (Nat.zero_le _) (by rw [userPages_eq]; decide)
    have hf := he.frame h.rep h2
    have hown : .user r 0 ∈ g2.owners f := by
      rw [← hppn]
      exact he.owner_new (Nat.le_refl _) Nat.one_pos
    have hblit := onlyPage_blit km2.mem f (a := 0) src (Nat.le_of_lt (by omega : 0 + sz < pgsize))
    refine Wp.memput (.inr ⟨g2, hs2.withMem (h2.writeData hown (Owner.data_user _ _) hblit), ?_,
      hi2⟩)
    refine { hf with mem := ?_ }
    intro f' o hd hout hmem'
    refine (hf.mem f' o hd hout hmem').trans (hblit f' ?_)
    rintro rfl
    rw [ho] at hmem'
    exact absurd hmem' (notMem_empty _)

/-! ## `main` -/

/-- A state in which no trapframe has been saved for an alarm. -/
structure Booted (L : Layout) (k : Kernel) (g : Account) : Prop where
  inv : KInv L k g
  backup : ∀ f q, .held (.backup q) ∉ g.owners f

theorem sound_initial (h : Rep L none km (Account.initial L)) : Sound L km (Account.initial L) where
  rep := h
  settled f := notMem_empty _
  table r hr := by cases hr
  user r v f hu := absurd hu (notMem_empty _)
  held f x o hx := absurd hx (notMem_empty _)
  writer r v o hr := by cases hr

theorem booted_initial (h : Rep L none km (Account.initial L)) :
    Booted L { km := km } (Account.initial L) where
  inv := {
    sound := sound_initial h
    live := fun p hp => by cases hp
    idle := fun p _ => ⟨rfl, rfl, rfl, fun _ => notMem_empty _⟩
    roots := fun p q hp => by cases hp
    tables := fun r hr => by cases hr
    pages := fun f => ⟨fun h => absurd h (notMem_empty _), fun h => by cases h⟩
    aligned := fun a ha => by cases ha
    distinct := List.nodup_nil }
  backup f q := notMem_empty _

theorem Booted.pageIn (h : Booted L k g) (ha : Act L .pageIn k g k' g') : Booted L k' g' := by
  refine ⟨ha.inv h.inv, ?_⟩
  cases ha with
  | @pageIn _ _ _ _ f _ _ he =>
    intro f' q
    by_cases hff : f' = f
    · subst hff
      rw [he.self]
      simp
    · rw [he.other f' hff]
      exact h.backup f' q

theorem Booted.create (h : Booted L k g) (ha : Act L (.create p) k g k' g') :
    (∀ f q, .held (.backup q) ∉ g'.owners f) ∧ k'.Live p ∧ (k'.proc p).hold.sz = 0 := by
  cases ha with
  | create hp _ _ _ _ _ howner _ honly =>
    rw [Kernel.Live, honly.self]
    refine ⟨?_, rfl, (h.inv.idle p hp).sz⟩
    grind [h.backup, Owner.data_held]

theorem Booted.frame (h : Booted L k g) (ha : Acts L (OwnFrame p) k g k' g') : Booted L k' g' := by
  obtain ⟨hk, hb⟩ := ha.induct (I := fun _ g => ∀ f q, .held (.backup q) ∉ g.owners f)
    (by
      rintro l k g k' g' (rfl | rfl) ha _ hb
      · cases ha with
        | calm _ hq => rwa [hq.owners]
      · cases ha with
        | frame => exact hb) h.inv h.backup
  exact ⟨hk, hb⟩

theorem userinit_spec (h : Booted L k g) :
    Wp (fun _ => True) (userinit L) k fun _ k' => k'.km.freelist ≠ 0 → ∃ g', Booted L k' g' := by
  refine (allocproc_spec h.inv).seq ?_
  rintro ret k1 ⟨g1, ⟨rfl, -⟩ | ⟨p, rfl, hdead, hcreate, -⟩⟩
  · exact Wp.throw trivial
  obtain ⟨hbackup, hp, hz⟩ := h.create hcreate
  have hk1 := hcreate.inv h.inv
  obtain ⟨r, t, hpt, htf, hi⟩ := hk1.user hp
  rw [show (k1.proc p).sz = 0 from hz, pagesOf_zero] at hi
  have hfirst := uvmfirst_spec hk1.sound hi (fun i => BitVec.ofNat 8 (initcode.getD i 0))
    (show initcode.length < pgsize by rw [pgsize_eq]; decide)
  rw [← hpt] at hfirst
  refine .bind (.get (.bind (Wp.vm (hfirst.mono ?_))))
  intro _ km2 hres
  obtain hempty | ⟨g2, h2, hf, hi2⟩ := hres
  · refine .bind (Wp.setProc (.bind (Wp.record (.bind (Wp.storeTf (.bind (Wp.storeTf
      (Wp.setProc ?_))))))))
    intro hne
    exact absurd hempty hne
  have hone : pagesOf pgsize = 1 := by
    rw [← Nat.one_mul pgsize]
    exact pagesOf_mul 1
  have hrest : Does L p (OwnFrame p) (do
      storeTf p tfEpc 0
      storeTf p tfSp (BitVec.ofNat 64 pgsize)
      setProc p fun q => { q with state := .runnable }) := by
    refine (Does.storeTf (.inr rfl) (by decide) (by decide) _).bind ownFrame_destroy fun _ => ?_
    refine (Does.storeTf (.inr rfl) (by decide) (by decide) _).bind ownFrame_destroy fun _ => ?_
    refine .setOwn (.inl rfl) ?_
    intro q hq
    exact Proc.hold_congr (by simp [hq]) rfl rfl rfl rfl rfl
  let k3 : Kernel := { k1 with
    km := km2
    proc := Function.update k1.proc p { k1.proc p with sz := pgsize }
    log := ⟨p, .mapped 0 1, (Function.update k1.proc p { k1.proc p with sz := pgsize } p).pagetable,
      km2.mem⟩ :: k1.log }
  have hself : k3.proc p = { k1.proc p with sz := pgsize } := Function.update_self _ _ _
  have hother : ∀ q, q ≠ p → k3.proc q = k1.proc q := fun q hq => Function.update_of_ne hq _ _
  have hholdp : (k3.proc p).hold = { (k1.proc p).hold with sz := pgsize } := by
    rw [hself]
    rfl
  have hbooted : Booted L k3 g2 := by
    refine ⟨?_, ?_⟩
    · exact hk1.updateTable hp hpt h2 hf (Only.of hholdp hother rfl) htf
        hi2 hone.symm
    · grind [hf.owner, Owner.Outside]
  have hp3 : k3.Live p := by
    rw [Kernel.Live, hholdp]
    exact hp
  refine .bind (Wp.setProc (.bind (Wp.record ?_)))
  refine ((hrest.run k3 g2 hbooted.inv hp3).imp_error fun _ _ => trivial).mono ?_
  rintro - k' ⟨g', ha⟩ _
  exact ⟨g', hbooted.frame ha⟩

theorem boot_spec (b : Sched.Build) (n : Nat) (m : Mem) :
    Wp (fun _ => True) (boot L b n) (.initial m) fun _ k => k.km.freelist ≠ 0 → ∃ g, Booted L k g := by
  refine Wp.call (kinit_spec rfl fun _ => rfl) ?_
  intro _ km hrep
  have hloop := Wp.forRange (E := fun _ => True) (fun _ => step L b .kalloc)
    (fun _ k => ∃ g, Booted L k g) n 0 { km := km }
    (by
      rintro i k - - ⟨g, hg⟩
      refine (kallocStep_act hg.inv).mono ?_
      rintro - k' (rfl | ⟨g', ha⟩)
      · exact ⟨g, hg⟩
      · exact ⟨g', hg.pageIn ha⟩)
    ⟨_, booted_initial hrep⟩
  refine .seq hloop ?_
  rintro - k ⟨g, hg⟩
  exact userinit_spec hg

/-! ## Runs -/

def Disciplined (steps : List Step) : Prop := ∀ s ∈ steps, s.op.disciplined s.pre = true

theorem exists_disciplined_run (ops : List Op) (P : List Step → Kernel → Prop)
    [∀ steps k, Decidable (P steps k)] (h : runCheck smallLayout .RR ops (fun steps k =>
      (∀ s ∈ steps, s.op.disciplined s.pre = true) ∧ P steps k) = true) :
    ∃ steps k, Run smallLayout .RR steps k ∧ Disciplined steps ∧ P steps k :=
  exists_run .RR ops (fun steps k => (∀ s ∈ steps, s.op.disciplined s.pre = true) ∧ P steps k) h

theorem Run.induct {b : Sched.Build} {I : List Step → Kernel → Account → Prop}
    (hboot : ∀ k g, Booted L k g → I [] k g)
    (hstep : ∀ steps k g op k' g', Run L b steps k → Disciplined (⟨k, op, k'⟩ :: steps) →
      KInv L k g → Acts L (op.Allows k) k g k' g' → Xv6.step L b op k = .ok ((), k') → I steps k g →
      I (⟨k, op, k'⟩ :: steps) k' g') :
    ∀ {steps k}, Run L b steps k → Disciplined steps → ∃ g, KInv L k g ∧ I steps k g := by
  intro steps k hrun
  induction hrun with
  | boot h hfree =>
    intro _
    obtain ⟨g, hg⟩ := (boot_spec b _ _).of_ok h hfree
    exact ⟨g, hg.inv, hboot _ g hg⟩
  | step hprev hs ih =>
    intro hd
    obtain ⟨g, hk, hi⟩ := ih fun s hs => hd s (List.mem_cons_of_mem _ hs)
    obtain ⟨g', ha⟩ := (step_spec hk (hd _ List.mem_cons_self)).of_ok hs
    exact ⟨g', ha.inv hk, hstep _ _ _ _ _ _ hprev hd hk ha hs hi⟩

theorem Run.inv {b : Sched.Build} {steps : List Step} (h : Run L b steps k)
    (hd : Disciplined steps) : ∃ g, KInv L k g := by
  obtain ⟨g, hk, -⟩ := Run.induct (I := fun _ _ _ => True) (fun _ _ _ => trivial)
    (fun _ _ _ _ _ _ _ _ _ _ _ _ => trivial) h hd
  exact ⟨g, hk⟩

end Xv6

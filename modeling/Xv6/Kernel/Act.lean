import Xv6.Kernel.Inv

/-!
# What a step can do to memory

Every step of the kernel is a sequence of acts: each creates, changes or removes the memory of
one process, writes to it, or moves a page in or out of the hands of kernel code. An act says
what becomes of the account and of the contents of pages, and keeps the invariant.
-/

namespace Xv6

open ByteMem

inductive Label where
  | calm
  | frame (p : Slot)
  | create (p : Slot)
  | destroy (p : Slot)
  | grow (p : Slot)
  | extend (p : Slot)
  | shrink (p : Slot)
  | replace (p : Slot)
  | write (p : Slot) (dstva len : Nat)
  | share (p c : Slot)
  | exec (p : Slot)
  | pageIn
  | pageOut
  | deliver (p : Slot)
  | restore (p : Slot)

/-- Of the process table, only the memory of `p` has changed. -/
structure Only (k k' : Kernel) (p : Slot) (h : Hold) : Prop where
  self : (k'.proc p).hold = h
  other : ∀ q, q ≠ p → (k'.proc q).hold = (k.proc q).hold
  pages : k'.pages = k.pages

structure Same (k k' : Kernel) : Prop where
  hold : ∀ q, (k'.proc q).hold = (k.proc q).hold
  pages : k'.pages = k.pages

/-- An account in which table `r` has taken the place of nothing or of table `r₀`; `t` is a page
of kernel data that may have been written. -/
structure Moved (r₀ r t : Nat) (km : Kmem) (g : Account) (km' : Kmem) (g' : Account) : Prop where
  node : ∀ r', r' ≠ r₀ → r' ≠ r → g'.node r' = g.node r'
  map : ∀ r', r' ≠ r₀ → r' ≠ r → g'.map r' = g.map r'
  owner : ∀ f o, o.Outside r₀ → o.Outside r → (o ∈ g'.owners f ↔ o ∈ g.owners f)
  mem : ∀ f o, o.Data → o.Outside r₀ → o.Outside r → o ∈ g.owners f → f ≠ t →
    Agree km.mem km'.mem (f * pgsize) pgsize

inductive Act (L : Layout) : Label → Kernel → Account → Kernel → Account → Prop where
  /-- The process table has changed in ways that do not concern memory. -/
  | calm {k k' g g'} (hs : Sound L k'.km g') (hq : Quiet k.km g k'.km g') (hsame : Same k k') :
      Act L .calm k g k' g'
  | frame {k k' g p t} (hp : k.Live p)
      (ht : (k.proc p).hold.trapframe = t * pgsize) (hm : OnlyPage t k.km.mem k'.km.mem)
      (hkm : k'.km = { k.km with mem := k'.km.mem }) (hsame : Same k k') :
      Act L (.frame p) k g k' g
  /-- A new process without user memory. -/
  | create {k k' g g' p r t} (hp : (k.proc p).hold.live = false) (hs : Sound L k'.km g')
      (hr : ¬ g.Live r) (ht : g.owners t = ∅) (hi : Image L g' r 0 t)
      (hother : ∀ r', r' ≠ r → g'.node r' = g.node r' ∧ g'.map r' = g.map r')
      (howner : ∀ f o, o.Data → (o ∈ g'.owners f ↔
        o ∈ g.owners f ∨ f = t ∧ o = .held (.trapframe p)))
      (hmem : ∀ f o, o.Data → o ∈ g.owners f → Agree k.km.mem k'.km.mem (f * pgsize) pgsize)
      (honly : Only k k' p { (k.proc p).hold with
        live := true, pagetable := r * pgsize, trapframe := t * pgsize, alarmRunning := false }) :
      Act L (.create p) k g k' g'
  /-- The end of a process that has exited, or of one that has not run yet. -/
  | destroy {k k' g g' p r t} (hp : k.Live p)
      (hproc : Process L g p (k.proc p).hold r t) (hs : Sound L k'.km g') (hr : ¬ g'.Live r)
      (hother : ∀ r', r' ≠ r → g'.node r' = g.node r' ∧ g'.map r' = g.map r')
      (howner : ∀ f o, o.Data → (o ∈ g'.owners f ↔
        o ∈ g.owners f ∧ o ≠ .held (.trapframe p) ∧ ∀ v, o ≠ .user r v))
      (hmem : ∀ f o, o.Data → o ∈ g'.owners f → Agree k.km.mem k'.km.mem (f * pgsize) pgsize)
      (honly : Only k k' p { (k.proc p).hold with
        live := false, pagetable := 0, trapframe := 0, sz := 0, alarmRunning := false }) :
      Act L (.destroy p) k g k' g'
  /-- New page-table pages that nothing uses yet. -/
  | grow {k k' g g' p r} (hp : k.Live p)
      (hr : (k.proc p).hold.pagetable = r * pgsize) (hs : Sound L k'.km g')
      (hg : Grow r k.km g k'.km g') (hsame : Same k k') : Act L (.grow p) k g k' g'
  | extend {k k' g g' p r t sz xperm} (hp : k.Live p)
      (hr : (k.proc p).hold.pagetable = r * pgsize) (hs : Sound L k'.km g')
      (he : Extend L r (pagesOf (k.proc p).hold.sz) (pagesOf sz) (pteR ||| pteU ||| xperm)
        k.km g k'.km g')
      (hi : Image L g' r (pagesOf sz) t) (ht : (k.proc p).hold.trapframe = t * pgsize)
      (honly : Only k k' p { (k.proc p).hold with sz := sz }) : Act L (.extend p) k g k' g'
  | shrink {k k' g g' p r t sz} (hp : k.Live p)
      (hr : (k.proc p).hold.pagetable = r * pgsize) (hs : Sound L k'.km g')
      (he : Shrink r (pagesOf sz) (pagesOf (k.proc p).hold.sz) k.km g k'.km g')
      (hi : Image L g' r (pagesOf sz) t) (ht : (k.proc p).hold.trapframe = t * pgsize)
      (honly : Only k k' p { (k.proc p).hold with sz := sz }) : Act L (.shrink p) k g k' g'
  /-- A user page gets a frame of its own. -/
  | replace {k k' g g' p r v} (hp : k.Live p)
      (hr : (k.proc p).hold.pagetable = r * pgsize) (hs : Sound L k'.km g')
      (hu : g.UserMapped r v)
      (he : Replace r v k.km g k'.km g') (hsame : Same k k') : Act L (.replace p) k g k' g'
  /-- Bytes are written through the entries of a table; the first page is writable. -/
  | write {k k' g p r dstva src len} (hp : k.Live p)
      (hr : (k.proc p).hold.pagetable = r * pgsize) (hs : Sound L k'.km g)
      (hfirst : (g.map r (dstva / pgsize)).getLsbD 2 = true)
      (hw : Wrote g r dstva src len k.km.mem k'.km.mem) (hsame : Same k k') :
      Act L (.write p dstva len) k g k' g
  /-- `uvmcopy` to a child without user memory. -/
  | share {k k' g g' p c r r' t' m n sz} (hne : p ≠ c) (hp : k.Live p)
      (hc : k.Live c) (hr : (k.proc p).hold.pagetable = r * pgsize)
      (hr' : (k.proc c).hold.pagetable = r' * pgsize)
      (ht' : (k.proc c).hold.trapframe = t' * pgsize) (hs : Sound L k'.km g')
      (he : Share r r' m n k.km g k'.km g')
      (hm : m ≤ pagesOf (k.proc p).hold.sz) (hn : n = pagesOf sz) (hi : Image L g' r' n t')
      (honly : Only k k' c { (k.proc c).hold with sz := sz }) : Act L (.share p c) k g k' g'
  | exec {k k' g g' p r₀ r t sz} (hp : k.Live p)
      (hproc : Process L g p (k.proc p).hold r₀ t) (hs : Sound L k'.km g') (hr : ¬ g.Live r)
      (hr₀ : ¬ g'.Live r₀) (he : Moved r₀ r t k.km g k'.km g') (hi : Image L g' r (pagesOf sz) t)
      (honly : Only k k' p { (k.proc p).hold with pagetable := r * pgsize, sz := sz }) :
      Act L (.exec p) k g k' g'
  | pageIn {k k' g g' f} (hs : Sound L k'.km g') (hf : g.owners f = ∅)
      (he : Swap f {.held .page} k.km g k'.km g')
      (hhold : ∀ q, (k'.proc q).hold = (k.proc q).hold) (hpages : k'.pages = f * pgsize :: k.pages) :
      Act L .pageIn k g k' g'
  | pageOut {k k' g g' f} (hs : Sound L k'.km g') (hf : .held .page ∈ g.owners f)
      (he : Swap f ∅ k.km g k'.km g') (hhold : ∀ q, (k'.proc q).hold = (k.proc q).hold)
      (hpages : k'.pages = k.pages.erase (f * pgsize)) : Act L .pageOut k g k' g'
  /-- The trapframe in `t` is saved in a new page `f`, and changed. -/
  | deliver {k k' g g' p t f} (hp : k.Live p)
      (hoff : (k.proc p).hold.alarmRunning = false)
      (ht : (k.proc p).hold.trapframe = t * pgsize) (hs : Sound L k'.km g')
      (hf : g.owners f = ∅) (hnode : g'.node = g.node) (hmap : g'.map = g.map)
      (hself : g'.owners f = {.held (.backup p)})
      (hother : ∀ f', f' ≠ f → g'.owners f' = g.owners f')
      (hmem : ∀ f', f' ≠ f → f' ≠ t → Agree k.km.mem k'.km.mem (f' * pgsize) pgsize)
      (hsave : ∀ i, i < sizeofTrapframe → k'.km.mem (f * pgsize + i) = k.km.mem (t * pgsize + i))
      (honly : Only k k' p { (k.proc p).hold with alarmRunning := true, backup := f * pgsize }) :
      Act L (.deliver p) k g k' g'
  /-- The trapframe in `t` is restored from page `f`, which is freed. -/
  | restore {k k' g g' p t f} (hp : k.Live p)
      (hon : (k.proc p).hold.alarmRunning = true)
      (ht : (k.proc p).hold.trapframe = t * pgsize) (hb : (k.proc p).hold.backup = f * pgsize)
      (hs : Sound L k'.km g') (hf : .held (.backup p) ∈ g.owners f) (hnode : g'.node = g.node)
      (hmap : g'.map = g.map) (hself : g'.owners f = ∅)
      (hother : ∀ f', f' ≠ f → g'.owners f' = g.owners f')
      (hmem : ∀ f', f' ≠ f → f' ≠ t → Agree k.km.mem k'.km.mem (f' * pgsize) pgsize)
      (hload : ∀ i, i < sizeofTrapframe → k'.km.mem (t * pgsize + i) = k.km.mem (f * pgsize + i))
      (honly : Only k k' p { (k.proc p).hold with alarmRunning := false }) :
      Act L (.restore p) k g k' g'

variable {L : Layout} {k k' : Kernel} {g g' : Account} {p c : Slot} {r r' t f : Nat}
variable {P : Label → Prop}
variable {h' : Hold}

/-! ## The invariant -/

theorem Same.only (hs : Same k k') (p : Slot) : Only k k' p (k.proc p).hold :=
  ⟨hs.hold p, fun q _ => hs.hold q, hs.pages⟩

section

variable (h : KInv L k g) (hs : Sound L k'.km g') (honly : Only k k' p h')
  (hkeep : ∀ f x, x ≠ .trapframe p → x ≠ .backup p → x ≠ .fresh →
    (.held x ∈ g'.owners f ↔ .held x ∈ g.owners f))
  (hself : h'.live = true → ∃ r t, Process L g' p h' r t ∧
    ∀ q, q ≠ p → k.Live q → (k.proc q).hold.pagetable ≠ r * pgsize)
  (hidle : h'.live = false → Idle g' p h')
  (htables : ∀ r, g'.Live r → (h'.live = true ∧ h'.pagetable = r * pgsize) ∨
    ∃ q, q ≠ p ∧ k.Live q ∧ (k.proc q).hold.pagetable = r * pgsize)

include h hs honly hkeep hself hidle htables

theorem KInv.updateOf (hrest : ∀ q r t, q ≠ p → k.Live q →
      Process L g q (k.proc q).hold r t → Process L g' q (k.proc q).hold r t) :
    KInv L k' g' := by
  refine ⟨hs, ?_, ?_, ?_, ?_, ?_, ?_, ?_⟩
  · intro q hq
    by_cases he : q = p
    · grind [honly.self]
    · rw [honly.other q he] at hq ⊢
      obtain ⟨r, t, hp⟩ := h.live q hq
      exact ⟨r, t, hrest q r t he hq hp⟩
  · intro q hq
    by_cases he : q = p
    · subst he
      rw [honly.self] at hq ⊢
      exact hidle hq
    · rw [honly.other q he] at hq ⊢
      exact (h.idle q hq).congr fun f => hkeep f _ (by simp [he]) (by simp) (by simp)
  · have hne : ∀ q, q ≠ p → k.Live q → h'.live = true →
        (k.proc q).hold.pagetable ≠ h'.pagetable := by
      intro q hq hl hl'
      obtain ⟨r, t, hp, hd⟩ := hself hl'
      rw [hp.pagetable]
      exact hd q hq hl
    intro q1 q2 h1 h2 heq
    by_cases e1 : q1 = p
    · by_cases e2 : q2 = p
      · rw [e1, e2]
      · grind [honly.self, honly.other]
    · by_cases e2 : q2 = p
      · grind [honly.self, honly.other]
      · grind [honly.other, h.roots]
  · have := honly.self
    have := honly.other
    grind
  · grind [honly.pages, h.pages]
  · rw [honly.pages]
    exact h.aligned
  · rw [honly.pages]
    exact h.distinct

theorem KInv.update (hroot : ∀ q r, q ≠ p → k.Live q →
      (k.proc q).hold.pagetable = r * pgsize → g'.node r = g.node r ∧ g'.map r = g.map r) :
    KInv L k' g' := by
  refine h.updateOf hs honly hkeep hself hidle htables ?_
  intro q r t hq hl hp
  obtain ⟨hn, hm⟩ := hroot q r hq hl hp.pagetable
  refine hp.untouched ⟨hn, hm, fun f => hkeep f _ ?_ ?_ ?_, fun f => hkeep f _ ?_ ?_ ?_⟩ <;>
    simp [hq]

end

theorem KInv.table_cases (h : KInv L k g) (p : Slot) (hr : g.Live r) :
    (k.Live p ∧ (k.proc p).hold.pagetable = r * pgsize) ∨
      ∃ q, q ≠ p ∧ k.Live q ∧ (k.proc q).hold.pagetable = r * pgsize := by
  obtain ⟨q, hq⟩ := h.tables r hr
  by_cases he : q = p
  · subst he
    exact .inl hq
  · exact .inr ⟨q, he, hq⟩

theorem KInv.updateTable (h : KInv L k g) {sz n : Nat} (hp : k.Live p)
    (hr : (k.proc p).hold.pagetable = r * pgsize) (hs : Sound L k'.km g')
    (hf : Frame r k.km g k'.km g') (honly : Only k k' p { (k.proc p).hold with sz := sz })
    (ht : (k.proc p).hold.trapframe = t * pgsize) (hi : Image L g' r n t)
    (hn : n = pagesOf sz) : KInv L k' g' := by
  obtain ⟨t1, hproc⟩ := h.process hp hr
  obtain rfl := mul_pgsize_inj (hproc.trapframe.symm.trans ht)
  have hheld : ∀ f x, x ≠ .fresh → (.held x ∈ g'.owners f ↔ .held x ∈ g.owners f) :=
    fun f x hx => hf.owner f (.held x) hx
  refine h.update hs honly (fun f x _ _ hx => hheld f x hx) ?_ ?_ ?_ ?_
  · intro _
    refine ⟨r, t1, ⟨hr, ht, hn ▸ hi, ?_, ?_⟩, ?_⟩
    · intro f
      rw [hheld f _ (by simp)]
      exact hproc.holds f
    · have := hproc.backup
      grind
    · grind [h.roots]
  · grind
  · intro r' hl
    exact h.table_cases p ((hf.live_iff hproc.image.live hi.live r').mp hl)
  · intro q r' hq hl hr'
    have hne := h.root_ne hl hp hq hr' hr
    exact ⟨hf.node r' hne, hf.map r' hne⟩

theorem KInv.sameTable (h : KInv L k g) (hp : k.Live p)
    (hr : (k.proc p).hold.pagetable = r * pgsize) (hs : Sound L k'.km g')
    (hf : Frame r k.km g k'.km g') (hsame : Same k k')
    (hi : ∀ t, Image L g r (pagesOf (k.proc p).hold.sz) t →
      Image L g' r (pagesOf (k.proc p).hold.sz) t) : KInv L k' g' := by
  obtain ⟨t, hproc⟩ := h.process hp hr
  exact h.updateTable hp hr hs hf (hsame.only p) hproc.trapframe (hi t hproc.image) rfl

theorem KInv.trapframe_mem (h : KInv L k g) (hp : k.Live p)
    (ht : (k.proc p).hold.trapframe = t * pgsize) : .held (.trapframe p) ∈ g.owners t := by
  obtain ⟨r, t1, hproc⟩ := h.live p hp
  obtain rfl := mul_pgsize_inj (hproc.trapframe.symm.trans ht)
  exact (hproc.holds t1).mpr rfl

theorem Account.live_congr (hnode : g'.node = g.node) (r : Nat) : g'.Live r ↔ g.Live r := by
  rw [Account.Live, Account.Live, hnode]

theorem KInv.congr (h : KInv L k g) (hs : Sound L k'.km g') (hnode : g'.node = g.node)
    (hmap : g'.map = g.map)
    (hkeep : ∀ f x, x ≠ .page → (.held x ∈ g'.owners f ↔ .held x ∈ g.owners f))
    (hhold : ∀ q, (k'.proc q).hold = (k.proc q).hold)
    (hpages : ∀ f, .held .page ∈ g'.owners f ↔ f * pgsize ∈ k'.pages)
    (haligned : ∀ a ∈ k'.pages, ∃ f, a = f * pgsize) (hdistinct : k'.pages.Nodup) :
    KInv L k' g' := by
  refine ⟨hs, ?_, ?_, ?_, ?_, hpages, haligned, hdistinct⟩ <;> simp only [hhold]
  · intro q hq
    obtain ⟨r, t, hp⟩ := h.live q hq
    refine ⟨r, t, hp.untouched ⟨by rw [hnode], by rw [hmap], ?_, ?_⟩⟩
    · exact fun f => hkeep f _ (by simp)
    · exact fun f => hkeep f _ (by simp)
  · intro q hq
    exact (h.idle q hq).congr fun f => hkeep f _ (by simp)
  · exact h.roots
  · intro r hr
    exact h.tables r ((Account.live_congr hnode r).mp hr)

theorem KInv.same (h : KInv L k g) (hs : Sound L k'.km g') (hnode : g'.node = g.node)
    (hmap : g'.map = g.map) (howners : g'.owners = g.owners) (hsame : Same k k') :
    KInv L k' g' := by
  refine h.congr hs hnode hmap (fun f x _ => by rw [howners]) hsame.hold ?_ ?_ ?_
  all_goals rw [hsame.pages]
  · rw [howners]
    exact h.pages
  · exact h.aligned
  · exact h.distinct

theorem KInv.swapPage (h : KInv L k g) {S : Finset Owner} (hs : Sound L k'.km g')
    (he : Swap f S k.km g k'.km g') (hold : ∀ o ∈ g.owners f, o = .held .page)
    (hS : ∀ o ∈ S, o = .held .page) (hhold : ∀ q, (k'.proc q).hold = (k.proc q).hold)
    (hpages : ∀ f', .held .page ∈ g'.owners f' ↔ f' * pgsize ∈ k'.pages)
    (haligned : ∀ a ∈ k'.pages, ∃ f, a = f * pgsize) (hdistinct : k'.pages.Nodup) :
    KInv L k' g' := by
  refine h.congr hs he.node he.map ?_ hhold hpages haligned hdistinct
  intro f' x hx
  by_cases hf : f' = f
  · grind [he.self]
  · rw [he.other f' hf]

theorem KInv.swapBackup (h : KInv L k g) (hp : k.Live p) (hs : Sound L k'.km g')
    (hnode : g'.node = g.node) (hmap : g'.map = g.map)
    (hself : ∀ o ∈ g.owners f, o = .held (.backup p))
    (hself' : ∀ o ∈ g'.owners f, o = .held (.backup p))
    (hother : ∀ f', f' ≠ f → g'.owners f' = g.owners f') (honly : Only k k' p h')
    (hrest : h'.live = true ∧ h'.pagetable = (k.proc p).hold.pagetable ∧
      h'.trapframe = (k.proc p).hold.trapframe ∧ h'.sz = (k.proc p).hold.sz)
    (hbackup : h'.alarmRunning = true →
      ∃ f, h'.backup = f * pgsize ∧ .held (.backup p) ∈ g'.owners f) : KInv L k' g' := by
  have hkeep : ∀ f' x, x ≠ .backup p → (.held x ∈ g'.owners f' ↔ .held x ∈ g.owners f') := by
    intro f' x hx
    by_cases hf : f' = f
    · grind
    · rw [hother f' hf]
  obtain ⟨r, t, hproc⟩ := h.live p hp
  refine h.update hs honly (fun f' x _ hx _ => hkeep f' x hx) ?_ ?_ ?_ (by grind)
  · intro _
    refine ⟨r, t, ⟨?_, ?_, ?_, ?_, hbackup⟩, ?_⟩
    · rw [hrest.2.1]
      exact hproc.pagetable
    · rw [hrest.2.2.1]
      exact hproc.trapframe
    · rw [hrest.2.2.2]
      exact hproc.image.congr (by rw [hnode]) (by rw [hmap])
    · intro f'
      rw [hkeep f' _ (by simp)]
      exact hproc.holds f'
    · intro q hq hl heq
      exact hq (h.roots q p hl hp (heq.trans hproc.pagetable.symm))
  · grind
  · intro r' hl
    rw [hrest.1, hrest.2.1]
    obtain ⟨-, h2⟩ | hq := h.table_cases p ((Account.live_congr hnode r').mp hl)
    · exact .inl ⟨rfl, h2⟩
    · exact .inr hq

theorem held_iff_of_data {x : Holder} {P : Nat → Owner → Prop}
    (howner : ∀ f o, o.Data → (o ∈ g'.owners f ↔ P f o)) (hx : ∀ f, P f (.held x) ↔
      .held x ∈ g.owners f) (f : Nat) : .held x ∈ g'.owners f ↔ .held x ∈ g.owners f :=
  (howner f _ (Owner.data_held x)).trans (hx f)

theorem KInv.new_root (h : KInv L k g) {q : Slot} (hr : ¬ g.Live r) (hl : k.Live q) :
    (k.proc q).hold.pagetable ≠ r * pgsize :=
  fun heq => hr (h.live_root hl heq)

theorem KInv.create (h : KInv L k g) (ha : Act L (.create p) k g k' g') : KInv L k' g' := by
  cases ha with
  | @create _ _ _ _ _ r t hp hs hr _ hi hother howner _ honly =>
  have hidle := h.idle p hp
  refine h.update hs honly ?_ ?_ ?_ ?_ (by grind [h.new_root])
  · intro f x hx _ _
    refine held_iff_of_data howner ?_ f
    intro f'
    simp [hx]
  · intro _
    refine ⟨r, t, ⟨rfl, rfl, ?_, ?_, ?_⟩, ?_⟩
    · rw [hidle.sz, pagesOf_zero]
      exact hi
    · intro f
      rw [howner f _ (Owner.data_held _)]
      simp [hidle.holds f]
    · intro ha
      cases ha
    · intro q _ hl
      exact h.new_root hr hl
  · intro hl
    cases hl
  · intro r' hl
    by_cases he : r' = r
    · subst he
      exact .inl ⟨rfl, rfl⟩
    · have hl' : g.Live r' := by
        rw [Account.Live, ← (hother r' he).1]
        exact hl
      obtain ⟨h1, -⟩ | hq := h.table_cases p hl'
      · cases hp.symm.trans h1
      · exact .inr hq

theorem KInv.destroy (h : KInv L k g) (ha : Act L (.destroy p) k g k' g') : KInv L k' g' := by
  cases ha with
  | @destroy _ _ _ _ _ r t hp hproc hs hr hother howner _ honly =>
  refine h.update hs honly ?_ ?_ ?_ ?_ ?_
  · intro f x hx _ _
    refine held_iff_of_data howner ?_ f
    intro f'
    simp [hx]
  · intro hl
    cases hl
  · intro _
    refine ⟨rfl, rfl, rfl, ?_⟩
    intro f hf
    exact ((howner f _ (Owner.data_held _)).mp hf).2.1 rfl
  · intro r' hl
    have he : r' ≠ r := by
      rintro rfl
      exact hr hl
    have hl' : g.Live r' := by grind [Account.Live]
    obtain ⟨-, h2⟩ | hq := h.table_cases p hl'
    · exact absurd (mul_pgsize_inj (h2.symm.trans hproc.pagetable)) he
    · exact .inr hq
  · intro q r' hq hl hr'
    exact hother r' (h.root_ne hl hp hq hr' hproc.pagetable)

theorem KInv.exec (h : KInv L k g) (ha : Act L (.exec p) k g k' g') : KInv L k' g' := by
  cases ha with
  | @exec _ _ _ _ _ r0 r t sz hp hproc hs hr hr0 he hi honly =>
  have hheld : ∀ f x, x ≠ .fresh → (.held x ∈ g'.owners f ↔ .held x ∈ g.owners f) :=
    fun f x hx => he.owner f (.held x) hx hx
  refine h.update hs honly (fun f x _ _ hx => hheld f x hx) ?_ ?_ ?_ ?_
  · intro _
    refine ⟨r, t, ⟨rfl, hproc.trapframe, hi, ?_, ?_⟩, fun q _ hl => h.new_root hr hl⟩
    · intro f
      rw [hheld f _ (by simp)]
      exact hproc.holds f
    · have := hproc.backup
      grind
  · grind
  · intro r' hl
    by_cases e1 : r' = r
    · subst e1
      exact .inl ⟨hp, rfl⟩
    have e2 : r' ≠ r0 := by
      rintro rfl
      exact hr0 hl
    have hl' : g.Live r' := by
      rw [Account.Live, ← he.node r' e2 e1]
      exact hl
    obtain ⟨-, h2⟩ | hq := h.table_cases p hl'
    · exact absurd (mul_pgsize_inj (h2.symm.trans hproc.pagetable)) e2
    · exact .inr hq
  · intro q r' hq hl hr'
    have h1 := h.root_ne hl hp hq hr' hproc.pagetable
    have h2 : r' ≠ r := by
      rintro rfl
      exact h.new_root hr hl hr'
    exact ⟨he.node r' h1 h2, he.map r' h1 h2⟩

theorem KInv.share (h : KInv L k g) (ha : Act L (.share p c) k g k' g') : KInv L k' g' := by
  cases ha with
  | @share _ _ _ _ _ _ r r' t' _ _ _ hne hp hc hr hr' ht' hs he hm hn hi honly =>
  obtain ⟨t2, hchild⟩ := h.process hc hr'
  obtain rfl := mul_pgsize_inj (hchild.trapframe.symm.trans ht')
  have hheld : ∀ f x, .held x ∈ g'.owners f ↔ .held x ∈ g.owners f := by
    intro f x
    refine held_iff_of_data he.owner ?_ f
    intro f'
    simp
  refine h.updateOf hs honly (fun f x _ _ _ => hheld f x) ?_ ?_ ?_ ?_
  · intro _
    refine ⟨r', t2, ⟨hr', ht', hn ▸ hi, ?_, ?_⟩, ?_⟩
    · intro f
      rw [hheld f]
      exact hchild.holds f
    · have := hchild.backup
      grind
    · grind [h.roots]
  · grind
  · intro r3 hl
    apply h.table_cases c
    by_cases hr3 : r3 = r'
    · subst hr3
      exact hchild.image.live
    · rwa [Account.Live, ← he.node r3 hr3]
  · intro q r3 t3 hq hl hproc
    by_cases hqp : q = p
    · -- the parent, whose entries are marked
      subst hqp
      obtain rfl := mul_pgsize_inj (hproc.pagetable.symm.trans hr)
      have himage := hproc.image.shareParent (h.sound.table _ hproc.image.live)
        (h.root_ne hp hc hne hr hr') he hm
      refine { hproc with image := himage, holds := ?_, backup := ?_ }
      · intro f
        rw [hheld f]
        exact hproc.holds f
      · have := hproc.backup
        grind
    · have h1 := h.root_ne hl hp hqp hproc.pagetable hr
      have h2 := h.root_ne hl hc hq hproc.pagetable hr'
      exact hproc.untouched
        ⟨he.node r3 h2, he.other r3 h1 h2, fun f => hheld f _, fun f => hheld f _⟩

theorem Act.inv {l : Label} (ha : Act L l k g k' g') (h : KInv L k g) : KInv L k' g' := by
  have ha' := ha
  cases ha with
  | calm hs hq hsame => exact h.same hs hq.node hq.map hq.owners hsame
  | frame hp ht hm hkm hsame =>
    refine h.same ?_ rfl rfl rfl hsame
    rw [hkm]
    exact h.sound.withMem (h.sound.rep.writeData (h.trapframe_mem hp ht) trivial hm)
  | create => exact h.create ha'
  | destroy => exact h.destroy ha'
  | grow hp hr hs hg hsame =>
    exact h.sameTable hp hr hs (hg.frame h.sound.rep hs.rep) hsame fun t hi => hi.grow hg
  | extend hp hr hs he hi ht honly =>
    exact h.updateTable hp hr hs (he.frame h.sound.rep hs.rep) honly ht hi rfl
  | shrink hp hr hs he hi ht honly => exact h.updateTable hp hr hs he.frame honly ht hi rfl
  | replace hp hr hs hu he hsame =>
    refine h.sameTable hp hr hs (he.frame h.sound.rep hs.rep) hsame ?_
    intro t hi
    exact hi.replace (hi.lt_of_mapped hu.1 hu.2.1) he
  | write _ _ hs _ _ hsame => exact h.same hs rfl rfl rfl hsame
  | share => exact h.share ha'
  | exec => exact h.exec ha'
  | @pageIn _ _ _ _ f hs hf he hhold hpages =>
    have hnew : f * pgsize ∉ k.pages := by
      rw [← h.pages f, hf]
      exact Finset.notMem_empty _
    refine h.swapPage hs he ?_ ?_ hhold ?_ ?_ ?_
    · grind
    · simp
    · intro f'
      rw [hpages, List.mem_cons]
      by_cases hff : f' = f
      · subst hff
        rw [he.self]
        simp
      · grind [he.other, h.pages, mul_pgsize_inj]
    · grind [h.aligned]
    · rw [hpages]
      exact List.nodup_cons.mpr ⟨hnew, h.distinct⟩
  | @pageOut _ _ _ _ f hs hf he hhold hpages =>
    refine h.swapPage hs he ?_ ?_ hhold ?_ ?_ ?_
    · intro o ho
      rw [h.sound.held_eq hf] at ho
      exact Finset.mem_singleton.mp ho
    · simp
    · intro f'
      rw [hpages, h.distinct.mem_erase_iff]
      by_cases hff : f' = f
      · subst hff
        rw [he.self]
        simp
      · rw [he.other f' hff, h.pages f']
        constructor
        · grind [mul_pgsize_inj]
        · exact And.right
    · intro a ha
      rw [hpages] at ha
      exact h.aligned a (List.mem_of_mem_erase ha)
    · rw [hpages]
      exact h.distinct.erase _
  | @deliver _ _ _ _ _ _ f hp _ _ hs hf hnode hmap hself hother _ _ honly =>
    refine h.swapBackup hp hs hnode hmap ?_ ?_ hother honly ⟨hp, rfl, rfl, rfl⟩ ?_ <;> grind
  | restore hp _ _ _ hs hf hnode hmap hself hother _ _ honly =>
    refine h.swapBackup hp hs hnode hmap ?_ ?_ hother honly ⟨hp, rfl, rfl, rfl⟩ ?_
    · intro o ho
      rw [h.sound.held_eq hf] at ho
      exact Finset.mem_singleton.mp ho
    · grind
    · intro hon
      cases hon

/-! ## Sequences of acts -/

inductive Acts (L : Layout) (P : Label → Prop) (k : Kernel) (g : Account) :
    Kernel → Account → Prop where
  | refl : Acts L P k g k g
  | tail {k₁ k₂ : Kernel} {g₁ g₂ : Account} {l : Label} (h : Acts L P k g k₁ g₁) (hl : P l)
      (ha : Act L l k₁ g₁ k₂ g₂) : Acts L P k g k₂ g₂

theorem Acts.trans {k1 : Kernel} {g1 : Account} (h : Acts L P k g k1 g1)
    (h' : Acts L P k1 g1 k' g') : Acts L P k g k' g' := by
  induction h' with
  | refl => exact h
  | tail _ hl ha ih => exact ih.tail hl ha

theorem Acts.single {l : Label} (hl : P l) (ha : Act L l k g k' g') : Acts L P k g k' g' :=
  Acts.refl.tail hl ha

theorem Acts.mono {Q : Label → Prop} (h : Acts L P k g k' g') (hPQ : ∀ l, P l → Q l) :
    Acts L Q k g k' g' := by
  induction h with
  | refl => exact .refl
  | tail _ hl ha ih => exact ih.tail (hPQ _ hl) ha

theorem Acts.induct {I : Kernel → Account → Prop} (h : Acts L P k g k' g')
    (hstep : ∀ l k g k' g', P l → Act L l k g k' g' → KInv L k g → I k g → I k' g')
    (hk : KInv L k g) (hi : I k g) : KInv L k' g' ∧ I k' g' := by
  induction h with
  | refl => exact ⟨hk, hi⟩
  | tail _ hl ha ih => exact ⟨ha.inv ih.1, hstep _ _ _ _ _ hl ha ih.1 ih.2⟩

theorem Acts.inv (h : Acts L P k g k' g') (hk : KInv L k g) : KInv L k' g' :=
  (h.induct (I := fun _ _ => True) (fun _ _ _ _ _ _ _ _ _ => trivial) hk trivial).1

end Xv6

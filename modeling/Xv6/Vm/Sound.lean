import Xv6.Vm.CopySpec
import Xv6.Vm.CopyoutSpec
import Xv6.Vm.FreeSpec

/-!
# What holds between any two calls

The account is sound when every table is well formed, a page that kernel code holds has no
other use, and a writable entry maps a frame that nothing else uses. Every change of a table
keeps it sound.
-/

namespace Xv6

open ByteMem
open Owner (data_held data_user)

variable {L : Layout} {km km' : Kmem} {g g' : Account} {r r' : Nat}
variable {f : Nat} {fs : List Nat} {w : BitVec 64}
variable {S : Finset Owner} {v : Nat} {x : Holder}

attribute [local simp] Account.refree

/-- The account has no page in transit, every table is well formed, and sharing is limited to
entries that are not writable. -/
structure Sound (L : Layout) (km : Kmem) (g : Account) : Prop where
  rep : Rep L none km g
  settled : g.Settled
  table : ∀ r, g.Live r → Table g r
  user : ∀ r v f, .user r v ∈ g.owners f → g.Live r
  held : ∀ f x o, .held x ∈ g.owners f → o ∈ g.owners f → o.Data → o = .held x
  writer : ∀ r v o, g.Live r → v < userPages → (g.map r v).getLsbD 2 = true →
    o ∈ g.owners (ppn (g.map r v)) → o.Data → o = .user r v

theorem getLsbD_ne_zero {i : Nat} (h : w.getLsbD i = true) : w ≠ 0 := by
  rintro rfl
  simp at h

theorem Sound.gone (h : Sound L km g) (hr : ¬ g.Live r) :
    (∀ n, g.node r n = none) ∧ (∀ v, g.map r v = 0) ∧ ∀ v f, .user r v ∉ g.owners f := by
  have hroot : g.node r .root = none := by
    cases hn : g.node r .root with
    | none => rfl
    | some f =>
      have hf := h.rep.root r f hn
      subst hf
      exact absurd hn hr
  have hnode := h.rep.node_none hroot
  exact ⟨hnode, fun v => h.rep.absent r v (hnode _), fun v f hu => hr (h.user r v f hu)⟩

theorem Sound.held_eq (h : Sound L km g) (hx : .held x ∈ g.owners f) : g.owners f = {.held x} :=
  h.rep.owners_eq hx trivial fun o hd ho => h.held f x o hx ho hd

/-! ## New page-table pages -/

theorem Sound.growTo (h : Sound L km g) (h' : Rep L none km' g') (hg : Grow r km g km' g')
    (ht : g'.Live r → Table g' r) (hlive : g.Live r → g'.Live r) : Sound L km' g' := by
  have hback : ∀ r', r' ≠ r → g'.Live r' → g.Live r' := by
    intro r' hr hl
    rw [Account.Live, ← hg.other r' hr]
    exact hl
  have hforth : ∀ r', g.Live r' → g'.Live r' := by
    intro r' hl
    by_cases hr : r' = r
    · subst hr
      exact hlive hl
    · rw [Account.Live, hg.other r' hr]
      exact hl
  refine ⟨h', ?_, ?_, ?_, ?_, ?_⟩
  · intro f hf
    exact h.settled f ((hg.data f (.held .fresh) trivial).mp hf)
  · intro r' hl
    by_cases hr : r' = r
    · subst hr
      exact ht hl
    · exact (h.table r' (hback r' hr hl)).frame (hg.frame h.rep h') hr
  · intro r' v f hu
    exact hforth r' (h.user r' v f ((hg.data f (.user r' v) trivial).mp hu))
  · intro f x o hx ho hd
    exact h.held f x o ((hg.data f (.held x) trivial).mp hx) ((hg.data f o hd).mp ho) hd
  · intro r' v o hl hv hw ho hd
    rw [hg.map] at hw ho
    have hu := (hg.data _ o hd).mp ho
    by_cases hr : g.Live r'
    · exact h.writer r' v o hr hv hw hu hd
    · exact absurd ((h.gone hr).2.1 v) (getLsbD_ne_zero hw)

theorem Sound.grow (h : Sound L km g) (hr : g.Live r) (h' : Rep L none km' g')
    (hg : Grow r km g km' g') : Sound L km' g' :=
  h.growTo h' hg (fun _ => (h.table r hr).grow hg) fun _ => hg.node _ _ hr

theorem Grow.addRoot (hnone : ∀ n, g.node f n = none)
    (ho : g.owners f = ∅) (hmem : OnlyPage f km.mem km'.mem) :
    Grow f km g km' (g.addNode f .root f fs) where
  map := rfl
  data f' o hd := by
    by_cases hf : f' = f
    · subst hf
      have : o ≠ .table f' .root := by
        rintro rfl
        exact hd
      simp [Account.addNode, ho, this]
    · simp [Account.addNode, hf]
  other r' hr := by
    funext n
    exact g.addNode_ne fun e => hr e.1
  node n f' hn := by
    rw [hnone n] at hn
    cases hn
  mem f' o hd ho' := by
    refine hmem f' ?_
    rintro rfl
    rw [ho] at ho'
    exact absurd ho' (Finset.notMem_empty _)

theorem Sound.addRoot (h : Sound L km g) (hr : ¬ g.Live f)
    (h' : Rep L none km' (g.addNode f .root f fs)) (ho : g.owners f = ∅)
    (hmem : OnlyPage f km.mem km'.mem) :
    Sound L km' (g.addNode f .root f fs) ∧ Grow f km g km' (g.addNode f .root f fs) := by
  obtain ⟨hnode, hmap, huser⟩ := h.gone hr
  have hg : Grow f km g km' (g.addNode f .root f fs) := Grow.addRoot hnode ho hmem
  refine ⟨h.growTo h' hg ?_ fun hl => absurd hl hr, hg⟩
  intro hl
  have hzero : ∀ v, (g.addNode f .root f fs).map f v = 0 := hmap
  refine ⟨hl, ?_, ?_, ?_, ?_⟩
  · intro v hv
    exact absurd (hzero v) hv
  · intro v f'
    rw [hg.data f' (.user f v) trivial]
    simp [huser v f', hzero v]
  · grind
  · intro v _
    rw [hzero v]
    simp

/-! ## The entries for TRAPFRAME and TRAMPOLINE -/

theorem Table.setSystem (ht : Table g r) (hv : userPages ≤ v)
    (hleaf : w ≠ 0 → LeafPte w) (hu : w.getLsbD 4 = false) : Table (g.setMap r v w) r where
  live := ht.live
  leaf v' hne := by
    by_cases he : v' = v
    · subst he
      rw [g.setMap_self] at hne ⊢
      exact hleaf hne
    · rw [g.setMap_ne fun e => he e.2] at hne ⊢
      exact ht.leaf v' hne
  owner v' f := by
    by_cases he : v' = v
    · subst he
      constructor
      · intro hown
        exact absurd ((ht.owner v' f).mp hown).1 (by omega)
      · intro hlt
        exact absurd hlt.1 (by omega)
    · rw [g.setMap_ne fun e => he e.2]
      exact ht.owner v' f
  inj v1 v2 h1 h2 := by
    rw [g.setMap_ne fun e => by omega, g.setMap_ne fun e => by omega]
    exact ht.inj v1 v2 h1 h2
  system v' h' := by
    by_cases he : v' = v
    · subst he
      rw [g.setMap_self]
      exact hu
    · rw [g.setMap_ne fun e => he e.2]
      exact ht.system v' h'

theorem Frame.setMap
    (hmem : ∀ f o, o.Data → o ∈ g.owners f → Agree km.mem km'.mem (f * pgsize) pgsize) :
    Frame r km g km' (g.setMap r v w) where
  owner _ _ _ := Iff.rfl
  node _ _ := rfl
  map r' hr := by
    funext v'
    exact g.setMap_ne fun e => hr e.1
  mem f o hd _ ho := hmem f o hd ho

theorem Sound.setSystem (h : Sound L km g) (hr : g.Live r) (h' : Rep L none km' (g.setMap r v w))
    (hv : userPages ≤ v) (hleaf : w ≠ 0 → LeafPte w) (hu : w.getLsbD 4 = false) :
    Sound L km' (g.setMap r v w) := by
  refine ⟨h', h.settled, ?_, h.user, h.held, ?_⟩
  · intro r' hl
    by_cases he : r' = r
    · subst he
      exact (h.table r' hr).setSystem hv hleaf hu
    · have ht := h.table r' hl
      have hmap : (g.setMap r v w).map r' = g.map r' := by
        funext v'
        exact g.setMap_ne fun e => he e.1
      refine ⟨hl, ?_, ?_, ?_, ?_⟩ <;> rw [hmap]
      · exact ht.leaf
      · exact ht.owner
      · exact ht.inj
      · exact ht.system
  · intro r' v' o hl hv' hw ho hd
    rw [g.setMap_ne fun e => by omega] at hw ho
    exact h.writer r' v' o hl hv' hw ho hd

/-! ## User pages -/

theorem Frame.live_iff (hf : Frame r km g km' g') (h1 : g.Live r) (h2 : g'.Live r) (r' : Nat) :
    g'.Live r' ↔ g.Live r' := by
  by_cases hr : r' = r
  · grind
  · rw [Account.Live, Account.Live, hf.node r' hr]

theorem Sound.ofFrame (h : Sound L km g) (hf : Frame r km g km' g') (h' : Rep L none km' g')
    (hr : g.Live r) (ht : Table g' r)
    (hnew : ∀ f o, o.Data → o ∈ g'.owners f → o ∈ g.owners f ∨ ∃ v, o = .user r v)
    (hheld : ∀ f v x, .user r v ∈ g'.owners f → .held x ∉ g.owners f)
    (hself : ∀ v o, v < userPages → (g'.map r v).getLsbD 2 = true →
      o ∈ g'.owners (ppn (g'.map r v)) → o.Data → o = .user r v)
    (hother : ∀ r' v v', r' ≠ r → g.Live r' → v < userPages → (g.map r' v).getLsbD 2 = true →
      .user r v' ∉ g'.owners (ppn (g.map r' v))) : Sound L km' g' := by
  have hlive := hf.live_iff hr ht.live
  refine ⟨h', ?_, ?_, ?_, ?_, ?_⟩
  · intro f hx
    obtain hx | ⟨v, hv⟩ := hnew f _ (data_held _) hx
    · exact h.settled f hx
    · cases hv
  · intro r' hl
    by_cases he : r' = r
    · subst he
      exact ht
    · exact (h.table r' ((hlive r').mp hl)).frame hf he
  · grind [h.user, data_user]
  · grind [h.held, data_held]
  · intro r' v o hl hv hw ho hd
    by_cases he : r' = r
    · subst he
      exact hself v o hv hw ho hd
    · have := hf.map
      have := h.writer
      grind

section

variable (h : Sound L km g) (hr : g.Live r) (h' : Rep L none km' g')

include h hr h'

theorem Sound.shrink {lo hi : Nat} (hs : Shrink r lo hi km g km' g') : Sound L km' g' := by
  have ht := h.table r hr
  refine h.ofFrame hs.frame h' hr (ht.shrink hs) ?_ ?_ ?_ ?_
  · intro f o _ ho
    exact .inl ((hs.owner f o).mp ho).1
  · intro f v x hu hx
    have := h.held f x _ hx ((hs.owner f _).mp hu).1 trivial
    cases this
  · grind [hs.map, h.writer, hs.owner]
  · intro r' v v' hne hl hv hw hu
    have := h.writer r' v _ hl hv hw ((hs.owner _ _).mp hu).1 trivial
    injection this with he
    exact hne he.symm

theorem Sound.extend {lo hi : Nat}
    {perm : BitVec 64} (he : Extend L r lo hi perm km g km' g') (hperm : perm.getLsbD 1 = true)
    (hle : hi ≤ userPages) (hnone : ∀ v, lo ≤ v → v < hi → g.map r v = 0) : Sound L km' g' := by
  have ht := h.table r hr
  have hcase : ∀ f o, o.Data → o ∈ g'.owners f → o ∈ g.owners f ∨
      g.owners f = ∅ ∧ ∃ v, lo ≤ v ∧ v < hi ∧ o = .user r v ∧ ppn (g'.map r v) = f := by
    grind [he.owner, he.fresh]
  refine h.ofFrame (he.frame h.rep h') h' hr (ht.extend he hperm hle hnone) ?_ ?_ ?_ ?_
  · grind
  · intro f v x hu hx
    obtain hu | ⟨hempty, -⟩ := hcase f _ (data_user _ _) hu
    · cases h.held f x _ hx hu trivial
    · grind
  · intro v o hv hw ho hd
    by_cases hin : lo ≤ v ∧ v < hi
    · grind [he.fresh, he.inj]
    · rw [he.out v hin] at hw ho
      obtain hold | ⟨hempty, -⟩ := hcase _ o hd ho
      · exact h.writer r v o hr hv hw hold hd
      · have := ht.owner_self hv (getLsbD_ne_zero hw)
        rw [hempty] at this
        exact absurd this (Finset.notMem_empty _)
  · intro r' v v' hne hl hv hw hu
    obtain hu | ⟨hempty, -⟩ := hcase _ _ (data_user _ _) hu
    · have := h.writer r' v _ hl hv hw hu trivial
      injection this with he
      exact hne he.symm
    · have := (h.table r' hl).owner_self hv (getLsbD_ne_zero hw)
      rw [hempty] at this
      exact absurd this (Finset.notMem_empty _)

theorem Sound.replace (hv : v < userPages) (he : Replace r v km g km' g') : Sound L km' g' := by
  have ht := h.table r hr
  have hempty : ∀ o, o ∉ g.owners (ppn (g'.map r v)) := by
    intro o ho
    rw [he.fresh] at ho
    exact absurd ho (Finset.notMem_empty _)
  refine h.ofFrame (he.frame h.rep h') h' hr (ht.replace hv he) ?_ ?_ ?_ ?_
  · grind [he.owner]
  · intro f v' x hu hx
    obtain ⟨-, rfl⟩ | ⟨-, hu⟩ := (he.owner f _ (data_user _ _)).mp hu
    · exact hempty _ hx
    · cases h.held f x _ hx hu trivial
  · intro v' o hv' hw ho hd
    by_cases hvv : v' = v
    · grind [he.owner]
    · rw [he.map r v' fun e => hvv e.2] at hw ho
      obtain ⟨-, h2⟩ | ⟨-, h2⟩ := (he.owner _ o hd).mp ho
      · have := ht.owner_self hv' (getLsbD_ne_zero hw)
        rw [h2] at this
        exact absurd this (hempty _)
      · exact h.writer r v' o hr hv' hw h2 hd
  · intro r' v1 v2 hne hl hv1 hw hu
    obtain ⟨-, h2⟩ | ⟨-, hu⟩ := (he.owner _ _ (data_user _ _)).mp hu
    · have := (h.table r' hl).owner_self hv1 (getLsbD_ne_zero hw)
      rw [h2] at this
      exact hempty _ this
    · have := h.writer r' v1 _ hl hv1 hw hu trivial
      injection this with he
      exact hne he.symm

end

theorem Sound.share (h : Sound L km g) (hr : g.Live r) (hr' : g.Live r') (hne : r ≠ r')
    (h' : Rep L none km' g') {m n : Nat} (hs : Share r r' m n km g km' g') (hnm : n ≤ m)
    (hm : m ≤ userPages) (hfull : ∀ v, v < m → g.map r v ≠ 0)
    (hnone : ∀ v, v < userPages → g.map r' v = 0) : Sound L km' g' := by
  have ht := h.table r hr
  have htr : Table g' r := ht.shareParent hne hm hs hfull
  have htr' : Table g' r' := ht.shareChild h.rep (h.table r' hr') (by omega) hs
    (fun v hv => hfull v (by omega)) hnone
  have hlive : ∀ r'', g'.Live r'' ↔ g.Live r'' := by
    intro r''
    by_cases he : r'' = r'
    · subst he
      exact ⟨fun _ => hr', fun _ => htr'.live⟩
    · rw [Account.Live, Account.Live, hs.node r'' he]
  -- a frame that the child gets is user memory of the parent
  have hcase : ∀ f o, o.Data → o ∈ g'.owners f → o ∈ g.owners f ∨
      ∃ v, v < n ∧ o = .user r' v ∧ ppn (g.map r v) = f ∧ .user r v ∈ g.owners f := by
    intro f o hd ho
    obtain ho | ⟨v, h1, h2, h3⟩ := (hs.owner f o hd).mp ho
    · exact .inl ho
    · exact .inr ⟨v, h1, h2, h3, h3 ▸ ht.owner_self (by omega) (hfull v (by omega))⟩
  refine ⟨h', ?_, ?_, ?_, ?_, ?_⟩
  · intro f hx
    obtain hx | ⟨v, -, hv, -⟩ := hcase f _ (data_held _) hx
    · exact h.settled f hx
    · cases hv
  · intro r'' hl
    by_cases h1 : r'' = r
    · subst h1
      exact htr
    by_cases h2 : r'' = r'
    · subst h2
      exact htr'
    have ht2 := h.table r'' ((hlive r'').mp hl)
    have hmap := hs.other r'' h1 h2
    refine ⟨hl, ?_, ?_, ?_, ?_⟩ <;> rw [hmap]
    · exact ht2.leaf
    · grind [ht2.owner, hs.owner, data_user]
    · exact ht2.inj
    · exact ht2.system
  · grind [h.user, data_user]
  · intro f x o hx ho hd
    obtain hx | ⟨v, -, hv, -⟩ := hcase f _ (data_held _) hx
    · obtain hold | ⟨v, -, -, -, hu⟩ := hcase f o hd ho
      · exact h.held f x o hx hold hd
      · cases h.held f x _ hx hu trivial
    · cases hv
  · intro r'' v o hl hv hw ho hd
    have hl' := (hlive r'').mp hl
    -- a page with a writable entry has the entry it had before
    have hsame : g'.map r'' v = g.map r'' v ∧ ¬ (r'' = r ∧ v < m) := by
      by_cases h1 : r'' = r
      · have hp := hs.parent v
        by_cases hvm : v < m
        · grind [getLsbD_cowPte]
        · grind
      by_cases h2 : r'' = r'
      · have hc := hs.child v
        by_cases hvn : v < n
        · grind [ht.leaf, getLsbD_childPte, getLsbD_cowPte]
        · grind
      · exact ⟨congrFun (hs.other r'' h1 h2) v, fun e => h1 e.1⟩
    rw [hsame.1] at hw ho
    obtain hold | ⟨v', h1, -, -, hu⟩ := hcase _ o hd ho
    · exact h.writer r'' v o hl' hv hw hold hd
    · have := h.writer r'' v _ hl' hv hw hu trivial
      injection this with h3 h4
      exact absurd ⟨h3.symm, by omega⟩ hsame.2

/-! ## The end of a table -/

theorem Prune.frame (h : Rep L none km g) (h' : Rep L none km' g')
    (hp : Prune r (fun _ => True) km g km' g') : Frame r km g km' g' where
  owner f o ho := by
    cases o with
    | table r' n => exact h.table_iff h' (funext fun n => hp.keep r' n fun e => ho e.1)
    | user => exact hp.data f _ (data_user _ _)
    | held => exact hp.data f _ (data_held _)
  node r' hr := funext fun n => hp.keep r' n fun e => hr e.1
  map r' _ := congrFun hp.map r'
  mem f o hd _ ho := hp.mem f o hd ho

theorem Sound.prune (h : Sound L km g) (h' : Rep L none km' g')
    (hp : Prune r (fun _ => True) km g km' g') (hmap : ∀ v, g.map r v = 0) (hr : g.Live r) :
    Sound L km' g' ∧ ¬ g'.Live r := by
  have hgone : ¬ g'.Live r := by
    intro hl
    rw [Account.Live, hp.gone .root trivial] at hl
    cases hl
  have hback : ∀ r', g'.Live r' → r' ≠ r ∧ g.Live r' := by grind [hp.keep, Account.Live]
  refine ⟨⟨h', ?_, ?_, ?_, ?_, ?_⟩, hgone⟩
  · intro f hf
    exact h.settled f ((hp.data f _ (data_held _)).mp hf)
  · intro r' hl
    exact (h.table r' (hback r' hl).2).frame (hp.frame h.rep h') (hback r' hl).1
  · intro r' v f hu
    have hu' := (hp.data f _ (data_user _ _)).mp hu
    have hr' : r' ≠ r := by
      rintro rfl
      exact (((h.table r' hr).owner v f).mp hu').2.1 (hmap v)
    rw [Account.Live, hp.keep r' .root fun e => hr' e.1]
    exact h.user r' v f hu'
  · grind [h.held, hp.data, data_held]
  · have := hp.map
    have := h.writer
    have := hp.data
    grind

/-! ## Pages that kernel code holds -/

/-- The owners of frame `f` have changed, and its contents; nothing else has. -/
structure Swap (f : Nat) (S : Finset Owner) (km : Kmem) (g : Account) (km' : Kmem)
    (g' : Account) : Prop where
  node : g'.node = g.node
  map : g'.map = g.map
  self : g'.owners f = S
  other : ∀ f', f' ≠ f → g'.owners f' = g.owners f'
  mem : OnlyPage f km.mem km'.mem

theorem Account.refree_swap
    (hmem : OnlyPage f km.mem km'.mem) : Swap f S km g km' (g.refree f S fs) where
  node := rfl
  map := rfl
  self := by simp
  other f' hf := by simp [hf]
  mem := hmem

theorem Sound.swap (h : Sound L km g) (hs : Swap f S km g km' g') (h' : Rep L none km' g')
    (hold : ∀ o ∈ g.owners f, ∃ x, o = .held x) (hS : S = ∅ ∨ ∃ x, x ≠ .fresh ∧ S = {.held x}) :
    Sound L km' g' := by
  have hnew : ∀ o ∈ g'.owners f, ∃ x, x ≠ .fresh ∧ o = .held x := by grind [hs.self]
  have huser : ∀ f' r v, Owner.user r v ∈ g'.owners f' ↔ Owner.user r v ∈ g.owners f' := by
    intro f' r v
    by_cases hf : f' = f
    · grind
    · rw [hs.other f' hf]
  have hlive : ∀ r, g'.Live r ↔ g.Live r := fun r => by rw [Account.Live, Account.Live, hs.node]
  refine ⟨h', ?_, ?_, ?_, ?_, ?_⟩
  · intro f' hx
    by_cases hf : f' = f
    · grind
    · rw [hs.other f' hf] at hx
      exact h.settled f' hx
  · intro r hl
    have ht := h.table r ((hlive r).mp hl)
    refine ⟨hl, ?_, ?_, ?_, ?_⟩ <;> rw [hs.map]
    · exact ht.leaf
    · intro v f'
      rw [huser f' r v]
      exact ht.owner v f'
    · exact ht.inj
    · exact ht.system
  · grind [h.user]
  · intro f' x o hx ho hd
    by_cases hf : f' = f
    · grind [hs.self]
    · rw [hs.other f' hf] at hx ho
      exact h.held f' x o hx ho hd
  · intro r v o hl hv hw ho hd
    rw [hs.map] at hw ho
    have hl' := (hlive r).mp hl
    have hself := (h.table r hl').owner_self hv (getLsbD_ne_zero hw)
    have hf : ppn (g.map r v) ≠ f := by grind
    rw [hs.other _ hf] at ho
    exact h.writer r v o hl' hv hw ho hd

theorem kallocHeld_spec (h : Sound L km g) (hx : x ≠ .fresh) :
    Total kalloc km fun pa km' => (pa = 0 ∧ km' = km ∧ g.free = []) ∨
      ∃ f g', pa = f * pgsize ∧ pa ≠ 0 ∧ g.owners f = ∅ ∧ Swap f {.held x} km g km' g' ∧
        g.free.length = g'.free.length + 1 ∧ Sound L km' g' := by
  refine (kalloc_spec h.rep).mono ?_
  rintro pa km' (⟨hfree, rfl, rfl⟩ | ⟨f, fs, hfree, rfl, hman, ho, hrep, hmem⟩)
  · exact .inl ⟨rfl, rfl, hfree⟩
  · refine .inr ⟨f, g.refree f {.held x} fs, rfl, hman.ne_zero, ho, Account.refree_swap hmem,
      congrArg List.length hfree, ?_⟩
    have hrep' : Rep L none km' (g.refree f {.held x} fs) := by
      have := hrep.rename (f := f) (o := .held .fresh) (.held x)
        (by simp) trivial trivial
      simpa [Account.setOwners] using this
    refine h.swap (Account.refree_swap hmem) hrep' ?_ (.inr ⟨x, hx, rfl⟩)
    intro o hmem
    rw [ho] at hmem
    exact absurd hmem (Finset.notMem_empty _)

theorem kfreeHeld_spec (h : Sound L km g) (hx : .held x ∈ g.owners f) :
    Total (kfree L (f * pgsize)) km fun _ km' => ∃ g', Swap f ∅ km g km' g' ∧ Sound L km' g' := by
  refine (kfree_spec h.rep hx trivial).mono ?_
  rintro - km' ⟨hrep, hmem, -⟩
  have howner := h.held_eq hx
  have hs : Swap f ∅ km g km' (g.release f (.held x)) := by
    have : Swap f ((g.owners f).erase (.held x)) km g km'
        (g.refree f ((g.owners f).erase (.held x)) (g.freeAfter f (.held x))) :=
      Account.refree_swap hmem
    simpa [Account.release, howner] using this
  refine ⟨_, hs, h.swap hs hrep ?_ (.inl rfl)⟩
  intro o ho
  rw [howner] at ho
  exact ⟨x, Finset.mem_singleton.mp ho⟩

end Xv6

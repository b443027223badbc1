import Xv6.Fs.BlockSpec
import Mathlib.Data.Multiset.Count

/-!
# The inode table

`Ok sb h s` is what holds of the file system while the references `h` to entries of the inode
table are held: by open files, as current directories and by the running call. The code between
two points of a call is specified by what it does to the inodes as their users see them, `nodes`,
and to the references.
-/

namespace Xv6.Fs

open Multiset
open Function (update update_apply update_of_ne update_self)

variable {sb : Super} {E : Stop → Prop} {h : Multiset Ip} {s s' : State} {ip : Ip} {i : Nat}
variable {Q : Unit → State → Prop}

attribute [local grind =] update_apply

def nodes (sb : Super) (s : State) : Nat → Node := node sb s.dinode s.block

/-- The inode that the entry `ip` of the table is about. -/
abbrev State.node (s : State) (sb : Super) (ip : Ip) : Node := nodes sb s (s.inode ip).inum

/-- What holds of the file system while the references `h` are held. -/
structure Ok (sb : Super) (h : Multiset Ip) (s : State) : Prop where
  refs : ∀ ip, (s.inode ip).ref = h.count ip
  uniq : ∀ ip ∈ h, ∀ ip' ∈ h, (s.inode ip).inum = (s.inode ip').inum → ip = ip'
  inum : ∀ ip ∈ h, 1 ≤ (s.inode ip).inum ∧ (s.inode ip).inum < sb.ninodes
  /-- a copy that is valid is that of the disk -/
  clean : ∀ ip ∈ h, (s.inode ip).valid = true →
    (s.inode ip).toDinode = s.dinode (s.inode ip).inum ∧ (s.inode ip).type ≠ .free
  owned : Owned sb s.bitmap s.dinode s.block
  /-- an allocated inode without links is in use -/
  kept : ∀ i, sb.Live s.dinode i → (s.dinode i).nlink = 0 →
    ∃ ip ∈ h, (s.inode ip).valid = true ∧ (s.inode ip).inum = i

abbrev Same (h : Multiset Ip) (s s' : State) : Prop :=
  ∀ ip ∈ h, (s'.inode ip).inum = (s.inode ip).inum ∧ ((s.inode ip).valid = true →
    (s'.inode ip).valid = true ∧ (s'.inode ip).type = (s.inode ip).type)

/-- The references `h` stay what they are, and what they refer to is not freed. -/
structure Keeps (h : Multiset Ip) (s s' : State) : Prop where
  fields : Same h s s'
  live : ∀ ip ∈ h, (s.dinode (s.inode ip).inum).type ≠ .free →
    (s'.dinode (s.inode ip).inum).type ≠ .free

instance : CoeFun (Keeps h s s') fun _ => Same h s s' :=
  ⟨Keeps.fields⟩

theorem Keeps.of_dinode (hd : s'.dinode = s.dinode) (hf : Same h s s') : Keeps h s s' :=
  ⟨hf, fun ip _ hl => by rwa [hd]⟩

theorem Keeps.refl : Keeps h s s := .of_dinode rfl fun _ _ => ⟨rfl, fun hv => ⟨hv, rfl⟩⟩

theorem Keeps.trans {s'' : State} (h1 : Keeps h s s') (h2 : Keeps h s' s'') : Keeps h s s'' := by
  refine ⟨?_, ?_⟩
  · intro ip hip
    obtain ⟨e1, v1⟩ := h1 ip hip
    obtain ⟨e2, v2⟩ := h2 ip hip
    refine ⟨e2.trans e1, fun hv => ?_⟩
    obtain ⟨hv1, t1⟩ := v1 hv
    obtain ⟨hv2, t2⟩ := v2 hv1
    exact ⟨hv2, t2.trans t1⟩
  · intro ip hip hl
    have h3 := h2.live ip hip
    rw [(h1 ip hip).1] at h3
    exact h3 (h1.live ip hip hl)

theorem Keeps.of_subset {h' : Multiset Ip} (h1 : Keeps h s s') (hle : h' ⊆ h) : Keeps h' s s' :=
  ⟨fun ip hip => h1 ip (hle hip), fun ip hip => h1.live ip (hle hip)⟩

theorem Keeps.of_cons (h1 : Keeps (ip ::ₘ h) s s') : Keeps h s s' := h1.of_subset (subset_cons h ip)

/-- The disk is as before, but for inode `i`. -/
structure Elsewhere (i : Nat) (s s' : State) : Prop where
  bitmap : s'.bitmap = s.bitmap
  block : s'.block = s.block
  dinode : ∀ j, j ≠ i → s'.dinode j = s.dinode j

theorem Elsewhere.trans {s'' : State} (h1 : Elsewhere i s s') (h2 : Elsewhere i s' s'') :
    Elsewhere i s s'' :=
  ⟨h2.bitmap.trans h1.bitmap, h2.block.trans h1.block,
    fun j hj => (h2.dinode j hj).trans (h1.dinode j hj)⟩

/-- The disk and held references are as before. -/
structure Quiet (sb : Super) (h : Multiset Ip) (s s' : State) : Prop where
  bitmap : s'.bitmap = s.bitmap
  dinode : s'.dinode = s.dinode
  block : s'.block = s.block
  fields : Same h s s'

theorem Quiet.nodes_eq (hq : Quiet sb h s s') : nodes sb s' = nodes sb s := by
  rw [nodes, hq.dinode, hq.block, nodes]

theorem Quiet.keeps (hq : Quiet sb h s s') : Keeps h s s' := .of_dinode hq.dinode hq.fields

theorem Quiet.elsewhere (hq : Quiet sb h s s') : Elsewhere i s s' :=
  ⟨hq.bitmap, hq.block, fun j _ => congrFun hq.dinode j⟩

theorem Quiet.refl : Quiet sb h s s := ⟨rfl, rfl, rfl, Keeps.refl.fields⟩

theorem Quiet.trans {s'' : State} (h1 : Quiet sb h s s') (h2 : Quiet sb h s' s'') :
    Quiet sb h s s'' :=
  ⟨h2.bitmap.trans h1.bitmap, h2.dinode.trans h1.dinode, h2.block.trans h1.block,
    (h1.keeps.trans h2.keeps).fields⟩

theorem Quiet.of_cons (h1 : Quiet sb (ip ::ₘ h) s s') : Quiet sb h s s' :=
  ⟨h1.bitmap, h1.dinode, h1.block, h1.keeps.of_cons.fields⟩

theorem nodes_free (h : (nodes sb s i).type = .free) : nodes sb s i = {} := by
  by_cases hl : sb.Live s.dinode i
  · exact absurd h ((node_type_ne i).mpr hl)
  · exact if_neg hl

theorem nodes_live : (nodes sb s i).type ≠ .free ↔ sb.Live s.dinode i := node_type_ne i

/-! ## Facts about held references -/

theorem Ok.ref_pos (hs : Ok sb h s) : 0 < (s.inode ip).ref ↔ ip ∈ h := by
  rw [hs.refs, ← count_pos]
  omega

theorem Ok.not_mem (hs : Ok sb h s) : (s.inode ip).ref = 0 ↔ ip ∉ h := by
  rw [hs.refs, ← count_eq_zero]
  omega

section

variable (hs : Ok sb h s) (hip : ip ∈ h) (hv : (s.inode ip).valid = true)

include hs hip hv

theorem Ok.live : sb.Live s.dinode (s.inode ip).inum := by
  obtain ⟨hc, ht⟩ := hs.clean ip hip hv
  exact ⟨(hs.inum ip hip).1, (hs.inum ip hip).2, hc ▸ ht⟩

theorem Ok.owns : Owns sb ip s := by
  have e := view_of_clean (hs.clean ip hip hv).1
  exact ⟨e ▸ hs.owned, e ▸ hs.live hip hv⟩

theorem Ok.node_eq :
    let n := nodes sb s (s.inode ip).inum
    n.type = (s.inode ip).type ∧ n.nlink = (s.inode ip).nlink ∧ n.size = (s.inode ip).size ∧
      n.major = (s.inode ip).major ∧ n.minor = (s.inode ip).minor := by
  have hc := (hs.clean ip hip hv).1
  simp only [nodes, node_live (hs.live hip hv), ← hc, and_self]

end

/-- A reference that can be dropped without freeing the inode. -/
def Borrowed (sb : Super) (h : Multiset Ip) (s : State) (ip : Ip) : Prop :=
  ip ∈ h ∨ (nodes sb s (s.inode ip).inum).type = .free ∨ (nodes sb s (s.inode ip).inum).nlink ≠ 0

theorem Borrowed.quiet (hq : Quiet sb (ip ::ₘ h) s s') (hb : Borrowed sb h s ip) :
    Borrowed sb h s' ip := by
  rw [Borrowed, hq.nodes_eq, (hq.keeps ip (mem_cons_self ip h)).1]
  exact hb

theorem Borrowed.of_fields (hb : Borrowed sb h s ip) (hi : (s'.inode ip).inum = (s.inode ip).inum)
    (ht : (nodes sb s' (s.inode ip).inum).type = (nodes sb s (s.inode ip).inum).type)
    (hn : (nodes sb s' (s.inode ip).inum).nlink = (nodes sb s (s.inode ip).inum).nlink) :
    Borrowed sb h s' ip := by
  rw [Borrowed, hi, ht, hn]
  exact hb

theorem Borrowed.cons (hb : Borrowed sb h s ip) (ip' : Ip) : Borrowed sb (ip' ::ₘ h) s ip :=
  hb.imp_left mem_cons_of_mem

theorem Borrowed.of_cons {ip' : Ip} (hb' : Borrowed sb h s ip')
    (hb : Borrowed sb (ip' ::ₘ h) s ip) : Borrowed sb h s ip := by
  rcases hb with hmem | hb
  · rcases mem_cons.mp hmem with rfl | hmem
    · exact hb'
    · exact .inl hmem
  · exact .inr hb

theorem Ok.borrowed (hs : Ok sb h s) (hs' : Ok sb (ip ::ₘ h) s') (hq : Quiet sb h s s') :
    Borrowed sb h s' ip := by
  by_cases hl : sb.Live s.dinode (s'.inode ip).inum
  · by_cases hn : (s.dinode (s'.inode ip).inum).nlink = 0
    · obtain ⟨ip', hip', _, he⟩ := hs.kept _ hl hn
      have heq : ip = ip' := by
        apply hs'.uniq ip (mem_cons_self ip h) ip' (mem_cons_of_mem hip')
        rw [(hq.keeps ip' hip').1, he]
      exact .inl (heq ▸ hip')
    · refine .inr (.inr ?_)
      rwa [hq.nodes_eq, nodes, node_live hl]
  · refine .inr (.inl ?_)
    rw [hq.nodes_eq]
    by_contra ht
    exact hl (nodes_live.mp ht)

/-! ## Taking references -/

theorem Ok.dup (hs : Ok sb h s) (hip : ip ∈ h) : Ok sb (ip ::ₘ h) { s with
        inode := update s.inode ip
          { s.inode ip with ref := (s.inode ip).ref + 1 } } := by
  have hmem : ∀ ip', ip' ∈ ip ::ₘ h ↔ ip' ∈ h := by grind
  refine ⟨?_, ?_, ?_, ?_, hs.owned, ?_⟩
  · intro ip'
    grind [hs.refs, count_cons]
  · grind [hs.uniq]
  · have := hs.inum
    grind
  · grind [hs.clean]
  · intro i hl hn
    obtain ⟨ip', hip', hv, he⟩ := hs.kept i hl hn
    grind

theorem Ok.recycle (hs : Ok sb h s) (hip : ip ∉ h) (hi : 1 ≤ i ∧ i < sb.ninodes)
    (hnone : ∀ ip' ∈ h, (s.inode ip').inum ≠ i) :
    Ok sb (ip ::ₘ h)
      { s with
        inode := update s.inode ip
          { s.inode ip with inum := i, ref := 1, valid := false } } := by
  refine ⟨?_, ?_, ?_, ?_, hs.owned, ?_⟩
  · intro ip'
    grind [hs.refs, hs.not_mem.mpr hip, count_cons]
  · grind [hs.uniq]
  · have := hs.inum
    grind
  · grind [hs.clean]
  · intro i' hl hn
    obtain ⟨ip', hip', hv, he⟩ := hs.kept i' hl hn
    refine ⟨ip', mem_cons_of_mem hip', ?_⟩
    grind

def Crowded (h : Multiset Ip) : Prop := ∃ ip : Ip, ∀ ip', ip' ∈ ip ::ₘ h

theorem iget_spec (hE : (∀ ip, ip ∈ h) → E .iget) (hs : Ok sb h s) (hi : 1 ≤ i ∧ i < sb.ninodes) :
    Wp E (iget i) s fun ip s' => Ok sb (ip ::ₘ h) s' ∧ Quiet sb h s s' ∧
      (s'.inode ip).inum = i := by
  refine .bind (.get ?_)
  cases hf : s.firstInode fun x => 0 < x.ref && x.inum = i with
  | some ip =>
    have hp := List.find?_some hf
    simp only [Bool.and_eq_true, decide_eq_true_eq] at hp
    have hip : ip ∈ h := hs.ref_pos.mp hp.1
    refine .bind (setInode_spec (.pure ⟨hs.dup hip, ⟨rfl, rfl, rfl, ?_⟩, ?_⟩))
    · grind
    · simp [hp.2]
  | none =>
    have hnone : ∀ ip' ∈ h, (s.inode ip').inum ≠ i := by
      intro ip' hip' he
      have hn := List.find?_eq_none.mp hf ip' (List.mem_finRange ip')
      simp [hs.ref_pos.mpr hip', he] at hn
    cases hf' : s.firstInode fun x => x.ref = 0 with
    | none =>
      refine .of_error rfl (hE fun ip => not_not.mp fun hip => ?_)
      have hn := List.find?_eq_none.mp hf' ip (List.mem_finRange ip)
      simp [hs.not_mem.mpr hip] at hn
    | some ip =>
      have hp := List.find?_some hf'
      have hip : ip ∉ h := hs.not_mem.mp (by simpa using hp)
      refine .bind (setInode_spec (.pure ⟨hs.recycle hip hi hnone, ⟨rfl, rfl, rfl, ?_⟩, ?_⟩))
      · grind
      · simp

section

variable (hs : Ok sb h s) (hip : ip ∈ h)

include hs hip

theorem idup_spec :
    Wp E (idup ip) s fun r s' => r = ip ∧ Ok sb (ip ::ₘ h) s' ∧ Quiet sb h s s' := by
  refine .bind (setInode_spec (.pure ⟨rfl, hs.dup hip, rfl, rfl, rfl, ?_⟩))
  intro ip' _
  grind

/-! ## Locks -/

theorem Ok.load (hl : sb.Live s.dinode (s.inode ip).inum) : Ok sb h { s with
        inode := update s.inode ip
          { s.inode ip with toDinode := s.dinode (s.inode ip).inum, valid := true } } := by
  refine ⟨?_, ?_, ?_, ?_, hs.owned, ?_⟩
  · grind [hs.refs]
  · grind [hs.uniq]
  · have := hs.inum
    grind
  · grind [hs.clean, hl.2.2]
  · intro i' hl hn
    obtain ⟨ip', hip', hv, he⟩ := hs.kept i' hl hn
    grind

theorem ilock_spec (hE : (nodes sb s (s.inode ip).inum).type = .free → E .ilockNoType) :
    Wp E (ilock sb ip) s fun _ s' => Ok sb h s' ∧ Quiet sb h s s' ∧ (s'.inode ip).valid = true := by
  have href : ¬(s.inode ip).ref < 1 := by
    have := hs.ref_pos.mpr hip
    omega
  refine .bind (.get ?_)
  rw [if_neg href]
  by_cases hv : (s.inode ip).valid = true
  · rw [if_pos hv]
    exact .pure ⟨hs, .refl, hv⟩
  · have hr := (hs.inum ip hip).2
    rw [if_neg hv, if_neg (Nat.not_le.mpr hr)]
    refine .bind (setInode_spec ?_)
    refine .ite (fun ht => ?_) fun ht => ?_
    · refine .of_error rfl (hE ?_)
      by_contra hl
      exact (nodes_live.mp hl).2.2 ht
    · refine .pure ⟨hs.load hip ⟨(hs.inum ip hip).1, hr, ht⟩, ⟨rfl, rfl, rfl, ?_⟩, by simp⟩
      intro ip' _
      grind

theorem iunlock_spec (hQ : Q () s) : Wp E (iunlock ip) s Q := by
  have href : ¬(s.inode ip).ref < 1 := by
    have := hs.ref_pos.mpr hip
    omega
  refine .bind (.get ?_)
  rw [if_neg href]
  exact .pure hQ

end

/-! ## Changing an inode -/

def State.saved (s : State) (ip : Ip) (d : Dinode) : State :=
  { s with
    dinode := update s.dinode (s.inode ip).inum d
    inode := update s.inode ip { s.inode ip with toDinode := d } }

section Saved

variable {d : Dinode} {bm : Nat → Bool} {blk : Nat → Block} {ip' : Ip}

theorem saved_inode : (s.saved ip d).inode ip' =
    if ip' = ip then { s.inode ip' with toDinode := d } else s.inode ip' := by
  by_cases hip : ip' = ip
  · subst hip
    simp [State.saved]
  · simp [State.saved, hip]

@[simp] theorem saved_inum : ((s.saved ip d).inode ip').inum = (s.inode ip').inum := by
  rw [saved_inode]
  split <;> rfl

@[simp] theorem saved_ref : ((s.saved ip d).inode ip').ref = (s.inode ip').ref := by
  rw [saved_inode]
  split <;> rfl

@[simp] theorem saved_valid : ((s.saved ip d).inode ip').valid = (s.inode ip').valid := by
  rw [saved_inode]
  split <;> rfl

theorem keeps_saved (hd : d.type = (s.inode ip).type) (ht : d.type ≠ .free) :
    Keeps h s { s.saved ip d with bitmap := bm, block := blk } := by
  refine ⟨?_, ?_⟩
  · grind [saved_inum, saved_inode]
  · intro ip' _ hl
    dsimp only [State.saved]
    rw [update_apply]
    split
    · exact ht
    · exact hl

theorem Ok.save (hs : Ok sb h s) (hip : ip ∈ h) (hv : (s.inode ip).valid = true)
    (hd : d.type ≠ .free) (ho : Owned sb bm (update s.dinode (s.inode ip).inum d) blk) :
    Ok sb h { s.saved ip d with bitmap := bm, block := blk } := by
  have hne : ∀ i, i ≠ (s.inode ip).inum → (s.saved ip d).dinode i = s.dinode i :=
    fun i hi => update_of_ne hi _ _
  have hself : (s.saved ip d).dinode (s.inode ip).inum = d := update_self ..
  refine ⟨?_, ?_, ?_, ?_, ho, ?_⟩
  · intro ip'
    rw [saved_ref, hs.refs]
  · grind [hs.uniq, saved_inum]
  · intro ip' hip'
    rw [saved_inum]
    exact hs.inum ip' hip'
  · intro ip' hip' hv'
    by_cases he : ip' = ip
    · subst he
      simp only [saved_inode, if_true]
      exact ⟨hself.symm, hd⟩
    · grind [hs.uniq, hs.clean, saved_inode]
  · intro i hl hn
    by_cases hi : i = (s.inode ip).inum
    · exact ⟨ip, hip, saved_valid.trans hv, saved_inum.trans hi.symm⟩
    · obtain ⟨ip', hip', hv', he⟩ := hs.kept i ((live_congr (hne i hi)).mp hl) (hne i hi ▸ hn)
      exact ⟨ip', hip', saved_valid.trans hv', saved_inum.trans he⟩

end Saved

theorem isaveMeta_spec {f : Inode → Inode} (hs : Ok sb h s) (hip : ip ∈ h)
    (hv : (s.inode ip).valid = true) (major minor nlink : Int)
    (hf : f (s.inode ip) = { s.inode ip with major := major, minor := minor, nlink := nlink }) :
    Wp E (isave sb ip f) s fun _ s' => Ok sb h s' ∧ Keeps h s s' ∧
      Elsewhere (s.inode ip).inum s s' ∧ nodes sb s' = update (nodes sb s) (s.inode ip).inum
        { nodes sb s (s.inode ip).inum with major := major, minor := minor, nlink := nlink } := by
  have hl := hs.live hip hv
  obtain ⟨hc, ht⟩ := hs.clean ip hip hv
  refine isave_spec (by rw [hf]) (hs.inum ip hip).2 ?_
  have hd : (f (s.inode ip)).toDinode = { s.dinode (s.inode ip).inum with
      major := major, minor := minor, nlink := nlink } := by
    rw [hf, ← hc]
  have he : ({ s with
      inode := update s.inode ip (f (s.inode ip))
      dinode := update s.dinode (s.inode ip).inum (f (s.inode ip)).toDinode } : State) =
      { s.saved ip (f (s.inode ip)).toDinode with bitmap := s.bitmap, block := s.block } := by
    rw [State.saved, hf]
  rw [he]
  have ho : Owned sb s.bitmap (update s.dinode (s.inode ip).inum
      (f (s.inode ip)).toDinode) s.block := by
    apply hs.owned.setMeta
    · rw [hd]
    · rw [hd]
    · intro hl
      rw [hd]
      exact hs.owned.isMapped hl
  have ht' : (f (s.inode ip)).type ≠ .free := by
    rw [hf]
    exact ht
  refine ⟨hs.save hip hv ht' ho, keeps_saved (by rw [hf]) ht',
    ⟨rfl, rfl, fun _ hj => update_of_ne hj _ _⟩, ?_⟩
  rw [nodes, State.saved, node_setMeta hl (by rw [hd]) (by rw [hd]) (by rw [hd]), hd]
  rfl

theorem itrunc_ok (hs : Ok sb h s) (hip : ip ∈ h) (hv : (s.inode ip).valid = true) :
    Wp E (itrunc sb ip) s fun _ s' => Ok sb h s' ∧ Keeps h s s' ∧
      nodes sb s' = update (nodes sb s) (s.inode ip).inum
        { nodes sb s (s.inode ip).inum with size := 0, data := fun _ => 0 } := by
  obtain ⟨hc, ht⟩ := hs.clean ip hip hv
  refine (itrunc_spec (hs.owns hip hv)).mono ?_
  rintro _ s' ⟨bm, rfl, ho⟩
  refine ⟨hs.save hip hv ht ho, keeps_saved rfl ht, ?_⟩
  have hn : node sb (update s.dinode (s.inode ip).inum (s.inode ip).toDinode.trunc)
      s.block = _ := node_empty (hs.inum ip hip) ht rfl
  refine hn.trans ?_
  rw [nodes, node_live (hs.live hip hv), ← hc]
  rfl

/-! ## Dropping references -/

def State.dropped (s : State) (ip : Ip) : State :=
  { s with inode := update s.inode ip { s.inode ip with ref := (s.inode ip).ref - 1 } }

section Dropped

variable {ip' : Ip}

theorem dropped_inode : (s.dropped ip).inode ip' =
    if ip' = ip then { s.inode ip' with ref := (s.inode ip').ref - 1 } else s.inode ip' := by
  by_cases hip : ip' = ip
  · subst hip
    simp [State.dropped]
  · simp [State.dropped, hip]

@[simp] theorem dropped_inum : ((s.dropped ip).inode ip').inum = (s.inode ip').inum := by
  rw [dropped_inode]
  split <;> rfl

@[simp] theorem dropped_valid : ((s.dropped ip).inode ip').valid = (s.inode ip').valid := by
  rw [dropped_inode]
  split <;> rfl

@[simp] theorem dropped_toDinode :
    ((s.dropped ip).inode ip').toDinode = (s.inode ip').toDinode := by
  rw [dropped_inode]
  split <;> rfl

theorem keeps_dropped : Keeps h s (s.dropped ip) :=
  .of_dinode rfl fun _ _ => ⟨dropped_inum, fun hv => ⟨dropped_valid.trans hv,
    congrArg Dinode.type dropped_toDinode⟩⟩

theorem dropped_ref (hr : (s.inode ip').ref = (ip ::ₘ h).count ip') :
    ((s.dropped ip).inode ip').ref = h.count ip' := by
  rw [count_cons] at hr
  rw [dropped_inode]
  split
  · grind
  · next he => simpa [if_neg he] using hr

end Dropped

theorem Ok.drop (hs : Ok sb (ip ::ₘ h) s)
    (hb : (s.inode ip).valid = true → ip ∈ h ∨ (s.inode ip).nlink ≠ 0) :
    Ok sb h (s.dropped ip) := by
  refine ⟨fun ip' => dropped_ref (hs.refs ip'), ?_, ?_, ?_, hs.owned, ?_⟩
  · have := hs.uniq
    grind [dropped_inum]
  · have := hs.inum
    grind [dropped_inum]
  · intro ip' hip' hv
    rw [dropped_inum, dropped_toDinode]
    exact hs.clean ip' (mem_cons_of_mem hip') (dropped_valid ▸ hv)
  · intro i hl hn
    obtain ⟨ip', hip', hv, he⟩ := hs.kept i hl hn
    have hmem : ip' ∈ h := by
      rcases mem_cons.mp hip' with rfl | hmem
      · rcases hb hv with hmem | hne
        · exact hmem
        · refine absurd ?_ hne
          have hc := (hs.clean ip' hip' hv).1
          rw [he] at hc
          rwa [hc]
      · exact hmem
    exact ⟨ip', hmem, dropped_valid.trans hv, dropped_inum.trans he⟩

def Dinode.freed (d : Dinode) : Dinode := { d.trunc with type := .free }

def State.freed (s : State) (ip : Ip) (bm : Nat → Bool) : State :=
  { s with
    bitmap := bm
    dinode := update s.dinode (s.inode ip).inum (s.inode ip).toDinode.freed
    inode := update s.inode ip
      { s.inode ip with toDinode := (s.inode ip).toDinode.freed, valid := false } }

attribute [local simp] State.freed

theorem ifree_spec (h : Owns sb ip s) :
    Wp E (ifree sb ip) s fun _ s' => ∃ bm, s' = s.freed ip bm ∧ Owned sb bm s'.dinode s'.block := by
  refine (itrunc_spec h).seq ?_
  rintro _ s' ⟨bm, rfl, ho⟩
  have hself : (s.truncated ip bm).inode ip =
      { s.inode ip with toDinode := (s.inode ip).toDinode.trunc } := update_self ..
  refine .bind (isave_spec rfl ?_ (setInode_spec ⟨bm, ?_, ?_⟩))
  · rw [hself]
    exact h.2.2.1
  · simp [State.truncated, Dinode.freed]
  · have ho' := ho.replace (i := (s.inode ip).inum) (d := (s.inode ip).toDinode.freed) ?_ (.inl rfl)
    · simpa [State.truncated, Dinode.freed] using ho'
    · intro p hp
      apply addr_of_addrs_zero _ hp
      intro n hn
      have e : (s.truncated ip bm).dinode (s.inode ip).inum = (s.inode ip).toDinode.trunc :=
        update_self ..
      rw [e, trunc_addrs _ hn]

theorem Ok.free {bm : Nat → Bool} (hs : Ok sb (ip ::ₘ h) s) (hip : ip ∉ h)
    (ho : Owned sb bm (s.freed ip bm).dinode s.block) :
    Ok sb h ((s.freed ip bm).dropped ip) := by
  have hne : ∀ ip', ip' ∈ h → ((s.freed ip bm).dropped ip).inode ip' = s.inode ip' := by
    intro ip' hip'
    have hn : ip' ≠ ip := fun e => hip (e ▸ hip')
    rw [dropped_inode, if_neg hn]
    exact update_of_ne hn _ _
  have hself : (s.freed ip bm).dinode (s.inode ip).inum = (s.inode ip).toDinode.freed :=
    update_self ..
  have hother : ∀ i, i ≠ (s.inode ip).inum → (s.freed ip bm).dinode i = s.dinode i :=
    fun i hi => update_of_ne hi _ _
  have hinum : ∀ ip', ip' ∈ h → (s.inode ip').inum ≠ (s.inode ip).inum := by
    have := hs.uniq
    grind
  refine ⟨?_, ?_, ?_, ?_, ho, ?_⟩
  · intro ip'
    apply dropped_ref
    rw [← hs.refs ip']
    by_cases hn : ip' = ip
    · subst hn
      simp
    · simp [hn]
  · have := hs.uniq
    grind
  · have := hs.inum
    grind
  · intro ip' hip' hv
    rw [hne ip' hip'] at hv ⊢
    have hd : ((s.freed ip bm).dropped ip).dinode = (s.freed ip bm).dinode := rfl
    rw [hd, hother _ (hinum ip' hip')]
    exact hs.clean ip' (mem_cons_of_mem hip') hv
  · intro i hl hn
    have hi : i ≠ (s.inode ip).inum := by
      rintro rfl
      exact hl.2.2 (congrArg Dinode.type hself)
    obtain ⟨ip', hip', hv, he⟩ := hs.kept i ((live_congr (hother i hi)).mp hl)
      (congrArg Dinode.nlink (hother i hi) ▸ hn)
    have hmem : ip' ∈ h := by grind
    refine ⟨ip', hmem, ?_⟩
    rw [hne ip' hmem]
    exact ⟨hv, he⟩

theorem iput_spec (hs : Ok sb (ip ::ₘ h) s) :
    Wp E (iput sb ip) s fun _ s' => Ok sb h s' ∧ Keeps h s s' ∧
      (Quiet sb h s s' ∧ ((s.inode ip).valid = true → Borrowed sb h s ip) ∨
        ¬Borrowed sb h s ip ∧
        nodes sb s' = update (nodes sb s) (s.inode ip).inum {}) := by
  have hmem := mem_cons_self ip h
  have href : (s.inode ip).ref = 1 ↔ ip ∉ h := by
    rw [hs.refs, count_cons_self, ← count_eq_zero]
    omega
  refine .bind (.bind (.get ?_))
  by_cases hc : (s.inode ip).ref = 1 ∧ (s.inode ip).valid ∧ (s.inode ip).nlink = 0
  · obtain ⟨h1, hv, hn⟩ := hc
    have hip := href.mp h1
    rw [if_pos ⟨h1, hv, hn⟩]
    refine (ifree_spec (hs.owns hmem hv)).mono ?_
    rintro _ s' ⟨bm, rfl, ho⟩
    refine setInode_spec ⟨hs.free hip ho, ⟨?_, ?_⟩, .inr ⟨?_, ?_⟩⟩
    · intro ip' hip'
      have : ip' ≠ ip := fun e => hip (e ▸ hip')
      simp [this]
    · intro ip' hip' hl
      have hne : (s.inode ip').inum ≠ (s.inode ip).inum := by
        have := hs.uniq
        grind
      simpa [hne] using hl
    · obtain ⟨ht, hl, -⟩ := hs.node_eq hmem hv
      rintro (hb | hb | hb)
      · exact hip hb
      · exact (hs.clean ip hmem hv).2 (ht ▸ hb)
      · exact hb (hl.trans hn)
    · exact node_free rfl
  · rw [if_neg hc]
    have hb : (s.inode ip).valid = true → ip ∈ h ∨ (s.inode ip).nlink ≠ 0 := by grind
    refine .pure (setInode_spec ⟨hs.drop hb, keeps_dropped,
      .inl ⟨⟨rfl, rfl, rfl, keeps_dropped.fields⟩, fun hv => ?_⟩⟩)
    rcases hb hv with hip | hn
    · exact .inl hip
    · exact .inr (.inr ((hs.node_eq hmem hv).2.1 ▸ hn))

theorem iput_borrowed (hs : Ok sb (ip ::ₘ h) s) (hb : Borrowed sb h s ip) :
    Wp E (iput sb ip) s fun _ s' => Ok sb h s' ∧ Quiet sb h s s' := by
  refine (iput_spec hs).mono ?_
  rintro _ s' ⟨ho, -, hn⟩
  exact ⟨ho, (hn.resolve_right fun hn => hn.1 hb).1⟩

theorem iunlockput_spec (hs : Ok sb (ip ::ₘ h) s) (hQ : Wp E (iput sb ip) s Q) :
    Wp E (iunlockput sb ip) s Q :=
  Wp.bind (iunlock_spec hs (mem_cons_self ip h) hQ)

theorem iunlockput_borrowed (hs : Ok sb (ip ::ₘ h) s) (hb : Borrowed sb h s ip) :
    Wp E (iunlockput sb ip) s fun _ s' => Ok sb h s' ∧ Quiet sb h s s' :=
  iunlockput_spec hs (iput_borrowed hs hb)

/-! ## New inodes -/

def State.alloc (i : Nat) (type : FileType) (s : State) : State :=
  { s with dinode := update s.dinode i { type := type } }

theorem iget_alloc (j : Nat) (type : FileType) :
    iget i (s.alloc j type) = (iget i s).map fun p => (p.1, p.2.alloc j type) := by
  have hf : ∀ f, (s.alloc j type).firstInode f = s.firstInode f := fun _ => rfl
  simp only [iget, Bind.bind, StateT.bind, get, getThe, MonadStateOf.get, StateT.get, Except.bind,
    Pure.pure, Except.pure, hf]
  cases s.firstInode fun x => 0 < x.ref && x.inum = i with
  | some => rfl
  | none =>
    cases s.firstInode fun x => x.ref = 0 with
    | some | none => rfl

/-- State `t` after `ialloc` has taken the reference `ip` to an inode that is free in `s`. -/
structure Fresh (sb : Super) (h : Multiset Ip) (type : FileType) (ip : Ip) (s t : State) :
    Prop where
  ok : Ok sb (ip ::ₘ h) s
  free : (nodes sb s (s.inode ip).inum).type = .free
  eq : t = s.alloc (s.inode ip).inum type

theorem ialloc_spec (hE : E .iget) (hs : Ok sb h s) (type : FileType) :
    Wp E (ialloc sb type) s fun r t =>
      match r with
      | none => t = s ∧ ∀ i, (nodes sb s i).type = .free → ¬(1 ≤ i ∧ i < sb.ninodes)
      | some ip => ∃ s', Fresh sb h type ip s' t ∧ Quiet sb h s s' := by
  refine .bind (.get ?_)
  cases hf : (List.range sb.ninodes).find? fun inum =>
      1 ≤ inum && (s.dinode inum).type = .free with
  | none =>
    refine .pure ⟨rfl, fun i ht hi => ?_⟩
    have hnot := List.find?_eq_none.mp hf i (List.mem_range.mpr hi.2)
    have hlive : (s.dinode i).type ≠ .free := fun hfree => hnot (by simp [hi.1, hfree])
    exact nodes_live.mpr ⟨hi.1, hi.2, hlive⟩ ht
  | some i =>
    have hp := List.find?_some hf
    have hlt := List.mem_range.mp (List.mem_of_find?_eq_some hf)
    simp only [Bool.and_eq_true, decide_eq_true_eq] at hp
    refine .bind (.set ?_)
    refine ((iget_spec (fun _ => hE) hs ⟨hp.1, hlt⟩).frame (iget_alloc i type)).seq ?_
    rintro ip t ⟨s', rfl, hs', hq, hi⟩
    refine .pure ⟨s', ⟨hs', ?_, by rw [hi]⟩, hq⟩
    rw [hi, hq.nodes_eq]
    by_contra ht
    exact (nodes_live.mp ht).2.2 hp.2

theorem Fresh.lock_spec {type : FileType} {t : State} (hf : Fresh sb h type ip s t)
    (htype : type ≠ .free) :
    Wp E (ilock sb ip) t fun _ s' => Ok sb (ip ::ₘ h) s' ∧ Keeps (ip ::ₘ h) s s' ∧
      (s'.inode ip).valid = true ∧ Elsewhere (s.inode ip).inum s s' ∧
      nodes sb s' = update (nodes sb s) (s.inode ip).inum { type := type } := by
  obtain ⟨hs, hfree, rfl⟩ := hf
  have hmem := mem_cons_self ip h
  have hdead : ¬sb.Live s.dinode (s.inode ip).inum := fun hl => nodes_live.mpr hl hfree
  have hv : (s.inode ip).valid = false := by
    by_contra hv
    exact hdead (hs.live hmem (by simpa using hv))
  have href : ¬(s.inode ip).ref < 1 := by
    have := hs.ref_pos.mpr hmem
    omega
  have hr := hs.inum ip hmem
  have hself : (s.alloc (s.inode ip).inum type).dinode (s.inode ip).inum = { type := type } :=
    update_self ..
  have hother : ∀ i, i ≠ (s.inode ip).inum →
      (s.alloc (s.inode ip).inum type).dinode i = s.dinode i :=
    fun i hi => update_of_ne hi _ _
  have hinode : (s.alloc (s.inode ip).inum type).inode = s.inode := rfl
  refine .bind (.get ?_)
  rw [hinode, if_neg href, if_neg (by simp [hv]), if_neg (Nat.not_le.mpr hr.2)]
  refine .bind (setInode_spec ?_)
  rw [hself, if_neg htype, hinode, hself]
  refine .pure ⟨?_, ?_, by simp, ⟨rfl, rfl, hother⟩, ?_⟩
  · have ho : Owned sb s.bitmap (s.alloc (s.inode ip).inum type).dinode s.block :=
      hs.owned.replace (fun p hp => addr_of_not_live hdead hp) (.inr ⟨fun _ _ => rfl, rfl⟩)
    refine ⟨?_, ?_, ?_, ?_, ho, ?_⟩
    · grind [hs.refs]
    · grind [hs.uniq]
    · have := hs.inum
      grind
    · grind [hs.uniq, hs.clean]
    · intro i hl hn
      by_cases hi : i = (s.inode ip).inum
      · exact ⟨ip, hmem, by simp, by simp [hi]⟩
      · obtain ⟨ip', hip', hv', he⟩ := hs.kept i ((live_congr (hother i hi)).mp hl)
          (congrArg Dinode.nlink (hother i hi) ▸ hn)
        have hne : ip' ≠ ip := fun e => hi (e ▸ he).symm
        exact ⟨ip', hip', by simpa [hne] using hv', by simpa [hne] using he⟩
  · refine ⟨?_, ?_⟩ <;> grind
  · exact node_empty hr htype rfl

end Xv6.Fs

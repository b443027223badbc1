import Xv6.Console
import Xv6.Misc.Ring
import Xv6.Sync.Discipline

/-!
# The line discipline of the console

The console is a line editor: characters are typed into a line, which can be edited until it is
committed, and readers take the bytes of committed lines in order.
-/

namespace Xv6.Console

open ByteMem
open Monitor (Next Label Move)
open RingBuf (ofNat_add_one toNat_mod toNat_sub)

variable {n addr : Nat} {s : State n} {q q' : Recorded} {u : Cons} {c : Code} {killed : Bool}

attribute [local grind =] inputBufSize

/-! ## The reference editor -/

/-- A line editor. The bytes of the committed lines are kept forever, and `taken` of them have been
taken by readers. -/
structure Editor where
  committed : List Byte := []
  line : List Byte := []
  taken : Nat := 0

namespace Editor

def text (m : Editor) : List Byte := m.committed ++ m.line

def unread (m : Editor) : Nat := m.text.length - m.taken

def typed (m : Editor) (c : Byte) : Editor :=
  if c = newline ∨ c = ctrlD ∨ m.unread + 1 = inputBufSize then
    { m with committed := m.text ++ [c], line := [] }
  else
    { m with line := m.line ++ [c] }

def input (m : Editor) (c : Byte) : Editor :=
  if c = ctrlP then
    m
  else if c = ctrlU then
    { m with line := [] }
  else if c = ctrlH ∨ c = delete then
    { m with line := m.line.dropLast }
  else if c ≠ 0 ∧ m.unread < inputBufSize then
    m.typed (if c = carriageReturn then newline else c)
  else
    m

def step (m : Editor) : Event → Editor
  | .input c => m.input c
  | .take => { m with taken := m.taken + 1 }

def run (l : List Event) : Editor := l.foldl step {}

theorem run_append (l : List Event) (x : Event) : run (l ++ [x]) = (run l).step x := by simp [run]

end Editor

/-! ## The buffer -/

variable {m : Editor}
variable {x : Next Code Unit}

/-- The buffer holds the text of the editor that has not been taken. -/
structure Refines (q : Cons) (m : Editor) : Prop where
  ring : RingBuf inputBufSize q.buf m.text m.taken
  r : q.r = BitVec.ofNat 32 m.taken
  w : q.w = BitVec.ofNat 32 m.committed.length
  e : q.e = BitVec.ofNat 32 m.text.length
  taken : m.taken ≤ m.committed.length
  line : newline ∉ m.line
  /-- a line is committed when the buffer is full -/
  room : m.line ≠ [] → m.text.length < m.taken + inputBufSize

theorem inputBufSize_dvd : inputBufSize ∣ 2 ^ 32 := by decide

theorem Editor.length_text (m : Editor) : m.text.length = m.committed.length + m.line.length :=
  List.length_append

theorem Refines.sub_eq (h : Refines u m) {a b : Nat} (ha : m.taken ≤ a) (hab : a ≤ b)
    (hb : b ≤ m.text.length) : (BitVec.ofNat 32 b - BitVec.ofNat 32 a).toNat = b - a := by
  have hfits := h.ring.fits
  apply toNat_sub hab
  unfold inputBufSize at hfits
  omega

theorem Refines.unread_eq (h : Refines u m) : (u.e - u.r).toNat = m.unread := by
  rw [h.e, h.r]
  exact h.sub_eq (Nat.le_refl _) h.ring.le (Nat.le_refl _)

theorem Refines.ready_eq (h : Refines u m) : (u.w - u.r).toNat = m.committed.length - m.taken := by
  rw [h.w, h.r]
  apply h.sub_eq (Nat.le_refl _) h.taken
  rw [m.length_text]
  omega

theorem Refines.line_eq (h : Refines u m) : (u.e - u.w).toNat = m.line.length := by
  have hle : m.committed.length ≤ m.text.length := by
    rw [m.length_text]
    omega
  rw [h.e, h.w, h.sub_eq h.taken hle (Nat.le_refl _), m.length_text]
  omega

theorem Refines.e_eq_w (h : Refines u m) : u.e = u.w ↔ m.line = [] := by
  rw [← List.length_eq_zero_iff, ← h.line_eq]
  constructor
  · intro he
    rw [he]
    simp
  · intro he
    have hz : u.e - u.w = 0 := BitVec.eq_of_toNat_eq he
    exact (BitVec.sub_eq_iff_eq_add.mp hz).trans (BitVec.zero_add _)

theorem Refines.r_eq_w (h : Refines u m) : u.r = u.w ↔ m.taken = m.committed.length := by
  have hfits := h.ring.fits
  have hlen := m.length_text
  rw [h.r, h.w]
  apply RingBuf.ofNat_inj h.taken
  unfold inputBufSize at hfits
  omega

/-! ## Keys -/

theorem Editor.text_dropLast (hl : m.line ≠ []) :
    ({ m with line := m.line.dropLast } : Editor).text = m.text.dropLast := by
  exact (List.dropLast_append_of_ne_nil hl).symm

theorem Refines.erase (h : Refines u m) (hl : m.line ≠ []) :
    Refines { u with e := u.e - 1 } { m with line := m.line.dropLast } := by
  have hpos : 0 < m.line.length := List.length_pos_iff.mpr hl
  have hlen := m.length_text
  have htaken := h.taken
  have htext := Editor.text_dropLast hl
  refine ⟨?_, h.r, h.w, ?_, h.taken, ?_, ?_⟩
  · rw [htext]
    apply h.ring.dropLast
    omega
  · grind [h.e, List.length_dropLast, ofNat_add_one, Nat.add_sub_cancel, BitVec.add_sub_cancel]
  · exact fun hmem => h.line ((List.dropLast_sublist _).subset hmem)
  · have := h.room
    grind [List.length_dropLast]

theorem Refines.last (h : Refines u m) (hl : m.line ≠ []) :
    u.buf ((u.e - 1).toNat % inputBufSize) ≠ newline := by
  have hpos : 0 < m.line.length := List.length_pos_iff.mpr hl
  have hlen := m.length_text
  have htaken := h.taken
  have he : (u.e - 1).toNat % inputBufSize = (m.text.length - 1) % inputBufSize := by
    have he1 : u.e - 1 = _ := (h.erase hl).e
    rw [Editor.text_dropLast hl, List.length_dropLast] at he1
    rw [he1, toNat_mod inputBufSize_dvd]
  have hlast : m.text[m.text.length - 1]? = m.line.getLast? := by
    rw [← List.getLast?_eq_getElem?, Editor.text, List.getLast?_append_of_ne_nil _ hl]
  obtain ⟨x, hx⟩ : ∃ x, m.line.getLast? = some x := by grind
  rw [he, h.ring.cell (m.text.length - 1) x (by omega) (hlast.trans hx)]
  rintro rfl
  exact h.line (List.mem_of_getLast? hx)

theorem Refines.killLine (h : Refines u m) {k : Nat} (hk : m.line.length ≤ k) :
    Refines (u.killLine k) { m with line := [] } := by
  induction k generalizing u m with
  | zero =>
    have hl : m.line = [] := List.length_eq_zero_iff.mp (Nat.le_zero.mp hk)
    rw [← hl]
    exact h
  | succ k ih =>
    unfold Cons.killLine
    by_cases hl : m.line = []
    · rw [if_neg (fun hc => hc.1 (h.e_eq_w.mpr hl)), ← hl]
      exact h
    · rw [if_pos ⟨fun he => hl (h.e_eq_w.mp he), h.last hl⟩]
      apply ih (h.erase hl)
      rw [List.length_dropLast]
      omega

theorem Refines.store (h : Refines u m) (hroom : m.unread < inputBufSize) (c : Byte) :
    Refines (u.store c).1 (m.typed (if c = carriageReturn then newline else c)) := by
  unfold Cons.store Editor.typed
  generalize (if c = carriageReturn then newline else c) = c
  have hle := h.ring.le
  have hlt : m.text.length < m.taken + inputBufSize := by
    unfold Editor.unread at hroom
    omega
  have hring : RingBuf inputBufSize (Function.update u.buf (u.e.toNat % inputBufSize) c)
      (m.text ++ [c]) m.taken := by
    rw [h.e, toNat_mod inputBufSize_dvd]
    exact h.ring.push hlt
  have he : u.e + 1 = BitVec.ofNat 32 (m.text ++ [c]).length := by
    rw [h.e, ofNat_add_one, List.length_append, List.length_singleton]
  have hfull : u.e + 1 - u.r = BitVec.ofNat 32 inputBufSize ↔ m.unread + 1 = inputBufSize := by
    have hdist : (u.e + 1 - u.r).toNat = m.unread + 1 := by
      grind [h.e, h.r, ofNat_add_one, toNat_sub, Editor.unread]
    rw [← hdist]
    constructor
    · intro h1
      rw [h1]
      rfl
    · grind
  by_cases hc : c = newline ∨ c = ctrlD ∨ m.unread + 1 = inputBufSize
  · rw [if_pos (by rwa [hfull]), if_pos hc]
    refine ⟨?_, h.r, ?_, ?_, ?_, by simp, by simp⟩
    · simpa [Editor.text] using hring
    · exact he
    · simpa [Editor.text] using he
    · grind
  · rw [if_neg (by rwa [hfull]), if_neg hc]
    refine ⟨?_, h.r, h.w, ?_, h.taken, ?_, ?_⟩
    · simpa [Editor.text] using hring
    · simpa [Editor.text] using he
    · grind [h.line]
    · grind [Editor.text, Nat.add_assoc, Editor.unread]

theorem Refines.intr (h : Refines u m) (c : Byte) : Refines (u.intr c).1 (m.input c) := by
  unfold Cons.intr Editor.input
  split
  · exact h
  split
  · exact h.killLine (Nat.le_of_eq h.line_eq.symm)
  split
  · by_cases hl : m.line = []
    · rw [if_neg (fun hc => hc (h.e_eq_w.mpr hl)), hl]
      have hsame : ({ m with line := [].dropLast } : Editor) = m := by rw [List.dropLast_nil, ← hl]
      rw [hsame]
      exact h
    · rw [if_pos (fun he => hl (h.e_eq_w.mp he))]
      exact h.erase hl
  have hroom : u.e - u.r < BitVec.ofNat 32 inputBufSize ↔ m.unread < inputBufSize := by
    rw [BitVec.lt_def, h.unread_eq]
    rfl
  by_cases hc : c ≠ 0 ∧ m.unread < inputBufSize
  · grind [h.store]
  · grind

theorem Cons.store_w (u : Cons) (c : Byte) (h : (u.store c).2 = false) :
    (u.store c).1.r = u.r ∧ (u.store c).1.w = u.w := by
  unfold Cons.store at h ⊢
  dsimp only at h ⊢
  generalize (if c = carriageReturn then newline else c) = c at h ⊢
  split
  · grind
  · exact ⟨rfl, rfl⟩

theorem Cons.killLine_w (k : Nat) (u : Cons) : (u.killLine k).r = u.r ∧ (u.killLine k).w = u.w := by
  induction k generalizing u with
  | zero => exact ⟨rfl, rfl⟩
  | succ _ ih => grind [Cons.killLine]

theorem Cons.intr_w (u : Cons) (c : Byte) (h : (u.intr c).2 = false) :
    (u.intr c).1.r = u.r ∧ (u.intr c).1.w = u.w := by
  unfold Cons.intr at h ⊢
  split
  · exact ⟨rfl, rfl⟩
  split
  · exact killLine_w _ _
  split
  · grind
  split
  · next h1 h2 h3 h4 =>
    rw [if_neg h1, if_neg h2, if_neg h3, if_pos h4] at h
    exact store_w u c h
  · exact ⟨rfl, rfl⟩

/-! ## Readers -/

def Editor.out (m : Editor) : List Byte := m.committed.take m.taken

def Recorded.editor (q : Recorded) : Editor := Editor.run q.events

theorem Refines.take (h : Refines u m) (hne : u.r ≠ u.w) :
    Refines { u with r := u.r + 1 } (m.step .take) ∧
    (m.step .take).out = m.out ++ [u.buf (u.r.toNat % inputBufSize)] := by
  have hlt : m.taken < m.committed.length :=
    Nat.lt_of_le_of_ne h.taken fun he => hne (h.r_eq_w.mpr he)
  have hlen := m.length_text
  have hlt' : m.taken < m.text.length := by omega
  refine ⟨⟨h.ring.pop hlt', ?_, h.w, h.e, hlt, h.line, ?_⟩, ?_⟩
  · show u.r + 1 = BitVec.ofNat 32 (m.taken + 1)
    rw [h.r, ofNat_add_one]
  · intro hl
    have := h.room hl
    show m.text.length < m.taken + 1 + inputBufSize
    omega
  · show m.committed.take (m.taken + 1) = m.committed.take m.taken ++ _
    have hnext := h.ring.next hlt'
    rw [Editor.text, List.getElem?_append_left hlt] at hnext
    rw [List.take_add_one, hnext, h.r, toNat_mod inputBufSize_dvd]
    rfl

theorem Refines.input_out (h : Refines u m) (c : Byte) : (m.input c).out = m.out := by
  have htaken := h.taken
  unfold Editor.input
  split
  · rfl
  split
  · rfl
  split
  · rfl
  split
  · generalize (if c = carriageReturn then newline else c) = c
    unfold Editor.typed
    split
    · show (m.text ++ [_]).take m.taken = _
      rw [Editor.text, List.append_assoc, List.take_append_of_le_length htaken]
      rfl
    · rfl
  · rfl

def Recorded.eofs (q : Recorded) : Nat := q.reads.countP (·.eof)

structure Good (q : Recorded) : Prop where
  refines : Refines q.toCons q.editor
  delivered : q.delivered = q.editor.out.filter (· ≠ ctrlD)
  eofs : q.eofs = q.editor.out.count ctrlD
  reads : ∀ x ∈ q.reads, x.eof = true → x.got = [] ∧ x.ret = 0

/-- All bytes that are taken from the buffer can be copied to the reader. -/
def Code.delivers : Code → Prop
  | .read ok .. => ∀ i, ok i = true
  | _ => True

/-- The reader gets what it takes, and knows how many bytes it has got. -/
def Code.fine : Code → Prop
  | .read ok target n got => (∀ i, ok i = true) ∧ (got.length : Int) = target - n
  | _ => True

theorem Code.delivers.fine (hd : c.delivers) {process : Bool} (hc : c.isCall process = true) :
    c.fine := by
  cases c with
  | read =>
    simp only [Code.isCall, Bool.and_eq_true, decide_eq_true_eq, List.isEmpty_iff] at hc
    refine ⟨hd, ?_⟩
    rw [hc.2, hc.1.2]
    simp
  | _ => trivial

theorem Good.returns (h : Good q) (got : List Byte) (ret : Int) :
    Good (q.returns got false ret) := by
  refine ⟨h.refines, h.delivered, ?_, ?_⟩
  · show (q.reads ++ [_]).countP _ = _
    rw [List.countP_append]
    exact h.eofs
  · intro x hx
    rcases List.mem_append.mp hx with hx | hx
    · exact h.reads x hx
    · cases List.mem_singleton.mp hx
      simp

theorem Recorded.take_editor (q : Recorded) : q.take.editor = q.editor.step .take :=
  Editor.run_append ..

theorem Good.copy (h : Good q) (hne : q.r ≠ q.w) (hc : q.buf (q.r.toNat % inputBufSize) ≠ ctrlD) :
    Good { q.take with delivered := q.delivered ++ [q.buf (q.r.toNat % inputBufSize)] } := by
  obtain ⟨hr, hout⟩ := h.refines.take hne
  rw [← q.take_editor] at hr hout
  refine ⟨hr, ?_, ?_, h.reads⟩
  · show q.delivered ++ [_] = q.take.editor.out.filter _
    rw [hout, List.filter_append, ← h.delivered, List.filter_cons_of_pos (by simpa using hc)]
    rfl
  · show q.eofs = q.take.editor.out.count ctrlD
    rw [hout, List.count_append, h.eofs, List.count_singleton]
    simp [hc]

theorem Good.takeEof (h : Good q) (hne : q.r ≠ q.w)
    (hc : q.buf (q.r.toNat % inputBufSize) = ctrlD) : Good (q.take.returns [] true 0) := by
  obtain ⟨hr, hout⟩ := h.refines.take hne
  rw [← q.take_editor, hc] at hout
  rw [← q.take_editor] at hr
  refine ⟨hr, ?_, ?_, ?_⟩
  · show q.delivered = q.take.editor.out.filter _
    rw [hout, List.filter_append, ← h.delivered]
    simp
  · show (q.reads ++ [_]).countP _ = q.take.editor.out.count ctrlD
    rw [hout, List.count_append, ← h.eofs, List.countP_append]
    rfl
  · intro x hx
    rcases List.mem_append.mp hx with hx | hx
    · exact h.reads x hx
    · cases List.mem_singleton.mp hx
      simp

theorem Good.intr (h : Good q) (c : Byte) : Good (q.intr c) := by
  have heditor : (q.intr c).editor = q.editor.input c := Editor.run_append ..
  have hout := h.refines.input_out c
  refine ⟨?_, ?_, ?_, h.reads⟩
  · rw [heditor]
    exact h.refines.intr c
  · rw [heditor, hout]
    exact h.delivered
  · rw [heditor, hout]
    exact h.eofs

theorem Exec.good (he : Exec killed q c q' x) (hd : c.fine) (h : Good q) :
    Good q' ∧ x.code.fine := by
  cases he with
  | enough | noReader | keepEof => exact ⟨h.returns _ _, trivial⟩
  | sleep => exact ⟨h, hd⟩
  | @takeEof ok target n got hne hc hn =>
    have hgot : got = [] := by
      apply List.length_eq_zero_iff.mp
      have := hd.2
      omega
    have hret : target - n = 0 := by
      rw [← hd.2, hgot]
      rfl
    rw [hgot, hret]
    exact ⟨h.takeEof hne hc, trivial⟩
  | lose _ hok =>
    rw [hd.1] at hok
    cases hok
  | endOfLine hne hc => exact ⟨(h.copy hne hc).returns _ _, trivial⟩
  | copy hne hc =>
    refine ⟨h.copy hne hc, hd.1, ?_⟩
    have := hd.2
    simp only [List.length_append, List.length_singleton]
    omega
  | commit | edit => exact ⟨h.intr _, trivial⟩

theorem Empty.good (h : Empty q) : Good q := by
  have heditor : q.editor = {} := by
    rw [Recorded.editor, h.events]
    rfl
  refine ⟨?_, ?_, ?_, ?_⟩
  · rw [heditor]
    exact ⟨.empty _ _, h.r, h.w, h.e, Nat.le_refl 0, by simp, by simp⟩
  · rw [heditor, h.delivered]
    rfl
  · rw [heditor, Recorded.eofs, h.reads]
    rfl
  · rw [h.reads]
    simp

def delivers : Label n Code → Prop
  | .call c => c.delivers
  | _ => True

theorem Reachable.good (h : Reachable addr (fun _ l => delivers l) s) : Good s.data := by
  have hkeeps := h.keeps (D := Good) (J := fun _ => Code.fine) (fun q hq => hq.good)
    (fun _ _ c hd hc => hd.fine hc) ?_
  · exact hkeeps.data
  · intro killed q c hc hq hd
    obtain ⟨hg, hf⟩ := (Code.exec_spec hc killed q).good hd hq
    exact ⟨hg, hf, fun _ h => h⟩

/-! ## Sleepers -/

theorem Exec.after {o : Unit → Bool} (he : Exec killed q c q' x) (ho : ∀ ch, o ch = false) :
    Monitor.After (obj addr) (fun _ o _ _ => ∀ ch, o ch = false) q'
      (fun _ => decide (q'.r ≠ q'.w) && (o () || !decide (q.r ≠ q.w))) killed x := by
  have hpaid : q.r ≠ q.w ∨ q'.r = q'.w →
      ∀ ch : Unit, (decide (q'.r ≠ q'.w) && (o () || !decide (q.r ≠ q.w))) = false := by grind
  cases he with
  | enough =>
    by_cases h : q.r = q.w
    · exact hpaid (.inr h)
    · exact hpaid (.inl h)
  | noReader hempty => exact hpaid (.inr hempty)
  | sleep hempty =>
    refine ⟨hpaid (.inr hempty), ?_, fun _ _ _ => rfl⟩
    simp [obj, hempty]
  | keepEof hne | takeEof hne | lose hne | endOfLine hne | copy hne => exact hpaid (.inl hne)
  | commit => exact ⟨fun ch hch => absurd rfl hch, fun _ _ => rfl⟩
  | edit hc =>
    obtain ⟨hr, hw⟩ := Cons.intr_w _ _ hc
    by_cases h : q.r = q.w
    · refine hpaid (.inr ?_)
      show (q.toCons.intr _).1.r = (q.toCons.intr _).1.w
      rw [hr, hw]
      exact h
    · exact hpaid (.inl h)

/-- The code of the console pays its debts: `consoleintr` calls `wakeup` at every commit. -/
def discipline (addr : Nat) : Monitor.Discipline (obj addr) (fun _ => True) where
  hold _ o _ _ := ∀ ch, o ch = false
  addr_inj _ _ _ := rfl
  call _ _ _ _ _ _ := rfl
  exec q _ killed _ hc h := (Code.exec_spec hc killed q).after h
  leave _ _ _ _ _ h := h
  kill _ _ _ _ _ h := h

/-! ## The console -/

/-- In every interleaving of typing and reading, the indices are in order and at most the size of the
buffer apart; who sleeps in `consoleread` while the lock is free has nothing to read; a full buffer
has something to read; the bytes that were copied to readers are those that were taken of the lines
that the reference editor has committed, without `C('D')`; and each `C('D')` was taken by a read of
its own, which returned no bytes. -/
theorem console_line_discipline (h : Reachable addr (fun _ l => delivers l) s) :
    (s.data.w - s.data.r).toNat ≤ (s.data.e - s.data.r).toNat ∧
    (s.data.e - s.data.r).toNat ≤ inputBufSize ∧
    (s.lk = none → ∀ p ok target m got, s.pos (.proc p) = .asleep (.read ok target m got) →
      (s.proc p).state = .sleeping → s.data.r = s.data.w) ∧
    ((s.data.e - s.data.r).toNat = inputBufSize → s.data.r ≠ s.data.w) ∧
    s.data.editor.taken + (s.data.w - s.data.r).toNat = s.data.editor.committed.length ∧
    s.data.delivered = (s.data.editor.committed.take s.data.editor.taken).filter (· ≠ ctrlD) ∧
    (s.data.editor.committed.take s.data.editor.taken).count ctrlD = s.data.reads.countP (·.eof) ∧
    ∀ x ∈ s.data.reads, x.eof = true → x.got = [] ∧ x.ret = 0 := by
  obtain ⟨hr, hdelivered, heofs, hreads⟩ := h.good
  have hlen := s.data.editor.length_text
  have hfits := hr.ring.fits
  have htaken := hr.taken
  refine ⟨?_, ?_, ?_, ?_, ?_, hdelivered, heofs.symm, hreads⟩
  · rw [hr.ready_eq, hr.unread_eq, Editor.unread]
    omega
  · rw [hr.unread_eq, Editor.unread]
    omega
  · intro hlk p ok target m got hpos hs
    have hcond := h.asleep (discipline addr) (fun _ l _ => by cases l <;> simp [Label.calm]) hlk
      hpos hs
    simpa [obj] using hcond
  · intro hfull hempty
    -- a line that is edited leaves room, so everything in the buffer is committed
    rw [hr.unread_eq, Editor.unread] at hfull
    have hall := hr.r_eq_w.mp hempty
    by_cases hl : s.data.editor.line = []
    · grind [List.length_nil]
    · have := hr.room hl
      omega
  · rw [hr.ready_eq]
    omega

/-- A line and `C('D')` are typed; the reader gets the line, and then nothing. -/
theorem console_line_discipline_line :
    ∃ s : State 1, Reachable 4096 (fun _ l => delivers l) s ∧ s.data.delivered = [0x68, newline] ∧
      s.data.reads.countP (·.eof) = 1 ∧
      s.data.delivered = (s.data.editor.committed.take s.data.editor.taken).filter (· ≠ ctrlD) := by
  let typed : List Byte := [0x68, 0x69, delete, carriageReturn, ctrlD]
  let moves : List (Move 1 Code) :=
    (typed.flatMap fun c => [.call (.cpu 0) (.intr c), .go (.cpu 0) 6]) ++
      [.call (.proc 0) (.read (fun _ => true) 10 10 []), .go (.proc 0) 4,
        .call (.proc 0) (.read (fun _ => true) 10 10 []), .go (.proc 0) 4]
  have h : Reachable 4096 (fun _ l => delivers l) ((running 1).play (obj 4096) moves) := by
    refine .play (running_reachable 4096 _) moves ?_
    simp [moves, typed, Move.label, delivers, Code.delivers]
  obtain ⟨-, -, -, -, -, hdelivered, -, -⟩ := console_line_discipline h
  exact ⟨_, h, by decide +kernel, by decide +kernel, hdelivered⟩

end Xv6.Console

import Xv6.Kernel.Replay
import Xv6.Kernel.StepSpec

/-!
# The tables of `syscall`

`syscall` of `kernel/syscall.c` with its argument count, its table of names and its array of
arguments. Every element that is read or written is noted. An index outside `totalArgs` finds
whatever stands in memory there.
-/

namespace Xv6.Dispatch

open ByteMem

variable {L : Layout} {k : Kernel} {p : Slot} {o : Outside}

/-- An array element that `syscall` reads or writes. -/
inductive Touch where
  | totalArgs (i : Int)
  | syscallnames (i : Int)
  | args (i : Int)

def syscallnames : List String :=
  ["fork", "exit", "wait", "pipe", "read", "kill", "exec", "fstat", "chdir", "dup", "getpid",
   "sbrk", "sleep", "uptime", "open", "write", "mknod", "unlink", "link", "mkdir", "close", "trace",
   "settickets", "setpriority", "sigalarm", "sigreturn", "waitx"]

def totalArgs : List Int :=
  [0, 1, 1, 0, 3, 2, 2, 1, 1, 1, 0, 1, 1, 0, 2, 3, 3, 1, 2, 1, 1, 1, 1, 2, 2, 0, 3]

def Touch.InBounds : Touch → Prop
  | .totalArgs i => 0 ≤ i ∧ i < Dispatch.totalArgs.length
  | .syscallnames i => 0 ≤ i ∧ i < Dispatch.syscallnames.length
  | .args i => 0 ≤ i ∧ i < 3

/-- The state of `syscall`: the kernel, the elements touched so far and the text printed. -/
structure Sys where
  kernel : Kernel
  touched : List Touch := []
  printed : String := ""

/-- How `syscall` can stop: in `argraw`, or in the function it calls. -/
inductive Fault where
  | argraw (touched : List Touch)
  | panic (e : Panic) (touched : List Touch)

abbrev S := StateT Sys (Except Fault)

/-- What `syscall` depends on outside the model: the words beyond `totalArgs`, and the name of the
process. -/
structure Env where
  stray : Int → Int
  name : String

def call {α : Type} (m : K α) : S α := fun s =>
  match m s.kernel with
  | .ok (a, k) => .ok (a, { s with kernel := k })
  | .error e => .error (.panic e s.touched)

def touch (t : Touch) : S Unit := modify fun s => { s with touched := t :: s.touched }

def printf (text : String) : S Unit := modify fun s => { s with printed := s.printed ++ text }

def Env.total (env : Env) (i : Int) : Int :=
  if 0 ≤ i ∧ i < totalArgs.length then totalArgs.getD i.toNat 0 else env.stray i

def readTotalArgs (env : Env) (i : Int) : S Int := do
  touch (.totalArgs i)
  return env.total i

def argraw (p : Slot) (n : Nat) : S (BitVec 64) := do
  if n ≤ 5 then
    call (loadTf p (tfArg n))
  else do
    let s ← get
    throw (.argraw s.touched)

def argint (p : Slot) (n : Nat) : S Int := do
  let w ← argraw p n
  return toInt32 w.toNat

/-- The loop that fills `args`, from index `i` on. `argraw` stops it before the rounds run out. -/
def collect (env : Env) (p : Slot) (num : Int) : Nat → Nat → S (List Int)
  | 0, _ => return []
  | fuel + 1, i => do
    let total ← readTotalArgs env (num - 1)
    if i < total then do
      let arg ← argint p i
      touch (.args i)
      let args ← collect env p num fuel (i + 1)
      return arg :: args
    else
      return []

def printArgs (env : Env) (num : Int) : Nat → List Int → S Unit
  | _, [] => do
    let _ ← readTotalArgs env (num - 1)
  | i, arg :: args => do
    let _ ← readTotalArgs env (num - 1)
    touch (.args i)
    printf (toString arg)
    let total ← readTotalArgs env (num - 1)
    if (i : Int) ≠ total - 1 then
      printf " "
    else
      pure ()
    printArgs env num (i + 1) args

def traced (k : Kernel) (p : Slot) (num : Int) : Bool :=
  (1#32 <<< num.toNat) &&& BitVec.ofInt 32 (k.proc p).trace ≠ 0

def printCall (env : Env) (p : Slot) (num : Int) (args : List Int) : S Unit := do
  let s ← get
  touch (.syscallnames (num - 1))
  printf (toString (s.kernel.proc p).pid ++ ": syscall " ++
    syscallnames.getD (num - 1).toNat "" ++ " (")
  printArgs env num 0 args
  let ret ← call (loadTf p (tfArg 0))
  printf (") -> " ++ toString (toInt32 ret.toNat) ++ "\n")

/-- `NELEM(syscalls)`; all entries but the first are functions. -/
def nelemSyscalls : Int := 28

/-- `syscall` after the arguments have been collected. A call that does not return, because the
process exits or goes to sleep, prints nothing. -/
def invoke (L : Layout) (env : Env) (p : Slot) (o : Outside) (num : Int) (args : List Int) :
    S Unit := do
  if 0 < num ∧ num < nelemSyscalls then do
    call (Xv6.syscall L p o)
    let s ← get
    if (s.kernel.user p).mode = .leave ∧ traced s.kernel p num then
      printCall env p num args
    else
      pure ()
  else do
    let s ← get
    printf (toString (s.kernel.proc p).pid ++ " " ++ env.name ++ ": unknown sys call " ++
      toString num ++ "\n")
    call (sysReturn p (ofInt64 (-1)))

def num (k : Kernel) (p : Slot) : Int :=
  toInt32 (load64 k.km.mem ((k.proc p).trapframe + tfArg 7)).toNat

def syscall (L : Layout) (env : Env) (p : Slot) (o : Outside) : S Unit := do
  let s ← get
  let args ← collect env p (num s.kernel p) 7 0
  invoke L env p o (num s.kernel p) args

/-! ## Safety -/

section Spec

variable {E : Fault → Prop} {α : Type} {s : Sys} {env : Env} {P : Touch → Prop}

theorem Wp.call {m : K α} {Q : α → Sys → Prop}
    (h : Wp (fun e => E (.panic e s.touched)) m s.kernel fun a k => Q a { s with kernel := k }) :
    Wp E (call m) s Q := by
  unfold Wp at h ⊢
  unfold Dispatch.call
  cases hm : m s.kernel with
  | ok | error =>
    rw [hm] at h
    exact h

theorem Wp.touch {t : Touch} {Q : Unit → Sys → Prop}
    (h : Q () { s with touched := t :: s.touched }) : Wp E (touch t) s Q :=
  Wp.of_eq rfl h

theorem Wp.printf {text : String} {Q : Unit → Sys → Prop}
    (h : Q () { s with printed := s.printed ++ text }) : Wp E (printf text) s Q :=
  Wp.of_eq rfl h

theorem Wp.readTotalArgs {i : Int} {Q : Int → Sys → Prop}
    (h : Q (env.total i) { s with touched := .totalArgs i :: s.touched }) :
    Wp E (readTotalArgs env i) s Q :=
  Wp.of_eq rfl h

/-- All elements touched so far are among those of `P`. -/
def Sys.Only (s : Sys) (P : Touch → Prop) : Prop := ∀ t ∈ s.touched, P t

theorem Sys.Only.cons {t : Touch} (h : s.Only P) (ht : P t) :
    ({ s with touched := t :: s.touched } : Sys).Only P := by
  intro t' ht'
  rcases List.mem_cons.mp ht' with rfl | ht'
  · exact ht
  · exact h t' ht'

theorem collect_spec {num : Int} (htotal : env.total (num - 1) ≤ 3) (hP : P (.totalArgs (num - 1)))
    (hargs : ∀ i : Nat, i < 3 → P (.args i)) (fuel i : Nat) (hs : s.Only P) :
    Wp E (collect env p num fuel i) s fun args s' => s'.kernel = s.kernel ∧ s'.Only P ∧
      args.length + i ≤ max i 3 := by
  induction fuel generalizing i s with
  | zero => exact .pure ⟨rfl, hs, by simp⟩
  | succ _ ih =>
    refine .bind (Wp.readTotalArgs ?_)
    have hs1 := hs.cons hP
    by_cases hi : (i : Int) < env.total (num - 1)
    · rw [if_pos hi]
      have hi3 : i < 3 := by omega
      unfold argint argraw
      rw [if_pos (by omega)]
      refine .bind (.bind (Wp.call (Wp.loadTf (.pure (.bind (Wp.touch ?_))))))
      refine (ih (i + 1) (hs1.cons (hargs i hi3))).seq ?_
      rintro args s2 ⟨hk, hs2, hlen⟩
      refine .pure ⟨hk, hs2, ?_⟩
      rw [List.length_cons]
      omega
    · grind [Wp.pure]

theorem printArgs_spec {num : Int} (hP : P (.totalArgs (num - 1)))
    (hargs : ∀ i : Nat, i < 3 → P (.args i)) {args : List Int} {i : Nat}
    (hlen : args.length + i ≤ 3) (hs : s.Only P) :
    Wp E (printArgs env num i args) s fun _ s' => s'.kernel = s.kernel ∧ s'.Only P := by
  induction args generalizing i s with
  | nil => exact .bind (Wp.readTotalArgs (.pure ⟨rfl, hs.cons hP⟩))
  | cons _ _ ih =>
    rw [List.length_cons] at hlen
    refine .bind (Wp.readTotalArgs (.bind (Wp.touch (.bind (Wp.printf (.bind
      (Wp.readTotalArgs ?_)))))))
    have hs1 : Sys.Only _ P := ((hs.cons hP).cons (hargs i (by omega))).cons hP
    split
    · refine .bind (Wp.printf ?_)
      refine ih (by omega) ?_
      exact hs1
    · refine ih (by omega) ?_
      exact hs1

end Spec

def Defined (num : Int) : Prop := 1 ≤ num ∧ num ≤ 27

/-- `syscall` touches elements of its arrays only and does not stop in `argraw`. -/
structure Safe (r : Except Fault (Unit × Sys)) : Prop where
  ok : ∀ s, r = .ok ((), s) → ∀ t ∈ s.touched, t.InBounds
  panic : ∀ e touched, r = .error (.panic e touched) → ∀ t ∈ touched, t.InBounds
  argraw : ∀ touched, r ≠ .error (.argraw touched)

/-- A stop in the function that was called, after accesses to elements of the arrays. -/
def Fault.Within : Fault → Prop
  | .argraw _ => False
  | .panic _ touched => ∀ t ∈ touched, t.InBounds

theorem total_le (env : Env) {num : Int} (h : Defined num) : env.total (num - 1) ≤ 3 := by
  obtain ⟨h1, h2⟩ := h
  have hle : ∀ n < 27, totalArgs.getD n 0 ≤ 3 := by decide
  have hlen : totalArgs.length = 27 := rfl
  rw [Env.total, if_pos (by omega)]
  exact hle (num - 1).toNat (by omega)

theorem args_inBounds (i : Nat) (hi : i < 3) : (Touch.args i).InBounds :=
  ⟨Int.natCast_nonneg i, by omega⟩

theorem totalArgs_inBounds {num : Int} (h : Defined num) :
    (Touch.totalArgs (num - 1)).InBounds := by
  have hlen : totalArgs.length = 27 := rfl
  obtain ⟨h1, h2⟩ := h
  constructor <;> omega

theorem syscallnames_inBounds {num : Int} (h : Defined num) :
    (Touch.syscallnames (num - 1)).InBounds := by
  have hlen : syscallnames.length = 27 := rfl
  obtain ⟨h1, h2⟩ := h
  constructor <;> omega

theorem printCall_spec {E : Fault → Prop} {s : Sys} {env : Env} {num : Int} {args : List Int}
    (hnum : Defined num) (hlen : args.length ≤ 3) (hs : s.Only Touch.InBounds) :
    Wp E (printCall env p num args) s fun _ s' => s'.Only Touch.InBounds := by
  refine .bind (.get (.bind (Wp.touch (.bind (Wp.printf ?_)))))
  have hs1 : Sys.Only _ Touch.InBounds := hs.cons (syscallnames_inBounds hnum)
  refine (printArgs_spec (totalArgs_inBounds hnum) args_inBounds (by omega) ?_).seq ?_
  · exact hs1
  · rintro _ s2 ⟨-, hs2⟩
    exact .bind (Wp.call (Wp.loadTf (Wp.printf hs2)))

theorem invoke_defined {s : Sys} {env : Env} {num : Int} {args : List Int} (hnum : Defined num)
    (hlen : args.length ≤ 3) (hs : s.Only Touch.InBounds) :
    Wp Fault.Within (invoke L env p o num args) s fun _ s' => s'.Only Touch.InBounds := by
  obtain ⟨h1, h2⟩ := hnum
  unfold invoke
  rw [if_pos ⟨by omega, by unfold nelemSyscalls; omega⟩]
  have hcall : Wp Fault.Within (call (Xv6.syscall L p o)) s
      fun _ s' => s'.Only Touch.InBounds := by
    apply Wp.call
    refine (Wp.any.mono fun _ _ _ => hs).imp_error fun e _ => hs
  refine hcall.seq ?_
  intro _ s1 hs1
  refine .bind (.get ?_)
  split
  · exact printCall_spec ⟨h1, h2⟩ hlen hs1
  · exact .pure hs1

theorem syscall_defined (L : Layout) (env : Env) (o : Outside) (hnum : Defined (num k p)) :
    Safe (syscall L env p o { kernel := k }) := by
  have hwp : Wp Fault.Within (syscall L env p o) { kernel := k }
      fun _ s => s.Only Touch.InBounds := by
    refine .bind (.get ?_)
    refine (collect_spec (total_le env hnum) (totalArgs_inBounds hnum) args_inBounds 7 0
      (fun t ht => by cases ht)).seq ?_
    rintro args s1 ⟨-, hs1, hlen⟩
    exact invoke_defined hnum (by simpa using hlen) hs1
  refine ⟨fun s hs => hwp.of_ok hs, fun e touched he => ?_, fun touched he => ?_⟩
  · exact hwp.failed he
  · exact hwp.failed he

def turnedDown (k : Kernel) (p : Slot) : Kernel := { k with
  km := { k.km with
    mem := store64 k.km.mem ((k.proc p).trapframe + tfArg 0) (ofInt64 (-1)) }
  user := Function.update k.user p { k.user p with mode := .leave } }

theorem syscall_undefined (L : Layout) (env : Env) (o : Outside) (hnum : ¬ Defined (num k p))
    (hstray : env.total (num k p - 1) ≤ 3) :
    ∃ s, syscall L env p o { kernel := k } = .ok ((), s) ∧ s.kernel = turnedDown k p ∧
      ∀ i, .args i ∈ s.touched → (Touch.args i).InBounds := by
  have hwp : Wp (fun _ => False) (syscall L env p o) { kernel := k } fun _ s =>
      s.kernel = turnedDown k p ∧ s.Only fun t => ∀ i, t = .args i → t.InBounds := by
    refine .bind (.get ?_)
    refine (collect_spec (P := fun t => ∀ i, t = .args i → t.InBounds) hstray (by simp)
      (fun i hi _ _ => args_inBounds i hi) 7 0 (fun t ht => by cases ht)).seq ?_
    rintro args s1 ⟨hk, hs1, -⟩
    have hno : ¬ (0 < num k p ∧ num k p < nelemSyscalls) := by
      unfold nelemSyscalls
      unfold Defined at hnum
      omega
    have htail : Wp (fun _ => False) (invoke L env p o (num k p) args) s1 fun _ s =>
        s.kernel = turnedDown k p ∧ s.Only fun t => ∀ i, t = .args i → t.InBounds := by
      unfold invoke
      rw [if_neg hno]
      refine .bind (.get (.bind (Wp.printf (Wp.call ?_))))
      refine .bind (Wp.storeTf (Wp.setMode ⟨?_, hs1⟩))
      rw [hk]
      rfl
    exact htail
  obtain ⟨_, s, hok, hk, hs⟩ := hwp.total
  exact ⟨s, hok, hk, fun i hi => hs _ hi i rfl⟩

/-- For the numbers of the system calls, `syscall` stays within its arrays. For every other number
it sets `a0` to `-1` and does nothing else, if the word that it finds beyond `totalArgs` is at most
three. -/
theorem dispatcher_safe (L : Layout) (env : Env) (o : Outside) (k : Kernel) (p : Slot)
    (hstray : ¬ Defined (num k p) → env.total (num k p - 1) ≤ 3) :
    (Defined (num k p) → Safe (syscall L env p o { kernel := k })) ∧
      (¬ Defined (num k p) → ∃ s, syscall L env p o { kernel := k } = .ok ((), s) ∧
        s.kernel = turnedDown k p ∧ ∀ i, .args i ∈ s.touched → (Touch.args i).InBounds) :=
  ⟨fun h => syscall_defined L env o h, fun h => syscall_undefined L env o h (hstray h)⟩

/-! ## Numbers without a system call -/

def Fault.touched : Fault → List Touch
  | .argraw touched => touched
  | .panic _ touched => touched

theorem collect_keeps {env : Env} {t : Touch} {num : Int} {s : Sys} (fuel i : Nat)
    (ht : t ∈ s.touched) : Wp (fun f => t ∈ f.touched) (collect env p num fuel i) s
      fun _ s' => t ∈ s'.touched := by
  induction fuel generalizing i s with
  | zero => exact .pure ht
  | succ _ ih =>
    refine .bind (Wp.readTotalArgs ?_)
    have ht1 : t ∈ Touch.totalArgs (num - 1) :: s.touched := List.mem_cons_of_mem _ ht
    split
    · unfold argint argraw
      by_cases hi : i ≤ 5
      · rw [if_pos hi]
        refine .bind (.bind (Wp.call (Wp.loadTf (.pure (.bind (Wp.touch ?_))))))
        refine (ih (i + 1) ?_).seq fun _ _ h => .pure h
        exact List.mem_cons_of_mem _ ht1
      · rw [if_neg hi]
        exact .bind (.bind (.bind (.get (.of_error rfl ht1))))
    · exact .pure ht1

theorem not_safe (L : Layout) (env : Env) (o : Outside) (hnum : ¬ Defined (num k p)) :
    ¬ Safe (syscall L env p o { kernel := k }) := by
  intro hsafe
  have hno : ¬ (0 < num k p ∧ num k p < nelemSyscalls) := by
    unfold nelemSyscalls
    unfold Defined at hnum
    omega
  have hout : ¬ (Touch.totalArgs (num k p - 1)).InBounds := by
    have hlen : totalArgs.length = 27 := rfl
    rintro ⟨h1, h2⟩
    exact hnum ⟨by omega, by omega⟩
  have hwp : Wp (fun f => Touch.totalArgs (num k p - 1) ∈ f.touched) (syscall L env p o)
      { kernel := k } fun _ s => Touch.totalArgs (num k p - 1) ∈ s.touched := by
    refine .bind (.get ?_)
    have hcollect : Wp (fun f => Touch.totalArgs (num k p - 1) ∈ f.touched)
        (collect env p (num k p) 7 0) { kernel := k }
        fun _ s => Touch.totalArgs (num k p - 1) ∈ s.touched := by
      refine .bind (Wp.readTotalArgs ?_)
      split
      · unfold argint argraw
        refine .bind (.bind (Wp.call (Wp.loadTf (.pure (.bind (Wp.touch ?_))))))
        refine (collect_keeps 6 1 ?_).seq fun _ _ h => .pure h
        simp
      · exact .pure List.mem_cons_self
    refine hcollect.seq ?_
    intro args s1 hs1
    unfold invoke
    rw [if_neg hno]
    refine .bind (.get (.bind (Wp.printf (Wp.call ?_))))
    exact .bind (Wp.storeTf (Wp.setMode hs1))
  cases hr : syscall L env p o { kernel := k } with
  | ok as => exact hout (hsafe.ok as.2 hr _ (hwp.of_ok hr))
  | error f =>
    cases f with
    | argraw touched => exact hsafe.argraw touched hr
    | panic e touched => exact hout (hsafe.panic e touched hr _ (hwp.failed hr))

/-- The first process asks for system call 0, and `syscall` reads `totalArgs[-1]`. -/
theorem dispatcher_unsafe : ∃ steps k, Run smallLayout .RR steps k ∧
    k.runs initproc .syscall = true ∧ num k initproc = 0 ∧
    ∀ env o, ¬ Safe (syscall smallLayout env initproc o { kernel := k }) := by
  obtain ⟨steps, k, hrun, h⟩ := exists_run .RR (startOps initproc ++ ecallOps initproc 0 0 0)
    (fun _ k => k.runs initproc .syscall ∧ num k initproc = 0) (by decide +kernel)
  refine ⟨steps, k, hrun, h.1, h.2, ?_⟩
  intro env o
  apply not_safe
  rw [h.2]
  rintro ⟨h1, -⟩
  exact absurd h1 (by decide)

/-- The first process asks for `waitx` and then for system call 28, beyond whose place in
`totalArgs` stands a zero. -/
theorem dispatcher_safe_waitx : (∃ steps k, Run smallLayout .RR steps k ∧ num k initproc = 27 ∧
      Safe (syscall smallLayout ⟨fun _ => 0, "init"⟩ initproc {} { kernel := k })) ∧
    ∃ steps k s, Run smallLayout .RR steps k ∧ num k initproc = 28 ∧
      syscall smallLayout ⟨fun _ => 0, "init"⟩ initproc {} { kernel := k } = .ok ((), s) ∧
      s.kernel = turnedDown k initproc := by
  constructor
  · obtain ⟨steps, k, hrun, hnum⟩ := exists_run .RR
      (startOps initproc ++ ecallOps initproc 27 0 0) (fun _ k => num k initproc = 27)
      (by decide +kernel)
    have hdef : Defined (num k initproc) := by
      rw [hnum]
      exact ⟨by decide, by decide⟩
    exact ⟨steps, k, hrun, hnum,
      (dispatcher_safe smallLayout _ {} k initproc fun hc => absurd hdef hc).1 hdef⟩
  · obtain ⟨steps, k, hrun, hnum⟩ := exists_run .RR
      (startOps initproc ++ ecallOps initproc 28 0 0) (fun _ k => num k initproc = 28)
      (by decide +kernel)
    have hundef : ¬ Defined (num k initproc) := by
      rw [hnum]
      rintro ⟨-, h2⟩
      exact absurd h2 (by decide)
    have hstray : (⟨fun _ => 0, "init"⟩ : Env).total (num k initproc - 1) ≤ 3 := by
      rw [hnum]
      decide
    obtain ⟨s, hok, hk, -⟩ := (dispatcher_safe smallLayout _ {} k initproc fun _ => hstray).2 hundef
    exact ⟨steps, k, s, hrun, hnum, hok, hk⟩

end Xv6.Dispatch

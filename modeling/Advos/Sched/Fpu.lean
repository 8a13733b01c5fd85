import Advos.Schemes.Run
import Advos.Schemes.Slot
import Advos.Sched.Kernel

/-! Lazy switching of the FPU (`isr_device_not_available`, `_task_switch`, `_task_restart`, `task_init`).

    The registers of the FPU are not saved when the task changes. A switch sets CR0.TS, so that the first
    FPU instruction of the new task faults; the handler writes the registers back to the save area of
    `fpu_task`, whose they are, and loads those of the running task:

        registers   owned by fpu_task          TS clear   the running task works on the registers
        xregs       of every other task        TS set     its first FPU instruction faults

    The registers are thus the slot of a store that has the save areas. TS is clear at boot and set only
    when a task is left, and replacing the program of a task leaves the registers to it. -/

namespace Advos.Fpu
open Function Relation

/-- One processor: what CPUID tells, CR0.TS, the registers of the FPU, `struct arch_cpu_data`, and of every
    `struct arch_task` its `xregs`, the address of a save area or NULL. -/
structure Cpu (R : Type) where
  xsave : Bool
  fxsr : Bool
  ts : Bool
  regs : R
  curTask : Option ℕ
  nextTask : Option ℕ
  idleTask : Option ℕ
  fpuTask : Option ℕ
  xregs : ℕ → ℕ
  area : ℕ → R

variable {R : Type}

/-! ### The code -/

/-- `fxsave64(cpu->fpu_task->xregs)`, if there is such a task. -/
def save (c : Cpu R) : Cpu R :=
  match c.fpuTask with
  | none => c
  | some o => { c with area := Function.update c.area (c.xregs o) c.regs }

/-- `fxrstor64(at->xregs)`. -/
def restore (t : ℕ) (c : Cpu R) : Cpu R := { c with regs := c.area (c.xregs t) }

/-- `isr_device_not_available`; nothing is done on a processor with XSAVE. -/
def isrDeviceNotAvailable (c : Cpu R) : Cpu R :=
  if c.xsave then c
  else if c.fxsr then
    match c.curTask with
    -- a NULL dereference: the fault is one of the running task
    | none => c
    | some t =>
      let c := { c with ts := false }
      if c.fpuTask ≠ some t then { restore t (save c) with fpuTask := some t } else c
  else c

/-- The processor when the FPU instruction of the running task is executed. -/
def trap (c : Cpu R) : Cpu R := if c.ts then isrDeviceNotAvailable c else c

/-- An FPU instruction; if the handler leaves TS set it faults forever. -/
def fpuInstr (f : R → R) (c : Cpu R) : Option (Cpu R) :=
  if (trap c).ts then none else some { trap c with regs := f (trap c).regs }

/-- The contents of the registers that an FPU instruction of the running task finds. -/
def observed (c : Cpu R) : Option R := if (trap c).ts then none else some (trap c).regs

/-- `_task_switch`. -/
def taskSwitch (c : Cpu R) : Cpu R :=
  match c.curTask with
  | none => c
  | some _ =>
    { c with ts := true, curTask := if c.nextTask = none then c.idleTask else c.nextTask, nextTask := none }

/-- `_task_restart`; TS is set if there is a task to be left. -/
def taskRestart (c : Cpu R) : Cpu R :=
  match c.nextTask with
  | none => c
  | some t => { c with ts := c.ts || c.curTask.isSome, curTask := some t, nextTask := none }

/-- `task_init`, with the memory that `kmalloc(4096)` gives. -/
def taskInit [Zero R] (t p : ℕ) (c : Cpu R) : Cpu R :=
  { c with xregs := Function.update c.xregs t p, area := Function.update c.area p 0 }

/-- `sys_initexec` for a program that is found: `task_init`, and `_task_replace`, which leaves all this. -/
def sysInitexec [Zero R] (p : ℕ) (c : Cpu R) : Cpu R :=
  match c.curTask with
  | none => c
  | some t => taskInit t p c

/-! ### The slot -/

/-- Save areas and registers. -/
def slot (c : Cpu R) : Slot ℕ R := ⟨c.area, c.fpuTask.map c.xregs, c.regs⟩

/-- The contents of the FPU that a task has: the registers, if they are its own, or its save area. -/
def contents (c : Cpu R) (t : ℕ) : R := if c.fpuTask = some t then c.regs else c.area (c.xregs t)

/-- Every task has what it has written. -/
structure Isolated (c : Cpu R) (m : ℕ → R) : Prop where
  features : c.xsave = false ∧ c.fxsr = true
  apart : ∀ t t', c.xregs t ≠ 0 → c.xregs t = c.xregs t' → t = t'
  owner : ∀ t, c.fpuTask = some t → c.xregs t ≠ 0
  value : ∀ t, c.xregs t ≠ 0 → (slot c).value (c.xregs t) = m t

/-- The running task is one that `task_init` has prepared. -/
def Prepared (c : Cpu R) (t : ℕ) : Prop := c.curTask = some t ∧ c.xregs t ≠ 0

variable {c c' : Cpu R} {m : ℕ → R} {t : ℕ}

theorem Isolated.owner_iff (I : Isolated c m) : (slot c).owner = some (c.xregs t) ↔ c.fpuTask = some t := by
  constructor
  · intro h
    obtain ⟨o, ho, heq⟩ := Option.map_eq_some_iff.mp h
    rw [ho, I.apart o t (I.owner o ho) heq]
  · intro h
    rw [slot, h]
    rfl

theorem Isolated.contents_eq (I : Isolated c m) (ht : c.xregs t ≠ 0) : contents c t = m t := by
  rw [← I.value t ht, Slot.value, contents]
  by_cases h : c.fpuTask = some t
  · rw [if_pos h, if_pos (I.owner_iff.mpr h)]
    rfl
  · rw [if_neg h, if_neg fun heq => h (I.owner_iff.mp heq)]
    rfl

/-! ### The fault -/

theorem save_area : (save c).area = (slot c).flush := by
  cases h : c.fpuTask with
  | none => simp [save, slot, Slot.flush, h]
  | some o => simp [save, slot, Slot.flush, h]

theorem save_xregs : (save c).xregs = c.xregs := by
  rw [save]
  split <;> rfl

/-- What the handler leaves to the FPU instruction: the slot is given to the running task. -/
structure Trapped (c c' : Cpu R) (t : ℕ) : Prop where
  features : c'.xsave = c.xsave ∧ c'.fxsr = c.fxsr
  ts : c'.ts = false
  fpuTask : c'.fpuTask = some t
  xregs : c'.xregs = c.xregs
  slot : slot c' = (slot c).fetch (c.xregs t)

namespace Isolated
variable (I : Isolated c m)
include I

theorem trapped_self (h : c.fpuTask = some t) : Trapped c { c with ts := false } t where
  features := ⟨rfl, rfl⟩
  ts := rfl
  fpuTask := h
  xregs := rfl
  slot := by rw [Slot.fetch, if_pos (I.owner_iff.mpr h)]; rfl

theorem trapped_other (h : c.fpuTask ≠ some t) :
    Trapped c { restore t (save { c with ts := false }) with fpuTask := some t } t := by
  set c₁ : Cpu R := { c with ts := false }
  have harea : (save c₁).area = (slot c).flush := save_area
  have hxregs : (save c₁).xregs = c.xregs := save_xregs
  have hfeatures : (save c₁).xsave = c.xsave ∧ (save c₁).fxsr = c.fxsr ∧ (save c₁).ts = false := by
    rw [save]
    split <;> exact ⟨rfl, rfl, rfl⟩
  refine ⟨⟨hfeatures.1, hfeatures.2.1⟩, hfeatures.2.2, rfl, hxregs, ?_⟩
  rw [Slot.fetch, if_neg fun heq => h (I.owner_iff.mp heq)]
  simp [slot, restore, harea, hxregs]

/-- TRAP: if the registers belong to the running task or TS is set, its FPU instruction finds its own. -/
theorem trap (hcur : c.curTask = some t) (h : c.ts = true ∨ c.fpuTask = c.curTask) :
    Trapped c (trap c) t := by
  rw [hcur] at h
  by_cases hts : c.ts = true
  · rw [Fpu.trap, if_pos hts]
    by_cases hfpu : c.fpuTask = some t
    · have heq : isrDeviceNotAvailable c = { c with ts := false } := by
        simp [isrDeviceNotAvailable, I.features, hcur, hfpu]
      rw [heq]
      exact I.trapped_self hfpu
    · have heq : isrDeviceNotAvailable c = { restore t (save { c with ts := false }) with fpuTask := some t } := by
        simp [isrDeviceNotAvailable, I.features, hcur, hfpu]
      rw [heq]
      exact I.trapped_other hfpu
  · have hclear : c.ts = false := by simpa using hts
    have hself := I.trapped_self (h.resolve_left hts)
    rw [← hclear] at hself
    rwa [Fpu.trap, if_neg hts]

/-- KEPT: an FPU instruction. -/
theorem fpuInstr (hp : Prepared c t) (h : c.ts = true ∨ c.fpuTask = c.curTask) (f : R → R)
    (hc' : fpuInstr f c = some c') : Isolated c' (update m t (f (m t))) := by
  have T := I.trap hp.1 h
  rw [Fpu.fpuInstr, T.ts, if_neg nofun] at hc'
  obtain ⟨hx, hfpu, hxregs, hslot⟩ : (c'.xsave = c.xsave ∧ c'.fxsr = c.fxsr) ∧ c'.fpuTask = some t ∧
      c'.xregs = c.xregs ∧ slot c' = ((slot c).fetch (c.xregs t)).modify f := by
    cases hc'
    refine ⟨T.features, T.fpuTask, T.xregs, ?_⟩
    rw [← T.slot]
    rfl
  refine ⟨⟨hx.1.trans I.features.1, hx.2.trans I.features.2⟩, ?_, ?_, ?_⟩
  · rw [hxregs]
    exact I.apart
  · intro o ho
    obtain rfl : t = o := Option.some.inj (hfpu.symm.trans ho)
    rw [hxregs]
    exact hp.2
  · intro t1 ht1
    rw [hxregs] at ht1 ⊢
    rw [hslot, Slot.modify_value (Slot.fetch_owner _ _), Slot.fetch_held, Slot.fetch_value, I.value t hp.2]
    rcases eq_or_ne t1 t with rfl | hne
    · rw [if_pos rfl, update_self]
    · rw [if_neg fun heq => hne (I.apart t1 t ht1 heq), update_of_ne hne, I.value t1 ht1]

/-- A change that leaves the registers, their owner and the save areas. -/
theorem congr (hx : c'.xsave = c.xsave ∧ c'.fxsr = c.fxsr) (hregs : c'.regs = c.regs)
    (hfpu : c'.fpuTask = c.fpuTask) (hxregs : c'.xregs = c.xregs) (harea : c'.area = c.area) :
    Isolated c' m := by
  have hslot : slot c' = slot c := by rw [slot, slot, harea, hfpu, hxregs, hregs]
  refine ⟨⟨hx.1.trans I.features.1, hx.2.trans I.features.2⟩, ?_, ?_, ?_⟩
  · rw [hxregs]
    exact I.apart
  · rw [hxregs, hfpu]
    exact I.owner
  · rw [hxregs, hslot]
    exact I.value

end Isolated

/-! ### Runs -/

/-- What happens on the processor; `schedule` is the scheduler's choice of the next task. -/
inductive Op (R : Type)
  | fpu (f : R → R)
  | schedule (t : Option ℕ)
  | switch
  | restart
  | initexec (p : ℕ)

variable [Zero R]

def Op.run (c : Cpu R) : Op R → Option (Cpu R)
  | .fpu f => fpuInstr f c
  | .schedule t => some { c with nextTask := t }
  | .switch => some (taskSwitch c)
  | .restart => some (taskRestart c)
  | .initexec p => some (sysInitexec p c)

/-- Only prepared tasks use the FPU and replace their program, and `kmalloc` gives memory that is not in
    use. -/
def Op.Valid (c : Cpu R) : Op R → Prop
  | .fpu _ => ∃ t, Prepared c t
  | .initexec p => (∃ t, Prepared c t) ∧ p ≠ 0 ∧ ∀ t, c.xregs t ≠ p
  | _ => True

/-- What every task has written itself since its latest `task_init`. -/
def Op.own (c : Cpu R) (m : ℕ → R) : Op R → ℕ → R
  | .fpu f =>
    match c.curTask with
    | none => m
    | some t => Function.update m t (f (m t))
  | .initexec _ =>
    match c.curTask with
    | none => m
    | some t => Function.update m t 0
  | _ => m

/-- One step of the processor, and of what the tasks have written. -/
def Step (ok : Cpu R → Op R → Prop) (x y : Cpu R × (ℕ → R)) : Prop :=
  ∃ op : Op R, op.Valid x.1 ∧ ok x.1 op ∧ op.run x.1 = some y.1 ∧ y.2 = op.own x.1 x.2

/-- The registers belong to the running task, or it faults; and a program is replaced only while they do
    not belong to its task. -/
def Op.Switched (c : Cpu R) : Op R → Prop
  | .fpu _ => c.ts = true ∨ c.fpuTask = c.curTask
  | .initexec _ => c.fpuTask ≠ c.curTask
  | _ => True

/-- TS is clear, the registers belong to no task, and the save areas are apart and zeroed. -/
structure Boot (c : Cpu R) : Prop where
  features : c.xsave = false ∧ c.fxsr = true
  ts : c.ts = false
  fpuTask : c.fpuTask = none
  apart : ∀ t t', c.xregs t ≠ 0 → c.xregs t = c.xregs t' → t = t'
  zeroed : ∀ t, c.xregs t ≠ 0 → c.area (c.xregs t) = 0

theorem Boot.isolated (h : Boot c) : Isolated c fun _ => 0 where
  features := h.features
  apart := h.apart
  owner t ht := by
    rw [h.fpuTask] at ht
    cases ht
  value t ht := by
    rw [Slot.value, slot, h.fpuTask, Option.map_none, if_neg (by rintro ⟨⟩)]
    exact h.zeroed t ht

/-- KEPT: a new save area for a task that the registers do not belong to. -/
theorem Isolated.taskInit {p : ℕ} (I : Isolated c m) (hfpu : c.fpuTask ≠ some t)
    (hnew : ∀ t, c.xregs t ≠ p) : Isolated (taskInit t p c) (update m t 0) := by
  have hother {t1 : ℕ} (hne : t1 ≠ t) : (Fpu.taskInit t p c).xregs t1 = c.xregs t1 := update_of_ne hne ..
  have hself : (Fpu.taskInit t p c).xregs t = p := update_self ..
  have howner {o : ℕ} (ho : c.fpuTask = some o) : o ≠ t := by
    rintro rfl
    exact hfpu ho
  have hslot : slot (Fpu.taskInit t p c) = (slot c).put p 0 := by
    have hmap : c.fpuTask.map (Fpu.taskInit t p c).xregs = c.fpuTask.map c.xregs :=
      Option.map_congr fun o ho => hother (howner ho)
    rw [Slot.put, slot, slot, ← hmap]
    rfl
  have hfree : (slot c).owner ≠ some p := by
    intro heq
    obtain ⟨o, -, ho⟩ := Option.map_eq_some_iff.mp heq
    exact hnew o ho
  refine ⟨I.features, ?_, ?_, ?_⟩
  · intro t1 t2 h1 heq
    rcases eq_or_ne t1 t with rfl | hne1 <;> rcases eq_or_ne t2 t1 with rfl | hne2
    · rfl
    · rw [hself, hother hne2] at heq
      exact absurd heq.symm (hnew t2)
    · rfl
    · rw [hother hne1] at h1 heq
      rcases eq_or_ne t2 t with rfl | hne
      · rw [hself] at heq
        exact absurd heq (hnew t1)
      · exact I.apart t1 t2 h1 (heq.trans (hother hne))
  · intro o ho
    rw [hother (howner ho)]
    exact I.owner o ho
  · intro t1 h1
    rw [hslot, Slot.put_value hfree]
    rcases eq_or_ne t1 t with rfl | hne
    · rw [hself, if_pos rfl, update_self]
    · rw [hother hne] at h1 ⊢
      rw [if_neg (hnew t1), update_of_ne hne, I.value t1 h1]

/-- STEP: what every task has written is what it has. -/
theorem Isolated.step {op : Op R} (I : Isolated c m) (hv : op.Valid c) (hok : op.Switched c)
    (hrun : op.run c = some c') : Isolated c' (op.own c m) := by
  cases op with
  | fpu f =>
    obtain ⟨t, hp⟩ := hv
    rw [Op.own, hp.1]
    exact I.fpuInstr hp hok f hrun
  | schedule t =>
    cases hrun
    exact I.congr ⟨rfl, rfl⟩ rfl rfl rfl rfl
  | switch =>
    cases hrun
    rw [taskSwitch]
    split
    · exact I
    · exact I.congr ⟨rfl, rfl⟩ rfl rfl rfl rfl
  | restart =>
    cases hrun
    rw [taskRestart]
    split
    · exact I
    · exact I.congr ⟨rfl, rfl⟩ rfl rfl rfl rfl
  | initexec p =>
    cases hrun
    obtain ⟨⟨t, hcur, -⟩, -, hnew⟩ := hv
    rw [Op.own, sysInitexec, hcur]
    rw [Op.Switched, hcur] at hok
    exact I.taskInit hok hnew

/-- RUN: from boot, if the FPU is used and programs are replaced only as `Op.Switched` has it, every task has
    what it has written, and its next FPU instruction finds that. -/
theorem fpu_tasks_isolated {c₀ : Cpu R} (hboot : Boot c₀)
    (hrun : Relation.ReflTransGen (Step fun c op => op.Switched c) (c₀, fun _ => 0) (c, m)) :
    (∀ t, c.xregs t ≠ 0 → contents c t = m t) ∧
      ∀ t f, Prepared c t → (Op.fpu f).Switched c → observed c = some (m t) := by
  have I : Isolated c m := by
    refine Run.invariant (P := fun x : Cpu R × (ℕ → R) => Isolated x.1 x.2) hrun hboot.isolated ?_
    rintro ⟨c₁, m₁⟩ ⟨c₂, m₂⟩ I ⟨op, hv, hok, hstep, rfl⟩
    exact I.step hv hok hstep
  refine ⟨fun t ht => I.contents_eq ht, fun t f hp hok => ?_⟩
  have T := I.trap hp.1 hok
  have hregs : (trap c).regs = ((slot c).fetch (c.xregs t)).held := congrArg Slot.held T.slot
  rw [observed, T.ts, if_neg nofun, hregs, Slot.fetch_held, I.value t hp.2]

/-! ### A processor -/

section Run
variable {ok : Cpu R → Op R → Prop} {x₀ x : Cpu R × (ℕ → R)}

/-- The state after an operation that can be run. -/
def after (x : Cpu R × (ℕ → R)) (op : Op R) : Cpu R × (ℕ → R) := ((op.run x.1).getD x.1, op.own x.1 x.2)

theorem run_after {op : Op R} (h : ReflTransGen (Step ok) x₀ x) (hv : op.Valid x.1) (hok : ok x.1 op)
    (hrun : (op.run x.1).isSome) : ReflTransGen (Step ok) x₀ (after x op) := by
  refine h.tail ⟨op, hv, hok, ?_, rfl⟩
  obtain ⟨c', hc'⟩ := Option.isSome_iff_exists.mp hrun
  rw [after, hc', Option.getD_some]

/-- Another task is chosen and switched to. -/
def switchTo (x : Cpu R × (ℕ → R)) (t : ℕ) : Cpu R × (ℕ → R) := after (after x (.schedule (some t))) .switch

theorem run_switchTo {t : ℕ} (h : ReflTransGen (Step ok) x₀ x) (hchosen : ok x.1 (.schedule (some t)))
    (hok : ok (after x (.schedule (some t))).1 .switch) : ReflTransGen (Step ok) x₀ (switchTo x t) :=
  run_after (run_after h trivial hchosen rfl) trivial hok rfl

end Run

/-- Two prepared tasks; the firmware has left 7 in the registers. -/
def firmware : Cpu ℕ where
  xsave := false
  fxsr := true
  ts := false
  regs := 7
  curTask := none
  nextTask := some 1
  idleTask := some 0
  fpuTask := none
  xregs t := if t = 1 ∨ t = 2 then t else 0
  area _ := 0

theorem firmware_boot : Boot firmware where
  features := ⟨rfl, rfl⟩
  ts := rfl
  fpuTask := rfl
  apart t t' ht heq := by
    simp only [firmware] at ht heq
    split_ifs at ht heq
    · exact heq
    · omega
    · exact absurd rfl ht
    · exact absurd rfl ht
  zeroed _ _ := rfl

/-- The first task is started. -/
def started : Cpu ℕ × (ℕ → ℕ) := after (firmware, fun _ => 0) .restart

theorem run_started {ok : Cpu ℕ → Op ℕ → Prop} (hok : ok firmware .restart) :
    ReflTransGen (Step ok) (firmware, fun _ => 0) started :=
  run_after .refl trivial hok rfl

/-- Task 1 leaves the FPU alone until it is switched to again; task 2 writes 5 in between. -/
theorem fpu_tasks_isolated_two :
    observed (switchTo (after (switchTo started 2) (.fpu fun _ => 5)) 1).1 = some 0 ∧
      contents (switchTo (after (switchTo started 2) (.fpu fun _ => 5)) 1).1 2 = 5 := by
  have hrun : Relation.ReflTransGen (Step fun c op => op.Switched c) (firmware, fun _ => 0)
      (switchTo (after (switchTo started 2) (.fpu fun _ => 5)) 1) := by
    refine run_switchTo (run_after (run_switchTo (run_started trivial) trivial trivial) ?_ ?_ rfl) trivial trivial
    · exact ⟨2, rfl, two_ne_zero⟩
    · exact .inl rfl
  obtain ⟨hcontents, hobserved⟩ := fpu_tasks_isolated firmware_boot hrun
  exact ⟨hobserved 1 id ⟨rfl, one_ne_zero⟩ (.inl rfl), hcontents 2 two_ne_zero⟩

/-- The first task finds what the firmware has left; what it writes then is lost at the next switch; and a
    program that replaces another finds the registers of that one. -/
theorem fpu_registers_leak :
    Boot firmware ∧
      (∃ c m, Relation.ReflTransGen (Step fun _ _ => True) (firmware, fun _ => 0) (c, m) ∧
        Prepared c 1 ∧ m 1 = 0 ∧ observed c = some 7) ∧
      (∃ c m, Relation.ReflTransGen (Step fun _ _ => True) (firmware, fun _ => 0) (c, m) ∧
        Prepared c 1 ∧ m 1 = 6 ∧ observed c = some 0) ∧
      ∃ c m, Relation.ReflTransGen (Step fun _ _ => True) (firmware, fun _ => 0) (c, m) ∧
        Prepared c 2 ∧ m 2 = 0 ∧ observed c = some 5 := by
  have hstart : Relation.ReflTransGen (Step fun _ _ => True) (firmware, fun _ => 0) started := run_started trivial
  -- task 1 writes 6 with TS clear, so that `fpu_task` stays NULL when task 2 takes the registers
  have hlost : Relation.ReflTransGen (Step fun _ _ => True) (firmware, fun _ => 0)
      (switchTo (after (switchTo (after started (.fpu fun _ => 6)) 2) (.fpu id)) 1) :=
    run_switchTo (run_after (run_switchTo (run_after hstart ⟨1, rfl, one_ne_zero⟩ trivial rfl) trivial trivial)
      ⟨2, rfl, two_ne_zero⟩ trivial rfl) trivial trivial
  have hexec : Relation.ReflTransGen (Step fun _ _ => True) (firmware, fun _ => 0)
      (after (after (switchTo started 2) (.fpu fun _ => 5)) (.initexec 3)) := by
    refine run_after (run_after (run_switchTo hstart trivial trivial) ⟨2, rfl, two_ne_zero⟩ trivial rfl) ?_ trivial rfl
    refine ⟨⟨2, rfl, two_ne_zero⟩, three_ne_zero, fun t => ?_⟩
    show (if t = 1 ∨ t = 2 then t else 0) ≠ 3
    split <;> omega
  exact ⟨firmware_boot, ⟨_, _, hstart, ⟨rfl, one_ne_zero⟩, rfl, rfl⟩, ⟨_, _, hlost, ⟨rfl, one_ne_zero⟩, rfl, rfl⟩,
    ⟨_, _, hexec, ⟨rfl, three_ne_zero⟩, rfl, rfl⟩⟩

end Advos.Fpu

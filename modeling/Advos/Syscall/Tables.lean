import Advos.Devfs.Driver

/-! Integers of users and tables of the kernel (`_syscall_entry`, `sys_driver`, `sys_read`, `sys_write`, `sys_fstat`).

    A user names a system call, a device or an open file by an integer, and the kernel looks it up in a table:

        rax        cmpq syscall_nr,%rax; jge     one-sided, signed     syscall_table[0 .. 767]
        msg->dev   index >= DEVFS_MAXDEVS        one-sided, signed     devfs.entries[0 .. 1023]
        fildes     no check                                            proc->fds[0 .. 1023]

    Negative numbers pass the first two checks, and everything passes the third. -/

namespace Advos.Syscall
open Word List
open Devfs (State Caller Msg driverEntry maxdevs)

variable {σ : Type*}

/-- `SYS_MAXSYSCALL`, the value of `syscall_nr`. -/
def maxSyscall : ℕ := 768

/-- `FD_MAX`. -/
def fdMax : ℕ := 1024

/-- What the lookups read. Each table has what is at the other indices, too: the memory around it. -/
structure Kernel (σ : Type*) where
  /-- The words at `syscall_table`; 0 is NULL. -/
  syscallTable : ℕ → ℕ
  devfs : State σ
  thisTask : Option Caller
  /-- `proc->fds`. -/
  fds : ℕ → ℤ → Option ℕ

/-- The indices at which a table is read for a request, and if the request goes on with what it found. -/
structure Lookup where
  reads : List ℤ
  goesOn : Bool

/-! ### The lookups -/

/-- `_syscall_entry`: the comparison is a signed one, and `shlq` drops the three highest bits. -/
def syscallEntry (k : Kernel σ) (rax : ℕ) : Lookup :=
  if wrap64 rax ≥ maxSyscall then ⟨[], false⟩
  else
    let slot := rax * 8 % 2 ^ 64 / 8
    if k.syscallTable slot = 0 then ⟨[slot], false⟩ else ⟨[slot, slot], true⟩

/-- The lookup of `devfs_driver_putc`, `_write` and `_getc`. -/
def driverLookup (s : State σ) (index : ℤ) (proc : ℕ) : Lookup :=
  if index ≥ maxdevs then ⟨[], false⟩
  else
    match s.entries index with
    | none => ⟨[index], false⟩
    | some e => ⟨[index], proc = (s.entry e).proc⟩

/-- `sys_driver` with a message, as far as it looks up the device. -/
def sysDriverMsg (k : Kernel σ) (m : Msg) : Lookup :=
  match k.thisTask.bind Caller.proc with
  | none => ⟨[], false⟩
  | some proc => if m.type = 0 ∨ m.type = 3 ∨ m.type = 1 then driverLookup k.devfs m.dev proc else ⟨[], false⟩

/-- The lookup of a file descriptor. -/
def fildesLookup (k : Kernel σ) (fildes : ℤ) : Lookup :=
  match k.thisTask.bind Caller.proc with
  | none => ⟨[], false⟩
  | some proc => if k.fds proc fildes = none then ⟨[fildes], false⟩ else ⟨[fildes, fildes], true⟩

/-- `sys_read`, `sys_write` and `sys_fstat`, which all return -1 after that. -/
def sysRead (k : Kernel σ) (fildes : ℤ) : Lookup := fildesLookup k fildes

def sysWrite (k : Kernel σ) (fildes : ℤ) : Lookup := fildesLookup k fildes

def sysFstat (k : Kernel σ) (fildes : ℤ) : Lookup := fildesLookup k fildes

/-! ### Requests -/

inductive Request
  | syscall (rax : ℕ)
  | message (m : Msg)
  | read (fildes : ℤ)
  | write (fildes : ℤ)
  | fstat (fildes : ℤ)

/-- The integer of the user. -/
def Request.value : Request → ℤ
  | .syscall rax => rax
  | .message m => m.dev
  | .read fildes | .write fildes | .fstat fildes => fildes

/-- The length of the table it is for. -/
def Request.bound : Request → ℤ
  | .syscall _ => maxSyscall
  | .message _ => maxdevs
  | .read _ | .write _ | .fstat _ => fdMax

/-- The registers are 64-bit words, and the other integers are `int`s. -/
def Request.Typed : Request → Prop
  | .syscall rax => rax < 2 ^ 64
  | r => -2 ^ 31 ≤ r.value ∧ r.value < 2 ^ 31

def serve (k : Kernel σ) : Request → Lookup
  | .syscall rax => syscallEntry k rax
  | .message m => sysDriverMsg k m
  | .read fildes => sysRead k fildes
  | .write fildes => sysWrite k fildes
  | .fstat fildes => sysFstat k fildes

/-- The table is read at the user's index only, and only when it is one of the table; other values go nowhere. -/
structure Guarded (r : Request) (l : Lookup) : Prop where
  inside : ∀ i ∈ l.reads, i = r.value ∧ 0 ≤ r.value ∧ r.value < r.bound
  rejected : ¬ (0 ≤ r.value ∧ r.value < r.bound) → l.goesOn = false

/-- No current process, so that no table is looked at. -/
def Kernel.noProc (k : Kernel σ) : Prop := k.thisTask.bind Caller.proc = none

/-- What the checks leave out: negative numbers, and for descriptors all that are too large. -/
def Checked (k : Kernel σ) : Request → Prop
  | .syscall rax => rax < 2 ^ 63
  | .message m => 0 ≤ m.dev ∨ k.noProc ∨ ¬ (m.type = 0 ∨ m.type = 3 ∨ m.type = 1)
  | .read fildes | .write fildes | .fstat fildes => (0 ≤ fildes ∧ fildes < fdMax) ∨ k.noProc

section Guarded
variable (k : Kernel σ)

theorem Guarded.nothing (r : Request) : Guarded r ⟨[], false⟩ := ⟨fun i hi => by simp at hi, fun _ => rfl⟩

/-- A lookup that reads the index of the user is right when that is in the table. -/
theorem guarded_reads_iff {r : Request} {l : Lookup} (hread : r.value ∈ l.reads) (honly : ∀ i ∈ l.reads, i = r.value) :
    Guarded r l ↔ 0 ≤ r.value ∧ r.value < r.bound :=
  ⟨fun h => (h.inside _ hread).2, fun h => ⟨fun i hi => ⟨honly i hi, h⟩, fun hout => absurd h hout⟩⟩

/-- SIGN BIT: a number with it set is negative for `jge`, and the table is read. -/
theorem not_syscall_guarded {rax : ℕ} (hrax : rax < 2 ^ 64) (hsign : 2 ^ 63 ≤ rax) :
    ¬ Guarded (.syscall rax) (syscallEntry k rax) := by
  intro h
  have hread : ((rax * 8 % 2 ^ 64 / 8 : ℕ) : ℤ) ∈ (syscallEntry k rax).reads := by
    rw [syscallEntry, wrap64_of_ge (by omega) (by omega), if_neg (by rw [maxSyscall]; omega)]
    simp only
    split <;> exact mem_cons_self
  have hbound := (h.inside _ hread).2.2
  simp only [Request.value, Request.bound, maxSyscall] at hbound
  omega

theorem syscall_guarded {rax : ℕ} (hsign : rax < 2 ^ 63) : Guarded (.syscall rax) (syscallEntry k rax) := by
  have hslot : rax * 8 % 2 ^ 64 / 8 = rax % 2 ^ 61 := by omega
  rw [syscallEntry, wrap64_of_range (by omega) (by omega)]
  by_cases hge : (rax : ℤ) ≥ maxSyscall
  · rw [if_pos hge]
    exact Guarded.nothing _
  · have hlt : 0 ≤ (Request.syscall rax).value ∧ (Request.syscall rax).value < (Request.syscall rax).bound := by
      simp only [Request.value, Request.bound]
      omega
    have hrax : rax % 2 ^ 61 = rax := by
      rw [maxSyscall] at hge
      omega
    rw [if_neg hge]
    simp only [hslot, hrax]
    split
    · exact (guarded_reads_iff mem_cons_self (by simp [Request.value])).mpr hlt
    · exact (guarded_reads_iff mem_cons_self (by simp [Request.value])).mpr hlt

theorem driver_guarded_iff (m : Msg) (proc : ℕ) :
    Guarded (.message m) (driverLookup k.devfs m.dev proc) ↔ 0 ≤ m.dev := by
  rw [driverLookup]
  by_cases hge : m.dev ≥ maxdevs
  · have h0 : 0 ≤ m.dev := by omega
    rw [if_pos hge]
    exact ⟨fun _ => h0, fun _ => Guarded.nothing _⟩
  · have hbound : 0 ≤ m.dev ↔ 0 ≤ (Request.message m).value ∧ (Request.message m).value < (Request.message m).bound := by
      simp only [Request.value, Request.bound]
      omega
    rw [if_neg hge, hbound]
    cases k.devfs.entries m.dev with
    | none => exact guarded_reads_iff mem_cons_self (by simp [Request.value])
    | some e => exact guarded_reads_iff mem_cons_self (by simp [Request.value])

theorem message_guarded_iff (m : Msg) : Guarded (.message m) (sysDriverMsg k m) ↔ Checked k (.message m) := by
  rw [sysDriverMsg, Checked, Kernel.noProc]
  cases k.thisTask.bind Caller.proc with
  | none => exact ⟨fun _ => .inr (.inl rfl), fun _ => Guarded.nothing _⟩
  | some proc =>
    simp only [reduceCtorEq, false_or]
    by_cases htype : m.type = 0 ∨ m.type = 3 ∨ m.type = 1
    · rw [if_pos htype, driver_guarded_iff]
      simp [htype]
    · rw [if_neg htype]
      exact ⟨fun _ => .inr htype, fun _ => Guarded.nothing _⟩

/-- FILES: nothing is checked, so the number has to be right. -/
theorem fildes_guarded_iff {r : Request} {fildes : ℤ} (hvalue : r.value = fildes) (hbound : r.bound = fdMax) :
    Guarded r (fildesLookup k fildes) ↔ (0 ≤ fildes ∧ fildes < fdMax) ∨ k.noProc := by
  rw [fildesLookup, Kernel.noProc, ← hvalue, ← hbound]
  cases k.thisTask.bind Caller.proc with
  | none => exact ⟨fun _ => .inr rfl, fun _ => Guarded.nothing _⟩
  | some proc =>
    simp only [reduceCtorEq, or_false]
    split
    · exact guarded_reads_iff mem_cons_self (by simp)
    · exact guarded_reads_iff mem_cons_self (by simp)

/-- TABLES: a request is served within its table exactly when the missing half of its check holds. -/
theorem tables_guarded_iff (r : Request) (hr : r.Typed) : Guarded r (serve k r) ↔ Checked k r := by
  cases r with
  | syscall rax =>
    constructor
    · intro h
      by_contra hsign
      exact not_syscall_guarded k hr (Nat.le_of_not_lt hsign) h
    · exact syscall_guarded k
  | message m => exact message_guarded_iff k m
  | read fildes => exact fildes_guarded_iff k rfl rfl
  | write fildes => exact fildes_guarded_iff k rfl rfl
  | fstat fildes => exact fildes_guarded_iff k rfl rfl

end Guarded

/-- A kernel with empty tables and a process. -/
def quiet : Kernel ℕ where
  syscallTable _ := 0
  devfs := Devfs.noDevices
  thisTask := some ⟨some 0, true⟩
  fds _ _ := none

/-- A byte for the device. -/
def putTo (dev : ℤ) : Request := .message ⟨0, dev, 0, fun _ => 0, 0⟩

theorem tables_guarded_iff_first_device : Guarded (putTo 0) (serve quiet (putTo 0)) ↔ Checked quiet (putTo 0) :=
  tables_guarded_iff quiet (putTo 0) (by simp [putTo, Request.Typed, Request.value])

/-- The tables are read before their first entry, and for a system call number with the sign bit. -/
theorem reads_before_tables :
    (serve quiet (.read (-1))).reads = [-1] ∧ ¬ Guarded (.read (-1)) (serve quiet (.read (-1))) ∧
      (serve quiet (putTo (-1))).reads = [-1] ∧ ¬ Guarded (putTo (-1)) (serve quiet (putTo (-1))) ∧
      ¬ Guarded (.syscall (2 ^ 63)) (serve quiet (.syscall (2 ^ 63))) := by
  have hproc : ¬ quiet.noProc := by simp [Kernel.noProc, quiet]
  refine ⟨rfl, fun h => ?_, rfl, fun h => ?_, not_syscall_guarded quiet (by norm_num) (by norm_num)⟩
  · rcases (fildes_guarded_iff quiet rfl rfl).mp h with h | h
    · exact absurd h.1 (by decide)
    · exact hproc h
  · rcases (message_guarded_iff quiet _).mp h with h | h | h
    · exact absurd h (by norm_num)
    · exact hproc h
    · exact h (.inl rfl)

end Advos.Syscall

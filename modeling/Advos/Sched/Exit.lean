import Advos.Sched.Timer

/-! Terminated tasks.

    `sys_exit` marks the current task TERMINATED and waits in a loop for a tick to take the processor
    away. While the task has quantum left the tick leaves it alone; at the end of the quantum
    `ksignal_clock` writes READY into the current task's state whatever it was, and the next refill
    of the run queue picks the task up again. -/

namespace Advos.Sched
open Linked Word

/-- The current task, if it is TERMINATED, has quantum left after the next charge. -/
def QuantumLeft (s : Kernel) : Prop :=
  ∀ t, s.curTask = some t → (s.task t).state = .terminated → 0 < wrap32 ((s.task t).credit - 1)

/-- Task `t` is TERMINATED, not chosen to run and not queued. -/
structure StaysDead (t : ℕ) (s : Kernel) : Prop where
  state : (s.task t).state = .terminated
  next : s.nextTask ≠ some t
  queue : ∀ q, RunQueue s q → t ∉ q

/-- As long as no quantum of a terminated task ends, it stays current, in the loop of `sys_exit`. -/
def DeadHeld (s : Kernel) : Prop :=
  ∀ t, (s.task t).state = .terminated → s.curTask = some t ∧ t ∈ s.halted

section Held
variable {s : Kernel} {q : List ℕ} {t : ℕ}

theorem Core.staysDead (h : Core s q) (ht : (s.task t).state = .terminated) :
    StaysDead t s := by
  refine ⟨ht, by rw [h.next]; simp, fun q' hq' hmem => ?_⟩
  rw [hq'.unique h.queue] at hmem
  rw [(h.ready t hmem).1] at ht
  exact absurd ht (by simp)

/-- A caller is not in the loop of `sys_exit`, so no task is terminated when it calls. -/
theorem DeadHeld.none_of_calls (hd : DeadHeld s) {c : ℕ} (hc : Calls s c) (t : ℕ) :
    (s.task t).state ≠ .terminated := by
  intro ht
  obtain ⟨hcur, hhalt⟩ := hd t ht
  obtain rfl : c = t := Option.some.inj (hc.1.symm.trans hcur)
  exact hc.2.2 hhalt

theorem clockTimers_credit (t : ℕ) : ((clockTimers s).task t).credit = (s.task t).credit := by
  rw [clockTimers, fireTimers_eq]
  show (if wokenBy s _ t = true then _ else _ : Task).credit = _
  split <;> rfl

theorem ksignalClock_keeps (hcur : s.curTask = some t) (hq : 0 < wrap32 ((s.task t).credit - 1)) :
    ksignalClock s = charge (clockTimers s) := by
  have hkeep : keepsCpu (charge (clockTimers s)) = true := by
    have hct : (clockTimers s).curTask = some t := by rw [clockTimers, fireTimers_eq]; exact hcur
    simp only [keepsCpu, charge, hct, Kernel.setTask, Function.update_self, clockTimers_credit]
    simpa using hq
  unfold ksignalClock
  rw [if_pos hkeep]

theorem clock_terminated (h : Core s q) :
    ((charge (clockTimers s)).task t).state = .terminated ↔ (s.task t).state = .terminated := by
  rw [charge_state, clockTimers_state]
  split
  · rename_i hw
    obtain ⟨e, he, ht⟩ := List.any_eq_true.mp hw
    have hb := (h.events e ((List.takeWhile_sublist _).subset he)).2 t (by simpa using ht)
    simp [hb]
  · rfl

theorem halted_clock : (charge (clockTimers s)).halted = s.halted := by
  rw [clockTimers, fireTimers_eq, charge]
  split <;> rfl

theorem tick_held (h : Inv s q) (hd : DeadHeld s) (hq : QuantumLeft s) : DeadHeld (tick s) := by
  intro t ht
  by_cases hdead : ∃ u, (s.task u).state = .terminated
  · obtain ⟨u, hu⟩ := hdead
    have hcur := (hd u hu).1
    have hcore := charge_core (clockTimers_core h.toCore)
    have htick : tick s = charge (clockTimers s) := by
      rw [tick, ksignalClock_keeps hcur (hq u hcur hu), taskRestart, hcore.next]
    rw [htick] at ht ⊢
    rw [clockTimers_cur, halted_clock]
    exact hd t ((clock_terminated h.toCore).mp ht)
  · -- nobody was terminated, and a tick terminates nobody
    have hnot : ∀ u, (s.task u).state ≠ .terminated := fun u hu => hdead ⟨u, hu⟩
    rcases tick_state h t with hsame | ⟨-, hr⟩ | ⟨-, hrun, -⟩
    · rw [hsame, ← charge_state] at ht
      exact absurd ((clock_terminated h.toCore).mp ht) (hnot t)
    · rw [hr] at ht; exact absurd ht (by simp)
    · rw [hrun] at ht; exact absurd ht (by simp)

theorem step_held {s' : Kernel} (h : Inv s q) (hd : DeadHeld s) (hst : Step QuantumLeft s s') :
    DeadHeld s' := by
  cases hst with
  | tick hq => exact tick_held h hd hq
  | nanosleep c hc slab tvSec tvNsec =>
    obtain ⟨p, hp, -⟩ := h.caller hc
    cases slab with
    | false => simpa [sysNanosleep, hc.1, hp] using hd
    | true =>
      intro t ht
      rw [nanosleep_eq h.toCore hc.1 hp] at ht
      rw [setState_task] at ht
      dsimp only at ht
      split at ht
      · exact absurd ht (by simp)
      · exact absurd ht (hd.none_of_calls hc t)
  | fork c hc mem hm =>
    rcases fork_cases s mem with heq | ⟨parent, i, p, c', -, -, heq⟩
    · rw [heq]; exact hd
    · rw [heq]
      intro t ht
      by_cases htc : t = c'
      · subst htc; simp [addChild, Kernel.setTask] at ht
      · rw [addChild_task htc] at ht
        exact absurd ht (hd.none_of_calls hc t)
  | exit c hc status =>
    obtain ⟨p, hp, -⟩ := h.caller hc
    intro t ht
    have htc : t = c := by
      by_contra htc
      have hsame : ((sysExit status s).task t).state = (s.task t).state := by
        simp [sysExit, hc.1, hp, setState_task, htc]
      exact hd.none_of_calls hc t (hsame.symm.trans ht)
    subst htc
    simp [sysExit, hc.1, hp, Kernel.setState, Kernel.setTask]

/-- The only step while a terminated task is current is a tick, which leaves it terminated. -/
theorem step_terminated {s' : Kernel} (h : Inv s q) (hd : DeadHeld s) (hst : Step QuantumLeft s s')
    (ht : (s.task t).state = .terminated) :
    (s'.task t).state = .terminated := by
  cases hst with
  | tick hq =>
    have hcur := (hd t ht).1
    have hcore := charge_core (clockTimers_core h.toCore)
    rw [tick, ksignalClock_keeps hcur (hq t hcur ht), taskRestart, hcore.next]
    exact (clock_terminated h.toCore).mpr ht
  | nanosleep c hc => exact absurd ht (hd.none_of_calls hc t)
  | fork c hc => exact absurd ht (hd.none_of_calls hc t)
  | exit c hc => exact absurd ht (hd.none_of_calls hc t)

end Held

theorem run_held {b : Boot} {s : Kernel} (hr : Relation.ReflTransGen (Step QuantumLeft) b.state s) :
    (∃ q, Inv s q) ∧ DeadHeld s := by
  refine Run.invariant (P := fun s => (∃ q, Inv s q) ∧ DeadHeld s) hr ⟨⟨[], boot_inv b⟩, ?_⟩ ?_
  · intro t ht
    have : (b.state.task t).state = .ready := by
      simp only [Boot.state, taskRestart, Boot.prepared]
      by_cases hti : t = b.init
      · subst hti; simp
      · simp [hti]
    rw [this] at ht
    exact absurd ht (by simp)
  · rintro x y ⟨⟨q, hi⟩, hd⟩ hst
    exact ⟨step_inv ⟨q, hi⟩ hst, step_held hi hd hst⟩

/-- In every run in which no tick ends the quantum of a terminated task: once terminated, a task stays
    so, is never queued and never chosen, between the steps and inside every tick. -/
theorem terminated_stays_dead {b : Boot} {s s' : Kernel}
    (hr : Relation.ReflTransGen (Step QuantumLeft) b.state s) {t : ℕ}
    (ht : (s.task t).state = .terminated) (hr' : Relation.ReflTransGen (Step QuantumLeft) s s') :
    StaysDead t s' ∧ (QuantumLeft s' → StaysDead t (ksignalClock s')) := by
  have hall := Run.invariant
    (P := fun x => Relation.ReflTransGen (Step QuantumLeft) b.state x ∧
      (x.task t).state = .terminated) hr' ⟨hr, ht⟩ fun x y hx hst => by
      obtain ⟨⟨q, hi⟩, hd⟩ := run_held hx.1
      exact ⟨hx.1.tail hst, step_terminated hi hd hst hx.2⟩
  obtain ⟨⟨q, hi⟩, hd⟩ := run_held hall.1
  refine ⟨hi.toCore.staysDead hall.2, fun hq => ?_⟩
  have hcur := (hd t hall.2).1
  have hcore := charge_core (clockTimers_core hi.toCore)
  rw [ksignalClock_keeps hcur (hq t hcur hall.2)]
  exact hcore.staysDead ((clock_terminated hi.toCore).mpr hall.2)

/-- `init` exits with a fresh quantum. -/
def exitEarly : Kernel := sysExit 0 (tick lowBoot.state)

theorem terminated_stays_dead_one_tick :
    (exitEarly.task 1).state = .terminated ∧ StaysDead 1 (tick exitEarly) := by
  have hboot : QuantumLeft lowBoot.state := by
    intro t ht
    obtain rfl : t = 1 := (Option.some.inj ht).symm
    decide
  have hearly : QuantumLeft exitEarly := by
    intro t ht
    obtain rfl : t = 1 := by
      have hcur : exitEarly.curTask = some 1 := by decide
      exact Option.some.inj (ht.symm.trans hcur)
    decide
  have hr : Relation.ReflTransGen (Step QuantumLeft) lowBoot.state exitEarly :=
    (Relation.ReflTransGen.single (Step.tick _ hboot)).tail
      (Step.exit _ 1 ⟨by decide, by decide, by decide⟩ 0)
  exact ⟨by decide,
    (terminated_stays_dead hr (by decide) (Relation.ReflTransGen.single (Step.tick _ hearly))).1⟩

/-- `init` exits in its first quantum, which the first tick ends. -/
def exitAtOnce : Kernel := sysExit 0 lowBoot.state

/-- The tick after the exit writes READY over TERMINATED, and the one after it runs the task again. -/
theorem terminated_runs_again : Reach lowBoot (tick (tick exitAtOnce)) ∧
    (exitAtOnce.task 1).state = .terminated ∧ ¬ StaysDead 1 (tick exitAtOnce) ∧
    (tick (tick exitAtOnce)).curTask = some 1 := by
  have hr : Reach lowBoot exitAtOnce :=
    Relation.ReflTransGen.single (Step.exit _ 1 lowBoot_calls 0)
  refine ⟨(hr.tail (Step.tick _ trivial)).tail (Step.tick _ trivial), by decide, fun h => ?_,
    by decide⟩
  exact absurd h.state (by decide)

end Advos.Sched

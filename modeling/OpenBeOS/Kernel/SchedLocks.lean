import OpenBeOS.Kernel.Sched
import OpenBeOS.Lib.LockOrder
import OpenBeOS.Lib.Reachable

/-! # The order of the spinlocks

`proc_spinlock` is taken before `thread_spinlock`, and that before the lock of a semaphore. The one
way against the order is a release under `thread_spinlock` that has a thread to wake: it takes
`thread_spinlock` once more.
-/

namespace Kernel

open SemError ThreadState LockOrder Reachable Function Option

/-- The order in which the locks are taken. -/
def SpinLock.rank : SpinLock → Nat
  | .proc_spinlock => 0
  | .thread_spinlock => 1
  | .sem _ => 2

/-- At this point a CPU keeps to the order. -/
def Pc.Ordered (pc : Pc) : Prop := LockOrder.Ordered SpinLock.rank pc.wants pc.holds

variable {pc : Pc}

theorem Pc.ordered_of_wants_none (h : pc.wants = none) : pc.Ordered := by
  intro lock hlock
  rw [h] at hlock
  cases hlock

theorem Pc.ordered_of_holds_nil (h : pc.holds = []) : pc.Ordered := by
  intro lock _ lock' hlock'
  rw [h] at hlock'
  exact absurd hlock' List.not_mem_nil

theorem Pc.ordered_afterKill (rest : Option (List Nat)) : (Pc.afterKill rest).Ordered := by
  rcases rest with _ | _ | ⟨t, ts⟩
  · exact ordered_of_wants_none rfl
  · exact ordered_of_wants_none rfl
  · intro lock hlock lock' hlock'
    cases hlock
    obtain rfl := List.mem_singleton.mp hlock'
    decide

theorem Pc.ordered_afterRelease (death : Bool) : (Pc.afterRelease death).Ordered := by
  cases death <;> exact ordered_of_wants_none rfl

theorem Pc.ordered_of_wants_sem {slot : Nat} (h : pc.wants = some (.sem slot))
    (hholds : pc.holds ⊆ [.thread_spinlock, .proc_spinlock]) : pc.Ordered := by
  intro lock hlock lock' hlock'
  cases h.symm.trans hlock
  have hmem := hholds hlock'
  rcases List.mem_cons.mp hmem with rfl | hmem
  · exact Nat.one_lt_two
  · obtain rfl := List.mem_singleton.mp hmem
    exact Nat.zero_lt_two

theorem thread_subset : [SpinLock.thread_spinlock] ⊆ [.thread_spinlock, .proc_spinlock] :=
  List.cons_subset.mpr ⟨List.mem_cons_self, List.nil_subset _⟩

namespace Sched

variable {s s' : Sched} {cpu fuel : Nat} {skip : Nat → Bool}

/-! ## What the sections leave alone -/

theorem thread_resched_same (h : s.thread_resched cpu skip = some s') :
    ∃ q q_next thread priority current, s' = { s with q, q_next, thread, priority, current } := by
  unfold thread_resched at h
  obtain ⟨next, -, rfl⟩ := map_eq_some_iff.mp h
  unfold putBack
  split <;> exact ⟨_, _, _, _, _, rfl⟩

theorem wakeAll_same : ∀ {fuel : Nat} {s : Sched}, wakeAll cpu fuel s = some s' →
    ∃ q q_next priority, s' = { s with q, q_next, priority }
  | 0, _, h => absurd h nofun
  | fuel + 1, s, h => by
    rw [wakeAll] at h
    split at h
    · cases h
      exact ⟨_, _, _, rfl⟩
    · obtain ⟨q, q_next, priority, rfl⟩ := wakeAll_same h
      exact ⟨q, q_next, priority, rfl⟩

theorem remove_thread_from_sem_same {t slot : Nat} {err : SemError} {r : SemError × Sched}
    (h : s.remove_thread_from_sem cpu fuel t slot err = some r) :
    ∃ sems q q_next thread, r.2 = { s with sems, q, q_next, thread } := by
  unfold remove_thread_from_sem at h
  obtain ⟨r', -, rfl⟩ := map_eq_some_iff.mp h
  exact ⟨_, _, _, _, rfl⟩

theorem check_for_thread_sigs_same {r : Bool × Sched}
    (h : s.check_for_thread_sigs cpu skip = some r) : r.2.pc = s.pc ∧ r.2.cpus = s.cpus := by
  unfold check_for_thread_sigs at h
  dsimp only at h
  split at h
  · exact Option.some.inj h ▸ ⟨rfl, rfl⟩
  · split at h
    · exact Option.some.inj h ▸ ⟨rfl, rfl⟩
    · split at h
      · obtain ⟨s₁, hs₁, rfl⟩ := map_eq_some_iff.mp h
        obtain ⟨_, _, _, _, _, rfl⟩ := thread_resched_same hs₁
        exact ⟨rfl, rfl⟩
      · exact Option.some.inj h ▸ ⟨rfl, rfl⟩

/-! ## Where a CPU goes -/

/-- The CPU gets to another point, and keeps to the order there. -/
def Goes (s : Sched) (cpu : Nat) (s' : Sched) : Prop :=
  ∃ pc, s'.pc = update s.pc cpu pc ∧ s'.cpus = s.cpus ∧ pc.Ordered

variable {pc : Pc}

theorem goes_setPc {s₁ : Sched} (hpc : s₁.pc = s.pc) (hcpus : s₁.cpus = s.cpus)
    (hordered : pc.Ordered) : s.Goes cpu (s₁.setPc cpu pc) :=
  ⟨pc, by show update s₁.pc cpu pc = _; rw [hpc], hcpus, hordered⟩

theorem goes_ite {p : Prop} [Decidable p] {s₁ s₂ : Sched} (h₁ : s.Goes cpu s₁)
    (h₂ : s.Goes cpu s₂) : s.Goes cpu (if p then s₁ else s₂) := by
  split
  · exact h₁
  · exact h₂

theorem goes_resched {s₁ : Sched}
    (h : (s₁.thread_resched cpu skip).map (fun s => s.setPc cpu pc) = some s')
    (hpc : s₁.pc = s.pc) (hcpus : s₁.cpus = s.cpus) (hordered : pc.Ordered) : s.Goes cpu s' := by
  obtain ⟨s₂, hs₂, rfl⟩ := map_eq_some_iff.mp h
  obtain ⟨_, _, _, _, _, rfl⟩ := thread_resched_same hs₂
  exact goes_setPc hpc hcpus hordered

theorem deliver_signal_goes (t : Nat) (rest : Option (List Nat)) :
    s.Goes cpu (s.deliver_signal cpu t rest) := by
  have hafter := Pc.ordered_afterKill rest
  unfold deliver_signal
  split
  · exact goes_setPc rfl rfl hafter
  · dsimp only
    split
    · exact goes_setPc rfl rfl hafter
    · refine goes_ite (goes_setPc rfl rfl ?_) (goes_setPc rfl rfl hafter)
      cases rest with
      | none => exact Pc.ordered_of_wants_sem rfl thread_subset
      | some ts => exact Pc.ordered_of_wants_sem rfl (List.Subset.refl _)
    · exact goes_setPc rfl rfl hafter

/-- The semaphore gives all the units away without waking a thread. -/
def WakesNone (s : Sched) (id count : Int) : Prop :=
  (s.sems (slot id)).id = id → (s.sems (slot id)).count < 0 →
    ∀ t, (s.q (.sem (slot id))).head = some t → count < (s.thread t).sem_count

theorem WakesNone.release {id count : Int} (h : s.WakesNone id count)
    {r : SemError × Sem × thread_queue}
    (hrelease : (s.sem (slot id)).release_sem_etc fuel id count = some r) :
    r.2.2.head = none := by
  unfold Sem.release_sem_etc at hrelease
  split at hrelease
  · exact Option.some.inj hrelease ▸ rfl
  · split at hrelease
    · exact Option.some.inj hrelease ▸ rfl
    · split at hrelease
      · exact Option.some.inj hrelease ▸ rfl
      · rename_i hcount hid
        obtain ⟨⟨sem, queue⟩, hloop, rfl⟩ := map_eq_some_iff.mp hrelease
        -- one round gives all the units
        have hend : ∀ {fuel : Nat} {sem' : Sem}, Sem.releaseLoop fuel sem' ⟨none, none⟩ 0 =
            some (sem, queue) → queue = ⟨none, none⟩ := by
          intro fuel sem' hzero
          cases fuel with
          | zero => cases hzero
          | succ fuel => exact (congrArg Prod.snd (Option.some.inj hzero)).symm
        cases fuel with
        | zero => cases hloop
        | succ fuel =>
          rw [Sem.releaseLoop, if_pos (by omega)] at hloop
          split at hloop
          · rename_i hneg
            split at hloop
            · cases hloop
            · rename_i t ht
              have hmore : count < (s.thread t).sem_count := h (not_not.mp hid) hneg t ht
              have hdelta : min count (s.thread t).sem_count = count := by omega
              have hnone : ¬ (((s.sem (slot id)).lessen t count).thread t).sem_count ≤ 0 := by
                change ¬ (update s.thread t _ t).sem_count ≤ 0
                rw [update_self]
                show ¬ (s.thread t).sem_count - count ≤ 0
                omega
              change Sem.releaseLoop fuel
                ((s.sem (slot id)).releaseRound t _ (min count (s.thread t).sem_count)).1
                ((s.sem (slot id)).releaseRound t _ (min count (s.thread t).sem_count)).2
                (count - min count (s.thread t).sem_count) = _ at hloop
              rw [hdelta, Int.sub_self] at hloop
              unfold Sem.releaseRound at hloop
              rw [if_neg hnone] at hloop
              exact congrArg thread_queue.head (hend hloop)
          · rw [Int.sub_self] at hloop
            exact congrArg thread_queue.head (hend hloop)

/-- In the release of a death stack, no thread is woken. -/
def WakesNoneAt (s : Sched) : Pc → Prop
  | .release_sem_etc id count _ true => s.WakesNone id count
  | _ => True

theorem run_goes (hsafe : s.WakesNoneAt (s.pc cpu))
    (hrun : s.run cpu fuel skip = some s') : s.Goes cpu s' := by
  unfold run at hrun
  dsimp only at hrun
  generalize hpc : s.pc cpu = pc at hrun
  cases pc with
  | idle =>
    cases hrun
  | acquire_sem_etc id count flags timeout =>
    cases hrun
    refine goes_setPc rfl rfl ?_
    split <;> exact Pc.ordered_of_holds_nil rfl
  | acquireBlocked id flags =>
    dsimp only at hrun
    split at hrun
    · cases hrun
      exact goes_setPc rfl rfl (Pc.ordered_of_wants_sem rfl thread_subset)
    · exact goes_resched hrun rfl rfl (Pc.ordered_of_holds_nil rfl)
  | acquireKilled id =>
    dsimp only at hrun
    split at hrun
    · obtain ⟨r, hr, rfl⟩ := map_eq_some_iff.mp hrun
      obtain ⟨_, _, _, _, hsame⟩ := remove_thread_from_sem_same hr
      rw [hsame]
      exact goes_setPc rfl rfl (Pc.ordered_of_wants_none rfl)
    · cases hrun
      exact goes_setPc rfl rfl (Pc.ordered_of_wants_none rfl)
  | acquireWoken =>
    obtain ⟨s₁, hs₁, hrun⟩ := bind_eq_some_iff.mp hrun
    obtain ⟨_, _, _, rfl⟩ := wakeAll_same hs₁
    exact goes_resched hrun rfl rfl (Pc.ordered_of_holds_nil rfl)
  | release_sem_etc id count flags death =>
    rw [hpc] at hsafe
    obtain ⟨r, hr, rfl⟩ := map_eq_some_iff.mp hrun
    refine goes_setPc rfl rfl ?_
    split
    · exact Pc.ordered_afterRelease death
    · rename_i hhead
      cases death with
      | false => exact Pc.ordered_of_holds_nil rfl
      | true => exact absurd (WakesNone.release hsafe hr) hhead
  | releaseWoken flags death =>
    obtain ⟨s₁, hs₁, hrun⟩ := bind_eq_some_iff.mp hrun
    obtain ⟨_, _, _, rfl⟩ := wakeAll_same hs₁
    split at hrun
    · exact goes_resched hrun rfl rfl (Pc.ordered_afterRelease death)
    · cases hrun
      exact goes_setPc rfl rfl (Pc.ordered_afterRelease death)
  | delete_sem_etc id return_code =>
    obtain ⟨r, hr, rfl⟩ := map_eq_some_iff.mp hrun
    refine goes_setPc rfl rfl ?_
    split <;> exact Pc.ordered_of_holds_nil rfl
  | deleteWoken =>
    obtain ⟨s₁, hs₁, hrun⟩ := bind_eq_some_iff.mp hrun
    obtain ⟨_, _, _, rfl⟩ := wakeAll_same hs₁
    exact goes_resched hrun rfl rfl (Pc.ordered_of_holds_nil rfl)
  | sem_timeout id t =>
    cases hrun
    refine goes_setPc rfl rfl ?_
    split <;> exact Pc.ordered_of_holds_nil rfl
  | timeoutFound id t =>
    dsimp only at hrun
    split at hrun
    · obtain ⟨r, hr, rfl⟩ := map_eq_some_iff.mp hrun
      obtain ⟨_, _, _, _, hsame⟩ := remove_thread_from_sem_same hr
      rw [hsame]
      exact goes_setPc rfl rfl (Pc.ordered_of_holds_nil rfl)
    · cases hrun
  | timeoutWoken =>
    obtain ⟨s₁, hs₁, rfl⟩ := map_eq_some_iff.mp hrun
    obtain ⟨_, _, _, rfl⟩ := wakeAll_same hs₁
    exact goes_setPc rfl rfl (Pc.ordered_of_holds_nil rfl)
  | kill t rest =>
    cases hrun
    exact deliver_signal_goes t rest
  | sem_interrupt_thread t slot rest =>
    dsimp only at hrun
    split at hrun
    · obtain ⟨r, hr, hrun⟩ := bind_eq_some_iff.mp hrun
      obtain ⟨_, _, _, _, hsame⟩ := remove_thread_from_sem_same hr
      split at hrun
      · cases hrun
      · cases hrun
        rw [hsame]
        exact goes_setPc rfl rfl (Pc.ordered_of_wants_none rfl)
    · cases hrun
  | interruptWoken rest =>
    obtain ⟨s₁, hs₁, rfl⟩ := map_eq_some_iff.mp hrun
    obtain ⟨_, _, _, rfl⟩ := wakeAll_same hs₁
    exact goes_setPc rfl rfl (Pc.ordered_afterKill rest)
  | killLoop ts =>
    cases hrun
    exact goes_setPc rfl rfl (Pc.ordered_afterKill _)
  | thread_suspend_thread t =>
    cases hrun
    unfold thread_suspend_thread
    split
    · exact goes_setPc rfl rfl (Pc.ordered_of_holds_nil rfl)
    · split <;> exact goes_setPc rfl rfl (Pc.ordered_of_holds_nil rfl)
  | thread_resume_thread t =>
    cases hrun
    unfold thread_resume_thread
    split <;> exact goes_setPc rfl rfl (Pc.ordered_of_holds_nil rfl)
  | thread_set_priority t priority =>
    obtain ⟨s₁, hs₁, rfl⟩ := map_eq_some_iff.mp hrun
    unfold thread_set_priority at hs₁
    split at hs₁
    · cases hs₁
      exact goes_setPc rfl rfl (Pc.ordered_of_holds_nil rfl)
    · split at hs₁
      · obtain ⟨r, -, rfl⟩ := map_eq_some_iff.mp hs₁
        exact goes_setPc rfl rfl (Pc.ordered_of_holds_nil rfl)
      · cases hs₁
        exact goes_setPc rfl rfl (Pc.ordered_of_holds_nil rfl)
  | thread_resched =>
    exact goes_resched hrun rfl rfl (Pc.ordered_of_holds_nil rfl)
  | thread_atkernel_entry =>
    obtain ⟨r, hr, rfl⟩ := map_eq_some_iff.mp hrun
    obtain ⟨hsame, hcpus⟩ := check_for_thread_sigs_same hr
    exact goes_setPc hsame hcpus (Pc.ordered_of_holds_nil rfl)
  | thread_atkernel_exit =>
    obtain ⟨r, hr, rfl⟩ := map_eq_some_iff.mp hrun
    obtain ⟨hsame, hcpus⟩ := check_for_thread_sigs_same hr
    split <;> exact goes_setPc hsame hcpus (Pc.ordered_of_holds_nil rfl)
  | create_thread priority p alive | createHashed t p alive =>
    cases hrun
    exact goes_setPc rfl rfl (Pc.ordered_of_holds_nil rfl)
  | createInserted t p alive =>
    cases hrun
    split <;> exact goes_setPc rfl rfl (Pc.ordered_of_holds_nil rfl)
  | createAborted t | thread_exit | thread_exit2 index | exitRemoved index =>
    cases hrun
    exact goes_setPc rfl rfl (Pc.ordered_of_holds_nil rfl)
  | get_death_stack =>
    dsimp only at hrun
    split at hrun
    · cases hrun
    · cases hrun
      exact goes_setPc rfl rfl (Pc.ordered_of_holds_nil rfl)
  | put_death_stack_and_reschedule index =>
    dsimp only at hrun
    split at hrun
    · cases hrun
      exact goes_setPc rfl rfl (Pc.ordered_of_wants_sem rfl thread_subset)
    · cases hrun
  | putReleased =>
    exact goes_resched hrun rfl rfl (Pc.ordered_of_holds_nil rfl)

/-! ## The runs -/

theorem ordered_of_start {current : Nat} (h : pc.Start current = true) : pc.Ordered := by
  cases pc with
  | release_sem_etc id count flags death =>
    have hdeath : death = false := (of_decide_eq_true h).2.2
    rw [hdeath]
    exact Pc.ordered_of_holds_nil rfl
  | kill t rest =>
    have hrest : rest = none := of_decide_eq_true h
    rw [hrest]
    exact Pc.ordered_of_holds_nil rfl
  | releaseWoken flags death | sem_interrupt_thread t slot rest => cases h
  | interruptWoken rest => exact Pc.ordered_of_wants_none rfl
  | acquireKilled id => cases h
  | acquireWoken | putReleased => exact Pc.ordered_of_wants_none rfl
  | _ => exact Pc.ordered_of_holds_nil rfl

/-- A call keeps to the order of the locks. -/
def LockSafe (s : Sched) : SchedAction → Prop
  | .run cpu _ _ => s.WakesNoneAt (s.pc cpu)
  | _ => True

theorem ordered_step {a : SchedAction} (h : ∀ cpu, (s.pc cpu).Ordered) (hsafe : s.LockSafe a)
    (hstep : Step s a s') : ∀ cpu, (s'.pc cpu).Ordered := by
  have hupdate : ∀ {cpu : Nat} {pc : Pc}, s'.pc = update s.pc cpu pc → pc.Ordered →
      ∀ cpu', (s'.pc cpu').Ordered := by
    intro cpu pc hpc hordered cpu'
    rw [hpc]
    by_cases hcpu : cpu' = cpu
    · rw [hcpu, update_self]
      exact hordered
    · rw [update_of_ne hcpu]
      exact h cpu'
  cases a with
  | call cpu pc =>
    simp only [Step, Sched.step] at hstep
    split at hstep
    · rename_i hcall
      cases hstep
      exact hupdate rfl (ordered_of_start hcall.2.2)
    · cases hstep
  | run cpu fuel skip =>
    simp only [Step, Sched.step] at hstep
    split at hstep
    · obtain ⟨pc, hpc, -, hordered⟩ := run_goes hsafe hstep
      exact hupdate hpc hordered
    · cases hstep
  | setOwnPriority cpu priority | created t | leave cpu =>
    simp only [Step, Sched.step] at hstep
    split at hstep
    · exact Option.some.inj hstep ▸ h
    · cases hstep

/-- No CPU waits for a spinlock that it has itself, and none for itself through others. -/
structure NoDeadlock (s : Sched) : Prop where
  own : ∀ cpu, ¬ Waits (fun cpu => (s.pc cpu).wants) (fun cpu => (s.pc cpu).holds) cpu cpu
  cycle : ∀ cpu, ¬ Relation.TransGen
    (Waits (fun cpu => (s.pc cpu).wants) fun cpu => (s.pc cpu).holds) cpu cpu

/-- There is no deadlock as long as no thread waits for a death stack when one is given back. -/
theorem spinlocks_no_deadlock (h : By Init LockSafe Step s) : s.NoDeadlock := by
  have hordered := h.invariant (fun s => ∀ cpu, (s.pc cpu).Ordered)
    (fun s hinit cpu => by
      rw [(hinit.2.2.1 cpu).1]
      exact Pc.ordered_of_wants_none rfl)
    fun _ _ _ hs hsafe hstep => ordered_step hs hsafe hstep
  have hacyclic : ∀ cpu, ¬ Relation.TransGen
      (Waits (fun cpu => (s.pc cpu).wants) fun cpu => (s.pc cpu).holds) cpu cpu := acyclic hordered
  exact ⟨fun cpu hwaits => hacyclic cpu (.single hwaits), hacyclic⟩

/-! ## Two CPUs -/

/-- Two CPUs, with as many death stacks. -/
def twoCpus : Sched where
  cpus := 2
  sems := fun slot => if slot = 0 then ⟨0, 2⟩ else if slot = 1 then ⟨1, 0⟩ else ⟨-1, 0⟩
  q := fun _ => ⟨none, none⟩
  q_next := fun _ => none
  thread := fun _ =>
    { newThread with state := THREAD_STATE_RUNNING, next_state := THREAD_STATE_READY }
  priority := fun _ => THREAD_IDLE_PRIORITY
  pending_signals := fun _ => 0
  in_kernel := fun _ => true
  proc := fun _ => some .kernel_proc
  thread_hash := fun t => t < 2
  next_thread_id := 2
  death_stack_bitmap := 0
  death_stack_sem := 0
  current := fun cpu => cpu
  pc := fun _ => .idle
  exiting := fun _ => false

theorem init_twoCpus : twoCpus.Init :=
  ⟨fun _ => rfl, rfl, fun _ => ⟨rfl, rfl⟩,
    fun _ => ⟨rfl, fun h => of_decide_eq_true h, fun _ => ⟨rfl, rfl, rfl, rfl⟩⟩⟩

def go (cpu : Nat) : SchedAction := .run cpu 9 fun _ => false

/-- A call with one section. -/
def section1 (cpu : Nat) (pc : Pc) : List SchedAction := [.call cpu pc, go cpu]

/-- A thread is created, and resumed. -/
def spawn (cpu t : Nat) (p : Proc) : List SchedAction :=
  [.call cpu (.create_thread (-1) p true), go cpu, go cpu, go cpu, .created t] ++
    section1 cpu (.thread_resume_thread t)

instance (s : Sched) (pc : Pc) : Decidable (s.WakesNoneAt pc) := by
  cases pc with
  | release_sem_etc id count flags death =>
    cases death with
    | false => exact inferInstanceAs (Decidable True)
    | true => exact inferInstanceAs (Decidable (_ → _ → ∀ t ∈ (s.q (.sem (slot id))).head, _))
  | _ => exact inferInstanceAs (Decidable True)

instance (s : Sched) : DecidablePred s.LockSafe := fun a => by
  cases a <;> unfold LockSafe <;> infer_instance

/-- A thread gives its death stack back, and no other one waits. -/
theorem spinlocks_no_deadlock_alone : ∃ s, By Init LockSafe Step s ∧ s.NoDeadlock ∧
    s.pc 0 = .putReleased := by
  have hexec : (exec (guarded LockSafe step)
      (spawn 0 2 .kernel_proc ++ section1 0 .thread_resched ++
        section1 0 (.acquire_sem_etc 0 1 0 0) ++ section1 0 .get_death_stack ++
        [.call 0 (.thread_exit2 0), go 0, go 0, go 0, go 0]) twoCpus).map (fun s => s.pc 0) =
      some .putReleased := by decide +kernel
  obtain ⟨s, hs, hpc⟩ := map_eq_some_iff.mp hexec
  have hreach : By Init LockSafe Step s :=
    By.exec (fun _ _ _ => guarded_some) _ (.init init_twoCpus) hs
  exact ⟨s, hreach, spinlocks_no_deadlock hreach, hpc⟩

/-- Two threads have death stacks and a third one waits; the first one gives its stack back. -/
theorem spinlocks_deadlock : ¬ ∀ s, By Init (fun _ _ => True) Step s → s.NoDeadlock := by
  intro hall
  have hexec : (exec step
      (spawn 0 2 .kernel_proc ++ spawn 0 3 .kernel_proc ++ spawn 0 4 .kernel_proc ++
        section1 0 .thread_resched ++ section1 1 .thread_resched ++
        section1 0 (.acquire_sem_etc 0 1 0 0) ++ section1 0 .get_death_stack ++
        section1 1 (.acquire_sem_etc 0 1 0 0) ++ section1 1 .get_death_stack ++
        section1 0 .thread_resched ++ section1 0 (.acquire_sem_etc 0 1 0 0) ++ [go 0] ++
        [.call 0 (.thread_exit2 0), go 0, go 0, go 0, go 0]) twoCpus).map (fun s => s.pc 0) =
      some (.releaseWoken B_DO_NOT_RESCHEDULE true) := by decide +kernel
  obtain ⟨s, hs, hpc⟩ := map_eq_some_iff.mp hexec
  have hreach : By Init (fun _ _ => True) Step s :=
    By.exec (fun _ _ _ h => ⟨trivial, h⟩) _ (.init init_twoCpus) hs
  refine (hall s hreach).own 0 ⟨.thread_spinlock, ?_, ?_⟩
  · show (s.pc 0).wants = _
    rw [hpc]
    rfl
  · show _ ∈ (s.pc 0).holds
    rw [hpc]
    exact List.mem_singleton_self _

end Sched

end Kernel

import OpenBeOS.Kernel.SchedOnce

/-! # The sections keep the queues apart

What each section does to `Sound`, and the runs in which it holds: those without the steps that use
a thread that another CPU has not given up yet, or that is on its way from one queue to another.
-/

namespace Kernel

open SemError ThreadState Reachable Function Option

/-- At these points nothing is announced and no memory is set up. -/
def Pc.Plain (pc : Pc) : Prop := ¬ pc.Blocking ∧ ∀ t p alive, pc ≠ .createHashed t p alive

theorem Pc.plain_afterKill (rest : Option (List Nat)) : (Pc.afterKill rest).Plain := by
  rcases rest with _ | _ | ⟨t, ts⟩ <;> exact ⟨id, nofun⟩

theorem Pc.plain_afterRelease (death : Bool) : (Pc.afterRelease death).Plain := by
  cases death <;> exact ⟨id, nofun⟩

theorem Pc.plain_of_start {pc : Pc} {current : Nat} (h : pc.Start current = true) : pc.Plain := by
  cases pc with
  | acquireBlocked _ _ | acquireKilled _ | acquireWoken | createHashed _ _ _ =>
    exact absurd h Bool.false_ne_true
  | _ => exact ⟨id, nofun⟩

theorem Pc.plain_ite {c : Prop} [Decidable c] {pc pc' : Pc} (h : pc.Plain) (h' : pc'.Plain) :
    (if c then pc else pc').Plain := by
  split
  · exact h
  · exact h'

namespace Sched

variable {s s' : Sched} {ok : Nat → Prop} {lists lists' : QueueId → List Nat} {cpu t fuel : Nat}
  {skip : Nat → Bool} {pc : Pc}

/-! ## Sections that do little -/

theorem Sound.weaken (h : s.Sound Always lists) : s.Sound ok lists :=
  ⟨h.queued, h.distinct, h.made, h.hashed, h.creating, fun c hc _ => h.running c hc trivial,
    fun c hc _ => h.parked c hc trivial, fun c hc _ => h.announced c hc trivial⟩

theorem Sound.turn (h : s.Sound Always lists) (hblocking : ¬ (s.pc cpu).Blocking)
    (hwoken : ¬ (s.pc cpu).Woken) (hplain : pc.Plain) : (s.setPc cpu pc).Sound Always lists :=
  h.goto ⟨fun hpc => absurd hpc hplain.1, fun hpc => absurd hpc hblocking⟩ hwoken
    fun t p alive heq => absurd heq (hplain.2 t p alive)

theorem Sound.same (h : s.Sound ok lists) (sems : Nat → sem_entry)
    (pending_signals : Nat → BitVec 32) (in_kernel : Nat → Bool) (proc : Nat → Option Proc)
    (death_stack_bitmap : BitVec 32) (exiting : Nat → Bool) :
    Sound { s with sems, pending_signals, in_kernel, proc, death_stack_bitmap, exiting } ok
      lists :=
  ⟨⟨h.queued.queues, h.queued.priority, h.queued.made, h.queued.allows, h.queued.stack⟩, h.distinct,
    h.made, h.hashed, h.creating, h.running, h.parked, h.announced⟩

theorem Sound.setHash (h : s.Sound ok lists) (t : Nat) (inside : Bool)
    (ht : inside = true → t < s.next_thread_id) : (s.setHash t inside).Sound ok lists := by
  refine ⟨⟨h.queued.queues, h.queued.priority, h.queued.made, h.queued.allows, h.queued.stack⟩,
    h.distinct, h.made, fun t' ht' => ?_, h.creating, h.running, h.parked, h.announced⟩
  change update s.thread_hash t inside t' = true at ht'
  by_cases heq : t' = t
  · rw [heq, update_self] at ht'
    rw [heq]
    exact ht ht'
  · rw [update_of_ne heq] at ht'
    exact h.hashed t' ht'

theorem Sound.setNext (h : s.Sound Always lists) (state : ThreadState)
    (hblocking : ∀ c < s.cpus, s.current c = t → ¬ (s.pc c).Blocking) :
    (s.modify t fun thread => { thread with next_state := state }).Sound Always lists := by
  refine h.modify (fun k hk => h.queued.allows k t hk) (fun c hc heq => ?_) fun c hc heq hpc => ?_
  · have hrunning := h.running c hc trivial
    rw [heq] at hrunning
    exact hrunning
  · exact absurd hpc (hblocking c hc heq)

/-! ## Sections that reschedule -/

theorem Sound.yield (h : s.Sound Always lists) (hcpu : cpu < s.cpus)
    (hblocking : ¬ (s.pc cpu).Blocking) (hstack : lists (.onStack cpu) = [])
    (hresched : s.thread_resched cpu skip = some s') (hplain : pc.Plain) :
    ∃ lists', (s'.setPc cpu pc).Sound Always lists' ∧
      ∀ slot, ∀ t ∈ lists' (.sem slot), t ∈ lists (.sem slot) :=
  h.weaken.resched hcpu hstack (Or.inl (h.out hcpu hblocking)) hresched hplain.1 hplain.2

theorem Sound.yield_map (h : s.Sound Always lists) (hcpu : cpu < s.cpus)
    (hblocking : ¬ (s.pc cpu).Blocking) (hstack : lists (.onStack cpu) = [])
    (hresched : (s.thread_resched cpu skip).map (fun s => s.setPc cpu pc) = some s')
    (hplain : pc.Plain) :
    ∃ lists', s'.Sound Always lists' ∧ ∀ slot, ∀ t ∈ lists' (.sem slot), t ∈ lists (.sem slot) := by
  obtain ⟨s₁, hs₁, rfl⟩ := map_eq_some_iff.mp hresched
  exact h.yield hcpu hblocking hstack hs₁ hplain

theorem Sound.wait (h : s.Sound (· ≠ cpu) lists) (hcpu : cpu < s.cpus)
    (hstack : lists (.onStack cpu) = [])
    (hnext : (s.thread (s.current cpu)).next_state = THREAD_STATE_WAITING)
    (hdead : s.current cpu ∉ lists .dead)
    (hresched : (s.thread_resched cpu skip).map (fun s => s.setPc cpu .idle) = some s') :
    ∃ lists', s'.Sound Always lists' ∧ ∀ slot, ∀ t ∈ lists' (.sem slot), t ∈ lists (.sem slot) := by
  obtain ⟨s₁, hs₁, rfl⟩ := map_eq_some_iff.mp hresched
  exact h.resched hcpu hstack (Or.inr ⟨hnext, hdead⟩) hs₁ id nofun

/-! ## Sections that wake -/

/-- The threads in the queue on the stack have given up their CPUs. -/
def GivenUp (s : Sched) (cpu : Nat) : Prop :=
  ∀ ts, Holds s.q_next (s.q (.onStack cpu)) ts → ∀ t ∈ ts, ∀ c < s.cpus, c ≠ cpu → s.current c ≠ t

theorem Sound.givenUp (h : s.Sound ok lists) (hgiven : s.GivenUp cpu) :
    ∀ t ∈ lists (.onStack cpu), ∀ c < s.cpus, c ≠ cpu → s.current c ≠ t :=
  hgiven _ (h.queued.queues.holds _)

section

variable (h : s.Sound Always lists)
include h

theorem Sound.wake (hcpu : cpu < s.cpus)
    (hblocking : ¬ (s.pc cpu).Blocking) (hgiven : s.GivenUp cpu)
    (hwake : Sched.wakeAll cpu fuel s = some s') :
    ∃ lists', s'.Sound Always lists' ∧ lists' (.onStack cpu) = [] ∧
      ∀ slot, ∀ t ∈ lists' (.sem slot), t ∈ lists (.sem slot) := by
  have hothers : ∀ t ∈ lists (.onStack cpu), ∀ c < s.cpus, Always c → s.current c ≠ t := by
    intro t ht c hc _
    by_cases hccpu : c = cpu
    · rw [hccpu]
      exact fun heq => h.out hcpu hblocking _ (heq ▸ ht)
    · exact h.givenUp hgiven t ht c hc hccpu
  obtain ⟨lists', h', hnil, hmem⟩ := h.wakeAll hothers hwake
  refine ⟨lists', h', hnil, fun slot t ht => ?_⟩
  rcases hmem _ t ht with ht | ⟨⟨p, hp⟩, -⟩
  · exact ht
  · cases hp

theorem Sound.wake_yield (hcpu : cpu < s.cpus)
    (hblocking : ¬ (s.pc cpu).Blocking) (hgiven : s.GivenUp cpu) (hplain : pc.Plain)
    (hwake : ((Sched.wakeAll cpu fuel s).bind fun s =>
      (s.thread_resched cpu skip).map fun s => s.setPc cpu pc) = some s') :
    ∃ lists', s'.Sound Always lists' ∧ ∀ slot, ∀ t ∈ lists' (.sem slot), t ∈ lists (.sem slot) := by
  obtain ⟨s₁, hs₁, hresched⟩ := bind_eq_some_iff.mp hwake
  obtain ⟨lists₁, h₁, hnil, hsem₁⟩ := h.wake hcpu hblocking hgiven hs₁
  obtain ⟨q, q_next, priority, rfl⟩ := wakeAll_same hs₁
  obtain ⟨lists', h', hsem⟩ := h₁.yield_map hcpu hblocking hnil hresched hplain
  exact ⟨lists', h', fun slot t ht => hsem₁ slot t (hsem slot t ht)⟩

theorem Sound.wake_turn (hcpu : cpu < s.cpus)
    (hblocking : ¬ (s.pc cpu).Blocking) (hgiven : s.GivenUp cpu) (hplain : pc.Plain)
    (hwake : (Sched.wakeAll cpu fuel s).map (fun s => s.setPc cpu pc) = some s') :
    ∃ lists', s'.Sound Always lists' ∧ ∀ slot, ∀ t ∈ lists' (.sem slot), t ∈ lists (.sem slot) := by
  obtain ⟨s₁, hs₁, rfl⟩ := map_eq_some_iff.mp hwake
  obtain ⟨lists₁, h₁, hnil, hsem₁⟩ := h.wake hcpu hblocking hgiven hs₁
  obtain ⟨q, q_next, priority, rfl⟩ := wakeAll_same hs₁
  refine ⟨lists₁, h₁.setPc ?_ (fun hne => absurd hnil hne) fun t p alive heq => ?_, hsem₁⟩
  · exact ⟨fun hpc => absurd hpc hplain.1, fun hpc => absurd hpc hblocking⟩
  · exact absurd heq (hplain.2 t p alive)

theorem Sound.wake_wait (hcpu : cpu < s.cpus)
    (hblocking : (s.pc cpu).Blocking) (hgiven : s.GivenUp cpu)
    (hwake : ((Sched.wakeAll cpu fuel s).bind fun s =>
      (s.thread_resched cpu skip).map fun s => s.setPc cpu .idle) = some s') :
    ∃ lists', s'.Sound Always lists' ∧ ∀ slot, ∀ t ∈ lists' (.sem slot), t ∈ lists (.sem slot) := by
  obtain ⟨s₁, hs₁, hresched⟩ := bind_eq_some_iff.mp hwake
  have hweak : s.Sound (· ≠ cpu) lists := h.weaken
  obtain ⟨lists₁, h₁, hnil, hmem⟩ := hweak.wakeAll (h.givenUp hgiven) hs₁
  obtain ⟨q, q_next, priority, rfl⟩ := wakeAll_same hs₁
  have hdead : s.current cpu ∉ lists₁ .dead := by
    intro hin
    rcases hmem _ _ hin with hin | ⟨⟨p, hp⟩, -⟩
    · exact (h.parked cpu hcpu trivial .dead hin).2
    · cases hp
  obtain ⟨lists', h', hsem⟩ :=
    h₁.wait hcpu hnil (h.announced cpu hcpu trivial hblocking) hdead hresched
  refine ⟨lists', h', fun slot t ht => ?_⟩
  rcases hmem _ t (hsem slot t ht) with ht | ⟨⟨p, hp⟩, -⟩
  · exact ht
  · cases hp

/-! ## Sections under the lock of a semaphore -/

/-- The thread of the CPU takes its units, or it gets into the queue. -/
theorem Sound.acquire (hcpu : cpu < s.cpus)
    (hblocking : ¬ (s.pc cpu).Blocking) (hwoken : ¬ (s.pc cpu).Woken) (id count : Int)
    (flags : BitVec 32) (timeout : Int) (sig_kill : Bool) {r : Sem.AcquireResult × Sem}
    (hr : (s.sem (slot id)).acquire_sem_etc (s.current cpu) id count flags timeout sig_kill = r) :
    ∃ lists', ((s.setSem cpu (slot id) r.2 (s.q (.onStack cpu))).setPc cpu
        (if r.1 = .blocks then .acquireBlocked id flags else .idle)).Sound Always lists' ∧
      ∀ slot', ∀ t ∈ lists' (.sem slot'), t ∈ lists (.sem slot') ∨
        t = s.current cpu ∧ slot' = slot id ∧ r.1 = .blocks := by
  rcases acquire_cases (s.sem (slot id)) (s.current cpu) id count flags timeout sig_kill with
    ⟨hreturns, hq, hnext, hthread, -⟩ | ⟨-, hblocks⟩
  · rw [hr] at hreturns hq hnext hthread
    rw [if_neg hreturns]
    have hsame : s.setSem cpu (slot id) r.2 (s.q (.onStack cpu)) =
        { s with sems := update s.sems (slot id) ⟨r.2.id, r.2.count⟩ } := by
      have hqueues : update (update s.q (.sem (slot id)) r.2.q) (.onStack cpu)
          (s.q (.onStack cpu)) = s.q := by
        rw [hq, show (s.sem (slot id)).q = s.q (.sem (slot id)) from rfl,
          update_eq_self, update_eq_self]
      unfold setSem
      rw [hqueues, hnext, hthread]
      rfl
    rw [hsame]
    refine ⟨lists, ?_, fun _ _ ht => Or.inl ht⟩
    exact (h.same _ s.pending_signals s.in_kernel s.proc s.death_stack_bitmap s.exiting).turn
      hblocking hwoken ⟨fun hpc => hpc, nofun⟩
  · rw [hr] at hblocks
    subst hblocks
    rw [if_pos rfl]
    have hthread := rfl (a := (({ s.sem (slot id) with
      count := (s.sem (slot id)).count - count }).block (s.current cpu) count flags).thread)
    refine ⟨_, h.block hcpu hblocking rfl rfl hthread ⟨rfl, rfl⟩ hwoken, fun slot' t ht => ?_⟩
    rcases mem_enqueue ht with ht | ⟨rfl, hslot⟩
    · exact Or.inl ht
    · exact Or.inr ⟨rfl, QueueId.sem.inj hslot, rfl⟩

theorem Sound.moved_turn (hblocking : ¬ (s.pc cpu).Blocking) {slot : Nat}
    {sem : Sem} {queue : thread_queue} (hplugged : sem.Plugged s.q slot cpu queue lists')
    (hmoved : Moved slot cpu (s.sem slot) sem lists lists') (hplain : pc.Plain)
    (hstack : queue.head ≠ none → pc.Woken) :
    ((s.setSem cpu slot sem queue).setPc cpu pc).Sound Always lists' := by
  refine h.moved hplugged hmoved ?_ (fun hne => hstack fun hhead => hne ?_) fun t p alive heq => ?_
  · exact ⟨fun hpc => absurd hpc hplain.1, fun hpc => absurd hpc hblocking⟩
  · have hlookat := (hplugged.holds (.onStack cpu)).lookat
    rw [plug_onStack] at hlookat
    exact List.head?_eq_none_iff.mp (hlookat.symm.trans hhead)
  · exact absurd heq (hplain.2 t p alive)

theorem Sound.remove {slot t : Nat} {err : SemError} {r : SemError × Sched}
    (hremove : s.remove_thread_from_sem cpu fuel t slot err = some r)
    (hwoken : ¬ (s.pc cpu).Woken) (pc : Pc) (hwoken' : pc.Woken)
    (hblocking : pc.Blocking ↔ (s.pc cpu).Blocking) :
    ∃ lists', (r.2.setPc cpu pc).Sound Always lists' ∧ t ∉ lists' (.sem slot) ∧
      ∀ slot', ∀ t' ∈ lists' (.sem slot'), t' ∈ lists (.sem slot') := by
  obtain ⟨⟨result, sem, queue⟩, hsem, rfl⟩ := map_eq_some_iff.mp hremove
  obtain ⟨lists', hplugged, hmoved, -, hout⟩ := (h.plugged (h.onStack_nil hwoken) slot).remove hsem
  refine ⟨lists', h.moved hplugged hmoved hblocking (fun _ => hwoken') (fun t p alive heq => ?_),
    hout, fun slot' t' ht' => ?_⟩
  · rw [heq] at hwoken'
    exact absurd hwoken' id
  · rcases hmoved.mem _ t' ht' with ht' | ⟨hk, -⟩
    · exact ht'
    · cases hk

theorem Sound.release (hblocking : ¬ (s.pc cpu).Blocking)
    (hwoken : ¬ (s.pc cpu).Woken) {id count : Int} {flags : BitVec 32} {death : Bool}
    (hrelease : ((s.sem (slot id)).release_sem_etc fuel id count).map (fun r =>
        (s.setSem cpu (slot id) r.2.1 r.2.2).setPc cpu
          (if r.2.2.head = none then .afterRelease death else .releaseWoken flags death)) =
      some s') :
    ∃ lists', s'.Sound Always lists' ∧ ∀ slot, ∀ t ∈ lists' (.sem slot), t ∈ lists (.sem slot) := by
  obtain ⟨⟨err, sem, queue⟩, hsem, rfl⟩ := map_eq_some_iff.mp hrelease
  obtain ⟨lists', hplugged, hmoved, -⟩ := (h.plugged (h.onStack_nil hwoken) (slot id)).release hsem
  refine ⟨lists', h.moved_turn hblocking hplugged hmoved ?_ fun hhead => ?_, fun slot' t ht => ?_⟩
  · exact Pc.plain_ite (Pc.plain_afterRelease death) ⟨fun hpc => hpc, nofun⟩
  · rw [if_neg hhead]
    trivial
  · rcases hmoved.mem _ t ht with ht | ⟨hk, -⟩
    · exact ht
    · cases hk

theorem Sound.delete (hblocking : ¬ (s.pc cpu).Blocking)
    (hwoken : ¬ (s.pc cpu).Woken) {id return_code : Int}
    (hdelete : ((s.sem (slot id)).delete_sem_etc fuel id return_code).map (fun r =>
        (s.setSem cpu (slot id) r.1 r.2).setPc cpu
          (if r.2.head = none then .idle else .deleteWoken)) = some s') :
    ∃ lists', s'.Sound Always lists' ∧
      ((s'.sems (slot id)).id = (s.sems (slot id)).id ∨ lists' (.sem (slot id)) = []) ∧
      ∀ slot, ∀ t ∈ lists' (.sem slot), t ∈ lists (.sem slot) := by
  obtain ⟨⟨sem, queue⟩, hsem, rfl⟩ := map_eq_some_iff.mp hdelete
  obtain ⟨lists', hplugged, hmoved, hid⟩ := (h.plugged (h.onStack_nil hwoken) (slot id)).delete hsem
  refine ⟨lists', h.moved_turn hblocking hplugged hmoved ?_ fun hhead => ?_, ?_, fun slot' t ht => ?_⟩
  · exact Pc.plain_ite ⟨fun hpc => hpc, nofun⟩ ⟨fun hpc => hpc, nofun⟩
  · rw [if_neg hhead]
    trivial
  · refine hid.imp_left fun hid => ?_
    show (update s.sems (slot id) ⟨sem.id, sem.count⟩ (slot id)).id = _
    rw [update_self]
    exact hid
  · rcases hmoved.mem _ t ht with ht | ⟨hk, -⟩
    · exact ht
    · cases hk

/-! ## Signals -/

theorem Sound.deliver_signal (hblocking : ¬ (s.pc cpu).Blocking)
    (hwoken : ¬ (s.pc cpu).Woken) (t : Nat) (rest : Option (List Nat)) :
    ∃ lists', (s.deliver_signal cpu t rest).Sound Always lists' ∧
      ∀ slot, ∀ t ∈ lists' (.sem slot), t ∈ lists (.sem slot) := by
  have hafter := Pc.plain_afterKill rest
  unfold Sched.deliver_signal
  split
  · exact ⟨lists, h.turn hblocking hwoken hafter, fun _ _ ht => ht⟩
  · rename_i hnot
    have hhash : s.thread_hash t = true := by
      by_contra hhash
      exact hnot (Or.inl (Bool.not_eq_true _ ▸ hhash))
    have hsame := h.same s.sems (update s.pending_signals t
      (s.pending_signals t ||| SIG_KILL)) s.in_kernel s.proc s.death_stack_bitmap s.exiting
    dsimp only
    split
    · rename_i hstate
      obtain ⟨lists', h', hmem⟩ := hsame.resume hhash hstate
      refine ⟨lists', h'.turn hblocking hwoken hafter, fun slot t' ht' => ?_⟩
      rcases hmem _ t' ht' with ht' | ⟨-, hk⟩
      · exact ht'
      · exact absurd trivial hk
    · split
      · exact ⟨lists, hsame.turn hblocking hwoken ⟨fun hpc => hpc, nofun⟩, fun _ _ ht => ht⟩
      · exact ⟨lists, hsame.turn hblocking hwoken hafter, fun _ _ ht => ht⟩
    · exact ⟨lists, hsame.turn hblocking hwoken hafter, fun _ _ ht => ht⟩

theorem Sound.check_for_thread_sigs (hcpu : cpu < s.cpus)
    (hblocking : ¬ (s.pc cpu).Blocking) (hwoken : ¬ (s.pc cpu).Woken) {r : Bool × Sched}
    (hr : s.check_for_thread_sigs cpu skip = some r) :
    ∃ lists', (r.2.setPc cpu .idle).Sound Always lists' ∧
      ∀ slot, ∀ t ∈ lists' (.sem slot), t ∈ lists (.sem slot) := by
  have hidle : Pc.idle.Plain := ⟨fun hpc => hpc, nofun⟩
  unfold Sched.check_for_thread_sigs at hr
  dsimp only at hr
  split at hr
  · cases hr
    exact ⟨lists, h.turn hblocking hwoken hidle, fun _ _ ht => ht⟩
  · split at hr
    · cases hr
      have hsame := h.same s.sems (update s.pending_signals (s.current cpu)
        (s.pending_signals (s.current cpu) &&& ~~~SIG_KILL)) s.in_kernel s.proc
        s.death_stack_bitmap (update s.exiting (s.current cpu) true)
      exact ⟨lists, hsame.turn hblocking hwoken hidle, fun _ _ ht => ht⟩
    · split at hr
      · obtain ⟨s₁, hs₁, rfl⟩ := map_eq_some_iff.mp hr
        have hsame := h.same s.sems (update s.pending_signals (s.current cpu)
          (s.pending_signals (s.current cpu) &&& ~~~SIG_SUSPEND)) s.in_kernel s.proc
          s.death_stack_bitmap s.exiting
        have hnext := hsame.setNext (t := s.current cpu) THREAD_STATE_SUSPENDED fun c hc heq => by
          obtain rfl := h.distinct c hc cpu hcpu heq
          exact hblocking
        exact hnext.yield hcpu hblocking (h.onStack_nil hwoken) hs₁ hidle
      · cases hr
        exact ⟨lists, h.turn hblocking hwoken hidle, fun _ _ ht => ht⟩

end

/-- A thread is not suspended while it blocks: the kernel has not been entered by a call then. -/
def Suspendable (s : Sched) (t : Nat) : Prop :=
  s.thread_hash t = true → s.proc t ≠ some .kernel_proc → s.in_kernel t = false →
    ∀ c < s.cpus, s.current c = t → ¬ (s.pc c).Blocking

theorem Sound.thread_suspend_thread (h : s.Sound Always lists) (hsuspend : s.Suspendable t) :
    (s.thread_suspend_thread t).Sound Always lists := by
  unfold Sched.thread_suspend_thread
  split
  · exact h
  · rename_i hnot
    rw [not_or] at hnot
    split
    · exact h.same s.sems (update s.pending_signals t
        (s.pending_signals t ||| SIG_SUSPEND)) s.in_kernel s.proc s.death_stack_bitmap s.exiting
    · rename_i hkernel
      exact h.setNext THREAD_STATE_SUSPENDED
        (hsuspend (Bool.not_eq_false _ ▸ hnot.1) hnot.2 (Bool.not_eq_true _ ▸ hkernel))

theorem thread_suspend_thread_pc (s : Sched) (t : Nat) : (s.thread_suspend_thread t).pc = s.pc := by
  unfold Sched.thread_suspend_thread
  split
  · rfl
  · split <;> rfl

/-! ## One section -/

/-- The section leaves every thread in one place: threads are woken when they have given up their
CPUs, a priority is changed when the thread is where its state says, and no thread is suspended that
is about to wait. -/
def OnceSafe (s : Sched) (cpu : Nat) : Pc → Prop
  | .acquireWoken | .releaseWoken _ _ | .deleteWoken | .timeoutWoken | .interruptWoken _ =>
    s.GivenUp cpu
  | .thread_set_priority t priority => s.InPlace t priority
  | .thread_suspend_thread t => s.Suspendable t
  | _ => True

/-- The thread of the CPU gets into the queue of a semaphore. -/
def Enters (s : Sched) (cpu t slot : Nat) (s' : Sched) : Prop :=
  t = s.current cpu ∧ ∃ id flags, s'.pc cpu = .acquireBlocked id flags ∧ slot = Kernel.slot id ∧
    ∃ count timeout, s.pc cpu = .acquire_sem_etc id count flags timeout

/-- The section keeps the invariant, and the semaphores get no other thread. -/
def Keeps (s : Sched) (cpu : Nat) (lists : QueueId → List Nat) (s' : Sched) : Prop :=
  ∃ lists', s'.Sound Always lists' ∧
    ∀ slot, ∀ t ∈ lists' (.sem slot), t ∈ lists (.sem slot) ∨ s.Enters cpu t slot s'

theorem keeps_of_subset (h : s'.Sound Always lists')
    (hsem : ∀ slot, ∀ t ∈ lists' (.sem slot), t ∈ lists (.sem slot)) : s.Keeps cpu lists s' :=
  ⟨lists', h, fun slot t ht => Or.inl (hsem slot t ht)⟩

theorem keeps_of_exists (h : ∃ lists', s'.Sound Always lists' ∧
    ∀ slot, ∀ t ∈ lists' (.sem slot), t ∈ lists (.sem slot)) : s.Keeps cpu lists s' := by
  obtain ⟨lists', h', hsem⟩ := h
  exact keeps_of_subset h' hsem

theorem keeps_same (h : s'.Sound Always lists) : s.Keeps cpu lists s' :=
  keeps_of_subset h fun _ _ ht => ht

section

variable (h : s.Sound Always lists) (hcpu : cpu < s.cpus) (hsafe : s.OnceSafe cpu (s.pc cpu))
include h hcpu hsafe

/-- The sections of the threads that block. -/
theorem Sound.run_blocking (hblocking : (s.pc cpu).Blocking)
    (hrun : s.run cpu fuel skip = some s') : s.Keeps cpu lists s' := by
  unfold Sched.run at hrun
  generalize hpc : s.pc cpu = pc at hrun
  cases pc with
  | acquireBlocked id flags =>
    have hwoken : ¬ (s.pc cpu).Woken := by rw [hpc]; exact fun hpc => hpc
    dsimp only at hrun
    split at hrun
    · cases hrun
      exact keeps_same (h.goto ⟨fun _ => hblocking, fun _ => trivial⟩ hwoken nofun)
    · have hdead : s.current cpu ∉ lists .dead := fun hin => (h.parked cpu hcpu trivial .dead hin).2
      have hnext := h.announced cpu hcpu trivial hblocking
      have hweak : s.Sound (· ≠ cpu) lists := h.weaken
      exact keeps_of_exists (hweak.wait hcpu (h.onStack_nil hwoken) hnext hdead hrun)
  | acquireKilled id =>
    have hwoken : ¬ (s.pc cpu).Woken := by rw [hpc]; exact fun hpc => hpc
    have hiff : Pc.acquireWoken.Blocking ↔ (s.pc cpu).Blocking :=
      ⟨fun _ => hblocking, fun _ => trivial⟩
    dsimp only at hrun
    split at hrun
    · obtain ⟨r, hr, rfl⟩ := map_eq_some_iff.mp hrun
      obtain ⟨lists', h', -, hsem⟩ := h.remove hr hwoken .acquireWoken trivial hiff
      exact keeps_of_subset h' hsem
    · cases hrun
      exact keeps_same (h.goto hiff hwoken nofun)
  | acquireWoken =>
    rw [hpc] at hsafe
    exact keeps_of_exists (h.wake_wait hcpu hblocking hsafe hrun)
  | _ =>
    rw [hpc] at hblocking
    exact absurd hblocking id

/-- The sections that wake threads. -/
theorem Sound.run_woken (hblocking : ¬ (s.pc cpu).Blocking)
    (hwoken : (s.pc cpu).Woken) (hrun : s.run cpu fuel skip = some s') : s.Keeps cpu lists s' := by
  have hidle : Pc.idle.Plain := ⟨fun hpc => hpc, nofun⟩
  unfold Sched.run at hrun
  generalize hpc : s.pc cpu = pc at hrun
  cases pc with
  | acquireWoken =>
    rw [hpc] at hblocking
    exact absurd trivial hblocking
  | releaseWoken flags death =>
    rw [hpc] at hsafe
    have hafter := Pc.plain_afterRelease death
    obtain ⟨s₁, hs₁, hrest⟩ := bind_eq_some_iff.mp hrun
    split at hrest
    · refine keeps_of_exists (h.wake_yield hcpu hblocking hsafe hafter
        (bind_eq_some_iff.mpr ⟨s₁, hs₁, hrest⟩))
    · refine keeps_of_exists (h.wake_turn hcpu hblocking hsafe hafter
        (map_eq_some_iff.mpr ⟨s₁, hs₁, Option.some.inj hrest⟩))
  | deleteWoken =>
    rw [hpc] at hsafe
    exact keeps_of_exists (h.wake_yield hcpu hblocking hsafe hidle hrun)
  | timeoutWoken =>
    rw [hpc] at hsafe
    exact keeps_of_exists (h.wake_turn hcpu hblocking hsafe hidle hrun)
  | interruptWoken rest =>
    rw [hpc] at hsafe
    exact keeps_of_exists
      (h.wake_turn hcpu hblocking hsafe (Pc.plain_afterKill rest) hrun)
  | _ =>
    rw [hpc] at hwoken
    exact absurd hwoken id

/-- The other sections. -/
theorem Sound.run_other (hblocking : ¬ (s.pc cpu).Blocking)
    (hwoken : ¬ (s.pc cpu).Woken) (hrun : s.run cpu fuel skip = some s') :
    s.Keeps cpu lists s' := by
  have hidle : Pc.idle.Plain := ⟨fun hpc => hpc, nofun⟩
  have hstack := h.onStack_nil hwoken
  unfold Sched.run at hrun
  generalize hpc : s.pc cpu = pc at hrun
  cases pc with
  | idle =>
    cases hrun
  | acquireBlocked _ _ | acquireKilled _ | acquireWoken =>
    rw [hpc] at hblocking
    exact absurd trivial hblocking
  | releaseWoken _ _ | deleteWoken | timeoutWoken | interruptWoken _ =>
    rw [hpc] at hwoken
    exact absurd trivial hwoken
  | acquire_sem_etc id count flags timeout =>
    cases hrun
    obtain ⟨lists', h', hsem⟩ := h.acquire hcpu hblocking hwoken id count flags timeout
      (s.Killed (s.current cpu)) rfl
    refine ⟨lists', h', fun slot t ht => (hsem slot t ht).imp_right ?_⟩
    rintro ⟨ht, hslot, hblocks⟩
    refine ⟨ht, id, flags, ?_, hslot, count, timeout, hpc⟩
    rw [if_pos hblocks]
    exact update_self ..
  | release_sem_etc id count flags death =>
    exact keeps_of_exists (h.release hblocking hwoken hrun)
  | delete_sem_etc id return_code =>
    obtain ⟨lists', h', -, hsem⟩ := h.delete hblocking hwoken hrun
    exact keeps_of_subset h' hsem
  | sem_timeout id t =>
    cases hrun
    exact keeps_same (h.turn hblocking hwoken (Pc.plain_ite ⟨fun hpc => hpc, nofun⟩ hidle))
  | timeoutFound id t =>
    dsimp only at hrun
    split at hrun
    · obtain ⟨r, hr, rfl⟩ := map_eq_some_iff.mp hrun
      obtain ⟨lists', h', -, hsem⟩ := h.remove hr hwoken .timeoutWoken trivial
        ⟨False.elim, fun hpc => absurd hpc hblocking⟩
      exact keeps_of_subset h' hsem
    · cases hrun
  | kill t rest =>
    cases hrun
    exact keeps_of_exists (h.deliver_signal hblocking hwoken t rest)
  | sem_interrupt_thread t slot rest =>
    dsimp only at hrun
    split at hrun
    · obtain ⟨r, hr, hrest⟩ := bind_eq_some_iff.mp hrun
      split at hrest
      · cases hrest
      · cases hrest
        obtain ⟨lists', h', -, hsem⟩ := h.remove hr hwoken (.interruptWoken rest) trivial
          ⟨False.elim, fun hpc => absurd hpc hblocking⟩
        exact keeps_of_subset h' hsem
    · cases hrun
  | killLoop ts =>
    cases hrun
    exact keeps_same (h.turn hblocking hwoken (Pc.plain_afterKill _))
  | thread_suspend_thread t =>
    rw [hpc] at hsafe
    cases hrun
    have hpc' := thread_suspend_thread_pc s t
    refine keeps_same ((h.thread_suspend_thread hsafe).turn ?_ ?_ hidle)
    · rw [hpc']
      exact hblocking
    · rw [hpc']
      exact hwoken
  | thread_resume_thread t =>
    cases hrun
    unfold Sched.thread_resume_thread
    split
    · rename_i hresume
      obtain ⟨lists', h', hmem⟩ := h.resume hresume.1 hresume.2
      refine keeps_of_subset (h'.turn hblocking hwoken hidle) fun slot t' ht' => ?_
      rcases hmem _ t' ht' with ht' | ⟨-, hk⟩
      · exact ht'
      · exact absurd trivial hk
    · exact keeps_same (h.turn hblocking hwoken hidle)
  | thread_set_priority t priority =>
    rw [hpc] at hsafe
    obtain ⟨s₁, hs₁, rfl⟩ := map_eq_some_iff.mp hrun
    obtain ⟨lists', h', hpc', -, hmem⟩ := h.set_priority hsafe hs₁
    have hturn : (s₁.setPc cpu .idle).Sound Always lists' := by
      refine h'.turn ?_ ?_ hidle
      · rw [hpc']
        exact hblocking
      · rw [hpc']
        exact hwoken
    refine keeps_of_subset hturn fun slot t' ht' => ?_
    rcases hmem _ t' ht' with ht' | hk
    · exact ht'
    · exact absurd trivial hk
  | thread_resched =>
    exact keeps_of_exists (h.yield_map hcpu hblocking hstack hrun hidle)
  | thread_atkernel_entry =>
    obtain ⟨r, hr, rfl⟩ := map_eq_some_iff.mp hrun
    have hsame := h.same s.sems s.pending_signals
      (update s.in_kernel (s.current cpu) true) s.proc s.death_stack_bitmap s.exiting
    exact keeps_of_exists (hsame.check_for_thread_sigs hcpu hblocking hwoken hr)
  | thread_atkernel_exit =>
    obtain ⟨r, hr, rfl⟩ := map_eq_some_iff.mp hrun
    obtain ⟨lists', h', hsem⟩ := h.check_for_thread_sigs hcpu hblocking hwoken hr
    refine keeps_of_subset ?_ hsem
    split
    · exact h'.same r.2.sems r.2.pending_signals
        (update r.2.in_kernel (s.current cpu) false) r.2.proc r.2.death_stack_bitmap
        r.2.exiting
    · exact h'
  | create_thread priority p alive =>
    cases hrun
    obtain ⟨lists', h', hsem⟩ := h.create hblocking hwoken priority p alive
    exact keeps_of_subset h' fun slot => hsem _
  | createHashed t p alive =>
    cases hrun
    have hhash := h.setHash t true fun _ => h.creating cpu t p alive hpc
    exact keeps_same (hhash.turn hblocking hwoken ⟨fun hpc => hpc, nofun⟩)
  | createInserted t p alive =>
    cases hrun
    split
    · have hsame := h.same s.sems s.pending_signals s.in_kernel
        (update s.proc t (some p)) s.death_stack_bitmap s.exiting
      exact keeps_same (hsame.turn hblocking hwoken hidle)
    · exact keeps_same (h.turn hblocking hwoken ⟨fun hpc => hpc, nofun⟩)
  | createAborted t =>
    cases hrun
    have hhash := h.setHash t false nofun
    exact keeps_same (hhash.turn hblocking hwoken hidle)
  | thread_exit =>
    cases hrun
    have hsame := h.same s.sems s.pending_signals s.in_kernel
      (update s.proc (s.current cpu) (some .kernel_proc)) s.death_stack_bitmap s.exiting
    exact keeps_same (hsame.turn hblocking hwoken hidle)
  | thread_exit2 index =>
    cases hrun
    exact keeps_same (h.turn hblocking hwoken ⟨fun hpc => hpc, nofun⟩)
  | exitRemoved index =>
    cases hrun
    have hnext := (h.setHash (s.current cpu) false nofun).setNext
      (t := s.current cpu) THREAD_STATE_FREE_ON_RESCHED fun c hc heq => by
        obtain rfl := h.distinct c hc cpu hcpu heq
        exact hblocking
    exact keeps_same (hnext.turn hblocking hwoken ⟨fun hpc => hpc, nofun⟩)
  | get_death_stack =>
    dsimp only at hrun
    split at hrun
    · cases hrun
    · cases hrun
      have hsame := h.same s.sems s.pending_signals s.in_kernel s.proc
        (s.death_stack_bitmap ||| freeDeathStack s.death_stack_bitmap) s.exiting
      exact keeps_same (hsame.turn hblocking hwoken hidle)
  | put_death_stack_and_reschedule index =>
    dsimp only at hrun
    split at hrun
    · cases hrun
      have hsame := h.same s.sems s.pending_signals s.in_kernel s.proc
        (s.death_stack_bitmap &&& ~~~((1 : BitVec 32) <<< index)) s.exiting
      exact keeps_same (hsame.turn hblocking hwoken ⟨fun hpc => hpc, nofun⟩)
    · cases hrun
  | putReleased =>
    exact keeps_of_exists (h.yield_map hcpu hblocking hstack hrun hidle)

theorem Sound.run (hrun : s.run cpu fuel skip = some s') :
    s.Keeps cpu lists s' := by
  by_cases hblocking : (s.pc cpu).Blocking
  · exact h.run_blocking hcpu hsafe hblocking hrun
  · by_cases hwoken : (s.pc cpu).Woken
    · exact h.run_woken hcpu hsafe hblocking hwoken hrun
    · exact h.run_other hcpu hsafe hblocking hwoken hrun

end

/-! ## Runs -/

/-- Every section of the run is as `OnceSafe` says. -/
def OnceSafeStep (s : Sched) : SchedAction → Prop
  | .run cpu _ _ => s.OnceSafe cpu (s.pc cpu)
  | _ => True

theorem Sound.init (h : s.Init) : s.Sound Always fun _ => [] := by
  obtain ⟨hq, hnext, hcpu, hthread⟩ := h
  have hqueues : Queues s.q_next s.q fun _ => [] := by
    refine ⟨fun k => ?_, fun _ _ _ _ ht => absurd ht List.not_mem_nil⟩
    rw [hq k]
    exact holds_nil
  refine ⟨⟨hqueues, fun _ _ ht => absurd ht List.not_mem_nil,
    fun _ _ ht => absurd ht List.not_mem_nil, fun _ _ ht => absurd ht List.not_mem_nil,
    fun _ hne => absurd rfl hne⟩, fun c _ c' _ heq => ?_, fun c hc => ?_, fun t ht => ?_,
    fun c t p alive hpc => ?_, fun c hc _ => ?_, fun _ _ _ _ ht => absurd ht List.not_mem_nil,
    fun c hc _ hpc => ?_⟩
  · rw [(hcpu c).2, (hcpu c').2] at heq
    exact heq
  · rw [(hcpu c).2, hnext]
    exact hc
  · rw [hnext]
    exact (hthread t).2.1 ht
  · rw [(hcpu c).1] at hpc
    cases hpc
  · rw [(hcpu c).2]
    exact Or.inr ((hthread c).2.2 hc).1
  · rw [(hcpu c).1] at hpc
    exact absurd hpc id

theorem Sound.setOwnPriority (h : s.Sound Always lists) (hcpu : cpu < s.cpus)
    (hblocking : ¬ (s.pc cpu).Blocking) (priority : Int) :
    Sound { s with priority := update s.priority (s.current cpu) priority } Always lists :=
  ⟨h.queued.setPriority (fun p => h.out hcpu hblocking (.run p)) priority, h.distinct, h.made,
    h.hashed, h.creating, h.running, h.parked, h.announced⟩

theorem Sound.created (h : s.Sound Always lists)
    (hstate : (s.thread t).state = THREAD_STATE_BIRTH) :
    (s.modify t fun thread => { thread with state := THREAD_STATE_SUSPENDED }).Sound Always
      lists := by
  obtain ⟨hout, hcurrent⟩ := h.asleep (Or.inr hstate)
  exact h.modify (fun k hk => absurd hk (hout k)) (fun c hc heq => absurd heq (hcurrent c hc))
    fun c hc heq => absurd heq (hcurrent c hc)

/-- What a step leaves of the queues: the semaphores get no thread but one that blocks. -/
theorem Sound.step {a : SchedAction} (h : s.Sound Always lists) (hsafe : s.OnceSafeStep a)
    (hstep : Step s a s') :
    ∃ lists', s'.Sound Always lists' ∧ ∀ slot, ∀ t ∈ lists' (.sem slot), t ∈ lists (.sem slot) ∨
      ∃ cpu fuel skip, a = .run cpu fuel skip ∧ s.Enters cpu t slot s' := by
  have hsame : s'.Sound Always lists → ∃ lists', s'.Sound Always lists' ∧
      ∀ slot, ∀ t ∈ lists' (.sem slot), t ∈ lists (.sem slot) ∨
        ∃ cpu fuel skip, a = .run cpu fuel skip ∧ s.Enters cpu t slot s' := fun h' =>
    ⟨lists, h', fun _ _ ht => Or.inl ht⟩
  have hplain : ∀ {c : Nat}, s.pc c = .idle → ¬ (s.pc c).Blocking ∧ ¬ (s.pc c).Woken := by
    intro c hpc
    rw [hpc]
    exact ⟨id, id⟩
  cases a
  all_goals simp only [Step, Sched.step] at hstep
  case call cpu pc =>
    split at hstep
    · rename_i hcall
      obtain ⟨hblocking, hwoken⟩ := hplain hcall.2.1
      cases hstep
      exact hsame (h.turn hblocking hwoken (Pc.plain_of_start hcall.2.2))
    · cases hstep
  case run cpu fuel skip =>
    split at hstep
    · rename_i hrun
      obtain ⟨lists', h', hsem⟩ := h.run hrun.1 hsafe hstep
      exact ⟨lists', h', fun slot t ht =>
        (hsem slot t ht).imp_right fun henters => ⟨cpu, fuel, skip, rfl, henters⟩⟩
    · cases hstep
  case setOwnPriority cpu priority =>
    split at hstep
    · rename_i hcpu
      cases hstep
      exact hsame (h.setOwnPriority hcpu.1 (hplain hcpu.2).1 (bounded priority))
    · cases hstep
  case created t =>
    split at hstep
    · rename_i hbirth
      cases hstep
      exact hsame (h.created hbirth.1)
    · cases hstep
  case leave cpu =>
    split at hstep
    · cases hstep
      exact hsame (h.same s.sems s.pending_signals (update s.in_kernel (s.current cpu)
        false) s.proc s.death_stack_bitmap s.exiting)
    · cases hstep

theorem sound_of_run (h : By Init OnceSafeStep Step s) : ∃ lists, s.Sound Always lists := by
  refine h.invariant (fun s => ∃ lists, s.Sound Always lists) (fun s hinit => ⟨_, .init hinit⟩) ?_
  rintro s a s' ⟨lists, hsound⟩ hsafe hstep
  obtain ⟨lists', h', -⟩ := hsound.step hsafe hstep
  exact ⟨lists', h'⟩

/-- No thread is in two queues, twice in one, or on two CPUs; a run queue has the threads of its
priority only. The tail of a queue that `Holds` its threads is the last one. -/
structure ScheduledOnce (s : Sched) : Prop where
  queued : ∃ lists, Queues s.q_next s.q lists ∧ ∀ p, ∀ t ∈ lists (.run p), s.priority t = p
  current : ∀ c < s.cpus, ∀ c' < s.cpus, s.current c = s.current c' → c = c'

theorem thread_scheduled_once (h : By Init OnceSafeStep Step s) : s.ScheduledOnce := by
  obtain ⟨lists, hsound⟩ := sound_of_run h
  exact ⟨⟨lists, hsound.queued.queues, hsound.queued.priority⟩, hsound.distinct⟩

theorem givenUp_of_alone (ht : (s.q (.onStack cpu)).head = some t) (hnext : s.q_next t = none)
    (hcurrent : ∀ c < s.cpus, s.current c ≠ t) : s.GivenUp cpu := by
  intro ts hholds t' ht' c hc _
  have hleads := hholds.leads
  rw [ht] at hleads
  have hts : ts = [t] := by
    refine hleads.unique ?_
    exact ⟨rfl, hnext⟩
  rw [hts] at ht'
  rw [List.mem_singleton.mp ht']
  exact hcurrent c hc

/-- A condition on the sections that can be decided. -/
def AloneAt (s : Sched) (cpu : Nat) : Pc → Prop
  | .thread_set_priority _ _ | .thread_suspend_thread _ => False
  | .acquireWoken | .releaseWoken _ _ | .deleteWoken | .timeoutWoken | .interruptWoken _ =>
    (s.q (.onStack cpu)).head ≠ none ∧ ∀ t ∈ (s.q (.onStack cpu)).head,
      s.q_next t = none ∧ ∀ c < s.cpus, s.current c ≠ t
  | _ => True

instance (s : Sched) (cpu : Nat) (pc : Pc) : Decidable (s.AloneAt cpu pc) := by
  induction pc using Pc.casesOn with
  | thread_set_priority _ _ | thread_suspend_thread _ => exact inferInstanceAs (Decidable False)
  | acquireWoken | releaseWoken _ _ | deleteWoken | timeoutWoken | interruptWoken _ =>
    exact inferInstanceAs (Decidable (_ ≠ none ∧ ∀ t ∈ (s.q (.onStack cpu)).head, _))
  | _ => exact inferInstanceAs (Decidable True)

theorem AloneAt.safe (h : s.AloneAt cpu pc) : s.OnceSafe cpu pc := by
  have hgiven : ((s.q (.onStack cpu)).head ≠ none ∧ ∀ t ∈ (s.q (.onStack cpu)).head,
      s.q_next t = none ∧ ∀ c < s.cpus, s.current c ≠ t) → s.GivenUp cpu := by
    rintro ⟨hhead, hall⟩
    obtain ⟨t, ht⟩ := ne_none_iff_exists'.mp hhead
    exact givenUp_of_alone ht (hall t ht).1 (hall t ht).2
  cases pc with
  | thread_set_priority _ _ | thread_suspend_thread _ => exact False.elim h
  | acquireWoken | releaseWoken _ _ | deleteWoken | timeoutWoken | interruptWoken _ =>
    exact hgiven h
  | _ => trivial

def AloneStep (s : Sched) : SchedAction → Prop
  | .run cpu _ _ => s.AloneAt cpu (s.pc cpu)
  | _ => True

instance (s : Sched) : DecidablePred s.AloneStep := fun a => by
  induction a using SchedAction.casesOn with
  | run cpu _ _ => exact inferInstanceAs (Decidable (s.AloneAt cpu (s.pc cpu)))
  | _ => exact inferInstanceAs (Decidable True)

theorem AloneStep.safe {a : SchedAction} (h : s.AloneStep a) : s.OnceSafeStep a := by
  cases a with
  | run cpu fuel skip => exact AloneAt.safe h
  | _ => trivial

/-- A thread blocks, is woken and runs again. -/
theorem thread_scheduled_once_woken : ∃ s, By Init OnceSafeStep Step s ∧ s.ScheduledOnce ∧
    s.current 1 = 2 := by
  have hexec : (exec (guarded AloneStep step)
      (spawn 0 2 .kernel_proc ++ section1 1 .thread_resched ++
        section1 1 (.acquire_sem_etc 1 1 0 0) ++ [go 1] ++
        section1 0 (.release_sem_etc 1 1 B_DO_NOT_RESCHEDULE false) ++ [go 0] ++
        section1 1 .thread_resched) twoCpus).map (fun s => s.current 1) = some 2 := by
    decide +kernel
  obtain ⟨s, hs, hcurrent⟩ := map_eq_some_iff.mp hexec
  have hreach : By Init OnceSafeStep Step s :=
    By.exec (fun _ _ _ h => (guarded_some h).imp_left AloneStep.safe) _ (.init init_twoCpus) hs
  exact ⟨s, hreach, thread_scheduled_once hreach, hcurrent⟩

/-- A thread blocks, and is woken before it has given up its CPU. -/
theorem thread_scheduled_twice : ¬ ∀ s, By Init (fun _ _ => True) Step s → s.ScheduledOnce := by
  intro hall
  have hexec : (exec step
      (spawn 0 2 .kernel_proc ++ section1 1 .thread_resched ++
        section1 1 (.acquire_sem_etc 1 1 0 0) ++ section1 0 (.release_sem_etc 1 1 0 false) ++ [go 0])
      twoCpus).map (fun s => (s.cpus, s.current 0, s.current 1)) = some (2, 2, 2) := by
    decide +kernel
  obtain ⟨s, hs, hcurrent⟩ := map_eq_some_iff.mp hexec
  obtain ⟨hcpus, hcurrent⟩ := Prod.mk.inj hcurrent
  obtain ⟨hfirst, hsecond⟩ := Prod.mk.inj hcurrent
  have hreach : By Init (fun _ _ => True) Step s :=
    By.exec (fun _ _ _ h => ⟨trivial, h⟩) _ (.init init_twoCpus) hs
  have hzero : 0 < s.cpus := by rw [hcpus]; exact Nat.zero_lt_two
  have hone : 1 < s.cpus := by rw [hcpus]; exact Nat.one_lt_two
  cases (hall s hreach).current 0 hzero 1 hone (hfirst.trans hsecond.symm)

/-! ## The thread that runs next -/

section

variable {k n : Nat} (hhead : (s.q (.run k)).head ≠ none)
include hhead

theorem searchRealTime_spec (hk : k < THREAD_MIN_RT_PRIORITY + n)
    (hmin : THREAD_MIN_RT_PRIORITY ≤ k ∨ ∃ p, s.searchRealTime n = some p ∧ p < k) :
    ∃ p, s.searchRealTime n = some p ∧ k ≤ p := by
  induction n with
  | zero => grind [searchRealTime]
  | succ n ih =>
    rw [searchRealTime] at hmin ⊢
    split <;> grind

/-- A priority with a thread is passed over only if it is skipped, and one of them is taken. -/
theorem searchRegular_spec (hk : 0 < k) {last : Option Nat} (hlast : last ≠ some 0)
    (hn : last ≠ none ∨ k ≤ n) :
    ∃ p, s.searchRegular skip n last = some p ∧ p ≠ 0 ∧ (p < k → k ≤ n → skip k = true) := by
  induction n generalizing last with
  | zero => cases last <;> grind [searchRegular]
  | succ n ih =>
    rw [searchRegular]
    split
    · have hrest := ih hlast
      grind
    · split
      · have hrest := @ih (some (n + 1)) nofun (.inl nofun)
        grind
      · grind

theorem choosePriority_spec (hk : s.choosePriority skip < k)
    (hlt : k < THREAD_MIN_RT_PRIORITY + THREAD_NUM_RT_PRIORITY_LEVELS) :
    k ≤ THREAD_MAX_PRIORITY ∧ skip k = true ∧ s.choosePriority skip ≠ THREAD_IDLE_PRIORITY := by
  have hreal := searchRealTime_spec hhead hlt
  have hregular := @searchRegular_spec s skip k THREAD_MAX_PRIORITY hhead (Nat.zero_lt_of_lt hk) none
    nofun
  unfold choosePriority at hk ⊢
  cases hrt : s.searchRealTime THREAD_NUM_RT_PRIORITY_LEVELS with
  | some p => grind
  | none =>
    rw [hrt] at hk hreal
    have hmax : k ≤ THREAD_MAX_PRIORITY := by
      by_contra hmax
      obtain ⟨p, ⟨⟩, -⟩ := hreal (.inl (Nat.lt_of_not_le hmax))
    obtain ⟨p, hp, hpos, hskip⟩ := hregular (.inr hmax)
    rw [hp] at hk ⊢
    exact ⟨hmax, hskip hk hmax, hpos⟩

end

end Sched

end Kernel

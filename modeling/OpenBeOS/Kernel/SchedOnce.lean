import OpenBeOS.Kernel.SchedQueues

/-! # Each thread is scheduled in one place

A thread that blocks is in the queue of a semaphore before it gives up its CPU, and a thread that is
woken is READY before it is in a run queue. `Sound` is the invariant that holds as long as no thread
is put into a run queue, given another priority or suspended in between.
-/

namespace Kernel

open SemError ThreadState Reachable Function List

/-- The thread of the CPU has announced that it waits, and has not given up the CPU. -/
def Pc.Blocking : Pc → Prop
  | .acquireBlocked _ _ | .acquireKilled _ | .acquireWoken => True
  | _ => False

/-- The CPU has a queue on its stack. -/
def Pc.Woken : Pc → Prop
  | .acquireWoken | .releaseWoken _ _ | .deleteWoken | .timeoutWoken | .interruptWoken _ => True
  | _ => False

/-- A thread in such a queue may have its CPU still. -/
def QueueId.Waiting : QueueId → Prop
  | .sem _ | .onStack _ => True
  | _ => False

/-- The states of the threads in a queue. -/
def QueueId.Allows : QueueId → ThreadState → Prop
  | .dead, state => state = THREAD_STATE_FREE_ON_RESCHED
  | _, state =>
    state = THREAD_STATE_READY ∨ state = THREAD_STATE_RUNNING ∨ state = THREAD_STATE_WAITING

theorem QueueId.Allows.other {k k' : QueueId} {state : ThreadState} (h : k.Allows state)
    (hk : k ≠ .dead) (hk' : k' ≠ .dead) : k'.Allows state := by
  cases k <;> cases k' <;> first | exact h | exact absurd rfl hk | exact absurd rfl hk'

theorem QueueId.allows_ready {k : QueueId} (hk : k ≠ .dead) : k.Allows THREAD_STATE_READY := by
  cases k <;> first | exact Or.inl rfl | exact absurd rfl hk

theorem QueueId.not_allows {k : QueueId} {state : ThreadState}
    (hstate : state = THREAD_STATE_SUSPENDED ∨ state = THREAD_STATE_BIRTH) : ¬ k.Allows state := by
  intro h
  rcases hstate with rfl | rfl <;> cases k <;> exact absurd h nofun

theorem Pc.not_blocking_afterKill (rest : Option (List Nat)) : ¬ (Pc.afterKill rest).Blocking := by
  rcases rest with _ | _ | ⟨t, ts⟩ <;> exact id

theorem Pc.not_blocking_afterRelease (death : Bool) : ¬ (Pc.afterRelease death).Blocking := by
  cases death <;> exact id

namespace Sched

variable {s s' : Sched} {ok : Nat → Prop} {lists lists' : QueueId → List Nat} {cpu t fuel : Nat}
  {skip : Nat → Bool}

/-! ## The invariant -/

/-- The queues and what is in them. -/
structure Lists (s : Sched) (lists : QueueId → List Nat) : Prop where
  queues : Queues s.q_next s.q lists
  priority : ∀ p, ∀ t ∈ lists (.run p), s.priority t = p
  made : ∀ k, ∀ t ∈ lists k, t < s.next_thread_id
  allows : ∀ k, ∀ t ∈ lists k, k.Allows (s.thread t).state
  stack : ∀ c, lists (.onStack c) ≠ [] → (s.pc c).Woken

/-- The queues, and the CPUs; in the middle of a section, the last facts hold of the other CPUs
only. -/
structure Sound (s : Sched) (ok : Nat → Prop) (lists : QueueId → List Nat) : Prop where
  queued : s.Lists lists
  distinct : ∀ c < s.cpus, ∀ c' < s.cpus, s.current c = s.current c' → c = c'
  made : ∀ c < s.cpus, s.current c < s.next_thread_id
  hashed : ∀ t, s.thread_hash t = true → t < s.next_thread_id
  creating : ∀ c t p alive, s.pc c = .createHashed t p alive → t < s.next_thread_id
  running : ∀ c < s.cpus, ok c → (s.thread (s.current c)).state = THREAD_STATE_READY ∨
    (s.thread (s.current c)).state = THREAD_STATE_RUNNING
  parked : ∀ c < s.cpus, ok c → ∀ k, s.current c ∈ lists k → (s.pc c).Blocking ∧ k.Waiting
  announced : ∀ c < s.cpus, ok c → (s.pc c).Blocking →
    (s.thread (s.current c)).next_state = THREAD_STATE_WAITING

/-! ## One thread gets into a run queue -/

theorem clamp_nonneg (priority : Int) : 0 ≤ clamp priority := by
  unfold clamp
  split
  · exact Int.natCast_nonneg _
  · split <;> omega

theorem Lists.setPriority (h : s.Lists lists) (hout : ∀ p, t ∉ lists (.run p)) (priority : Int) :
    Lists { s with priority := update s.priority t priority } lists := by
  refine ⟨h.queues, fun p t' ht' => ?_, h.made, h.allows, h.stack⟩
  have hne : t' ≠ t := fun heq => hout p (heq ▸ ht')
  show update s.priority t priority t' = p
  rw [update_of_ne hne]
  exact h.priority p t' ht'

theorem Lists.modify (h : s.Lists lists) {f : Thread → Thread}
    (hallows : ∀ k, t ∈ lists k → k.Allows (f (s.thread t)).state) : (s.modify t f).Lists lists := by
  refine ⟨h.queues, h.priority, h.made, fun k t' ht' => ?_, h.stack⟩
  show k.Allows (update s.thread t (f (s.thread t)) t').state
  by_cases hne : t' = t
  · rw [hne, update_self]
    exact hallows k (hne ▸ ht')
  · rw [update_of_ne hne]
    exact h.allows k t' ht'

theorem mem_enqueue {k k' : QueueId} {t' : Nat}
    (ht' : t' ∈ update lists k (lists k ++ [t]) k') :
    t' ∈ lists k' ∨ t' = t ∧ k' = k := by
  by_cases hk' : k' = k
  · rw [hk', update_self] at ht'
    rcases mem_append.mp ht' with ht' | ht'
    · rw [hk']
      exact Or.inl ht'
    · exact Or.inr ⟨mem_singleton.mp ht', hk'⟩
  · rw [update_of_ne hk'] at ht'
    exact Or.inl ht'

variable {k : QueueId} {pc : Pc}

theorem Lists.enqueue (h : s.Lists lists) (hout : ∀ k, t ∉ lists k)
    (ht : t < s.next_thread_id) (hallows : k.Allows (s.thread t).state)
    (hpriority : ∀ p, k = .run p → s.priority t = p) (hstack : ∀ c, k ≠ .onStack c) :
    (s.enqueue k t).Lists (update lists k (lists k ++ [t])) := by
  refine ⟨h.queues.enqueue hout, fun p t' ht' => ?_, fun k' t' ht' => ?_, fun k' t' ht' => ?_,
    fun c hc => ?_⟩
  · rcases mem_enqueue ht' with ht' | ⟨rfl, hk⟩
    · exact h.priority p t' ht'
    · exact hpriority p hk.symm
  · rcases mem_enqueue ht' with ht' | ⟨rfl, -⟩
    · exact h.made k' t' ht'
    · exact ht
  · rcases mem_enqueue ht' with ht' | ⟨rfl, rfl⟩
    · exact h.allows k' t' ht'
    · exact hallows
  · rw [update_of_ne (hstack c).symm] at hc
    exact h.stack c hc

theorem Lists.enqueue_run (h : s.Lists lists) (hout : ∀ k, t ∉ lists k)
    (ht : t < s.next_thread_id) (hk : k ≠ .dead)
    (hstate : k.Allows (s.thread t).state) :
    ∃ p, (s.thread_enqueue_run_q t).Lists
      (update lists (.run p) (lists (.run p) ++ [t])) := by
  refine ⟨(clamp (s.priority t)).toNat, ?_⟩
  have hclamp := h.setPriority (fun p => hout (.run p)) (clamp (s.priority t))
  refine hclamp.enqueue hout ht (hstate.other hk nofun) (fun p hp => ?_) nofun
  show update s.priority t (clamp (s.priority t)) t = p
  rw [update_self, ← QueueId.run.inj hp]
  exact (Int.toNat_of_nonneg (clamp_nonneg (s.priority t))).symm

theorem Lists.dequeue (h : s.Lists lists) (ht : (s.dequeue k).1 = some t) :
    ∃ ts, lists k = t :: ts ∧ (s.dequeue k).2.Lists (update lists k ts) := by
  obtain ⟨ts, hlist⟩ := h.queues.dequeue_some ht
  have hsub : ∀ k', ∀ t' ∈ update lists k ts k', t' ∈ lists k' := by
    intro k' t' ht'
    by_cases hk' : k' = k
    · rw [hk', update_self] at ht'
      rw [hk', hlist]
      exact mem_cons_of_mem _ ht'
    · rwa [update_of_ne hk'] at ht'
  refine ⟨ts, hlist, (h.queues.dequeue hlist).2, fun p t' ht' => h.priority p t' (hsub _ t' ht'),
    fun k' t' ht' => h.made k' t' (hsub k' t' ht'),
    fun k' t' ht' => h.allows k' t' (hsub k' t' ht'), fun c hc => h.stack c fun hnil => hc ?_⟩
  rw [eq_nil_iff_forall_not_mem]
  intro t' ht'
  have hmem := hsub _ t' ht'
  rw [hnil] at hmem
  exact absurd hmem not_mem_nil

/-- The threads of the queue on the stack get into run queues. -/
theorem Lists.wakeAll : ∀ {fuel : Nat} {s : Sched} {lists : QueueId → List Nat}, s.Lists lists →
    wakeAll cpu fuel s = some s' → ∃ lists', s'.Lists lists' ∧ lists' (.onStack cpu) = [] ∧
        ∀ k, ∀ t ∈ lists' k, t ∈ lists k ∨ (∃ p, k = .run p) ∧ t ∈ lists (.onStack cpu)
  | 0, _, _, _, hwake => absurd hwake (by simp [Sched.wakeAll])
  | fuel + 1, s, lists, h, hwake => by
    rw [Sched.wakeAll] at hwake
    split at hwake
    · rename_i hnone
      cases hwake
      refine ⟨lists, h, ?_, fun _ _ ht => Or.inl ht⟩
      cases hlist : lists (.onStack cpu) with
      | nil => rfl
      | cons t ts =>
        have hsome := (h.queues.dequeue hlist).1
        cases hsome.symm.trans hnone
    · rename_i t ht
      obtain ⟨ts, hlist, h₁⟩ := h.dequeue ht
      have hmem : t ∈ lists (.onStack cpu) := by
        rw [hlist]
        exact mem_cons_self
      have hout : ∀ k, t ∉ update lists (.onStack cpu) ts k := by
        intro k
        by_cases hk : k = .onStack cpu
        · rw [hk, update_self]
          have hnodup := (h.queues.holds (.onStack cpu)).nodup
          rw [hlist] at hnodup
          exact (nodup_cons.mp hnodup).1
        · rw [update_of_ne hk]
          exact h.queues.apart _ k (Ne.symm hk) t hmem
      have hdead : QueueId.onStack cpu ≠ .dead := by simp
      obtain ⟨p, h₂⟩ := h₁.enqueue_run hout (h.made _ t hmem) hdead (h.allows _ t hmem)
      obtain ⟨lists', h', hnil, hall⟩ := h₂.wakeAll hwake
      have hback : ∀ k, ∀ t' ∈ update lists (.onStack cpu) ts k, t' ∈ lists k := by
        intro k t' ht'
        by_cases hk : k = .onStack cpu
        · rw [hk, update_self] at ht'
          rw [hk, hlist]
          exact mem_cons_of_mem _ ht'
        · rwa [update_of_ne hk] at ht'
      have hgrow : ∀ k, ∀ t' ∈ update (update lists (.onStack cpu) ts) (.run p)
          (update lists (.onStack cpu) ts (.run p) ++ [t]) k,
          t' ∈ lists k ∨ (∃ p, k = .run p) ∧ t' ∈ lists (.onStack cpu) := by
        intro k t' ht'
        rcases mem_enqueue ht' with ht' | ⟨rfl, hk⟩
        · exact Or.inl (hback k t' ht')
        · exact Or.inr ⟨⟨p, hk⟩, hmem⟩
      refine ⟨lists', h', hnil, fun k t' ht' => ?_⟩
      rcases hall k t' ht' with ht' | ⟨hk, ht'⟩
      · exact hgrow k t' ht'
      · rcases hgrow _ t' ht' with ht' | ⟨-, ht'⟩
        · exact Or.inr ⟨hk, ht'⟩
        · exact Or.inr ⟨hk, ht'⟩

theorem Sound.wakeAll (h : s.Sound ok lists)
    (hgiven : ∀ t ∈ lists (.onStack cpu), ∀ c < s.cpus, ok c → s.current c ≠ t)
    (hwake : wakeAll cpu fuel s = some s') :
    ∃ lists', s'.Sound ok lists' ∧ lists' (.onStack cpu) = [] ∧
      ∀ k, ∀ t ∈ lists' k, t ∈ lists k ∨ (∃ p, k = .run p) ∧ t ∈ lists (.onStack cpu) := by
  obtain ⟨lists', hlists, hnil, hmem⟩ := h.queued.wakeAll hwake
  obtain ⟨q, q_next, priority, rfl⟩ := wakeAll_same hwake
  refine ⟨lists', ⟨hlists, h.distinct, h.made, h.hashed, h.creating, h.running, ?_, h.announced⟩,
    hnil, hmem⟩
  intro c hc hok k hk
  rcases hmem k _ hk with hk | ⟨-, ht⟩
  · exact h.parked c hc hok k hk
  · exact absurd rfl (hgiven _ ht c hc hok)

/-! ## `thread_resched` -/

/-- The old thread with its new state, before it is put back. -/
def restate (s : Sched) (t : Nat) : Sched :=
  s.modify t fun thread => { thread with state := thread.next_state }

theorem restate_self (s : Sched) (t : Nat) :
    (s.restate t).thread t = { s.thread t with state := (s.thread t).next_state } :=
  update_self ..

theorem restate_of_ne {t' : Nat} (hne : t' ≠ t) : (s.restate t).thread t' = s.thread t' :=
  update_of_ne hne ..

theorem putBack_restate (s : Sched) (t : Nat) :
    (s.putBack t).modify t (fun thread => { thread with state := thread.next_state }) =
      (s.restate t).putBack t := by
  unfold putBack
  rw [show ((s.restate t).thread t).next_state = (s.thread t).next_state by rw [restate_self]]
  split <;> rfl

theorem thread_resched_cases (h : s.thread_resched cpu skip = some s') :
    ∃ p next, (((s.restate (s.current cpu)).putBack (s.current cpu)).dequeue (.run p)).1 = some next ∧
      s' = { (((s.restate (s.current cpu)).putBack (s.current cpu)).dequeue (.run p)).2.modify next
        fun thread =>
          { thread with state := THREAD_STATE_RUNNING, next_state := THREAD_STATE_READY } with
        current := update s.current cpu next } := by
  unfold thread_resched at h
  dsimp only at h
  rw [putBack_restate] at h
  generalize choosePriority _ skip = p at h
  obtain ⟨next, hnext, rfl⟩ := Option.map_eq_some_iff.mp h
  refine ⟨p, next, hnext, ?_⟩
  unfold putBack
  split <;> rfl

/-- The old thread is in a queue if it is to wait, or it gets into one now. -/
theorem Lists.putBack (h : s.Lists lists) (ht : t < s.next_thread_id)
    (hold : (∀ k, t ∉ lists k) ∨ (s.thread t).next_state = THREAD_STATE_WAITING ∧ t ∉ lists .dead) :
    ∃ lists', ((s.restate t).putBack t).Lists lists' ∧
      ∀ k, ∀ t' ∈ lists' k, t' ∈ lists k ∨ t' = t ∧ ¬ k.Waiting := by
  have hrestate : (s.restate t).Lists lists := by
    refine h.modify fun k hk => ?_
    rcases hold with hout | ⟨hnext, hdead⟩
    · exact absurd hk (hout k)
    · show k.Allows (s.thread t).next_state
      rw [hnext]
      cases k with
      | dead => exact absurd hk hdead
      | _ => exact Or.inr (Or.inr rfl)
  have hself : ((s.restate t).thread t).next_state = (s.thread t).next_state := by
    rw [restate_self]
  have hstate : ((s.restate t).thread t).state = (s.thread t).next_state := by rw [restate_self]
  have hout : (s.thread t).next_state ≠ THREAD_STATE_WAITING → ∀ k, t ∉ lists k := fun hne =>
    hold.resolve_right fun hwaiting => hne hwaiting.1
  have hrun : (s.thread t).next_state = THREAD_STATE_READY ∨
      (s.thread t).next_state = THREAD_STATE_RUNNING →
      ∃ lists', ((s.restate t).thread_enqueue_run_q t).Lists lists' ∧
        ∀ k, ∀ t' ∈ lists' k, t' ∈ lists k ∨ t' = t ∧ ¬ k.Waiting := by
    intro hnext
    have hne : (s.thread t).next_state ≠ THREAD_STATE_WAITING := by
      rcases hnext with hnext | hnext <;> rw [hnext] <;> nofun
    have hallows : (QueueId.run 0).Allows ((s.restate t).thread t).state := by
      rw [hstate]
      exact hnext.elim Or.inl fun hnext => Or.inr (Or.inl hnext)
    have hdead : QueueId.run 0 ≠ .dead := nofun
    obtain ⟨p, hlists⟩ := hrestate.enqueue_run (hout hne) ht hdead hallows
    refine ⟨_, hlists, fun k t' ht' => ?_⟩
    rcases mem_enqueue ht' with ht' | ⟨rfl, rfl⟩
    · exact Or.inl ht'
    · exact Or.inr ⟨rfl, id⟩
  unfold Sched.putBack
  split
  · rename_i hnext
    exact hrun (Or.inr (hself.symm.trans hnext))
  · rename_i hnext
    exact hrun (Or.inl (hself.symm.trans hnext))
  · rename_i hnext
    rw [hself] at hnext
    have hne : (s.thread t).next_state ≠ THREAD_STATE_WAITING := by rw [hnext]; nofun
    refine ⟨_, hrestate.enqueue (k := .dead) (hout hne) ht (hstate.trans hnext) (by nofun) nofun,
      fun k t' ht' => ?_⟩
    rcases mem_enqueue ht' with ht' | ⟨rfl, rfl⟩
    · exact Or.inl ht'
    · exact Or.inr ⟨rfl, id⟩
  · exact ⟨lists, hrestate, fun _ _ ht' => Or.inl ht'⟩

theorem putBack_same (s : Sched) (t : Nat) : (s.putBack t).thread = s.thread ∧
    (s.putBack t).pc = s.pc ∧ (s.putBack t).cpus = s.cpus ∧
    (s.putBack t).next_thread_id = s.next_thread_id ∧
    (s.putBack t).thread_hash = s.thread_hash := by
  unfold Sched.putBack
  split <;> exact ⟨rfl, rfl, rfl, rfl, rfl⟩

/-- The CPU gets another thread, and leaves the call. -/
theorem Sound.resched (h : s.Sound (· ≠ cpu) lists) (hcpu : cpu < s.cpus)
    (hstack : lists (.onStack cpu) = [])
    (hold : (∀ k, s.current cpu ∉ lists k) ∨
      (s.thread (s.current cpu)).next_state = THREAD_STATE_WAITING ∧ s.current cpu ∉ lists .dead)
    (hresched : s.thread_resched cpu skip = some s') (hblocking : ¬ pc.Blocking)
    (hcreating : ∀ t p alive, pc ≠ .createHashed t p alive) :
    ∃ lists', (s'.setPc cpu pc).Sound (fun _ => True) lists' ∧
      ∀ slot, ∀ t ∈ lists' (.sem slot), t ∈ lists (.sem slot) := by
  obtain ⟨p, next, hnext, rfl⟩ := thread_resched_cases hresched
  obtain ⟨lists₁, h₁, hmem₁⟩ := h.queued.putBack (h.made cpu hcpu) hold
  obtain ⟨hthread, hpc, hcpus, hid, hhash⟩ :=
    putBack_same (s.restate (s.current cpu)) (s.current cpu)
  have hthread_of_ne : ∀ t, t ≠ s.current cpu →
      ((s.restate (s.current cpu)).putBack (s.current cpu)).thread t = s.thread t := fun t ht => by
    rw [hthread, restate_of_ne ht]
  generalize (s.restate (s.current cpu)).putBack (s.current cpu) = s₁
    at hnext h₁ hpc hcpus hid hhash hthread_of_ne ⊢
  change s₁.pc = s.pc at hpc
  change s₁.cpus = s.cpus at hcpus
  change s₁.next_thread_id = s.next_thread_id at hid
  change s₁.thread_hash = s.thread_hash at hhash
  obtain ⟨ts, hlist, h₂⟩ := h₁.dequeue hnext
  have hnext_mem : next ∈ lists₁ (.run p) := by
    rw [hlist]
    exact mem_cons_self
  have hout : ∀ k, next ∉ update lists₁ (.run p) ts k := by
    intro k
    by_cases hk : k = .run p
    · rw [hk, update_self]
      have hnodup := (h₁.queues.holds (.run p)).nodup
      rw [hlist] at hnodup
      exact (nodup_cons.mp hnodup).1
    · rw [update_of_ne hk]
      exact h₁.queues.apart _ k (Ne.symm hk) next hnext_mem
  have hmem₂ : ∀ k, ∀ t ∈ update lists₁ (.run p) ts k, t ∈ lists₁ k := by
    intro k t ht
    by_cases hk : k = .run p
    · rw [hk, update_self] at ht
      rw [hk, hlist]
      exact mem_cons_of_mem _ ht
    · rwa [update_of_ne hk] at ht
  -- no other CPU has the old thread or the next one
  have hother : ∀ c < s.cpus, c ≠ cpu → s.current c ≠ s.current cpu ∧ s.current c ≠ next := by
    intro c hc hne
    refine ⟨fun heq => hne (h.distinct c hc cpu hcpu heq), fun heq => ?_⟩
    rcases hmem₁ _ next hnext_mem with hin | ⟨hold', -⟩
    · exact (h.parked c hc hne _ (heq ▸ hin)).2
    · exact hne (h.distinct c hc cpu hcpu (heq.trans hold'))
  have h₃ := h₂.modify (t := next) (f := fun thread =>
    { thread with state := THREAD_STATE_RUNNING, next_state := THREAD_STATE_READY })
    fun k hk => absurd hk (hout k)
  refine ⟨update lists₁ (.run p) ts, ⟨⟨h₃.queues, h₃.priority, h₃.made, h₃.allows, ?_⟩,
    ?_, ?_, ?_, ?_, ?_, ?_, ?_⟩, fun slot t ht => ?_⟩
  · intro c hc
    have hc₁ : lists (.onStack c) ≠ [] := by
      rw [update_of_ne (by nofun)] at hc
      obtain ⟨t, ht⟩ := exists_mem_of_ne_nil _ hc
      rcases hmem₁ _ t ht with ht | ⟨-, hk⟩
      · exact ne_nil_of_mem ht
      · exact absurd trivial hk
    have hne : c ≠ cpu := fun heq => hc₁ (heq ▸ hstack)
    show (update s₁.pc cpu pc c).Woken
    rw [update_of_ne hne, hpc]
    exact h.queued.stack c hc₁
  · intro c hc c' hc' heq
    change c < s₁.cpus at hc
    change c' < s₁.cpus at hc'
    rw [hcpus] at hc hc'
    change update s.current cpu next c = update s.current cpu next c' at heq
    by_cases hccpu : c = cpu <;> by_cases hc'cpu : c' = cpu
    · rw [hccpu, hc'cpu]
    · rw [hccpu, update_self, update_of_ne hc'cpu] at heq
      exact absurd heq.symm (hother c' hc' hc'cpu).2
    · rw [hc'cpu, update_self, update_of_ne hccpu] at heq
      exact absurd heq (hother c hc hccpu).2
    · rw [update_of_ne hccpu, update_of_ne hc'cpu] at heq
      exact h.distinct c hc c' hc' heq
  · intro c hc
    change c < s₁.cpus at hc
    rw [hcpus] at hc
    show update s.current cpu next c < s₁.next_thread_id
    by_cases hccpu : c = cpu
    · rw [hccpu, update_self]
      exact h₁.made _ next hnext_mem
    · rw [update_of_ne hccpu, hid]
      exact h.made c hc
  · intro t ht
    change s₁.thread_hash t = true at ht
    show t < s₁.next_thread_id
    rw [hhash] at ht
    rw [hid]
    exact h.hashed t ht
  · intro c t p' alive hc
    change update s₁.pc cpu pc c = _ at hc
    show t < s₁.next_thread_id
    rw [hid]
    by_cases hccpu : c = cpu
    · rw [hccpu, update_self] at hc
      exact absurd hc (hcreating t p' alive)
    · rw [update_of_ne hccpu, hpc] at hc
      exact h.creating c t p' alive hc
  · intro c hc _
    change c < s₁.cpus at hc
    rw [hcpus] at hc
    show (update s₁.thread next _ (update s.current cpu next c)).state = _ ∨
      (update s₁.thread next _ (update s.current cpu next c)).state = _
    by_cases hccpu : c = cpu
    · rw [hccpu, update_self, update_self]
      exact Or.inr rfl
    · obtain ⟨hne, hne'⟩ := hother c hc hccpu
      rw [update_of_ne hccpu, update_of_ne hne', hthread_of_ne _ hne]
      exact h.running c hc hccpu
  · intro c hc _ k hk
    change c < s₁.cpus at hc
    rw [hcpus] at hc
    change update s.current cpu next c ∈ _ at hk
    show (update s₁.pc cpu pc c).Blocking ∧ k.Waiting
    by_cases hccpu : c = cpu
    · rw [hccpu, update_self] at hk
      exact absurd hk (hout k)
    · rw [update_of_ne hccpu] at hk ⊢
      rw [hpc]
      rcases hmem₁ k _ (hmem₂ k _ hk) with hin | ⟨heq, -⟩
      · exact h.parked c hc hccpu k hin
      · exact absurd heq (hother c hc hccpu).1
  · intro c hc _ hc'
    change c < s₁.cpus at hc
    rw [hcpus] at hc
    change (update s₁.pc cpu pc c).Blocking at hc'
    show (update s₁.thread next _ (update s.current cpu next c)).next_state = _
    by_cases hccpu : c = cpu
    · rw [hccpu, update_self] at hc'
      exact absurd hc' hblocking
    · obtain ⟨hne, hne'⟩ := hother c hc hccpu
      rw [update_of_ne hccpu, hpc] at hc'
      rw [update_of_ne hccpu, update_of_ne hne', hthread_of_ne _ hne]
      exact h.announced c hc hccpu hc'
  · rcases hmem₁ _ t (hmem₂ _ t ht) with hin | ⟨-, hk⟩
    · exact hin
    · exact absurd trivial hk

/-! ## The other changes -/

abbrev Always (_ : Nat) : Prop := True

theorem Sound.onStack_nil (h : s.Sound ok lists) (hpc : ¬ (s.pc cpu).Woken) :
    lists (.onStack cpu) = [] := by
  by_contra hne
  exact hpc (h.queued.stack cpu hne)

section

variable (h : s.Sound Always lists)
include h

theorem Sound.out (hcpu : cpu < s.cpus) (hpc : ¬ (s.pc cpu).Blocking) :
    ∀ k, s.current cpu ∉ lists k :=
  fun k hk => hpc (h.parked cpu hcpu trivial k hk).1

theorem Sound.asleep
    (hstate : (s.thread t).state = THREAD_STATE_SUSPENDED ∨
      (s.thread t).state = THREAD_STATE_BIRTH) :
    (∀ k, t ∉ lists k) ∧ ∀ c < s.cpus, s.current c ≠ t := by
  refine ⟨fun k hk => QueueId.not_allows hstate (h.queued.allows k t hk), fun c hc heq => ?_⟩
  have hrunning := h.running c hc trivial
  rw [heq] at hrunning
  rcases hstate with hstate | hstate <;> rw [hstate] at hrunning <;>
    exact absurd hrunning (by simp)

/-- A CPU gets to another point. -/
theorem Sound.setPc
    (hblocking : pc.Blocking ↔ (s.pc cpu).Blocking)
    (hstack : lists (.onStack cpu) ≠ [] → pc.Woken)
    (hcreating : ∀ t p alive, pc = .createHashed t p alive → t < s.next_thread_id) :
    (s.setPc cpu pc).Sound Always lists := by
  refine ⟨⟨h.queued.queues, h.queued.priority, h.queued.made, h.queued.allows, fun c hc => ?_⟩,
    h.distinct, h.made, h.hashed, fun c t p alive hc => ?_, h.running, fun c hc _ k hk => ?_,
    fun c hc _ hpc => ?_⟩
  · show (update s.pc cpu pc c).Woken
    by_cases hccpu : c = cpu
    · rw [hccpu, update_self]
      exact hstack (hccpu ▸ hc)
    · rw [update_of_ne hccpu]
      exact h.queued.stack c hc
  · change update s.pc cpu pc c = _ at hc
    by_cases hccpu : c = cpu
    · rw [hccpu, update_self] at hc
      exact hcreating t p alive hc
    · rw [update_of_ne hccpu] at hc
      exact h.creating c t p alive hc
  · show (update s.pc cpu pc c).Blocking ∧ _
    have hparked := h.parked c hc trivial k hk
    by_cases hccpu : c = cpu
    · rw [hccpu, update_self, hblocking]
      exact hccpu ▸ hparked
    · rw [update_of_ne hccpu]
      exact hparked
  · change (update s.pc cpu pc c).Blocking at hpc
    by_cases hccpu : c = cpu
    · rw [hccpu, update_self, hblocking] at hpc
      exact h.announced c hc trivial (hccpu ▸ hpc)
    · rw [update_of_ne hccpu] at hpc
      exact h.announced c hc trivial hpc

theorem Sound.goto
    (hblocking : pc.Blocking ↔ (s.pc cpu).Blocking) (hwoken : ¬ (s.pc cpu).Woken)
    (hcreating : ∀ t p alive, pc = .createHashed t p alive → t < s.next_thread_id) :
    (s.setPc cpu pc).Sound Always lists :=
  h.setPc hblocking (fun hne => absurd (h.onStack_nil hwoken) hne) hcreating

/-- A thread changes that is in no queue, or only in fields that do not matter. -/
theorem Sound.modify {f : Thread → Thread}
    (hallows : ∀ k, t ∈ lists k → k.Allows (f (s.thread t)).state)
    (hrunning : ∀ c < s.cpus, s.current c = t → (f (s.thread t)).state = THREAD_STATE_READY ∨
      (f (s.thread t)).state = THREAD_STATE_RUNNING)
    (hannounced : ∀ c < s.cpus, s.current c = t → (s.pc c).Blocking →
      (f (s.thread t)).next_state = THREAD_STATE_WAITING) : (s.modify t f).Sound Always lists := by
  refine ⟨h.queued.modify hallows, h.distinct, h.made, h.hashed, h.creating, fun c hc _ => ?_,
    h.parked, fun c hc _ hpc => ?_⟩
  · show (update s.thread t _ (s.current c)).state = _ ∨
      (update s.thread t _ (s.current c)).state = _
    by_cases hct : s.current c = t
    · rw [hct, update_self]
      exact hrunning c hc hct
    · rw [update_of_ne hct]
      exact h.running c hc trivial
  · show (update s.thread t _ (s.current c)).next_state = _
    by_cases hct : s.current c = t
    · rw [hct, update_self]
      exact hannounced c hc hct hpc
    · rw [update_of_ne hct]
      exact h.announced c hc trivial hpc

end

theorem modify_self (s : Sched) (t : Nat) (f : Thread → Thread) :
    (s.modify t f).thread t = f (s.thread t) := update_self ..

/-- A sleeping thread gets into a run queue. -/
theorem Sound.resume (h : s.Sound Always lists) (ht : s.thread_hash t = true)
    (hstate : (s.thread t).state = THREAD_STATE_SUSPENDED) :
    ∃ lists', ((s.modify t fun thread =>
      { thread with state := THREAD_STATE_READY, next_state := THREAD_STATE_READY }
      ).thread_enqueue_run_q t).Sound Always lists' ∧
      ∀ k, ∀ t' ∈ lists' k, t' ∈ lists k ∨ t' = t ∧ ¬ k.Waiting := by
  obtain ⟨hout, hcurrent⟩ := h.asleep (Or.inl hstate)
  have hmodify := h.modify (f := fun thread =>
      { thread with state := THREAD_STATE_READY, next_state := THREAD_STATE_READY })
    (fun k hk => absurd hk (hout k)) (fun c hc heq => absurd heq (hcurrent c hc))
    fun c hc heq => absurd heq (hcurrent c hc)
  have hself : ((s.modify t fun thread =>
      { thread with state := THREAD_STATE_READY, next_state := THREAD_STATE_READY }).thread
      t).state = THREAD_STATE_READY := by rw [modify_self]
  have hallows : (QueueId.run 0).Allows ((s.modify t fun thread =>
      { thread with state := THREAD_STATE_READY, next_state := THREAD_STATE_READY }).thread
      t).state := Or.inl hself
  have hdead : QueueId.run 0 ≠ .dead := nofun
  obtain ⟨p, hlists⟩ := hmodify.queued.enqueue_run hout (h.hashed t ht) hdead hallows
  refine ⟨_, ⟨hlists, h.distinct, h.made, h.hashed, h.creating, hmodify.running,
    fun c hc _ k hk => ?_, hmodify.announced⟩, fun k t' ht' => ?_⟩
  · rcases mem_enqueue hk with hk | ⟨heq, -⟩
    · exact h.parked c hc trivial k hk
    · exact absurd heq (hcurrent c hc)
  · rcases mem_enqueue ht' with ht' | ⟨rfl, rfl⟩
    · exact Or.inl ht'
    · exact Or.inr ⟨rfl, id⟩

theorem Sound.plugged (h : s.Sound ok lists) (hstack : lists (.onStack cpu) = []) (slot : Nat) :
    (s.sem slot).Plugged s.q slot cpu ⟨none, none⟩ lists := by
  have hnone : s.q (.onStack cpu) = ⟨none, none⟩ := by
    have hholds := h.queued.queues.holds (.onStack cpu)
    rw [hstack] at hholds
    have hhead := hholds.leads
    have htail := hholds.tail
    generalize s.q (.onStack cpu) = q at hhead htail
    obtain ⟨head, tail⟩ := q
    rw [show head = none from hhead, show tail = none from htail]
  have hplug : plug s.q slot cpu (s.sem slot).q ⟨none, none⟩ = s.q := by
    unfold plug
    rw [show (s.sem slot).q = s.q (.sem slot) from rfl, update_eq_self, ← hnone, update_eq_self]
  show Queues s.q_next (plug s.q slot cpu (s.sem slot).q ⟨none, none⟩) lists
  rw [hplug]
  exact h.queued.queues

/-- Threads have moved from a semaphore to the stack. -/
theorem Sound.moved (h : s.Sound Always lists) {slot : Nat} {sem : Sem}
    {queue : thread_queue} (hplugged : sem.Plugged s.q slot cpu queue lists')
    (hmoved : Moved slot cpu (s.sem slot) sem lists lists')
    (hblocking : pc.Blocking ↔ (s.pc cpu).Blocking) (hstack : lists' (.onStack cpu) ≠ [] → pc.Woken)
    (hcreating : ∀ t p alive, pc = .createHashed t p alive → t < s.next_thread_id) :
    ((s.setSem cpu slot sem queue).setPc cpu pc).Sound Always lists' := by
  have hmem : ∀ k, ∀ t ∈ lists' k, ∃ k', t ∈ lists k' ∧ (k' = k ∨ k'.Waiting ∧ k.Waiting) := by
    intro k t ht
    rcases hmoved.mem k t ht with hin | ⟨rfl, hsem⟩
    · exact ⟨k, hin, Or.inl rfl⟩
    · exact ⟨_, hsem, Or.inr ⟨trivial, trivial⟩⟩
  refine ⟨⟨hplugged, fun p t ht => ?_, fun k t ht => ?_, fun k t ht => ?_, fun c hc => ?_⟩,
    h.distinct, h.made, h.hashed, fun c t p alive hc => ?_, fun c hc _ => ?_, fun c hc _ k hk => ?_,
    fun c hc _ hpc => ?_⟩
  · rcases hmoved.mem _ t ht with ht | ⟨hk, -⟩
    · exact h.queued.priority p t ht
    · cases hk
  · obtain ⟨k', ht, -⟩ := hmem k t ht
    exact h.queued.made k' t ht
  · show k.Allows (sem.thread t).state
    obtain ⟨k', ht', hk⟩ := hmem k t ht
    have hallows := h.queued.allows k' t ht'
    rcases hmoved.state t with hstate | ⟨hstate, hsem⟩
    · rw [hstate]
      rcases hk with rfl | ⟨hk', hk⟩
      · exact hallows
      · exact hallows.other (fun heq => by rw [heq] at hk'; exact hk')
          fun heq => by rw [heq] at hk; exact hk
    · rw [hstate]
      refine QueueId.allows_ready fun heq => ?_
      rcases hk with rfl | ⟨-, hk⟩
      · have hdead : THREAD_STATE_FREE_ON_RESCHED = (s.thread t).state := by
          rw [heq] at hallows
          exact hallows.symm
        have hsem' := h.queued.allows _ t hsem
        rw [← hdead] at hsem'
        exact absurd hsem' (by simp [QueueId.Allows])
      · rw [heq] at hk
        exact hk
  · show (update s.pc cpu pc c).Woken
    by_cases hccpu : c = cpu
    · rw [hccpu, update_self]
      exact hstack (hccpu ▸ hc)
    · rw [update_of_ne hccpu]
      obtain ⟨t, ht⟩ := exists_mem_of_ne_nil _ hc
      rcases hmoved.mem _ t ht with ht | ⟨heq, -⟩
      · exact h.queued.stack c (ne_nil_of_mem ht)
      · exact absurd (QueueId.onStack.inj heq) hccpu
  · change update s.pc cpu pc c = _ at hc
    by_cases hccpu : c = cpu
    · rw [hccpu, update_self] at hc
      exact hcreating t p alive hc
    · rw [update_of_ne hccpu] at hc
      exact h.creating c t p alive hc
  · show (sem.thread (s.current c)).state = _ ∨ (sem.thread (s.current c)).state = _
    rcases hmoved.state (s.current c) with hstate | ⟨hstate, -⟩
    · rw [hstate]
      exact h.running c hc trivial
    · exact Or.inl hstate
  · show (update s.pc cpu pc c).Blocking ∧ _
    have hparked : (s.pc c).Blocking ∧ k.Waiting := by
      obtain ⟨k', hin, hk'⟩ := hmem k _ hk
      have hparked := h.parked c hc trivial k' hin
      rcases hk' with rfl | ⟨-, hk'⟩
      · exact hparked
      · exact ⟨hparked.1, hk'⟩
    by_cases hccpu : c = cpu
    · rw [hccpu, update_self, hblocking]
      exact hccpu ▸ hparked
    · rw [update_of_ne hccpu]
      exact hparked
  · change (update s.pc cpu pc c).Blocking at hpc
    show (sem.thread (s.current c)).next_state = _
    rw [hmoved.next_state]
    by_cases hccpu : c = cpu
    · rw [hccpu, update_self, hblocking] at hpc
      exact h.announced c hc trivial (hccpu ▸ hpc)
    · rw [update_of_ne hccpu] at hpc
      exact h.announced c hc trivial hpc

theorem setSem_q (s : Sched) (cpu slot : Nat) (sem : Sem) :
    (s.setSem cpu slot sem (s.q (.onStack cpu))).q = update s.q (.sem slot) sem.q := by
  show update (update s.q (.sem slot) sem.q) (.onStack cpu) (s.q (.onStack cpu)) = _
  rw [update_comm (sem_ne_onStack slot cpu), update_eq_self]

/-- What `acquire_sem_etc` does to the queue and the threads. -/
theorem acquire_cases (sem : Sem) (t : Nat) (id count : Int) (flags : BitVec 32) (timeout : Int)
    (sig_kill : Bool) :
    (sem.acquire_sem_etc t id count flags timeout sig_kill).1 ≠ .blocks ∧
        (sem.acquire_sem_etc t id count flags timeout sig_kill).2.q = sem.q ∧
        (sem.acquire_sem_etc t id count flags timeout sig_kill).2.q_next = sem.q_next ∧
        (sem.acquire_sem_etc t id count flags timeout sig_kill).2.thread = sem.thread ∧
        (sem.acquire_sem_etc t id count flags timeout sig_kill).2.id = sem.id ∨
      sem.id = id ∧ sem.acquire_sem_etc t id count flags timeout sig_kill =
        (.blocks, { sem with count := sem.count - count }.block t count flags) := by
  unfold Sem.acquire_sem_etc
  split
  · exact Or.inl ⟨nofun, rfl, rfl, rfl, rfl⟩
  · split
    · exact Or.inl ⟨nofun, rfl, rfl, rfl, rfl⟩
    · split
      · exact Or.inl ⟨nofun, rfl, rfl, rfl, rfl⟩
      · rename_i hid
        split
        · exact Or.inl ⟨nofun, rfl, rfl, rfl, rfl⟩
        · split
          · split
            · exact Or.inl ⟨nofun, rfl, rfl, rfl, rfl⟩
            · exact Or.inr ⟨not_not.mp hid, rfl⟩
          · exact Or.inl ⟨nofun, rfl, rfl, rfl, rfl⟩

/-- The thread of the CPU gets into the queue of a semaphore. -/
theorem Sound.block (h : s.Sound Always lists) (hcpu : cpu < s.cpus)
    (hpc : ¬ (s.pc cpu).Blocking) {slot : Nat} {sem : Sem} {thread : Thread}
    (hq : sem.q = (thread_enqueue s.q_next (s.current cpu) (s.q (.sem slot))).1)
    (hnext : sem.q_next = (thread_enqueue s.q_next (s.current cpu) (s.q (.sem slot))).2)
    (hthread : sem.thread = update s.thread (s.current cpu) thread)
    (hstate : thread.state = (s.thread (s.current cpu)).state ∧
      thread.next_state = THREAD_STATE_WAITING) (hwoken : ¬ (s.pc cpu).Woken)
    {id : Int} {flags : BitVec 32} :
    ((s.setSem cpu slot sem (s.q (.onStack cpu))).setPc cpu (.acquireBlocked id flags)).Sound Always
      (update lists (.sem slot) (lists (.sem slot) ++ [s.current cpu])) := by
  have hout := h.out hcpu hpc
  have hrunning := h.running cpu hcpu trivial
  have hallows : (QueueId.sem slot).Allows (s.thread (s.current cpu)).state :=
    hrunning.elim Or.inl fun hrunning => Or.inr (Or.inl hrunning)
  have henqueue := h.queued.enqueue (k := .sem slot) hout (h.made cpu hcpu) hallows
    (by nofun) nofun
  have hqueues : Queues sem.q_next (s.setSem cpu slot sem (s.q (.onStack cpu))).q
      (update lists (.sem slot) (lists (.sem slot) ++ [s.current cpu])) := by
    rw [setSem_q, hq, hnext]
    exact henqueue.queues
  have hself : sem.thread (s.current cpu) = thread := by rw [hthread, update_self]
  have hother : ∀ t, t ≠ s.current cpu → sem.thread t = s.thread t := fun t ht => by
    rw [hthread, update_of_ne ht]
  refine ⟨⟨hqueues, henqueue.priority, henqueue.made, fun k t ht => ?_, fun c hc => ?_⟩,
    h.distinct, h.made, h.hashed, fun c t p alive hc => ?_, fun c hc _ => ?_, fun c hc _ k hk => ?_,
    fun c hc _ hpc' => ?_⟩
  · show k.Allows (sem.thread t).state
    have hallows' := henqueue.allows k t ht
    change k.Allows (s.thread t).state at hallows'
    by_cases hteq : t = s.current cpu
    · rw [hteq, hself, hstate.1, ← hteq]
      exact hallows'
    · rw [hother t hteq]
      exact hallows'
  · rw [update_of_ne (sem_ne_onStack slot c).symm] at hc
    show (update s.pc cpu _ c).Woken
    have hne : c ≠ cpu := fun heq => hc (heq ▸ h.onStack_nil hwoken)
    rw [update_of_ne hne]
    exact h.queued.stack c hc
  · change update s.pc cpu _ c = _ at hc
    by_cases hccpu : c = cpu
    · rw [hccpu, update_self] at hc
      cases hc
    · rw [update_of_ne hccpu] at hc
      exact h.creating c t p alive hc
  · show (sem.thread (s.current c)).state = _ ∨ (sem.thread (s.current c)).state = _
    by_cases hcc : s.current c = s.current cpu
    · rw [hcc, hself, hstate.1]
      exact hrunning
    · rw [hother _ hcc]
      exact h.running c hc trivial
  · show (update s.pc cpu _ c).Blocking ∧ _
    rcases mem_enqueue hk with hk | ⟨heq, rfl⟩
    · have hparked := h.parked c hc trivial k hk
      have hne : c ≠ cpu := fun heq => hpc (heq ▸ hparked.1)
      rw [update_of_ne hne]
      exact hparked
    · obtain rfl := h.distinct c hc cpu hcpu heq
      rw [update_self]
      exact ⟨trivial, trivial⟩
  · change (update s.pc cpu _ c).Blocking at hpc'
    show (sem.thread (s.current c)).next_state = _
    by_cases hccpu : c = cpu
    · rw [hccpu, hself]
      exact hstate.2
    · have hne : s.current c ≠ s.current cpu := fun heq => hccpu (h.distinct c hc cpu hcpu heq)
      rw [update_of_ne hccpu] at hpc'
      rw [hother _ hne]
      exact h.announced c hc trivial hpc'

/-- A thread is READY in the run queue of its priority, or in none, when it is given another one. -/
def InPlace (s : Sched) (t : Nat) (priority : Int) : Prop :=
  s.thread_hash t = true → s.priority t ≠ bounded priority →
    ((s.thread t).state = THREAD_STATE_READY →
      ∃ ts, Holds s.q_next (s.q (.run (s.priority t).toNat)) ts ∧ t ∈ ts) ∧
    ((s.thread t).state ≠ THREAD_STATE_READY → ∀ p ts, Holds s.q_next (s.q (.run p)) ts → t ∉ ts)

theorem Sound.set_priority (h : s.Sound Always lists) {priority : Int}
    (hplace : s.InPlace t priority) (hset : s.thread_set_priority fuel t priority = some s') :
    ∃ lists', s'.Sound Always lists' ∧ s'.pc = s.pc ∧ s'.thread = s.thread ∧
      ∀ k, ∀ t' ∈ lists' k, t' ∈ lists k ∨ ¬ k.Waiting := by
  unfold thread_set_priority at hset
  split at hset
  · cases hset
    exact ⟨lists, h, rfl, rfl, fun _ _ ht => Or.inl ht⟩
  · rename_i hhash
    have hhash' : s.thread_hash t = true := by simpa using hhash
    split at hset
    · rename_i hready
      obtain ⟨ts, hholds, hts⟩ := (hplace hhash' hready.2).1 hready.1
      obtain rfl := hholds.unique (h.queued.queues.holds _)
      obtain ⟨pre, post, hlist⟩ := append_of_mem hts
      obtain ⟨⟨found, q', q_next⟩, hdequeue, rfl⟩ := Option.map_eq_some_iff.mp hset
      obtain ⟨-, hqueues⟩ := h.queued.queues.dequeue_id hlist hdequeue
      generalize hp : (s.priority t).toNat = p at hts hlist hqueues
      have hsub : ∀ k, ∀ t' ∈ update lists (.run p) (pre ++ post) k, t' ∈ lists k := by
        intro k t' ht'
        by_cases hk : k = .run p
        · rw [hk, update_self] at ht'
          rw [hk, hlist]
          exact (List.Sublist.append_left (sublist_cons_self _ _) _).subset ht'
        · rwa [update_of_ne hk] at ht'
      have hout : ∀ k, t ∉ update lists (.run p) (pre ++ post) k := by
        intro k
        by_cases hk : k = .run p
        · rw [hk, update_self]
          have hnodup := (h.queued.queues.holds (.run p)).nodup
          rw [hlist] at hnodup
          exact (nodup_cons.mp (nodup_middle.mp hnodup)).1
        · rw [update_of_ne hk]
          exact h.queued.queues.apart _ k (Ne.symm hk) t hts
      have hcurrent : ∀ c < s.cpus, s.current c ≠ t := fun c hc heq =>
        (h.parked c hc trivial (.run p) (heq ▸ hts)).2
      have hlists : Lists { s with q := update s.q (.run p) q', q_next } _ :=
        ⟨hqueues, fun p' t' ht' => h.queued.priority p' t' (hsub _ t' ht'),
          fun k t' ht' => h.queued.made k t' (hsub k t' ht'),
          fun k t' ht' => h.queued.allows k t' (hsub k t' ht'),
          fun c hc => h.queued.stack c (by rwa [update_of_ne (by nofun)] at hc)⟩
      have hdead : QueueId.run p ≠ .dead := nofun
      obtain ⟨p', hlists'⟩ := (hlists.setPriority (fun p' => hout (.run p'))
        (bounded priority)).enqueue_run hout (h.hashed t hhash') hdead
        (h.queued.allows (.run p) t hts)
      refine ⟨_, ⟨hlists', h.distinct, h.made, h.hashed, h.creating, h.running,
        fun c hc _ k hk => ?_, h.announced⟩, rfl, rfl, fun k t' ht' => ?_⟩
      · rcases mem_enqueue hk with hk | ⟨heq, -⟩
        · exact h.parked c hc trivial k (hsub k _ hk)
        · exact absurd heq (hcurrent c hc)
      · rcases mem_enqueue ht' with ht' | ⟨rfl, rfl⟩
        · exact Or.inl (hsub k t' ht')
        · exact Or.inr id
    · rename_i hnot
      cases hset
      by_cases hsame : s.priority t = bounded priority
      · rw [← hsame, update_eq_self]
        exact ⟨lists, h, rfl, rfl, fun _ _ ht => Or.inl ht⟩
      · have hout : ∀ p, t ∉ lists (.run p) := fun p =>
          (hplace hhash' hsame).2 (fun hready => hnot ⟨hready, hsame⟩) p _ (h.queued.queues.holds _)
        exact ⟨lists, ⟨h.queued.setPriority hout _, h.distinct, h.made, h.hashed, h.creating,
          h.running, h.parked, h.announced⟩, rfl, rfl, fun _ _ ht => Or.inl ht⟩

/-- A new thread. -/
theorem Sound.create (h : s.Sound Always lists) (hblocking : ¬ (s.pc cpu).Blocking)
    (hwoken : ¬ (s.pc cpu).Woken) (priority : Int) (p : Proc) (alive : Bool) :
    ∃ lists', ((s.create_thread_struct priority).setPc cpu
        (.createHashed s.next_thread_id p alive)).Sound Always lists' ∧
      ∀ k, ∀ t ∈ lists' k, t ∈ lists k := by
  obtain ⟨lists', h₁, hsub⟩ : ∃ lists', (s.dequeue .dead).2.Lists lists' ∧
      ∀ k, ∀ t ∈ lists' k, t ∈ lists k := by
    cases hhead : (s.dequeue .dead).1 with
    | some t =>
      obtain ⟨ts, hlist, hlists⟩ := h.queued.dequeue hhead
      refine ⟨_, hlists, fun k t' ht' => ?_⟩
      by_cases hk : k = .dead
      · rw [hk, update_self] at ht'
        rw [hk, hlist]
        exact mem_cons_of_mem _ ht'
      · rwa [update_of_ne hk] at ht'
    | none =>
      have hnil : lists .dead = [] := by
        cases hlist : lists .dead with
        | nil => rfl
        | cons t ts =>
          cases (h.queued.queues.dequeue hlist).1.symm.trans hhead
      have hsame : (s.dequeue .dead).2 = s := by
        unfold Sched.dequeue
        rw [h.queued.queues.dequeue_nil hnil, update_eq_self]
      rw [hsame]
      exact ⟨lists, h.queued, fun _ _ ht => ht⟩
  have hout : ∀ k, s.next_thread_id ∉ lists' k := fun k hk =>
    Nat.lt_irrefl _ (h.queued.made k _ (hsub k _ hk))
  have hcurrent : ∀ c < s.cpus, s.current c ≠ s.next_thread_id := fun c hc =>
    Nat.ne_of_lt (h.made c hc)
  refine ⟨lists', ⟨⟨h₁.queues.free hout none, fun p' t ht => ?_, fun k t ht => ?_, fun k t ht => ?_,
    fun c hc => ?_⟩, h.distinct, fun c hc => ?_, fun t ht => ?_, fun c t p' alive' hc => ?_,
    fun c hc _ => ?_, fun c hc _ k hk => ?_, fun c hc _ hpc => ?_⟩, hsub⟩
  · show update s.priority s.next_thread_id _ t = p'
    rw [update_of_ne (Nat.ne_of_lt (h.queued.made _ t (hsub _ t ht)))]
    exact h.queued.priority p' t (hsub _ t ht)
  · exact Nat.lt_succ_of_lt (h.queued.made k t (hsub k t ht))
  · show k.Allows (update s.thread s.next_thread_id _ t).state
    rw [update_of_ne (Nat.ne_of_lt (h.queued.made _ t (hsub _ t ht)))]
    exact h.queued.allows k t (hsub k t ht)
  · show (update s.pc cpu _ c).Woken
    obtain ⟨t, ht⟩ := exists_mem_of_ne_nil _ hc
    have hstack := h.queued.stack c (ne_nil_of_mem (hsub _ t ht))
    have hne : c ≠ cpu := fun heq => hwoken (heq ▸ hstack)
    rw [update_of_ne hne]
    exact hstack
  · exact Nat.lt_succ_of_lt (h.made c hc)
  · exact Nat.lt_succ_of_lt (h.hashed t ht)
  · change update s.pc cpu _ c = _ at hc
    show t < s.next_thread_id + 1
    by_cases hccpu : c = cpu
    · rw [hccpu, update_self] at hc
      rw [← (Pc.createHashed.inj hc).1]
      exact Nat.lt_succ_self _
    · rw [update_of_ne hccpu] at hc
      exact Nat.lt_succ_of_lt (h.creating c t p' alive' hc)
  · show (update s.thread s.next_thread_id _ (s.current c)).state = _ ∨
      (update s.thread s.next_thread_id _ (s.current c)).state = _
    rw [update_of_ne (hcurrent c hc)]
    exact h.running c hc trivial
  · show (update s.pc cpu _ c).Blocking ∧ _
    have hparked := h.parked c hc trivial k (hsub k _ hk)
    have hne : c ≠ cpu := fun heq => hblocking (heq ▸ hparked.1)
    rw [update_of_ne hne]
    exact hparked
  · change (update s.pc cpu _ c).Blocking at hpc
    show (update s.thread s.next_thread_id _ (s.current c)).next_state = _
    rw [update_of_ne (hcurrent c hc)]
    by_cases hccpu : c = cpu
    · rw [hccpu, update_self] at hpc
      exact absurd hpc id
    · rw [update_of_ne hccpu] at hpc
      exact h.announced c hc trivial hpc

end Sched

end Kernel

import OpenBeOS.Kernel.SchedLocks
import OpenBeOS.Kernel.ThreadQueues

/-! # The queues of the scheduler

What the sections do to the queues: threads move from a semaphore to the stack of a CPU, from there
to the run queues, and from a CPU to a run queue. Each operation has one lemma that says which
threads are in which queue then.
-/

namespace Kernel

open SemError ThreadState Function

/-! ## From a semaphore to the stack -/

/-- The queues, with those of a section under the lock of a semaphore. -/
def plug (q : QueueId → thread_queue) (slot cpu : Nat) (waiting woken : thread_queue) :
    QueueId → thread_queue :=
  update (update q (.sem slot) waiting) (.onStack cpu) woken

theorem sem_ne_onStack (slot cpu : Nat) : QueueId.sem slot ≠ .onStack cpu := nofun

section Plug

variable {q : QueueId → thread_queue} {slot cpu : Nat} {waiting woken : thread_queue}

theorem plug_sem : plug q slot cpu waiting woken (.sem slot) = waiting := by
  unfold plug
  rw [update_of_ne (sem_ne_onStack slot cpu), update_self]

theorem plug_onStack : plug q slot cpu waiting woken (.onStack cpu) = woken := update_self ..

theorem plug_update_sem (waiting' : thread_queue) :
    update (plug q slot cpu waiting woken) (.sem slot) waiting' =
      plug q slot cpu waiting' woken := by
  unfold plug
  rw [update_comm (sem_ne_onStack slot cpu), update_idem,
    update_comm (sem_ne_onStack slot cpu).symm]

theorem plug_update_onStack (woken' : thread_queue) :
    update (plug q slot cpu waiting woken) (.onStack cpu) woken' = plug q slot cpu waiting woken' :=
  update_idem ..

end Plug

/-- What the semaphore keeps of the threads when some are woken. -/
structure Moved (slot cpu : Nat) (s s' : Sem) (lists lists' : QueueId → List Nat) : Prop where
  mem : ∀ k, ∀ t ∈ lists' k, t ∈ lists k ∨ k = .onStack cpu ∧ t ∈ lists (.sem slot)
  state : ∀ t, (s'.thread t).state = (s.thread t).state ∨
    (s'.thread t).state = THREAD_STATE_READY ∧ t ∈ lists (.sem slot)
  next_state : ∀ t, (s'.thread t).next_state = (s.thread t).next_state
  sem_flags : ∀ t, (s'.thread t).sem_flags = (s.thread t).sem_flags
  sem_blocking : ∀ t, (s'.thread t).sem_blocking = (s.thread t).sem_blocking

namespace Moved

variable {slot cpu : Nat} {s s' s'' : Sem} {lists lists' lists'' : QueueId → List Nat}

theorem refl (s : Sem) (lists : QueueId → List Nat) : Moved slot cpu s s lists lists :=
  ⟨fun _ _ ht => Or.inl ht, fun _ => Or.inl rfl, fun _ => rfl, fun _ => rfl, fun _ => rfl⟩

theorem mem_sem (h : Moved slot cpu s s' lists lists') {t : Nat} (ht : t ∈ lists' (.sem slot)) :
    t ∈ lists (.sem slot) :=
  (h.mem _ t ht).elim id fun h => absurd h.1 nofun

theorem trans (h : Moved slot cpu s s' lists lists') (h' : Moved slot cpu s' s'' lists' lists'') :
    Moved slot cpu s s'' lists lists'' where
  mem := fun k t ht => by
    rcases h'.mem k t ht with ht | ⟨hk, ht⟩
    · exact h.mem k t ht
    · exact Or.inr ⟨hk, h.mem_sem ht⟩
  state := fun t => by
    rcases h'.state t with hstate | ⟨hstate, ht⟩
    · rw [hstate]
      exact h.state t
    · exact Or.inr ⟨hstate, h.mem_sem ht⟩
  next_state := fun t => (h'.next_state t).trans (h.next_state t)
  sem_flags := fun t => (h'.sem_flags t).trans (h.sem_flags t)
  sem_blocking := fun t => (h'.sem_blocking t).trans (h.sem_blocking t)

/-- One thread changes, in other fields. -/
theorem modify (s : Sem) (lists : QueueId → List Nat) {t : Nat} {f : Thread → Thread}
    (hs' : s'.thread = (s.modify t f).thread)
    (hf : ∀ thread, (f thread).state = thread.state ∧
      (f thread).next_state = thread.next_state ∧ (f thread).sem_flags = thread.sem_flags ∧
      (f thread).sem_blocking = thread.sem_blocking) : Moved slot cpu s s' lists lists := by
  have hthread : ∀ t', (s'.thread t').state = (s.thread t').state ∧
      (s'.thread t').next_state = (s.thread t').next_state ∧
      (s'.thread t').sem_flags = (s.thread t').sem_flags ∧
      (s'.thread t').sem_blocking = (s.thread t').sem_blocking := by
    intro t'
    rw [hs']
    unfold Sem.modify
    by_cases ht : t' = t
    · rw [ht]
      dsimp only
      rw [update_self]
      exact hf _
    · dsimp only
      rw [update_of_ne ht]
      exact ⟨rfl, rfl, rfl, rfl⟩
  exact ⟨fun _ _ ht => Or.inl ht, fun t => Or.inl (hthread t).1, fun t => (hthread t).2.1,
    fun t => (hthread t).2.2.1, fun t => (hthread t).2.2.2⟩

theorem lessen (s : Sem) (lists : QueueId → List Nat) (t : Nat) (delta : Int) :
    Moved slot cpu s (s.lessen t delta) lists lists :=
  .modify s lists rfl fun _ => ⟨rfl, rfl, rfl, rfl⟩

theorem give (h : Moved slot cpu s s' lists lists') (count : Int) :
    Moved slot cpu s (s'.give count) lists lists' :=
  ⟨h.mem, h.state, h.next_state, h.sem_flags, h.sem_blocking⟩

end Moved

namespace Sem

variable {s s' : Sem} {q : QueueId → thread_queue} {slot cpu fuel t : Nat}
  {queue queue' : thread_queue} {lists lists' : QueueId → List Nat} {ts : List Nat}

/-- The queues during a section under the lock of the semaphore. -/
def Plugged (s : Sem) (q : QueueId → thread_queue) (slot cpu : Nat) (queue : thread_queue)
    (lists : QueueId → List Nat) : Prop :=
  Queues s.q_next (plug q slot cpu s.q queue) lists

section

variable (h : s.Plugged q slot cpu queue lists)
include h

theorem Plugged.lookat :
    thread_lookat_queue s.q = (lists (.sem slot)).head? := by
  have hlookat := (h.holds (.sem slot)).lookat
  rw [plug_sem] at hlookat
  exact hlookat

/-- A thread gets from the queue of the semaphore, `pre` and `post` being the others, into the queue
on the stack. -/
theorem Plugged.move {pre post : List Nat}
    (hlist : lists (.sem slot) = pre ++ t :: post) {q_next : Nat → Option Nat}
    (hdequeue : Queues q_next (plug q slot cpu s'.q queue)
      (update lists (.sem slot) (pre ++ post)))
    (hnext : s'.q_next = (thread_enqueue q_next t queue).2) {thread : Thread}
    (hthread : s'.thread = update s.thread t thread)
    (hfields : thread.state = THREAD_STATE_READY ∧
      thread.next_state = (s.thread t).next_state ∧ thread.sem_flags = (s.thread t).sem_flags ∧
      thread.sem_blocking = (s.thread t).sem_blocking) :
    ∃ lists', s'.Plugged q slot cpu (thread_enqueue q_next t queue).1 lists' ∧
      Moved slot cpu s s' lists lists' ∧ lists' (.sem slot) = pre ++ post := by
  have hnodup := (h.holds (.sem slot)).nodup
  rw [hlist] at hnodup
  have hmem : t ∈ lists (.sem slot) := by
    rw [hlist]
    exact List.mem_append_right _ List.mem_cons_self
  have hout : ∀ k, t ∉ update lists (.sem slot) (pre ++ post) k := by
    intro k
    by_cases hk : k = .sem slot
    · rw [hk, update_self]
      exact (List.nodup_cons.mp (List.nodup_middle.mp hnodup)).1
    · rw [update_of_ne hk]
      exact h.apart (.sem slot) k (Ne.symm hk) t hmem
  have henqueue := hdequeue.enqueue (k := .onStack cpu) hout
  rw [plug_onStack, plug_update_onStack, update_of_ne (sem_ne_onStack slot cpu).symm,
    ← hnext] at henqueue
  refine ⟨_, henqueue, ⟨fun k t' ht' => ?_, fun t' => ?_, fun t' => ?_, fun t' => ?_, fun t' => ?_⟩,
    ?_⟩
  · by_cases hk : k = .onStack cpu
    · rw [hk, update_self] at ht'
      rcases List.mem_append.mp ht' with ht' | ht'
      · rw [hk]
        exact Or.inl ht'
      · rw [List.mem_singleton.mp ht']
        exact Or.inr ⟨hk, hmem⟩
    · rw [update_of_ne hk] at ht'
      by_cases hk' : k = .sem slot
      · rw [hk', update_self] at ht'
        rw [hk', hlist]
        exact Or.inl ((List.Sublist.append_left (List.sublist_cons_self _ _) _).subset ht')
      · rw [update_of_ne hk'] at ht'
        exact Or.inl ht'
  · rw [hthread]
    by_cases ht' : t' = t
    · rw [ht', update_self]
      exact Or.inr ⟨hfields.1, hmem⟩
    · rw [update_of_ne ht']
      exact Or.inl rfl
  · rw [hthread]
    by_cases ht' : t' = t
    · rw [ht', update_self]
      exact hfields.2.1
    · rw [update_of_ne ht']
  · rw [hthread]
    by_cases ht' : t' = t
    · rw [ht', update_self]
      exact hfields.2.2.1
    · rw [update_of_ne ht']
  · rw [hthread]
    by_cases ht' : t' = t
    · rw [ht', update_self]
      exact hfields.2.2.2
    · rw [update_of_ne ht']
  · rw [update_of_ne (sem_ne_onStack slot cpu), update_self]

/-- The first thread of the semaphore is woken. -/
theorem Plugged.wake (hlist : lists (.sem slot) = t :: ts)
    {f : Thread → Thread}
    (hf : ∀ thread, (f thread).next_state = thread.next_state ∧
      (f thread).sem_flags = thread.sem_flags ∧ (f thread).sem_blocking = thread.sem_blocking) :
    ∃ lists', (s.wake queue f).1.Plugged q slot cpu (s.wake queue f).2 lists' ∧
      Moved slot cpu s (s.wake queue f).1 lists lists' ∧ (s.wake queue f).1.id = s.id := by
  obtain ⟨hfirst, hdequeue⟩ := h.dequeue hlist
  rw [plug_sem] at hfirst
  rw [plug_sem, plug_update_sem] at hdequeue
  have hpair : thread_dequeue s.q_next s.q = (some t, (thread_dequeue s.q_next s.q).2) :=
    Prod.ext hfirst rfl
  have hwake : s.wake queue f = ({ s with
          q := (thread_dequeue s.q_next s.q).2
          q_next := (thread_enqueue s.q_next t queue).2 }.modify t fun thread =>
        { f thread with state := THREAD_STATE_READY }, (thread_enqueue s.q_next t queue).1) := by
    unfold Sem.wake
    rw [hpair]
  rw [hwake]
  have hsplit : lists (.sem slot) = [] ++ t :: ts := hlist
  have hthread : (({ s with
      q := (thread_dequeue s.q_next s.q).2
      q_next := (thread_enqueue s.q_next t queue).2 } : Sem).modify t fun thread =>
        { f thread with state := THREAD_STATE_READY }).thread =
      update s.thread t { f (s.thread t) with state := THREAD_STATE_READY } := rfl
  obtain ⟨lists', hplugged, hmoved, -⟩ := h.move hsplit hdequeue rfl hthread ⟨rfl, hf _⟩
  exact ⟨lists', hplugged, hmoved, rfl⟩

theorem Plugged.give (count : Int) :
    (s.give count).Plugged q slot cpu queue lists := h

theorem Plugged.lessen (t : Nat) (delta : Int) :
    (s.lessen t delta).Plugged q slot cpu queue lists := h

/-! ## The loops -/

theorem Plugged.releaseRound
    (hlist : lists (.sem slot) = t :: ts) (delta : Int) :
    ∃ lists', (s.releaseRound t queue delta).1.Plugged q slot cpu (s.releaseRound t queue delta).2
        lists' ∧
      Moved slot cpu s (s.releaseRound t queue delta).1 lists lists' ∧
      (s.releaseRound t queue delta).1.id = s.id := by
  unfold Sem.releaseRound
  split
  · obtain ⟨lists', hplugged, hmoved, hid⟩ := (h.lessen t delta).wake hlist (f := fun thread =>
      { thread with sem_count := 0, sem_deleted_retcode := 0 }) fun _ => ⟨rfl, rfl, rfl⟩
    exact ⟨lists', hplugged, ((Moved.lessen s lists t delta).trans hmoved).give delta, hid⟩
  · exact ⟨lists, h, (Moved.lessen s lists t delta).give delta, rfl⟩

end

theorem Plugged.releaseLoop : ∀ {fuel : Nat} {s : Sem} {queue : thread_queue} {count : Int}
    {lists : QueueId → List Nat}, s.Plugged q slot cpu queue lists →
      releaseLoop fuel s queue count = some (s', queue') →
      ∃ lists', s'.Plugged q slot cpu queue' lists' ∧ Moved slot cpu s s' lists lists' ∧
        s'.id = s.id
  | 0, _, _, _, _, _, hloop => absurd hloop nofun
  | fuel + 1, s, queue, count, lists, h, hloop => by
    rw [Sem.releaseLoop] at hloop
    split at hloop
    · split at hloop
      · split at hloop
        · cases hloop
        · rename_i t ht
          rw [h.lookat] at ht
          obtain ⟨ts, hlist⟩ := List.head?_eq_some_iff.mp ht
          obtain ⟨lists₁, h₁, hmoved₁, hid₁⟩ :=
            h.releaseRound hlist (min count (s.thread t).sem_count)
          obtain ⟨lists', h', hmoved, hid⟩ := Plugged.releaseLoop h₁ hloop
          exact ⟨lists', h', hmoved₁.trans hmoved, hid.trans hid₁⟩
      · obtain ⟨lists', h', hmoved, hid⟩ := (h.give count).releaseLoop hloop
        exact ⟨lists', h', ((Moved.refl s lists).give count).trans hmoved, hid⟩
    · obtain ⟨rfl, rfl⟩ := Prod.mk.inj (Option.some.inj hloop)
      exact ⟨lists, h, .refl s lists, rfl⟩

theorem Plugged.release {id count : Int} {err : SemError}
    (h : s.Plugged q slot cpu ⟨none, none⟩ lists)
    (hrelease : s.release_sem_etc fuel id count = some (err, s', queue')) :
    ∃ lists', s'.Plugged q slot cpu queue' lists' ∧ Moved slot cpu s s' lists lists' ∧
      s'.id = s.id := by
  have hsame : ∀ {err' : SemError}, some (err', s, ⟨none, none⟩) = some (err, s', queue') →
      ∃ lists', s'.Plugged q slot cpu queue' lists' ∧ Moved slot cpu s s' lists lists' ∧
        s'.id = s.id := by
    intro err' heq
    obtain ⟨-, heq⟩ := Prod.mk.inj (Option.some.inj heq)
    cases heq
    exact ⟨lists, h, .refl s lists, rfl⟩
  unfold Sem.release_sem_etc at hrelease
  split at hrelease
  · exact hsame hrelease
  · split at hrelease
    · exact hsame hrelease
    · split at hrelease
      · exact hsame hrelease
      · obtain ⟨⟨s₁, queue₁⟩, hloop, heq⟩ := Option.map_eq_some_iff.mp hrelease
        obtain ⟨-, heq⟩ := Prod.mk.inj heq
        cases heq
        exact h.releaseLoop hloop

theorem Plugged.wakeLoop : ∀ {fuel : Nat} {s : Sem} {t : Nat} {queue : thread_queue}
    {lists : QueueId → List Nat}, s.Plugged q slot cpu queue lists →
      wakeLoop fuel s t queue = some (s', queue') →
      ∃ lists', s'.Plugged q slot cpu queue' lists' ∧ Moved slot cpu s s' lists lists' ∧
        s'.id = s.id
  | 0, _, _, _, _, _, hloop => absurd hloop nofun
  | fuel + 1, s, t, queue, lists, h, hloop => by
    rw [Sem.wakeLoop] at hloop
    split at hloop
    · split at hloop
      · obtain ⟨rfl, rfl⟩ := Prod.mk.inj (Option.some.inj hloop)
        exact ⟨lists, h, .refl s lists, rfl⟩
      · rename_i t1 ht1
        rw [h.lookat] at ht1
        obtain ⟨ts, hlist⟩ := List.head?_eq_some_iff.mp ht1
        dsimp only at hloop
        generalize min (s.thread t).sem_count s.count = delta at hloop
        have hless : Moved slot cpu s (s.lessen t delta) lists lists := .lessen s lists t delta
        split at hloop
        · obtain ⟨lists₁, h₁, hmoved₁, hid₁⟩ :=
            (h.lessen t delta).wake hlist (f := fun thread => thread) fun _ => ⟨rfl, rfl, rfl⟩
          obtain ⟨lists', h', hmoved, hid⟩ := (h₁.give (-delta)).wakeLoop hloop
          exact ⟨lists', h', ((hless.trans hmoved₁).give _).trans hmoved, hid.trans hid₁⟩
        · obtain ⟨lists', h', hmoved, hid⟩ := ((h.lessen t delta).give (-delta)).wakeLoop hloop
          exact ⟨lists', h', (hless.give _).trans hmoved, hid⟩
    · obtain ⟨rfl, rfl⟩ := Prod.mk.inj (Option.some.inj hloop)
      exact ⟨lists, h, .refl s lists, rfl⟩

/-- The thread does not wait any more. -/
theorem Plugged.remove (h : s.Plugged q slot cpu ⟨none, none⟩ lists) {err result : SemError}
    (hremove : s.remove_thread_from_sem fuel t ⟨none, none⟩ err = some (result, s', queue')) :
    ∃ lists', s'.Plugged q slot cpu queue' lists' ∧ Moved slot cpu s s' lists lists' ∧
      s'.id = s.id ∧ t ∉ lists' (.sem slot) := by
  have hholds := h.holds (.sem slot)
  rw [plug_sem] at hholds
  unfold Sem.remove_thread_from_sem at hremove
  cases hdequeue : thread_dequeue_id fuel s.q_next s.q t with
  | none =>
    rw [hdequeue] at hremove
    cases hremove
  | some found =>
    obtain ⟨found, q', q_next⟩ := found
    rw [hdequeue] at hremove
    by_cases ht : t ∈ lists (.sem slot)
    · obtain ⟨pre, post, hlist⟩ := List.append_of_mem ht
      have hplug : thread_dequeue_id fuel s.q_next (plug q slot cpu s.q ⟨none, none⟩ (.sem slot))
          t = some (found, q', q_next) := by
        rw [plug_sem]
        exact hdequeue
      obtain ⟨rfl, hqueues⟩ := h.dequeue_id hlist hplug
      rw [plug_update_sem] at hqueues
      obtain ⟨⟨s₁, queue₁⟩, hloop, heq⟩ := Option.map_eq_some_iff.mp hremove
      obtain ⟨-, heq⟩ := Prod.mk.inj heq
      cases heq
      have hnodup := hholds.nodup
      rw [hlist] at hnodup
      have hthread : (({ s with
          count := s.count + (s.thread t).sem_acquire_count
          q := q'
          q_next := (thread_enqueue q_next t ⟨none, none⟩).2 } : Sem).modify t fun thread =>
            { thread with state := THREAD_STATE_READY, sem_errcode := err }).thread =
          update s.thread t
            { s.thread t with state := THREAD_STATE_READY, sem_errcode := err } := rfl
      obtain ⟨lists₁, h₁, hmoved₁, hlist₁⟩ := h.move hlist hqueues rfl hthread ⟨rfl, rfl, rfl, rfl⟩
      obtain ⟨lists', h', hmoved, hid⟩ := h₁.wakeLoop hloop
      refine ⟨lists', h', hmoved₁.trans hmoved, hid, fun hmem => ?_⟩
      have hmem₁ := hmoved.mem_sem hmem
      rw [hlist₁] at hmem₁
      exact (List.nodup_cons.mp (List.nodup_middle.mp hnodup)).1 hmem₁
    · obtain ⟨rfl, -, -⟩ := hholds.dequeue_id_none ht hdequeue
      obtain ⟨-, heq⟩ := Prod.mk.inj (Option.some.inj hremove)
      cases heq
      exact ⟨lists, h, .refl s lists, rfl, ht⟩

theorem Plugged.deleteLoop {return_code : Int} : ∀ {fuel : Nat} {s : Sem} {queue : thread_queue}
    {lists : QueueId → List Nat}, s.Plugged q slot cpu queue lists →
      deleteLoop return_code fuel s queue = some (s', queue') →
      ∃ lists', s'.Plugged q slot cpu queue' lists' ∧ Moved slot cpu s s' lists lists' ∧
        lists' (.sem slot) = []
  | 0, _, _, _, _, hloop => absurd hloop nofun
  | fuel + 1, s, queue, lists, h, hloop => by
    rw [Sem.deleteLoop, h.lookat] at hloop
    cases hlist : lists (.sem slot) with
    | nil =>
      rw [hlist, List.head?_nil, if_pos rfl] at hloop
      obtain ⟨rfl, rfl⟩ := Prod.mk.inj (Option.some.inj hloop)
      exact ⟨lists, h, .refl s lists, hlist⟩
    | cons t ts =>
      rw [hlist, List.head?_cons, if_neg nofun] at hloop
      obtain ⟨lists₁, h₁, hmoved₁, -⟩ := h.wake hlist (f := fun thread =>
        { thread with
          sem_errcode := B_BAD_SEM_ID
          sem_deleted_retcode := return_code
          sem_count := 0 }) fun _ => ⟨rfl, rfl, rfl⟩
      obtain ⟨lists', h', hmoved, hempty⟩ := Plugged.deleteLoop h₁ hloop
      exact ⟨lists', h', hmoved₁.trans hmoved, hempty⟩

theorem Plugged.delete {id return_code : Int} (h : s.Plugged q slot cpu ⟨none, none⟩ lists)
    (hdelete : s.delete_sem_etc fuel id return_code = some (s', queue')) :
    ∃ lists', s'.Plugged q slot cpu queue' lists' ∧ Moved slot cpu s s' lists lists' ∧
      (s'.id = s.id ∨ lists' (.sem slot) = []) := by
  unfold Sem.delete_sem_etc at hdelete
  split at hdelete
  · cases hdelete
    exact ⟨lists, h, .refl s lists, Or.inl rfl⟩
  · obtain ⟨⟨s₁, queue₁⟩, hloop, heq⟩ := Option.map_eq_some_iff.mp hdelete
    cases heq
    obtain ⟨lists', h', hmoved, hempty⟩ := h.deleteLoop hloop
    exact ⟨lists', h', ⟨hmoved.mem, hmoved.state, hmoved.next_state, hmoved.sem_flags,
      hmoved.sem_blocking⟩, Or.inr hempty⟩

end Sem

end Kernel

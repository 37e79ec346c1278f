import OpenBeOS.Kernel.Sem
import OpenBeOS.Lib.Reachable

/-! # The units of a semaphore

Where the units of a semaphore are: the ones that are available, the ones that acquisitions hold,
and the ones set aside for threads that wait for more. None gets lost as long as no thread is taken
out of the queue that has units set aside, unless it is alone in the queue (`sem_units_conserved`).
-/

namespace Kernel

open SemError ThreadState Function List

/-- The sum of a number over the threads of a list. -/
def total (f : Nat → Int) (ts : List Nat) : Int := (ts.map f).sum

@[simp]
theorem total_nil (f : Nat → Int) : total f [] = 0 := rfl

@[simp]
theorem total_cons (f : Nat → Int) (t : Nat) (ts : List Nat) :
    total f (t :: ts) = f t + total f ts := by simp [total]

theorem total_append (f : Nat → Int) (ts ts' : List Nat) :
    total f (ts ++ ts') = total f ts + total f ts' := by simp [total]

theorem total_congr {f g : Nat → Int} {ts : List Nat} (h : ∀ t ∈ ts, f t = g t) :
    total f ts = total g ts := by
  rw [total, total, map_congr_left h]

theorem total_pos {f : Nat → Int} :
    ∀ {ts : List Nat}, (∀ t ∈ ts, 0 < f t) → ts ≠ [] → 0 < total f ts
  | [], _, h => absurd rfl h
  | [t], h, _ => by simpa using h t (mem_cons_self ..)
  | t :: t' :: ts, h, _ => by
    have htail := total_pos (fun x hx => h x (mem_cons_of_mem _ hx)) (cons_ne_nil t' ts)
    have hhead := h t (mem_cons_self ..)
    rw [total_cons]
    omega

namespace Sem

def sem_count (s : Sem) (t : Nat) : Int := (s.thread t).sem_count
def sem_acquire_count (s : Sem) (t : Nat) : Int := (s.thread t).sem_acquire_count

/-- The units set aside for a thread. -/
def setAside (s : Sem) (t : Nat) : Int := s.sem_acquire_count t - s.sem_count t

/-- The units of the acquisitions, among those of the threads, that have succeeded. -/
def succeeded (s : Sem) (ts : List Nat) : Int :=
  total s.sem_acquire_count (ts.filter fun t => (s.thread t).sem_errcode = B_NO_ERROR)

end Sem

/-! ## The system -/

/-- A semaphore, the count it was created with, the units released so far, and the units of all
acquisitions that have succeeded so far. -/
structure SemSystem where
  sem : Sem
  initial : Int
  released : Int
  held : Int

inductive SemAction where
  | acquire (t : Nat) (id count : Int) (flags : BitVec 32) (timeout : Int) (sig_kill : Bool)
  | release (id count : Int)
  | remove (t : Nat) (sem_errcode : SemError)
  /-- The scheduler puts the thread into one of its own queues. -/
  | schedule (t : Nat) (q_next : Option Nat)

namespace SemSystem

def Step (s : SemSystem) : SemAction → SemSystem → Prop
  | .acquire t id count flags timeout sig_kill, s' =>
    let (result, sem) := s.sem.acquire_sem_etc t id count flags timeout sig_kill
    s' = { s with
      sem
      held := if result = .returns B_NO_ERROR then s.held + count else s.held }
  | .release id count, s' =>
    ∃ fuel err sem queue woken, s.sem.release_sem_etc fuel id count = some (err, sem, queue) ∧
      Holds sem.q_next queue woken ∧
      s' = { s with
        sem
        released := if err = B_NO_ERROR then s.released + count else s.released
        held := s.held + sem.succeeded woken }
  | .remove t sem_errcode, s' =>
    ∃ fuel err sem queue woken,
      s.sem.remove_thread_from_sem fuel t ⟨none, none⟩ sem_errcode = some (err, sem, queue) ∧
      Holds sem.q_next queue woken ∧
      s' = { s with sem, held := s.held + sem.succeeded woken }
  | .schedule t q_next, s' =>
    s' = { s with sem := { s.sem with q_next := update s.sem.q_next t q_next } }

/-- A new semaphore. -/
def Init (s : SemSystem) : Prop :=
  s.sem.count = s.initial ∧ 0 ≤ s.initial ∧ s.sem.q = ⟨none, none⟩ ∧ s.released = 0 ∧ s.held = 0

def Waiting (s : SemSystem) (ts : List Nat) : Prop := Holds s.sem.q_next s.sem.q ts

/-- A thread that waits neither acquires nor gets into a queue of the scheduler, and a removed
thread gets an error. -/
def Allowed (s : SemSystem) : SemAction → Prop
  | .acquire t _ _ _ _ _ => ∀ ts, s.Waiting ts → t ∉ ts
  | .schedule t _ => ∀ ts, s.Waiting ts → t ∉ ts
  | .remove _ sem_errcode => sem_errcode ≠ B_NO_ERROR
  | .release _ _ => True

/-- A thread that is removed has no units set aside, or no other thread waits. -/
def Safe (s : SemSystem) : SemAction → Prop
  | .remove t _ => ∀ ts, s.Waiting ts → t ∈ ts → s.sem.setAside t = 0 ∨ ts = [t]
  | _ => True

/-- `ts` being the threads that wait, `count` is negative just if there are some, and then says what
they are waiting for; and each unit is available, held or set aside. -/
structure ConservedFor (s : SemSystem) (ts : List Nat) : Prop where
  nonneg : 0 ≤ s.sem.count ↔ ts = []
  neg : s.sem.count < 0 → -s.sem.count = total s.sem.sem_count ts
  units : ∀ t ∈ ts, 0 < s.sem.sem_count t ∧ s.sem.sem_count t ≤ s.sem.sem_acquire_count t
  balance : s.initial + s.released = max s.sem.count 0 + s.held + total s.sem.setAside ts

def Conserved (s : SemSystem) : Prop := ∃ ts, s.Waiting ts ∧ s.ConservedFor ts

end SemSystem

/-! ## What a queue of threads waits for -/

/-- `owed` is what each thread of the queue still waits for, `asked` what it has asked for. Only the
first thread may have been given a part of it. -/
structure Owed (count : Int) (owed asked : Nat → Int) (ts : List Nat) : Prop where
  empty : ts = [] → 0 ≤ count
  counted : ts ≠ [] → count = -total owed ts
  units : ∀ t ∈ ts, 0 < owed t ∧ owed t ≤ asked t
  whole : ∀ t ∈ ts.tail, owed t = asked t

namespace Owed

variable {count : Int} {owed asked owed' asked' : Nat → Int} {t : Nat} {ts pre post : List Nat}

theorem neg (h : Owed count owed asked ts) (hts : ts ≠ []) : count < 0 := by
  have hpos := total_pos (fun t ht => (h.units t ht).1) hts
  have hcount := h.counted hts
  omega

theorem nonneg (h : Owed count owed asked ts) : 0 ≤ count ↔ ts = [] := by
  constructor
  · intro hcount
    by_contra hts
    have hneg := h.neg hts
    omega
  · exact h.empty

theorem congr (h : Owed count owed asked ts) (howed : ∀ t ∈ ts, owed t = owed' t)
    (hasked : ∀ t ∈ ts, asked t = asked' t) : Owed count owed' asked' ts := by
  refine ⟨h.empty, fun hts => ?_, fun t ht => ?_, fun t ht => ?_⟩
  · rw [h.counted hts, total_congr howed]
  · rw [← howed t ht, ← hasked t ht]
    exact h.units t ht
  · rw [← howed t (mem_of_mem_tail ht), ← hasked t (mem_of_mem_tail ht)]
    exact h.whole t ht

/-- The first thread is given a part of what it waits for. -/
theorem part (h : Owed count owed asked (t :: ts)) (ht : t ∉ ts) {delta : Int} (hdelta : 0 ≤ delta)
    (hlt : delta < owed t) :
    Owed (count + delta) (update owed t (owed t - delta)) asked (t :: ts) := by
  have hsame : ∀ x ∈ ts, update owed t (owed t - delta) x = owed x := by
    intro x hx
    rw [update_of_ne]
    rintro rfl
    exact ht hx
  refine ⟨nofun, fun _ => ?_, fun x hx => ?_, fun x hx => ?_⟩
  · have hcount := h.counted (cons_ne_nil t ts)
    rw [total_cons] at hcount ⊢
    rw [update_self, total_congr hsame]
    omega
  · rcases mem_cons.mp hx with rfl | hx
    · have hunits := h.units x (mem_cons_self ..)
      rw [update_self]
      omega
    · rw [hsame x hx]
      exact h.units x (mem_cons_of_mem _ hx)
  · rw [hsame x hx]
    exact h.whole x hx

theorem serve (h : Owed count owed asked (t :: ts)) : Owed (count + owed t) owed asked ts := by
  have hcount := h.counted (cons_ne_nil t ts)
  rw [total_cons] at hcount
  refine ⟨?_, fun _ => by omega, fun x hx => h.units x (mem_cons_of_mem _ hx),
    fun x hx => h.whole x (mem_of_mem_tail hx)⟩
  rintro rfl
  rw [total_nil] at hcount
  omega

/-- A thread that asks for more than there is gets what there is. -/
theorem wait (h : Owed count owed asked ts) (ht : t ∉ ts) {n : Int} (hn : 0 < n)
    (hneg : count - n < 0) :
    Owed (count - n) (update owed t (min (-(count - n)) n)) (update asked t n)
      (ts ++ [t]) := by
  have howed : ∀ x ∈ ts, update owed t (min (-(count - n)) n) x = owed x := by
    intro x hx
    rw [update_of_ne]
    rintro rfl
    exact ht hx
  have hasked : ∀ x ∈ ts, update asked t n x = asked x := by
    intro x hx
    rw [update_of_ne]
    rintro rfl
    exact ht hx
  refine ⟨?_, fun _ => ?_, fun x hx => ?_, fun x hx => ?_⟩
  · simp
  · rw [total_append, total_congr howed, total_cons, total_nil, update_self]
    cases ts with
    | nil =>
      have hcount := h.empty rfl
      rw [total_nil]
      omega
    | cons x ts =>
      have hneg' := h.neg (cons_ne_nil x ts)
      have hcount := h.counted (cons_ne_nil x ts)
      omega
  · rcases mem_append.mp hx with hx | hx
    · rw [howed x hx, hasked x hx]
      exact h.units x hx
    · obtain rfl := mem_singleton.mp hx
      rw [update_self, update_self]
      omega
  · cases ts with
    | nil => exact absurd hx not_mem_nil
    | cons y ts =>
      rcases mem_append.mp hx with hx | hx
      · rw [howed x (mem_cons_of_mem _ hx), hasked x (mem_cons_of_mem _ hx)]
        exact h.whole x hx
      · have hneg' := h.neg (cons_ne_nil y ts)
        obtain rfl := mem_singleton.mp hx
        rw [update_self, update_self]
        omega

theorem remove (h : Owed count owed asked (pre ++ t :: post))
    (ht : asked t = owed t ∨ pre ++ post = []) :
    Owed (count + asked t) owed asked (pre ++ post) := by
  have hmem : ∀ x ∈ pre ++ post, x ∈ pre ++ t :: post := by
    intro x hx
    exact (List.Sublist.append_left (sublist_cons_self _ _) _).subset hx
  have hcount := h.counted (by simp)
  have hunits := h.units t (by simp)
  rw [total_append, total_cons] at hcount
  refine ⟨fun hnil => ?_, fun hne => ?_, fun x hx => h.units x (hmem x hx), fun x hx => ?_⟩
  · obtain ⟨rfl, rfl⟩ := append_eq_nil_iff.mp hnil
    rw [total_nil] at hcount
    omega
  · have hnone := ht.resolve_right hne
    rw [total_append]
    omega
  · apply h.whole
    cases pre with
    | nil => exact mem_of_mem_tail hx
    | cons y pre => exact (List.Sublist.append_left (sublist_cons_self _ _) _).subset hx

theorem head_of_part (h : Owed count owed asked ts) (ht : t ∈ ts) (hpart : asked t ≠ owed t) :
    ∃ rest, ts = t :: rest := by
  cases ts with
  | nil => exact absurd ht not_mem_nil
  | cons x rest =>
    rcases mem_cons.mp ht with rfl | ht
    · exact ⟨rest, rfl⟩
    · exact absurd (h.whole t ht).symm hpart

end Owed

/-! ## The semaphore and the threads that wait for it -/

structure Sem.Waits (s : Sem) (ts : List Nat) : Prop where
  holds : Holds s.q_next s.q ts
  owed : Owed s.count s.sem_count s.sem_acquire_count ts
  noError : ∀ t ∈ ts, (s.thread t).sem_errcode = B_NO_ERROR

namespace Sem

variable {s s' : Sem} {t : Nat} {ts woken : List Nat} {queue queue' : thread_queue}

theorem modify_self (s : Sem) (t : Nat) (f : Thread → Thread) :
    (s.modify t f).thread t = f (s.thread t) := update_self ..

theorem modify_of_ne {t' : Nat} {f : Thread → Thread} (hne : t' ≠ t) :
    (s.modify t f).thread t' = s.thread t' := update_of_ne hne ..

/-- What the loops leave alone in the threads. -/
structure Kept (s s' : Sem) : Prop where
  asked : s'.sem_acquire_count = s.sem_acquire_count
  errcode : ∀ t, (s'.thread t).sem_errcode = (s.thread t).sem_errcode

theorem Kept.trans {s'' : Sem} (h : s.Kept s') (h' : s'.Kept s'') : s.Kept s'' :=
  ⟨h'.asked.trans h.asked, fun t => (h'.errcode t).trans (h.errcode t)⟩

theorem kept_of_modify {f : Thread → Thread} (hs' : s'.thread = (s.modify t f).thread)
    (hf : ∀ thread, (f thread).sem_acquire_count = thread.sem_acquire_count ∧
      (f thread).sem_errcode = thread.sem_errcode) : s.Kept s' := by
  have hthread : ∀ t', (s'.thread t').sem_acquire_count = (s.thread t').sem_acquire_count ∧
      (s'.thread t').sem_errcode = (s.thread t').sem_errcode := by
    intro t'
    rw [hs']
    by_cases ht : t' = t
    · rw [ht, modify_self]
      exact hf _
    · rw [modify_of_ne ht]
      exact ⟨rfl, rfl⟩
  exact ⟨funext fun t' => (hthread t').1, fun t' => (hthread t').2⟩

theorem Waits.out (h : s.Waits (t :: ts)) : t ∉ ts := (nodup_cons.mp h.holds.nodup).1

theorem Waits.served (h : s.Waits (t :: ts)) (hholds : Holds s'.q_next s'.q ts)
    (hcount : s'.count = s.count + s.sem_count t)
    (hsame : ∀ x, x ≠ t → s'.thread x = s.thread x) (hkept : s.Kept s') : s'.Waits ts := by
  refine ⟨hholds, ?_, fun x hx => ?_⟩
  · rw [hcount]
    refine h.owed.serve.congr (fun x hx => ?_) fun x _ => (congrFun hkept.asked x).symm
    rw [sem_count, sem_count, hsame x]
    rintro rfl
    exact h.out hx
  · rw [hkept.errcode]
    exact h.noError x (mem_cons_of_mem _ hx)

/-- `wake` moves the first thread from the queue of the semaphore to the other queue. -/
theorem wake_spec (h : Holds s.q_next s.q (t :: ts)) (hqueue : Holds s.q_next queue woken)
    (hapart : ∀ t' ∈ woken, t' ∉ t :: ts) (f : Thread → Thread) :
    ∃ s' queue', s.wake queue f = (s', queue') ∧ Holds s'.q_next s'.q ts ∧
      Holds s'.q_next queue' (woken ++ [t]) ∧ s'.count = s.count ∧
      s'.thread = (s.modify t fun thread =>
        { f thread with state := THREAD_STATE_READY }).thread := by
  obtain ⟨hdequeue, hrest⟩ := h.dequeue
  obtain ⟨hout, -⟩ := nodup_cons.mp h.nodup
  have htw : t ∉ woken := fun hmem => hapart t hmem (mem_cons_self ..)
  have hwake : s.wake queue f = ({ s with
        q := (thread_dequeue s.q_next s.q).2
        q_next := (thread_enqueue s.q_next t queue).2 }.modify t fun thread =>
          { f thread with state := THREAD_STATE_READY }, (thread_enqueue s.q_next t queue).1) := by
    unfold wake
    cases hq : thread_dequeue s.q_next s.q with
    | mk first q =>
      rw [hq] at hdequeue
      obtain rfl : first = some t := hdequeue
      rfl
  refine ⟨_, _, hwake, ?_, hqueue.enqueue htw, rfl, rfl⟩
  apply hrest.congr
  intro t' ht'
  apply thread_enqueue_q_next hqueue
  · rintro rfl
    exact hout ht'
  · exact fun hmem => hapart t' hmem (mem_cons_of_mem _ ht')

theorem lessen_sem_count (s : Sem) (t : Nat) (delta : Int) :
    (s.lessen t delta).sem_count = update s.sem_count t (s.sem_count t - delta) := by
  funext x
  by_cases hx : x = t
  · rw [hx, update_self]
    exact congrArg Thread.sem_count (modify_self ..)
  · rw [update_of_ne hx]
    exact congrArg Thread.sem_count (modify_of_ne hx)

theorem kept_lessen (s : Sem) (t : Nat) (delta : Int) : s.Kept (s.lessen t delta) :=
  @kept_of_modify s (s.lessen t delta) t _ rfl fun _ => ⟨rfl, rfl⟩

theorem kept_give (s : Sem) (count : Int) : s.Kept (s.give count) := ⟨rfl, fun _ => rfl⟩

theorem releaseRound_part (h : s.Waits (t :: ts)) {delta : Int} (hdelta : 0 ≤ delta)
    (hlt : delta < s.sem_count t) :
    s.releaseRound t queue delta = ((s.lessen t delta).give delta, queue) ∧
      ((s.lessen t delta).give delta).Waits (t :: ts) := by
  have hself : ((s.lessen t delta).thread t).sem_count = s.sem_count t - delta :=
    congrArg Thread.sem_count (modify_self ..)
  have hkept := kept_lessen s t delta
  constructor
  · unfold releaseRound
    rw [hself, if_neg (by omega)]
  · refine ⟨h.holds, ?_, fun x hx => (hkept.errcode x).trans (h.noError x hx)⟩
    have hpart := h.owed.part h.out hdelta hlt
    rw [← lessen_sem_count, ← hkept.asked] at hpart
    exact hpart

/-- The first thread is given all it waits for, and released. -/
theorem releaseRound_all (h : s.Waits (t :: ts)) (hqueue : Holds s.q_next queue woken)
    (hapart : ∀ x ∈ woken, x ∉ t :: ts) :
    ∃ s' queue', s.releaseRound t queue (s.sem_count t) = (s', queue') ∧ s'.Waits ts ∧ s.Kept s' ∧
      Holds s'.q_next queue' (woken ++ [t]) ∧ s'.count = s.count + s.sem_count t := by
  have hself : ((s.lessen t (s.sem_count t)).thread t).sem_count = s.sem_count t - s.sem_count t :=
    congrArg Thread.sem_count (modify_self ..)
  obtain ⟨s', queue', hwake, hq, hqueue', hcount, hthread⟩ :=
    @wake_spec (s.lessen t (s.sem_count t)) t ts woken queue h.holds hqueue hapart fun thread =>
      { thread with sem_count := 0, sem_deleted_retcode := 0 }
  have hkept : s.Kept (s'.give (s.sem_count t)) :=
    (kept_lessen s t _).trans (kept_of_modify hthread fun _ => ⟨rfl, rfl⟩)
  have hcount' : s'.count + s.sem_count t = s.count + s.sem_count t := by
    rw [hcount]
    rfl
  refine ⟨s'.give (s.sem_count t), queue', ?_, ?_, hkept, hqueue', hcount'⟩
  · unfold releaseRound
    rw [hself, if_pos (by omega), hwake]
  · refine h.served hq hcount' (fun x hx => ?_) hkept
    show s'.thread x = s.thread x
    rw [hthread, modify_of_ne hx]
    exact modify_of_ne hx

/-- The loop of `release_sem_etc` gives all units away: it releases the threads in front, and the
last units are set aside for the next one, or stay available. -/
theorem releaseLoop_spec : ∀ {fuel : Nat} {s s' : Sem} {ts woken : List Nat}
    {queue queue' : thread_queue} {count : Int}, s.Waits ts → Holds s.q_next queue woken →
      (∀ x ∈ woken, x ∉ ts) → 0 ≤ count → releaseLoop fuel s queue count = some (s', queue') →
      ∃ served rest, ts = served ++ rest ∧ s'.Waits rest ∧ s.Kept s' ∧
        Holds s'.q_next queue' (woken ++ served) ∧ s'.count = s.count + count
  | 0, _, _, _, _, _, _, _, _, _, _, _, h => absurd h nofun
  | fuel + 1, s, s', ts, woken, queue, queue', count, hwaits, hqueue, hapart, hcount, h => by
    rw [releaseLoop] at h
    by_cases hpos : count > 0
    · rw [if_pos hpos] at h
      by_cases hneg : s.count < 0
      · rw [if_pos hneg, hwaits.holds.lookat] at h
        cases ts with
        | nil =>
          have hnonneg := hwaits.owed.empty rfl
          omega
        | cons t ts =>
          simp only [List.head?_cons] at h
          by_cases hlt : count < s.sem_count t
          · -- the first thread goes on waiting
            have hmin : min count (s.thread t).sem_count = count :=
              Int.min_eq_left (Int.le_of_lt hlt)
            obtain ⟨hround, hwaits'⟩ := @releaseRound_part s t ts queue hwaits count hcount hlt
            rw [hmin, hround] at h
            obtain ⟨served, rest, hts, hrest, hkept, hqueue', hcount'⟩ :=
              releaseLoop_spec hwaits' hqueue hapart (by omega) h
            refine ⟨served, rest, hts, hrest,
              ((kept_lessen s t count).trans (kept_give _ count)).trans hkept, hqueue', ?_⟩
            rw [hcount']
            show s.count + count + (count - count) = s.count + count
            omega
          · -- the first thread is released
            have hmin : min count (s.thread t).sem_count = s.sem_count t :=
              Int.min_eq_right (Int.not_lt.mp hlt)
            obtain ⟨s₁, queue₁, hround, hwaits', hkept, hqueue₁, hcount₁⟩ :=
              releaseRound_all hwaits hqueue hapart
            rw [hmin, hround] at h
            have hapart' : ∀ x ∈ woken ++ [t], x ∉ ts := by
              intro x hx hmem
              rcases mem_append.mp hx with hx | hx
              · exact hapart x hx (mem_cons_of_mem _ hmem)
              · exact hwaits.out (mem_singleton.mp hx ▸ hmem)
            obtain ⟨served, rest, rfl, hrest, hkept', hqueue', hcount'⟩ :=
              releaseLoop_spec hwaits' hqueue₁ hapart' (by omega) h
            refine ⟨t :: served, rest, rfl, hrest, hkept.trans hkept', ?_, by omega⟩
            rw [append_assoc] at hqueue'
            exact hqueue'
      · rw [if_neg hneg] at h
        obtain rfl := hwaits.owed.nonneg.mp (by omega)
        have hwaits' : (s.give count).Waits [] :=
          ⟨hwaits.holds, ⟨fun _ => by show 0 ≤ s.count + count; omega, fun h => absurd rfl h,
            nofun, nofun⟩, nofun⟩
        obtain ⟨served, rest, hts, hrest, hkept, hqueue', hcount'⟩ :=
          releaseLoop_spec hwaits' hqueue hapart (by omega) h
        refine ⟨served, rest, hts, hrest, (kept_give s count).trans hkept, hqueue', ?_⟩
        rw [hcount']
        show s.count + count + (count - count) = s.count + count
        omega
    · rw [if_neg hpos] at h
      cases h
      refine ⟨[], ts, rfl, hwaits, ⟨rfl, fun _ => rfl⟩, ?_, by omega⟩
      rwa [append_nil]

theorem succeeded_of_noError (h : ∀ t ∈ ts, (s.thread t).sem_errcode = B_NO_ERROR) :
    s.succeeded ts = total s.sem_acquire_count ts := by
  rw [succeeded, filter_eq_self.mpr]
  simpa using h

/-- `release_sem_etc` makes the count grow by the units released, and the threads it wakes hold what
they asked for. -/
theorem release_sem_etc_spec (h : s.Waits ts) {fuel : Nat} {id count : Int} {err : SemError}
    (hrelease : s.release_sem_etc fuel id count = some (err, s', queue))
    (hqueue : Holds s'.q_next queue woken) :
    ∃ rest, s'.Waits rest ∧
      total s.sem_acquire_count ts = s'.succeeded woken + total s'.sem_acquire_count rest ∧
      s'.count = s.count + if err = B_NO_ERROR then count else 0 := by
  have hnothing : ∀ err' : SemError, err' ≠ B_NO_ERROR →
      some (err', s, (⟨none, none⟩ : thread_queue)) = some (err, s', queue) →
      ∃ rest, s'.Waits rest ∧
        total s.sem_acquire_count ts = s'.succeeded woken + total s'.sem_acquire_count rest ∧
        s'.count = s.count + if err = B_NO_ERROR then count else 0 := by
    intro err' herr heq
    simp only [Option.some.injEq, Prod.mk.injEq] at heq
    obtain ⟨rfl, rfl, rfl⟩ := heq
    obtain rfl := hqueue.unique holds_nil
    refine ⟨ts, h, ?_, ?_⟩
    · show _ = 0 + _
      omega
    · rw [if_neg herr]
      omega
  unfold release_sem_etc at hrelease
  by_cases hid : id < 0
  · rw [if_pos hid] at hrelease
    exact hnothing B_BAD_SEM_ID nofun hrelease
  rw [if_neg hid] at hrelease
  by_cases hcount : count ≤ 0
  · rw [if_pos hcount] at hrelease
    exact hnothing ERR_INVALID_ARGS nofun hrelease
  rw [if_neg hcount] at hrelease
  by_cases hbad : s.id ≠ id
  · rw [if_pos hbad] at hrelease
    exact hnothing B_BAD_SEM_ID nofun hrelease
  rw [if_neg hbad] at hrelease
  obtain ⟨⟨sem, queue'⟩, hloop, heq⟩ := Option.map_eq_some_iff.mp hrelease
  simp only [Prod.mk.injEq] at heq
  obtain ⟨rfl, rfl, rfl⟩ := heq
  obtain ⟨served, rest, rfl, hrest, hkept, hserved, hcount'⟩ :=
    releaseLoop_spec h holds_nil nofun (by omega) hloop
  rw [nil_append] at hserved
  obtain rfl := hqueue.unique hserved
  refine ⟨rest, hrest, ?_, by rw [if_pos rfl]; exact hcount'⟩
  rw [succeeded_of_noError, hkept.asked, total_append]
  intro t ht
  rw [hkept.errcode]
  exact h.noError t (mem_append_left _ ht)

/-- A thread that has to wait. -/
theorem Waits.block (h : s.Waits ts) (ht : t ∉ ts) {count : Int} (hcount : 0 < count)
    (hneg : s.count - count < 0) (flags : BitVec 32) :
    Waits ({ s with count := s.count - count }.block t count flags) (ts ++ [t]) ∧
      ({ s with count := s.count - count }.block t count flags).sem_acquire_count =
        update s.sem_acquire_count t count := by
  generalize hs' : { s with count := s.count - count }.block t count flags = s'
  have hself : s'.sem_count t = min (-(s.count - count)) count ∧ s'.sem_acquire_count t = count ∧
      (s'.thread t).sem_errcode = B_NO_ERROR := by
    rw [sem_count, sem_acquire_count, ← hs', Sem.block, modify_self]
    exact ⟨rfl, rfl, rfl⟩
  have hother : ∀ x, x ≠ t → s'.thread x = s.thread x := by
    intro x hx
    rw [← hs', Sem.block, modify_of_ne hx]
  have hcounts : s'.sem_count = update s.sem_count t (min (-(s.count - count)) count) := by
    funext x
    by_cases hx : x = t
    · rw [hx, update_self, hself.1]
    · rw [update_of_ne hx]
      exact congrArg Thread.sem_count (hother x hx)
  have hasked : s'.sem_acquire_count = update s.sem_acquire_count t count := by
    funext x
    by_cases hx : x = t
    · rw [hx, update_self, hself.2.1]
    · rw [update_of_ne hx]
      exact congrArg Thread.sem_acquire_count (hother x hx)
  refine ⟨⟨?_, ?_, fun x hx => ?_⟩, hasked⟩
  · rw [← hs']
    exact h.holds.enqueue ht
  · rw [hcounts, hasked, ← hs']
    exact h.owed.wait ht hcount hneg
  · by_cases hxt : x = t
    · rw [hxt]
      exact hself.2.2
    · rw [hother x hxt]
      exact h.noError x ((mem_append.mp hx).resolve_right fun hmem => hxt (mem_singleton.mp hmem))

/-- `acquire_sem_etc` takes the units, or makes the thread wait for them, or changes nothing. -/
theorem acquire_sem_etc_spec (h : s.Waits ts) (ht : t ∉ ts) {id count timeout : Int}
    {flags : BitVec 32} {sig_kill : Bool} {result : AcquireResult}
    (hacquire : s.acquire_sem_etc t id count flags timeout sig_kill = (result, s')) :
    ∃ rest, s'.Waits rest ∧
      s.count + total s.sem_acquire_count ts = s'.count + total s'.sem_acquire_count rest +
        if result = .returns B_NO_ERROR then count else 0 := by
  have hnothing : ∀ err : SemError, err ≠ B_NO_ERROR → (AcquireResult.returns err, s) = (result, s') →
      ∃ rest, s'.Waits rest ∧
        s.count + total s.sem_acquire_count ts = s'.count + total s'.sem_acquire_count rest +
          if result = .returns B_NO_ERROR then count else 0 := by
    intro err herr heq
    cases heq
    refine ⟨ts, h, ?_⟩
    rw [if_neg fun heq => herr (AcquireResult.returns.inj heq), Int.add_zero]
  unfold acquire_sem_etc at hacquire
  by_cases hid : id < 0
  · rw [if_pos hid] at hacquire
    exact hnothing B_BAD_SEM_ID nofun hacquire
  rw [if_neg hid] at hacquire
  by_cases hcount : count ≤ 0
  · rw [if_pos hcount] at hacquire
    exact hnothing ERR_INVALID_ARGS nofun hacquire
  rw [if_neg hcount] at hacquire
  by_cases hbad : s.id ≠ id
  · rw [if_pos hbad] at hacquire
    exact hnothing B_BAD_SEM_ID nofun hacquire
  rw [if_neg hbad] at hacquire
  by_cases htimeout : s.count - count < 0 ∧ flags &&& B_TIMEOUT ≠ 0 ∧ timeout ≤ 0
  · rw [if_pos htimeout] at hacquire
    exact hnothing ERR_SEM_TIMED_OUT nofun hacquire
  rw [if_neg htimeout] at hacquire
  by_cases hneg : s.count - count < 0
  · rw [if_pos hneg] at hacquire
    by_cases hkill : flags &&& B_CAN_INTERRUPT ≠ 0 ∧ sig_kill
    · rw [if_pos hkill] at hacquire
      exact hnothing EINTR nofun hacquire
    rw [if_neg hkill] at hacquire
    cases hacquire
    obtain ⟨hwaits, hasked⟩ := h.block ht (by omega) hneg flags
    have hsame : ∀ x ∈ ts, update s.sem_acquire_count t count x = s.sem_acquire_count x := by
      intro x hx
      rw [update_of_ne]
      rintro rfl
      exact ht hx
    refine ⟨ts ++ [t], hwaits, ?_⟩
    rw [hasked, total_append, total_congr hsame, total_cons, update_self, total_nil, if_neg nofun]
    show _ = s.count - count + _ + 0
    omega
  · rw [if_neg hneg] at hacquire
    cases hacquire
    obtain rfl := h.owed.nonneg.mp (by omega)
    refine ⟨[], ⟨h.holds, ⟨fun _ => by show 0 ≤ s.count - count; omega, fun h => absurd rfl h,
      nofun, nofun⟩, nofun⟩, ?_⟩
    rw [if_pos rfl]
    show s.count + 0 = s.count - count + 0 + count
    omega

/-- The loop of `remove_thread_from_sem`. If it has anything to do, it takes units away. -/
theorem wakeLoop_spec : ∀ {fuel : Nat} {s s' : Sem} {t : Nat} {ts woken : List Nat}
    {queue queue' : thread_queue}, Holds s.q_next s.q ts → Holds s.q_next queue woken →
      (∀ x ∈ woken, x ∉ ts) → t ∉ ts → 0 < s.sem_count t → (∀ x ∈ ts, 0 < s.sem_count x) →
      wakeLoop fuel s t queue = some (s', queue') →
      ∃ served rest, ts = served ++ rest ∧ Holds s'.q_next s'.q rest ∧
        Holds s'.q_next queue' (woken ++ served) ∧ s.Kept s' ∧
        (s.count ≤ 0 ∨ ts = [] → served = [] ∧ s' = s) ∧
        (0 < s.count → 0 ≤ s'.count ∧ s'.count ≤ s.count ∧ (ts ≠ [] → s'.count < s.count))
  | 0, _, _, _, _, _, _, _, _, _, _, _, _, _, h => absurd h nofun
  | fuel + 1, s, s', t, ts, woken, queue, queue', hq, hqueue, hapart, ht, hpos, hall, h => by
    rw [wakeLoop] at h
    by_cases hcount : s.count > 0
    · rw [if_pos hcount, hq.lookat] at h
      cases ts with
      | nil =>
        cases h
        rw [← append_nil woken] at hqueue
        exact ⟨[], [], rfl, hq, hqueue, ⟨rfl, fun _ => rfl⟩, fun _ => ⟨rfl, rfl⟩,
          fun _ => ⟨by omega, by omega, fun h => absurd rfl h⟩⟩
      | cons t1 ts =>
        simp only [List.head?_cons] at h
        generalize hdelta : min (s.thread t).sem_count s.count = delta at h
        have hmin : 0 < delta ∧ delta ≤ s.count := by
          rw [← hdelta]
          exact ⟨Int.lt_min.mpr ⟨hpos, hcount⟩, Int.min_le_right ..⟩
        have hother : ∀ x, x ≠ t → (s.lessen t delta).sem_count x = s.sem_count x := by
          intro x hx
          rw [lessen_sem_count, update_of_ne hx]
        have hne : ∀ x ∈ t1 :: ts, x ≠ t := fun x hx heq => ht (heq ▸ hx)
        have hend : s.count ≤ 0 ∨ t1 :: ts = [] → False := by
          rintro (h | h)
          · omega
          · cases h
        by_cases hdone : ((s.lessen t delta).thread t).sem_count ≤ 0
        · -- the next thread is woken, and is the one looked at in the next round
          obtain ⟨s₁, queue₁, hwake, hq₁, hqueue₁, hcount₁, hthread₁⟩ :=
            @wake_spec (s.lessen t delta) t1 ts woken queue hq hqueue hapart fun thread => thread
          rw [if_pos hdone, hwake] at h
          have hout := (nodup_cons.mp hq.nodup).1
          have hsem : ∀ x ∈ t1 :: ts, (s₁.give (-delta)).sem_count x = s.sem_count x := by
            intro x hx
            show (s₁.thread x).sem_count = _
            rw [hthread₁, ← hother x (hne x hx)]
            by_cases hx1 : x = t1
            · rw [hx1, modify_self]
              rfl
            · rw [modify_of_ne hx1]
              rfl
          have hapart₁ : ∀ x ∈ woken ++ [t1], x ∉ ts := by
            intro x hx hmem
            rcases mem_append.mp hx with hx | hx
            · exact hapart x hx (mem_cons_of_mem _ hmem)
            · exact hout (mem_singleton.mp hx ▸ hmem)
          obtain ⟨served, rest, rfl, hrest, hqueue', hkept, hidle, hcount'⟩ :=
            @wakeLoop_spec fuel (s₁.give (-delta)) s' t1 ts (woken ++ [t1]) queue₁ queue' hq₁
              hqueue₁ hapart₁ hout
              (by rw [hsem t1 (mem_cons_self ..)]; exact hall t1 (mem_cons_self ..))
              (fun x hx => by
                rw [hsem x (mem_cons_of_mem _ hx)]
                exact hall x (mem_cons_of_mem _ hx)) h
          have hgive : (s₁.give (-delta)).count = s.count + -delta := by
            show s₁.count + -delta = _
            rw [hcount₁]
            rfl
          rw [hgive] at hidle hcount'
          rw [append_assoc] at hqueue'
          refine ⟨t1 :: served, rest, rfl, hrest, hqueue', ?_, fun h => (hend h).elim, fun _ => ?_⟩
          · have hkept₁ : s.Kept s₁ :=
              (kept_lessen s t delta).trans (kept_of_modify hthread₁ fun _ => ⟨rfl, rfl⟩)
            exact (hkept₁.trans (kept_give s₁ _)).trans hkept
          · by_cases hleft : 0 < s.count + -delta
            · obtain ⟨hnonneg, hle, -⟩ := hcount' hleft
              exact ⟨hnonneg, by omega, fun _ => by omega⟩
            · obtain ⟨-, rfl⟩ := hidle (Or.inl (by omega))
              rw [hgive]
              exact ⟨by omega, by omega, fun _ => by omega⟩
        · -- the count is used up
          rw [if_neg hdone] at h
          obtain ⟨served, rest, hts, hrest, hqueue', hkept, hidle, hcount'⟩ :=
            @wakeLoop_spec fuel ((s.lessen t delta).give (-delta)) s' t (t1 :: ts) woken queue
              queue' hq hqueue hapart ht (Int.not_le.mp hdone)
              (fun x hx => by
                show 0 < (s.lessen t delta).sem_count x
                rw [hother x (hne x hx)]
                exact hall x hx) h
          have hgive : ((s.lessen t delta).give (-delta)).count = s.count + -delta := rfl
          rw [hgive] at hidle hcount'
          refine ⟨served, rest, hts, hrest, hqueue',
            ((kept_lessen s t delta).trans (kept_give _ _)).trans hkept,
            fun h => (hend h).elim, fun _ => ?_⟩
          by_cases hleft : 0 < s.count + -delta
          · obtain ⟨hnonneg, hle, -⟩ := hcount' hleft
            exact ⟨hnonneg, by omega, fun _ => by omega⟩
          · obtain ⟨-, rfl⟩ := hidle (Or.inl (by omega))
            rw [hgive]
            exact ⟨by omega, by omega, fun _ => by omega⟩
    · rw [if_neg hcount] at h
      cases h
      rw [← append_nil woken] at hqueue
      exact ⟨[], ts, rfl, hq, hqueue, ⟨rfl, fun _ => rfl⟩, fun _ => ⟨rfl, rfl⟩,
        fun h => absurd h hcount⟩

/-- The thread is out of the queue; the loop of `remove_thread_from_sem` comes next. -/
theorem remove_split {pre post : List Nat} (h : s.Waits (pre ++ t :: post)) {fuel : Nat}
    {sem_errcode err : SemError}
    (hremove : s.remove_thread_from_sem fuel t ⟨none, none⟩ sem_errcode = some (err, s', queue)) :
    ∃ s₁ queue₁, wakeLoop fuel s₁ t queue₁ = some (s', queue) ∧
      Holds s₁.q_next s₁.q (pre ++ post) ∧ Holds s₁.q_next queue₁ [t] ∧
      s₁.count = s.count + s.sem_acquire_count t ∧ s₁.sem_count = s.sem_count ∧
      s₁.sem_acquire_count = s.sem_acquire_count ∧ (s₁.thread t).sem_errcode = sem_errcode ∧
      ∀ x, x ≠ t → s₁.thread x = s.thread x := by
  have hout : t ∉ pre ++ post := (nodup_cons.mp (nodup_middle.mp h.holds.nodup)).1
  unfold remove_thread_from_sem at hremove
  cases hdequeue : thread_dequeue_id fuel s.q_next s.q t with
  | none =>
    rw [hdequeue] at hremove
    cases hremove
  | some result =>
    obtain ⟨found, q, q_next⟩ := result
    obtain ⟨rfl, hq, -⟩ := h.holds.dequeue_id hdequeue
    rw [hdequeue] at hremove
    obtain ⟨⟨s₂, queue₂⟩, hloop, heq⟩ := Option.map_eq_some_iff.mp hremove
    simp only [Prod.mk.injEq] at heq
    obtain ⟨-, rfl, rfl⟩ := heq
    refine ⟨_, _, hloop, ?_, @Holds.enqueue q_next ⟨none, none⟩ [] t holds_nil not_mem_nil,
      rfl, ?_, ?_, congrArg Thread.sem_errcode (modify_self ..), fun x hx => modify_of_ne hx⟩
    · apply hq.congr
      intro x hx
      refine @thread_enqueue_q_next q_next ⟨none, none⟩ [] t holds_nil x ?_ not_mem_nil
      rintro rfl
      exact hout hx
    · funext x
      by_cases hx : x = t
      · rw [hx]
        exact (congrArg Thread.sem_count (modify_self ..)).trans rfl
      · exact congrArg Thread.sem_count (modify_of_ne hx)
    · funext x
      by_cases hx : x = t
      · rw [hx]
        exact (congrArg Thread.sem_acquire_count (modify_self ..)).trans rfl
      · exact congrArg Thread.sem_acquire_count (modify_of_ne hx)

theorem remove_nothing (h : s.Waits ts) (ht : t ∉ ts) {fuel : Nat} {sem_errcode err : SemError}
    (hremove : s.remove_thread_from_sem fuel t ⟨none, none⟩ sem_errcode = some (err, s', queue)) :
    s' = s ∧ queue = ⟨none, none⟩ := by
  unfold remove_thread_from_sem at hremove
  cases hdequeue : thread_dequeue_id fuel s.q_next s.q t with
  | none =>
    rw [hdequeue] at hremove
    cases hremove
  | some result =>
    obtain ⟨found, q, q_next⟩ := result
    obtain ⟨rfl, -, -⟩ := h.holds.dequeue_id_none ht hdequeue
    rw [hdequeue] at hremove
    simp only [Option.some.injEq, Prod.mk.injEq] at hremove
    exact ⟨hremove.2.1.symm, hremove.2.2.symm⟩

/-- Removing a thread without units set aside, or the only one, wakes no other thread. -/
theorem remove_spec {pre post : List Nat} (h : s.Waits (pre ++ t :: post)) {fuel : Nat}
    {sem_errcode err : SemError} (herrcode : sem_errcode ≠ B_NO_ERROR)
    (hsafe : s.setAside t = 0 ∨ pre ++ t :: post = [t])
    (hremove : s.remove_thread_from_sem fuel t ⟨none, none⟩ sem_errcode = some (err, s', queue))
    (hqueue : Holds s'.q_next queue woken) :
    s'.Waits (pre ++ post) ∧ s'.count = s.count + s.sem_acquire_count t ∧
      s'.sem_acquire_count = s.sem_acquire_count ∧ s'.succeeded woken = 0 := by
  obtain ⟨s₁, queue₁, hloop, hq, hqueue₁, hcount, hsem, hasked, herr, hother⟩ := remove_split h hremove
  have hout : t ∉ pre ++ post := (nodup_cons.mp (nodup_middle.mp h.holds.nodup)).1
  have hsafe' : s.sem_acquire_count t = s.sem_count t ∨ pre ++ post = [] := by
    rcases hsafe with hsafe | hsafe
    · rw [setAside] at hsafe
      exact Or.inl (by omega)
    · have hlen := congrArg List.length hsafe
      simp only [length_append, length_cons, length_nil] at hlen
      refine Or.inr (eq_nil_of_length_eq_zero ?_)
      rw [length_append]
      omega
  have howed := h.owed.remove hsafe'
  have hpos : ∀ x ∈ pre ++ t :: post, 0 < s₁.sem_count x := by
    rw [hsem]
    exact fun x hx => (h.owed.units x hx).1
  have hsub : ∀ x ∈ pre ++ post, x ∈ pre ++ t :: post :=
    fun x hx => (List.Sublist.append_left (sublist_cons_self _ _) _).subset hx
  obtain ⟨served, rest, hsplit, hrest, hqueue', -, hidle, -⟩ :=
    wakeLoop_spec hq hqueue₁ (fun x hx => by rwa [mem_singleton.mp hx]) hout
      (hpos t (by simp)) (fun x hx => hpos x (hsub x hx)) hloop
  have hstop : s₁.count ≤ 0 ∨ pre ++ post = [] := by
    by_cases hnil : pre ++ post = []
    · exact Or.inr hnil
    · have hneg := howed.neg hnil
      exact Or.inl (by omega)
  obtain ⟨rfl, rfl⟩ := hidle hstop
  obtain rfl := hqueue.unique hqueue'
  refine ⟨⟨hq, ?_, fun x hx => ?_⟩, hcount, hasked, ?_⟩
  · rw [hcount, hsem, hasked]
    exact howed
  · rw [hother x (fun heq => hout (heq ▸ hx))]
    exact h.noError x (hsub x hx)
  · rw [append_nil, succeeded, filter_singleton]
    simp [herr, herrcode]

/-- With units set aside for it and other threads waiting, the count is wrong after the removal: it
has not become what the others wait for, or not what the thread gives back. -/
theorem remove_bad {post : List Nat} (h : s.Waits (t :: post)) {fuel : Nat}
    {sem_errcode err : SemError} (herrcode : sem_errcode ≠ B_NO_ERROR)
    (hbad : s.setAside t ≠ 0) (hpost : post ≠ [])
    (hremove : s.remove_thread_from_sem fuel t ⟨none, none⟩ sem_errcode = some (err, s', queue))
    (hqueue : Holds s'.q_next queue woken) :
    ∃ served rest, post = served ++ rest ∧ Holds s'.q_next s'.q rest ∧
      s'.succeeded woken = total s.sem_acquire_count served ∧
      s'.sem_acquire_count = s.sem_acquire_count ∧
      (0 ≤ s'.count ∧ (rest ≠ [] ∨ s'.count < s.count + s.sem_acquire_count t) ∨
        rest = post ∧ s'.count < 0 ∧ -s'.count ≠ total s'.sem_count rest) := by
  obtain ⟨s₁, queue₁, hloop, hq, hqueue₁, hcount, hsem, hasked, herr, hother⟩ :=
    @remove_split s s' t queue [] post h fuel sem_errcode err hremove
  rw [nil_append] at hq
  have hpos : ∀ x ∈ t :: post, 0 < s₁.sem_count x := by
    rw [hsem]
    exact fun x hx => (h.owed.units x hx).1
  obtain ⟨served, rest, hsplit, hrest, hqueue', hkept, hidle, hloop'⟩ :=
    wakeLoop_spec hq hqueue₁ (fun x hx => by rw [mem_singleton.mp hx]; exact h.out) h.out
      (hpos t (mem_cons_self ..)) (fun x hx => hpos x (mem_cons_of_mem _ hx)) hloop
  obtain rfl := hqueue.unique hqueue'
  refine ⟨served, rest, hsplit, hrest, ?_, hkept.asked.trans hasked, ?_⟩
  · have hnoError : ∀ x ∈ served, (s'.thread x).sem_errcode = B_NO_ERROR := by
      intro x hx
      have hmem : x ∈ post := by
        rw [hsplit]
        exact mem_append_left _ hx
      have hne : x ≠ t := fun heq => h.out (heq ▸ hmem)
      rw [hkept.errcode, hother x hne]
      exact h.noError x (mem_cons_of_mem _ hmem)
    have hdrop : s'.succeeded ([t] ++ served) = s'.succeeded served := by
      rw [succeeded, succeeded, filter_append, filter_singleton, hkept.errcode, herr]
      simp [herrcode]
    rw [hdrop, succeeded_of_noError hnoError, hkept.asked, hasked]
  · by_cases hgive : 0 < s₁.count
    · obtain ⟨hnonneg, -, hlt⟩ := hloop' hgive
      exact Or.inl ⟨hnonneg, Or.inr (hcount ▸ hlt hpost)⟩
    · obtain ⟨rfl, rfl⟩ := hidle (Or.inl (by omega))
      rw [nil_append] at hsplit
      obtain rfl := hsplit
      have hneeds := h.owed.counted (cons_ne_nil t post)
      rw [total_cons] at hneeds
      rw [setAside] at hbad
      by_cases hzero : s'.count = 0
      · exact Or.inl ⟨by omega, Or.inl hpost⟩
      · refine Or.inr ⟨rfl, by omega, ?_⟩
        rw [hsem]
        omega

end Sem

/-! ## Every run -/

namespace SemSystem

variable {s s' : SemSystem} {ts : List Nat}

/-- The semaphore and the threads, and each unit is available, held or asked for. -/
structure Sound (s : SemSystem) (ts : List Nat) : Prop where
  waits : s.sem.Waits ts
  balance : s.initial + s.released = s.sem.count + s.held + total s.sem.sem_acquire_count ts

theorem total_setAside (s : Sem) :
    ∀ ts : List Nat, total s.setAside ts = total s.sem_acquire_count ts - total s.sem_count ts
  | [] => rfl
  | t :: ts => by
    rw [total_cons, total_cons, total_cons, total_setAside s ts, Sem.setAside]
    omega

theorem Sound.conserved (h : s.Sound ts) : s.ConservedFor ts := by
  have hnonneg := h.waits.owed.nonneg
  refine ⟨hnonneg, fun hneg => ?_, h.waits.owed.units, ?_⟩
  · have hne : ts ≠ [] := fun hnil => by have := hnonneg.mpr hnil; omega
    have hcount := h.waits.owed.counted hne
    omega
  · rw [h.balance, total_setAside]
    by_cases hnil : ts = []
    · have hcount := hnonneg.mpr hnil
      rw [hnil, total_nil, total_nil]
      omega
    · have hcount := h.waits.owed.counted hnil
      have hneg := h.waits.owed.neg hnil
      omega

theorem Sound.waiting_iff (h : s.Sound ts) (ts' : List Nat) : s.Waiting ts' ↔ ts' = ts := by
  constructor
  · exact fun h' => Holds.unique h' h.waits.holds
  · rintro rfl
    exact h.waits.holds

theorem Sound.step {a : SemAction} (h : s.Sound ts) (hallowed : s.Allowed a) (hsafe : s.Safe a)
    (hstep : s.Step a s') : ∃ ts', s'.Sound ts' := by
  have hbalance := h.balance
  cases a with
  | acquire t id count flags timeout sig_kill =>
    cases hacquire : s.sem.acquire_sem_etc t id count flags timeout sig_kill with
    | mk result sem =>
      obtain ⟨rest, hrest, hunits⟩ :=
        Sem.acquire_sem_etc_spec h.waits (hallowed ts h.waits.holds) hacquire
      simp only [Step, hacquire] at hstep
      subst hstep
      refine ⟨rest, hrest, ?_⟩
      show s.initial + s.released = sem.count +
        (if result = .returns B_NO_ERROR then s.held + count else s.held) +
        total sem.sem_acquire_count rest
      split at hunits
      · rename_i hresult
        rw [if_pos hresult]
        omega
      · rename_i hresult
        rw [if_neg hresult]
        omega
  | release id count =>
    obtain ⟨fuel, err, sem, queue, woken, hrelease, hqueue, rfl⟩ := hstep
    obtain ⟨rest, hrest, hunits, hcount⟩ := Sem.release_sem_etc_spec h.waits hrelease hqueue
    refine ⟨rest, hrest, ?_⟩
    show s.initial + (if err = B_NO_ERROR then s.released + count else s.released) =
      sem.count + (s.held + sem.succeeded woken) + total sem.sem_acquire_count rest
    split at hcount
    · rename_i herr
      rw [if_pos herr]
      omega
    · rename_i herr
      rw [if_neg herr]
      omega
  | remove t sem_errcode =>
    obtain ⟨fuel, err, sem, queue, woken, hremove, hqueue, rfl⟩ := hstep
    by_cases ht : t ∈ ts
    · obtain ⟨pre, post, rfl⟩ := append_of_mem ht
      obtain ⟨hwaits, hcount, hasked, hnone⟩ := Sem.remove_spec h.waits hallowed
        (hsafe _ h.waits.holds ht) hremove hqueue
      refine ⟨pre ++ post, hwaits, ?_⟩
      show s.initial + s.released = sem.count + (s.held + sem.succeeded woken) +
        total sem.sem_acquire_count (pre ++ post)
      rw [total_append, total_cons] at hbalance
      rw [hasked, hnone, total_append]
      omega
    · obtain ⟨rfl, rfl⟩ := Sem.remove_nothing h.waits ht hremove
      obtain rfl := hqueue.unique holds_nil
      refine ⟨ts, h.waits, ?_⟩
      show s.initial + s.released = s.sem.count + (s.held + 0) + total s.sem.sem_acquire_count ts
      omega
  | schedule t q_next =>
    obtain rfl := hstep
    refine ⟨ts, ⟨h.waits.holds.congr fun x hx => update_of_ne ?_ .., h.waits.owed,
      h.waits.noError⟩, hbalance⟩
    rintro rfl
    exact hallowed ts h.waits.holds hx

theorem Sound.init (h : s.Init) : s.Sound [] := by
  obtain ⟨hcount, hinitial, hq, hreleased, hheld⟩ := h
  refine ⟨⟨?_, ⟨fun _ => by omega, fun h => absurd rfl h, nofun, nofun⟩, nofun⟩, ?_⟩
  · rw [hq]
    exact holds_nil
  · rw [hreleased, hheld, total_nil]
    omega

/-- A removal that does not meet the condition loses units. -/
theorem Sound.not_conserved (h : s.Sound ts) {t : Nat} {sem_errcode : SemError}
    (hallowed : s.Allowed (.remove t sem_errcode)) (hsafe : ¬ s.Safe (.remove t sem_errcode))
    (hstep : s.Step (.remove t sem_errcode) s') : ¬ s'.Conserved := by
  rintro ⟨ts', hts', hconserved⟩
  obtain ⟨fuel, err, sem, queue, woken, hremove, hqueue, rfl⟩ := hstep
  have hbad : t ∈ ts ∧ s.sem.setAside t ≠ 0 ∧ ts ≠ [t] := by
    by_contra hnot
    refine hsafe fun ts₁ hts₁ ht => ?_
    obtain rfl := (h.waiting_iff ts₁).mp hts₁
    by_contra hneither
    rw [not_or] at hneither
    exact hnot ⟨ht, hneither⟩
  obtain ⟨ht, haside, hmore⟩ := hbad
  have hpart : s.sem.sem_acquire_count t ≠ s.sem.sem_count t := by
    rw [Sem.setAside] at haside
    omega
  obtain ⟨post, rfl⟩ := h.waits.owed.head_of_part ht hpart
  have hpost : post ≠ [] := by
    rintro rfl
    exact hmore rfl
  obtain ⟨served, rest, rfl, hrest, hsucceeded, hasked, hcount⟩ :=
    Sem.remove_bad h.waits hallowed haside hpost hremove hqueue
  obtain rfl : ts' = rest := Holds.unique hts' hrest
  have hnonneg := hconserved.nonneg
  rcases hcount with ⟨hle, hne | hlt⟩ | ⟨-, hlt, hne⟩
  · exact hne (hnonneg.mp hle)
  · obtain rfl := hnonneg.mp hle
    have hbalance := h.balance
    have hbalance' := hconserved.balance
    simp only [append_nil, total_cons, total_nil, hsucceeded] at hbalance hbalance'
    have hmax : max sem.count 0 = sem.count := Int.max_eq_left hle
    rw [hmax] at hbalance'
    omega
  · exact hne (hconserved.neg hlt)

end SemSystem

/-- In every run whose removals meet the condition, the units are conserved; and a removal that does
not meet it loses some. -/
theorem sem_units_conserved {s : SemSystem}
    (h : Reachable.By SemSystem.Init (fun s a => s.Allowed a ∧ s.Safe a) SemSystem.Step s) :
    s.Conserved ∧ ∀ t sem_errcode s', s.Allowed (.remove t sem_errcode) →
      s.Step (.remove t sem_errcode) s' → (s'.Conserved ↔ s.Safe (.remove t sem_errcode)) := by
  have hsound : ∃ ts, s.Sound ts := by
    apply h.invariant fun s => ∃ ts, s.Sound ts
    · exact fun s hs => ⟨[], SemSystem.Sound.init hs⟩
    · rintro s a s' ⟨ts, hs⟩ ⟨hallowed, hsafe⟩ hstep
      exact hs.step hallowed hsafe hstep
  obtain ⟨ts, hs⟩ := hsound
  refine ⟨⟨ts, hs.waits.holds, hs.conserved⟩, fun t sem_errcode s' hallowed hstep => ⟨?_, ?_⟩⟩
  · intro hconserved
    by_contra hsafe
    exact hs.not_conserved hallowed hsafe hstep hconserved
  · intro hsafe
    obtain ⟨ts', hs'⟩ := hs.step hallowed hsafe hstep
    exact ⟨ts', hs'.waits.holds, hs'.conserved⟩

/-! ## A run on one semaphore -/

namespace SemSystem

/-- A new semaphore with one unit. -/
def oneUnit : SemSystem :=
  { sem :=
      { id := 0
        count := 1
        q := ⟨none, none⟩
        q_next := fun _ => none
        thread := fun _ => ⟨THREAD_STATE_RUNNING, THREAD_STATE_RUNNING, 0, -1, 0, 0, 0, B_NO_ERROR⟩ }
    initial := 1
    released := 0
    held := 0 }

/-- Thread 0 asks for two units; the one there is is set aside for it. -/
def waitingOnce : SemSystem :=
  { oneUnit with sem := (oneUnit.sem.acquire_sem_etc 0 0 2 0 0 false).2 }

/-- Thread 1 asks for one unit. -/
def waitingTwice : SemSystem :=
  { waitingOnce with sem := (waitingOnce.sem.acquire_sem_etc 1 0 1 0 0 false).2 }

/-- Thread 0 times out. -/
def timedOut : SemSystem :=
  { waitingTwice with
    sem := ((waitingTwice.sem.remove_thread_from_sem 1 0 ⟨none, none⟩ B_TIMED_OUT).map
      fun (_, sem, _) => sem).getD waitingTwice.sem }

theorem init_oneUnit : oneUnit.Init := ⟨rfl, by decide, rfl, rfl, rfl⟩

theorem holds_waitingOnce : waitingOnce.Waiting [0] := ⟨⟨rfl, rfl⟩, rfl, nodup_singleton 0⟩

theorem reachable_waitingOnce :
    Reachable.By Init (fun s a => s.Allowed a ∧ s.Safe a) Step waitingOnce := by
  refine .step (.init init_oneUnit) (a := .acquire 0 0 2 0 0 false) ⟨fun ts hts => ?_, trivial⟩ rfl
  rw [Holds.unique hts holds_nil]
  exact not_mem_nil

end SemSystem

/-- The theorem at a thread that waits alone, with a unit set aside for it. -/
theorem sem_units_conserved_waiting : SemSystem.waitingOnce.Conserved :=
  (sem_units_conserved SemSystem.reachable_waitingOnce).1

/-- A thread times out in front of another one: the unit set aside for it is lost, and the other one
goes on waiting although the count is zero. -/
theorem sem_units_lost :
    ¬ ∀ s, Reachable.By SemSystem.Init SemSystem.Allowed SemSystem.Step s → s.Conserved := by
  intro hall
  have honce : Reachable.By SemSystem.Init SemSystem.Allowed SemSystem.Step
      SemSystem.waitingOnce := SemSystem.reachable_waitingOnce.mono fun _ _ hok => hok.1
  have htwice : Reachable.By SemSystem.Init SemSystem.Allowed SemSystem.Step
      SemSystem.waitingTwice := by
    refine .step honce (a := .acquire 1 0 1 0 0 false) (fun ts hts => ?_) rfl
    rw [Holds.unique hts SemSystem.holds_waitingOnce]
    decide
  have htimeout : Reachable.By SemSystem.Init SemSystem.Allowed SemSystem.Step
      SemSystem.timedOut := by
    refine .step htwice (a := .remove 0 B_TIMED_OUT) nofun
      ⟨1, B_NO_ERROR, SemSystem.timedOut.sem, ⟨some 0, some 0⟩, [0], rfl, ?_, ?_⟩
    · exact ⟨⟨rfl, rfl⟩, rfl, nodup_singleton 0⟩
    · rfl
  obtain ⟨ts, hts, hconserved⟩ := hall _ htimeout
  have hwaiting : SemSystem.timedOut.Waiting [1] := ⟨⟨rfl, rfl⟩, rfl, nodup_singleton 1⟩
  rw [Holds.unique hts hwaiting] at hconserved
  cases hconserved.nonneg.mp (by decide)

end Kernel

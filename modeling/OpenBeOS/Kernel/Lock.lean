import OpenBeOS.Lib.Reachable
import OpenBeOS.Lib.Tally

/-! # Mutexes and recursive locks

The locks of `lock.c`, and any number of threads that use them. A step is one access to memory that
the threads share, or one call of the semaphore, which is taken to be a counting semaphore that wakes
any of the threads waiting for it. All `int` values are taken to be in range.
-/

namespace Kernel

open Tally Reachable Function Bool

/-! ## Mutexes -/

/-- Where a thread is: `locked` is between the two calls. -/
inductive MutexPc where
  | out
  | acquire_sem
  | asleep
  | locked
  | release_sem
  deriving DecidableEq

namespace MutexPc

def waits : MutexPc → Bool
  | .acquire_sem | .asleep => true
  | _ => false

def holds : MutexPc → Bool
  | .locked => true
  | _ => false

def sleeps : MutexPc → Bool
  | .asleep => true
  | _ => false

def releases : MutexPc → Bool
  | .release_sem => true
  | _ => false

end MutexPc

/-- A mutex, the value of its semaphore, and the threads below `threads`. -/
structure Mutex where
  count : Int
  sem : Int
  threads : Nat
  pc : Nat → MutexPc

inductive MutexAction where
  | mutex_lock (t : Nat)
  | acquire_sem (t : Nat)
  | mutex_unlock (t : Nat)
  | release_sem (t woken : Nat)

namespace Mutex

variable {m m' : Mutex} {t woken : Nat}

section

variable (m : Mutex)

def goto (t : Nat) (pc : MutexPc) : Mutex := { m with pc := update m.pc t pc }

/-- The atomic add, and what its result leads to. -/
def mutex_lock (t : Nat) : Mutex :=
  { m with count := m.count + 1 }.goto t (if m.count ≥ 1 then .acquire_sem else .locked)

def acquire_sem (t : Nat) : Mutex :=
  { m with sem := m.sem - 1 }.goto t (if m.sem - 1 < 0 then .asleep else .locked)

def mutex_unlock (t : Nat) : Mutex :=
  { m with count := m.count - 1 }.goto t (if m.count > 1 then .release_sem else .out)

def release_sem (t woken : Nat) : Mutex :=
  if m.sem < 0 then ({ m with sem := m.sem + 1 }.goto t .out).goto woken .locked
  else { m with sem := m.sem + 1 }.goto t .out

/-- A thread unlocks what it has locked. -/
def step : MutexAction → Option Mutex
  | .mutex_lock t => if t < m.threads ∧ m.pc t = .out then some (m.mutex_lock t) else none
  | .acquire_sem t => if t < m.threads ∧ m.pc t = .acquire_sem then some (m.acquire_sem t) else none
  | .mutex_unlock t => if t < m.threads ∧ m.pc t = .locked then some (m.mutex_unlock t) else none
  | .release_sem t woken =>
    if t < m.threads ∧ m.pc t = .release_sem ∧
        (m.sem < 0 → woken < m.threads ∧ m.pc woken = .asleep) then
      some (m.release_sem t woken)
    else none

def Step (a : MutexAction) (m' : Mutex) : Prop := m.step a = some m'

/-- `mutex_init`. -/
def Init : Prop := m.count = 0 ∧ m.sem = 0 ∧ ∀ t, m.pc t = .out

/-- How many threads are at one of the points. -/
def number (p : MutexPc → Bool) : Nat := tally m.threads fun t => p (m.pc t)

end

theorem number_goto (p : MutexPc → Bool) (pc : MutexPc) (ht : t < m.threads) :
    (m.goto t pc).number p + (p (m.pc t)).toNat = m.number p + (p pc).toNat := by
  have hsame : ∀ k, k ≠ t → p (update m.pc t pc k) = p (m.pc k) := fun k hk => by
    rw [update_of_ne hk]
  have hchange := tally_change ht hsame
  rw [update_self] at hchange
  exact hchange

theorem goto_of_ne {k : Nat} (pc : MutexPc) (hk : k ≠ t) : (m.goto t pc).pc k = m.pc k :=
  update_of_ne hk ..

/-! ## The invariant -/

/-- The right to hold the mutex is with the holder, with a thread that is about to release a unit, or
in the semaphore; it is nowhere as long as nobody has locked. -/
structure Balanced (m : Mutex) : Prop where
  count : m.count = m.number MutexPc.holds + m.number MutexPc.waits
  right : m.number MutexPc.holds + m.number MutexPc.releases + max m.sem 0 =
    if 0 < m.count then 1 else 0
  sleeping : m.number MutexPc.sleeps = max (-m.sem) 0

theorem Balanced.init (h : m.Init) : m.Balanced := by
  obtain ⟨hcount, hsem, hpc⟩ := h
  have hzero : ∀ p : MutexPc → Bool, p .out = false → m.number p = 0 := fun p hp =>
    tally_none fun t _ => by rw [hpc t, hp]
  refine ⟨?_, ?_, ?_⟩
  · rw [hzero _ rfl, hzero _ rfl, hcount]
    rfl
  · rw [hzero _ rfl, hzero _ rfl, hcount, hsem]
    rfl
  · rw [hzero _ rfl, hsem]
    rfl

theorem numbers_goto (pc : MutexPc) (ht : t < m.threads) {old : MutexPc} (hold : m.pc t = old) :
    (m.goto t pc).number MutexPc.holds + old.holds.toNat = m.number MutexPc.holds + pc.holds.toNat ∧
      (m.goto t pc).number MutexPc.waits + old.waits.toNat =
        m.number MutexPc.waits + pc.waits.toNat ∧
      (m.goto t pc).number MutexPc.releases + old.releases.toNat =
        m.number MutexPc.releases + pc.releases.toNat ∧
      (m.goto t pc).number MutexPc.sleeps + old.sleeps.toNat =
        m.number MutexPc.sleeps + pc.sleeps.toNat := by
  rw [← hold]
  exact ⟨number_goto _ pc ht, number_goto _ pc ht, number_goto _ pc ht, number_goto _ pc ht⟩

section

variable (h : m.Balanced) (ht : t < m.threads)
include h ht

theorem Balanced.goto {old : MutexPc} (hold : m.pc t = old)
    (pc : MutexPc) {count sem : Int}
    (hcount : count + old.holds.toNat + old.waits.toNat = m.count + pc.holds.toNat + pc.waits.toNat)
    (hright : max sem 0 + pc.holds.toNat + pc.releases.toNat + (if 0 < m.count then 1 else 0) =
      max m.sem 0 + old.holds.toNat + old.releases.toNat + if 0 < count then 1 else 0)
    (hsleeping : max (-sem) 0 + old.sleeps.toNat = max (-m.sem) 0 + pc.sleeps.toNat) :
    ({ m with count, sem }.goto t pc).Balanced := by
  obtain ⟨hholds, hwaits, hreleases, hsleeps⟩ := numbers_goto pc ht hold
  obtain ⟨hcount₀, hright₀, hsleeping₀⟩ := h
  refine ⟨?_, ?_, ?_⟩
  · show count = ((m.goto t pc).number MutexPc.holds : Int) + (m.goto t pc).number MutexPc.waits
    omega
  · show ((m.goto t pc).number MutexPc.holds : Int) + (m.goto t pc).number MutexPc.releases +
      max sem 0 = if 0 < count then 1 else 0
    omega
  · show ((m.goto t pc).number MutexPc.sleeps : Int) = max (-sem) 0
    omega

theorem Balanced.count_pos
    (hpc : (m.pc t).holds = true ∨ (m.pc t).releases = true) : 0 < m.count := by
  have hright := h.right
  have hpos : 0 < m.number MutexPc.holds ∨ 0 < m.number MutexPc.releases :=
    hpc.imp (tally_pos ht) (tally_pos ht)
  by_contra hnot
  rw [if_neg hnot] at hright
  omega

theorem Balanced.mutex_lock (hpc : m.pc t = .out) :
    (m.mutex_lock t).Balanced := by
  have hcount := h.count
  unfold Mutex.mutex_lock
  split
  · refine h.goto ht hpc .acquire_sem (by simp [MutexPc.holds, MutexPc.waits]) ?_ rfl
    rw [if_pos (by omega), if_pos (by omega)]
    rfl
  · refine h.goto ht hpc .locked (by simp [MutexPc.holds, MutexPc.waits]) ?_ rfl
    rw [if_neg (by omega), if_pos (by omega)]
    simp [MutexPc.holds, MutexPc.releases]

theorem Balanced.acquire_sem
    (hpc : m.pc t = .acquire_sem) : (m.acquire_sem t).Balanced := by
  unfold Mutex.acquire_sem
  split
  · refine h.goto ht hpc .asleep rfl ?_ ?_
    · have hnone : max (m.sem - 1) 0 = max m.sem 0 := by omega
      rw [hnone]
      rfl
    · simp only [MutexPc.sleeps, toNat_true, toNat_false]
      omega
  · refine h.goto ht hpc .locked (by simp [MutexPc.holds, MutexPc.waits]) ?_ ?_
    · simp only [MutexPc.holds, MutexPc.releases, toNat_true, toNat_false]
      omega
    · have hnone : max (-(m.sem - 1)) 0 = max (-m.sem) 0 := by omega
      rw [hnone]
      rfl

theorem Balanced.mutex_unlock (hpc : m.pc t = .locked) :
    (m.mutex_unlock t).Balanced := by
  have hpos := h.count_pos ht (Or.inl (by rw [hpc]; rfl))
  unfold Mutex.mutex_unlock
  split
  · refine h.goto ht hpc .release_sem (by simp [MutexPc.holds, MutexPc.waits]) ?_ rfl
    rw [if_pos (by omega), if_pos (by omega)]
    simp [MutexPc.holds, MutexPc.releases]
  · refine h.goto ht hpc .out (by simp [MutexPc.holds, MutexPc.waits]) ?_ rfl
    rw [if_pos (by omega), if_neg (by omega)]
    simp [MutexPc.holds, MutexPc.releases]

/-- The unit goes into the semaphore, or to a thread that sleeps. -/
theorem Balanced.release_sem (hpc : m.pc t = .release_sem)
    (hwoken : m.sem < 0 → woken < m.threads ∧ m.pc woken = .asleep) :
    (m.release_sem t woken).Balanced := by
  unfold Mutex.release_sem
  split
  · rename_i hneg
    obtain ⟨hwt, hwpc⟩ := hwoken hneg
    have hne : woken ≠ t := fun heq => by
      rw [heq, hpc] at hwpc
      cases hwpc
    have hwpc₁ : (m.goto t .out).pc woken = .asleep := (goto_of_ne .out hne).trans hwpc
    have hwt₁ : woken < (m.goto t .out).threads := hwt
    obtain ⟨hholds₁, hwaits₁, hreleases₁, hsleeps₁⟩ := numbers_goto .out ht hpc
    obtain ⟨hholds₂, hwaits₂, hreleases₂, hsleeps₂⟩ := numbers_goto .locked hwt₁ hwpc₁
    obtain ⟨hcount, hright, hsleeping⟩ := h
    simp only [MutexPc.holds, MutexPc.waits, MutexPc.releases, MutexPc.sleeps, toNat_true,
      toNat_false] at hholds₁ hwaits₁ hreleases₁ hsleeps₁ hholds₂ hwaits₂ hreleases₂ hsleeps₂
    refine ⟨?_, ?_, ?_⟩
    · show m.count = (((m.goto t .out).goto woken .locked).number MutexPc.holds : Int) +
        ((m.goto t .out).goto woken .locked).number MutexPc.waits
      omega
    · show (((m.goto t .out).goto woken .locked).number MutexPc.holds : Int) +
        ((m.goto t .out).goto woken .locked).number MutexPc.releases + max (m.sem + 1) 0 =
          if 0 < m.count then 1 else 0
      omega
    · show (((m.goto t .out).goto woken .locked).number MutexPc.sleeps : Int) = max (-(m.sem + 1)) 0
      omega
  · refine h.goto ht hpc .out rfl ?_ ?_
    · simp only [MutexPc.holds, MutexPc.releases, toNat_true, toNat_false]
      omega
    · have hnone : max (-(m.sem + 1)) 0 = max (-m.sem) 0 := by omega
      rw [hnone]
      rfl

end

theorem Balanced.step {a : MutexAction} (h : m.Balanced) (hstep : Step m a m') : m'.Balanced := by
  cases a with
  | mutex_lock t =>
    simp only [Step, Mutex.step] at hstep
    split at hstep
    · rename_i ht
      exact Option.some.inj hstep ▸ h.mutex_lock ht.1 ht.2
    · cases hstep
  | acquire_sem t =>
    simp only [Step, Mutex.step] at hstep
    split at hstep
    · rename_i ht
      exact Option.some.inj hstep ▸ h.acquire_sem ht.1 ht.2
    · cases hstep
  | mutex_unlock t =>
    simp only [Step, Mutex.step] at hstep
    split at hstep
    · rename_i ht
      exact Option.some.inj hstep ▸ h.mutex_unlock ht.1 ht.2
    · cases hstep
  | release_sem t woken =>
    simp only [Step, Mutex.step] at hstep
    split at hstep
    · rename_i ht
      exact Option.some.inj hstep ▸ h.release_sem ht.1 ht.2.1 ht.2.2
    · cases hstep

/-! ## What the mutex promises -/

structure Excludes (m : Mutex) : Prop where
  exclusive : ∀ t < m.threads, ∀ k < m.threads, m.pc t = .locked → m.pc k = .locked → t = k
  counted : m.count = m.number MutexPc.holds + m.number MutexPc.waits
  awake : ∀ t < m.threads, (m.pc t).waits = true →
    (∃ k < m.threads, m.pc k = .locked) ∨ 0 < m.sem ∨ ∃ k < m.threads, m.pc k = .release_sem

theorem Balanced.excludes (h : m.Balanced) : m.Excludes := by
  have hright := h.right
  have hcount := h.count
  refine ⟨fun t ht k hk hpct hpck => ?_, hcount, fun t ht hwaits => ?_⟩
  · have hone : tally m.threads (fun t => (m.pc t).holds) ≤ 1 := by
      show m.number MutexPc.holds ≤ 1
      split at hright <;> omega
    exact tally_unique hone ht hk (by rw [hpct]; rfl) (by rw [hpck]; rfl)
  · have hpos : 0 < m.number MutexPc.waits := tally_pos ht hwaits
    rw [if_pos (by omega)] at hright
    by_cases hholds : 0 < m.number MutexPc.holds
    · obtain ⟨k, hk, hpc⟩ := exists_of_tally_pos hholds
      refine Or.inl ⟨k, hk, ?_⟩
      cases hpck : m.pc k <;> rw [hpck] at hpc <;> first | rfl | cases hpc
    · by_cases hreleases : 0 < m.number MutexPc.releases
      · obtain ⟨k, hk, hpc⟩ := exists_of_tally_pos hreleases
        refine Or.inr (Or.inr ⟨k, hk, ?_⟩)
        cases hpck : m.pc k <;> rw [hpck] at hpc <;> first | rfl | cases hpc
      · exact Or.inr (Or.inl (by omega))

theorem excludes_of_run (h : By Init (fun _ _ => True) Step m) : m.Excludes :=
  (h.invariant Balanced (fun _ => .init) fun _ _ _ hm _ hstep => hm.step hstep).excludes

end Mutex

/-! ## Recursive locks -/

/-- Where a thread is. It loads `recursion` before it stores the next value. -/
inductive RecursivePc where
  | out
  | acquire_sem
  | asleep
  | acquired
  | loadLock
  | storeLock (recursion : Int)
  | loadUnlock
  | storeUnlock (recursion : Int)
  | clear
  | release_sem
  deriving DecidableEq

/-- A recursive lock, the value of its semaphore, and the threads below `threads`; `depth` has for
each thread by how many its locks exceed its unlocks. -/
structure RecursiveLock where
  holder : Int
  recursion : Int
  sem : Int
  threads : Nat
  pc : Nat → RecursivePc
  depth : Nat → Nat

inductive RecursiveAction where
  | recursive_lock_lock (t : Nat)
  | recursive_lock_unlock (t : Nat)
  | run (t woken : Nat)

namespace RecursiveLock

variable {l l' : RecursiveLock} {t woken : Nat}

section

variable (l : RecursiveLock)

def goto (t : Nat) (pc : RecursivePc) : RecursiveLock :=
  { l with pc := update l.pc t pc }

/-- The calls read `holder`. -/
def recursive_lock_lock (t : Nat) : RecursiveLock :=
  l.goto t (if (t : Int) ≠ l.holder then .acquire_sem else .loadLock)

/-- The panic has no result. -/
def recursive_lock_unlock (t : Nat) : Option RecursiveLock :=
  if (t : Int) ≠ l.holder then none else some (l.goto t .loadUnlock)

/-- The next access to memory, or call of the semaphore, of a thread that is in a call. -/
def run (t woken : Nat) : Option RecursiveLock :=
  match l.pc t with
  | .out | .asleep => none
  | .acquire_sem =>
    some ({ l with sem := l.sem - 1 }.goto t (if l.sem - 1 < 0 then .asleep else .acquired))
  | .acquired => some ({ l with holder := t }.goto t .loadLock)
  | .loadLock => some (l.goto t (.storeLock l.recursion))
  | .storeLock recursion =>
    some ({ l with
      recursion := recursion + 1
      depth := update l.depth t (l.depth t + 1) }.goto t .out)
  | .loadUnlock => some (l.goto t (.storeUnlock l.recursion))
  | .storeUnlock recursion =>
    some ({ l with
      recursion := recursion - 1
      depth := update l.depth t (l.depth t - 1) }.goto t
        (if recursion - 1 = 0 then .clear else .out))
  | .clear => some ({ l with holder := -1 }.goto t .release_sem)
  | .release_sem =>
    if l.sem < 0 then
      if woken < l.threads ∧ l.pc woken = .asleep then
        some (({ l with sem := l.sem + 1 }.goto t .out).goto woken .acquired)
      else none
    else some ({ l with sem := l.sem + 1 }.goto t .out)

/-- A thread unlocks what it has locked. -/
def step : RecursiveAction → Option RecursiveLock
  | .recursive_lock_lock t =>
    if t < l.threads ∧ l.pc t = .out then some (l.recursive_lock_lock t) else none
  | .recursive_lock_unlock t =>
    if t < l.threads ∧ l.pc t = .out ∧ 0 < l.depth t then l.recursive_lock_unlock t else none
  | .run t woken => if t < l.threads then l.run t woken else none

def Step (a : RecursiveAction) (l' : RecursiveLock) : Prop := l.step a = some l'

/-- `recursive_lock_create`. -/
def Init : Prop :=
  l.holder = -1 ∧ l.recursion = 0 ∧ l.sem = 1 ∧ ∀ t, l.pc t = .out ∧ l.depth t = 0

/-- The thread has the lock, from the unit that it gets to the one that it gives back. -/
def holds (t : Nat) : Bool :=
  match l.pc t with
  | .acquired | .loadLock | .storeLock _ | .loadUnlock | .storeUnlock _ | .clear => true
  | .out => 0 < l.depth t
  | _ => false

def sleeps (t : Nat) : Bool := l.pc t = .asleep

def releases (t : Nat) : Bool := l.pc t = .release_sem

/-- What the lock says when a thread is at a point. -/
def Placed (t : Nat) : RecursivePc → Prop
  | .out => l.depth t = 0 ∨ l.holder = t ∧ l.recursion = l.depth t
  | .acquire_sem | .asleep | .release_sem => l.depth t = 0
  | .acquired => l.depth t = 0 ∧ l.holder = -1 ∧ l.recursion = 0
  | .loadLock => l.holder = t ∧ l.recursion = l.depth t
  | .storeLock recursion => l.holder = t ∧ l.recursion = l.depth t ∧ recursion = l.recursion
  | .loadUnlock => l.holder = t ∧ l.recursion = l.depth t ∧ 0 < l.depth t
  | .storeUnlock recursion =>
    l.holder = t ∧ l.recursion = l.depth t ∧ 0 < l.depth t ∧ recursion = l.recursion
  | .clear => l.holder = t ∧ l.recursion = 0 ∧ l.depth t = 0

end

/-- There is one right to hold the lock, and the fields are those of its holder. -/
structure Sound (l : RecursiveLock) : Prop where
  right : tally l.threads l.holds + tally l.threads l.releases + max l.sem 0 = 1
  sleeping : tally l.threads l.sleeps = max (-l.sem) 0
  placed : ∀ t < l.threads, l.Placed t (l.pc t)
  free : (∀ t < l.threads, l.holds t = false) → l.holder = -1 ∧ l.recursion = 0

theorem Sound.init (h : l.Init) : l.Sound := by
  obtain ⟨hholder, hrecursion, hsem, hpc⟩ := h
  refine ⟨?_, ?_, fun t _ => ?_, fun _ => ⟨hholder, hrecursion⟩⟩
  · rw [tally_none fun t _ => ?_, tally_none fun t _ => ?_, hsem]
    · rfl
    · simp [releases, (hpc t).1]
    · simp [holds, hpc t]
  · rw [tally_none fun t _ => ?_, hsem]
    · rfl
    · simp [sleeps, (hpc t).1]
  · rw [(hpc t).1]
    exact Or.inl (hpc t).2

theorem Sound.unique (h : l.Sound) {k : Nat} (ht : t < l.threads) (hk : k < l.threads)
    (hholds : l.holds t = true) (hholds' : l.holds k = true) : t = k := by
  have hright := h.right
  exact tally_unique (by omega) ht hk hholds hholds'

theorem Placed.depth (h : l.Placed t (l.pc t)) (hholds : l.holds t = false) : l.depth t = 0 := by
  unfold holds at hholds
  cases hpc : l.pc t <;> rw [hpc] at h hholds
  case out => exact Nat.eq_zero_of_not_pos (of_decide_eq_false hholds)
  case acquire_sem | asleep | release_sem => exact h
  all_goals cases hholds

theorem Placed.holder (h : l.Placed t (l.pc t)) (hholds : l.holds t = true) :
    (l.holder = t ∨ l.holder = -1) ∧ l.recursion = l.depth t := by
  unfold holds at hholds
  cases hpc : l.pc t <;> rw [hpc] at h hholds
  case out =>
    have hpos := of_decide_eq_true hholds
    rcases h with hzero | ⟨hholder, hrecursion⟩
    · omega
    · exact ⟨Or.inl hholder, hrecursion⟩
  case acquired => exact ⟨Or.inr h.2.1, by rw [h.2.2, h.1]; rfl⟩
  case loadLock => exact ⟨Or.inl h.1, h.2⟩
  case storeLock => exact ⟨Or.inl h.1, h.2.1⟩
  case loadUnlock => exact ⟨Or.inl h.1, h.2.1⟩
  case storeUnlock => exact ⟨Or.inl h.1, h.2.1⟩
  case clear => exact ⟨Or.inl h.1, by rw [h.2.1, h.2.2]; rfl⟩
  all_goals cases hholds

theorem Sound.holds_of_holder (h : l.Sound) (hholder : l.holder = t) : l.holds t = true := by
  by_contra hnot
  have hnone : ∀ k < l.threads, l.holds k = false := by
    intro k hk
    by_contra hholds
    rw [not_eq_false] at hholds
    have hk' := (h.placed k hk).holder hholds
    have hkt : k = t := by omega
    exact hnot (hkt ▸ hholds)
  have hfree := (h.free hnone).1
  omega

/-- The others stay as they are. -/
def Others (l l' : RecursiveLock) (t : Nat) : Prop :=
  l'.threads = l.threads ∧ ∀ k, k ≠ t → l'.pc k = l.pc k ∧ l'.depth k = l.depth k

theorem Others.same {k : Nat} (h : Others l l' t) (hk : k ≠ t) :
    l'.holds k = l.holds k ∧ l'.releases k = l.releases k ∧ l'.sleeps k = l.sleeps k := by
  obtain ⟨hpc, hdepth⟩ := h.2 k hk
  unfold holds releases sleeps
  rw [hpc, hdepth]
  exact ⟨rfl, rfl, rfl⟩

/-- One thread moves: it has the lock before, or the fields stay as they are. -/
theorem Sound.move (h : l.Sound) (ht : t < l.threads) (hothers : Others l l' t)
    (hright : max l'.sem 0 + (l'.holds t).toNat + (l'.releases t).toNat =
      max l.sem 0 + (l.holds t).toNat + (l.releases t).toNat)
    (hsleeping : max (-l'.sem) 0 + (l.sleeps t).toNat = max (-l.sem) 0 + (l'.sleeps t).toNat)
    (hplaced : l'.Placed t (l'.pc t))
    (hfields : l'.holder = l.holder ∧ l'.recursion = l.recursion ∨ l.holds t = true)
    (hfree : l'.holds t = false →
      l'.holder = l.holder ∧ l'.recursion = l.recursion ∧ l.holds t = false ∨
        l'.holder = -1 ∧ l'.recursion = 0) : l'.Sound := by
  have hholds := tally_change ht fun k hk => (hothers.same hk).1
  have hreleases := tally_change ht fun k hk => (hothers.same hk).2.1
  have hsleeps := tally_change ht fun k hk => (hothers.same hk).2.2
  have hright₀ := h.right
  have hsleeping₀ := h.sleeping
  refine ⟨?_, ?_, fun k hk => ?_, fun hnone => ?_⟩
  · rw [hothers.1]
    omega
  · rw [hothers.1]
    omega
  · rw [hothers.1] at hk
    by_cases hkt : k = t
    · rw [hkt]
      exact hplaced
    · obtain ⟨hpc, hdepth⟩ := hothers.2 k hkt
      have hk₀ := h.placed k hk
      rcases hfields with ⟨hholder, hrecursion⟩ | hheld
      · unfold Placed at hk₀ ⊢
        rw [hpc, hdepth, hholder, hrecursion]
        exact hk₀
      · -- only `t` has the lock
        have hnot : l.holds k = false := by
          by_contra hholds
          exact hkt (h.unique hk ht (not_eq_false _ ▸ hholds) hheld)
        have hzero := hk₀.depth hnot
        unfold holds at hnot
        rw [hpc]
        cases hpck : l.pc k <;> rw [hpck] at hnot
        case out => exact Or.inl (hdepth.trans hzero)
        case acquire_sem | asleep | release_sem => exact hdepth.trans hzero
        all_goals cases hnot
  · rw [hothers.1] at hnone
    rcases hfree (hnone t ht) with ⟨hholder, hrecursion, hnot⟩ | hfree
    · rw [hholder, hrecursion]
      refine h.free fun k hk => ?_
      by_cases hkt : k = t
      · rw [hkt]
        exact hnot
      · rw [← (hothers.same hkt).1]
        exact hnone k hk
    · exact hfree

theorem others_goto (pc : RecursivePc) {holder recursion sem : Int} :
    Others l ({ l with holder, recursion, sem }.goto t pc) t :=
  ⟨rfl, fun _ hk => ⟨update_of_ne hk .., rfl⟩⟩

theorem goto_self (pc : RecursivePc) : (l.goto t pc).pc t = pc := update_self ..

section

variable (h : l.Sound) (ht : t < l.threads)
include h ht

theorem Sound.recursive_lock_lock (hpc : l.pc t = .out) :
    (l.recursive_lock_lock t).Sound := by
  have hplaced := h.placed t ht
  rw [hpc] at hplaced
  unfold RecursiveLock.recursive_lock_lock
  split
  · rename_i hholder
    have hdepth : l.depth t = 0 := hplaced.resolve_right fun hheld => hholder hheld.1.symm
    have hnot : l.holds t = false := by simp [holds, hpc, hdepth]
    refine h.move ht (others_goto _) ?_ ?_ ?_ (Or.inl ⟨rfl, rfl⟩) fun _ => Or.inl ⟨rfl, rfl, hnot⟩
    · simp [holds, releases, hpc, hdepth, goto]
    · simp [sleeps, hpc, goto]
    · rw [goto_self]
      exact hdepth
  · rename_i hholder
    have hholder' : l.holder = t := (not_not.mp hholder).symm
    have hheld := h.holds_of_holder hholder'
    have hfields := (h.placed t ht).holder hheld
    refine h.move ht (others_goto _) ?_ ?_ ?_ (Or.inl ⟨rfl, rfl⟩) fun hnot => ?_
    · rw [hheld]
      simp [holds, releases, hpc, goto]
    · simp [sleeps, hpc, goto]
    · rw [goto_self]
      exact ⟨hholder', hfields.2⟩
    · simp [holds, goto] at hnot

theorem Sound.recursive_lock_unlock (hpc : l.pc t = .out)
    (hdepth : 0 < l.depth t) :
    l.recursive_lock_unlock t = some (l.goto t .loadUnlock) ∧ (l.goto t .loadUnlock).Sound := by
  have hplaced := h.placed t ht
  rw [hpc] at hplaced
  have hfields : l.holder = t ∧ l.recursion = l.depth t :=
    hplaced.resolve_left (Nat.ne_of_gt hdepth)
  refine ⟨if_neg (not_not.mpr hfields.1.symm), ?_⟩
  refine h.move ht (others_goto _) ?_ ?_ ?_ (Or.inl ⟨rfl, rfl⟩) fun hnot => ?_
  · simp [holds, releases, hpc, hdepth, goto]
  · simp [sleeps, hpc, goto]
  · rw [goto_self]
    exact ⟨hfields.1, hfields.2, hdepth⟩
  · simp [holds, goto] at hnot

/-- The unit goes to a thread that sleeps. -/
theorem Sound.wake (hpc : l.pc t = .release_sem)
    (hneg : l.sem < 0) (hwt : woken < l.threads) (hwpc : l.pc woken = .asleep) :
    (({ l with sem := l.sem + 1 }.goto t .out).goto woken .acquired).Sound := by
  have hne : woken ≠ t := fun heq => by
    rw [heq, hpc] at hwpc
    cases hwpc
  have hplaced := h.placed t ht
  have hwplaced := h.placed woken hwt
  rw [hpc] at hplaced
  rw [hwpc] at hwplaced
  -- the thread that releases has the only right, so nobody has the lock
  have hright := h.right
  have hsleeping := h.sleeping
  have hreleases : l.releases t = true := by simp [releases, hpc]
  have hpos := tally_pos ht hreleases
  have hnone : ∀ k < l.threads, l.holds k = false := by
    intro k hk
    by_contra hholds
    have hheld := tally_pos hk (not_eq_false _ ▸ hholds)
    omega
  obtain ⟨hholder, hrecursion⟩ := h.free hnone
  have hfirst : Others l ({ l with sem := l.sem + 1 }.goto t .out) t := others_goto _
  have hsecond : Others ({ l with sem := l.sem + 1 }.goto t .out)
      (({ l with sem := l.sem + 1 }.goto t .out).goto woken .acquired) woken := others_goto _
  have hwoken₁ : ({ l with sem := l.sem + 1 }.goto t .out).pc woken = .asleep :=
    (hfirst.2 woken hne).1.trans hwpc
  have hwoken₂ : (({ l with sem := l.sem + 1 }.goto t .out).goto woken .acquired).pc woken =
      .acquired := goto_self _
  have ht₁ : ({ l with sem := l.sem + 1 }.goto t .out).pc t = .out := goto_self _
  have hholds₁ := tally_change ht fun k hk => (hfirst.same hk).1
  have hholds₂ := tally_change hwt fun k hk => (hsecond.same hk).1
  have hreleases₁ := tally_change ht fun k hk => (hfirst.same hk).2.1
  have hreleases₂ := tally_change hwt fun k hk => (hsecond.same hk).2.1
  have hsleeps₁ := tally_change ht fun k hk => (hfirst.same hk).2.2
  have hsleeps₂ := tally_change hwt fun k hk => (hsecond.same hk).2.2
  have hdepth : ({ l with sem := l.sem + 1 }.goto t .out).depth t = 0 := hplaced
  simp only [holds, hpc, hwoken₁, hwoken₂, ht₁, hdepth, decide_false, Nat.lt_irrefl,
    toNat_true, toNat_false] at hholds₁ hholds₂
  simp only [releases, hpc, hwoken₁, hwoken₂, ht₁, reduceCtorEq, decide_true, decide_false,
    toNat_true, toNat_false] at hreleases₁ hreleases₂
  simp only [sleeps, hpc, hwoken₁, hwoken₂, ht₁, reduceCtorEq, decide_true, decide_false,
    toNat_true, toNat_false] at hsleeps₁ hsleeps₂
  refine ⟨?_, ?_, fun k hk => ?_, fun hnot => ?_⟩
  · show ((tally l.threads _ : Nat) : Int) + (tally l.threads _ : Nat) + max (l.sem + 1) 0 = 1
    omega
  · show ((tally l.threads _ : Nat) : Int) = max (-(l.sem + 1)) 0
    omega
  · by_cases hkw : k = woken
    · rw [hkw, hwoken₂]
      exact ⟨hwplaced, hholder, hrecursion⟩
    · rw [(hsecond.2 k hkw).1]
      by_cases hkt : k = t
      · rw [hkt, ht₁]
        exact Or.inl hplaced
      · rw [(hfirst.2 k hkt).1]
        exact h.placed k hk
  · have hheld := hnot woken hwt
    simp only [holds, hwoken₂] at hheld
    cases hheld

theorem Sound.acquire_sem (hpc : l.pc t = .acquire_sem) :
    ({ l with sem := l.sem - 1 }.goto t
      (if l.sem - 1 < 0 then .asleep else .acquired)).Sound := by
  have hplaced := h.placed t ht
  rw [hpc] at hplaced
  have hnot : l.holds t = false := by simp [holds, hpc]
  split
  · refine h.move ht (others_goto _) ?_ ?_ ?_ (Or.inl ⟨rfl, rfl⟩) fun _ => Or.inl ⟨rfl, rfl, hnot⟩
    · show max (l.sem - 1) 0 + _ + _ = _
      have hnone : max (l.sem - 1) 0 = max l.sem 0 := by omega
      simp [holds, releases, hpc, goto, hnone]
    · show max (-(l.sem - 1)) 0 + _ = _
      simp [sleeps, hpc, goto]
      omega
    · rw [goto_self]
      exact hplaced
  · -- the unit was in the semaphore, so nobody has the lock
    have hright := h.right
    have hnone : ∀ k < l.threads, l.holds k = false := by
      intro k hk
      by_contra hholds
      have hheld := tally_pos hk (not_eq_false _ ▸ hholds)
      omega
    refine h.move ht (others_goto _) ?_ ?_ ?_ (Or.inl ⟨rfl, rfl⟩) fun _ => Or.inl ⟨rfl, rfl, hnot⟩
    · show max (l.sem - 1) 0 + _ + _ = _
      simp [holds, releases, hpc, goto]
      omega
    · show max (-(l.sem - 1)) 0 + _ = _
      simp [sleeps, hpc, goto]
      omega
    · rw [goto_self]
      exact ⟨hplaced, h.free hnone⟩

theorem Sound.carry (hheld : l.holds t = true)
    (hothers : Others l l' t) (hsem : l'.sem = l.sem) (hholds : l'.holds t = true)
    (hplaced : l'.Placed t (l'.pc t)) : l'.Sound := by
  have hawake : ∀ {l : RecursiveLock}, l.holds t = true →
      l.releases t = false ∧ l.sleeps t = false := by
    intro l hholds
    unfold releases sleeps
    unfold holds at hholds
    cases hpc : l.pc t <;> rw [hpc] at hholds <;> first | exact ⟨rfl, rfl⟩ | cases hholds
  refine h.move ht hothers ?_ ?_ hplaced (Or.inr hheld) fun hnot => ?_
  · rw [hsem, hheld, hholds, (hawake hheld).1, (hawake hholds).1]
  · rw [hsem, (hawake hheld).2, (hawake hholds).2]
  · rw [hholds] at hnot
    cases hnot

theorem Sound.run (hrun : l.run t woken = some l') :
    l'.Sound := by
  have hplaced := h.placed t ht
  unfold RecursiveLock.run at hrun
  generalize hpc : l.pc t = pc at hrun hplaced
  cases pc with
  | out | asleep =>
    cases hrun
  | acquire_sem =>
    exact Option.some.inj hrun ▸ h.acquire_sem ht hpc
  | acquired =>
    have hheld : l.holds t = true := by simp [holds, hpc]
    cases hrun
    refine h.carry ht hheld (others_goto _) rfl (by simp [holds, goto]) ?_
    rw [goto_self]
    refine ⟨rfl, ?_⟩
    show l.recursion = l.depth t
    rw [hplaced.2.2, hplaced.1]
    rfl
  | loadLock =>
    have hheld : l.holds t = true := by simp [holds, hpc]
    cases hrun
    refine h.carry ht hheld (others_goto _) rfl (by simp [holds, goto]) ?_
    rw [goto_self]
    exact ⟨hplaced.1, hplaced.2, rfl⟩
  | storeLock recursion =>
    have hheld : l.holds t = true := by simp [holds, hpc]
    cases hrun
    have hothers : Others l ({ l with
        recursion := recursion + 1
        depth := update l.depth t (l.depth t + 1) }.goto t .out) t :=
      ⟨rfl, fun k hk => ⟨update_of_ne hk .., update_of_ne hk ..⟩⟩
    refine h.carry ht hheld hothers rfl (by simp [holds, goto]) ?_
    rw [goto_self]
    refine Or.inr ⟨hplaced.1, ?_⟩
    show recursion + 1 = (update l.depth t (l.depth t + 1) t : Nat)
    rw [update_self, hplaced.2.2, hplaced.2.1]
    rfl
  | loadUnlock =>
    have hheld : l.holds t = true := by simp [holds, hpc]
    cases hrun
    refine h.carry ht hheld (others_goto _) rfl (by simp [holds, goto]) ?_
    rw [goto_self]
    exact ⟨hplaced.1, hplaced.2.1, hplaced.2.2, rfl⟩
  | storeUnlock recursion =>
    have hheld : l.holds t = true := by simp [holds, hpc]
    cases hrun
    obtain ⟨hholder, hrecursion, hdepth, rfl⟩ := hplaced
    have hothers : ∀ pc : RecursivePc, Others l ({ l with
        recursion := l.recursion - 1
        depth := update l.depth t (l.depth t - 1) }.goto t pc) t := fun pc =>
      ⟨rfl, fun k hk => ⟨update_of_ne hk .., update_of_ne hk ..⟩⟩
    split
    · rename_i hlast
      refine h.carry ht hheld (hothers .clear) rfl (by simp [holds, goto]) ?_
      rw [goto_self]
      refine ⟨hholder, hlast, ?_⟩
      show (update l.depth t (l.depth t - 1)) t = 0
      rw [update_self]
      omega
    · rename_i hmore
      have hleft : 0 < l.depth t - 1 := by omega
      refine h.carry ht hheld (hothers .out) rfl (by simp [holds, goto, hleft]) ?_
      rw [goto_self]
      refine Or.inr ⟨hholder, ?_⟩
      show l.recursion - 1 = (update l.depth t (l.depth t - 1) t : Nat)
      rw [update_self]
      omega
  | clear =>
    have hheld : l.holds t = true := by simp [holds, hpc]
    cases hrun
    refine h.move ht (others_goto _) ?_ ?_ ?_ (Or.inr hheld) fun _ => Or.inr ⟨rfl, hplaced.2.1⟩
    · rw [hheld]
      simp [holds, releases, hpc, goto]
    · simp [sleeps, hpc, goto]
    · rw [goto_self]
      exact hplaced.2.2
  | release_sem =>
    dsimp only at hrun
    split at hrun
    · rename_i hneg
      split at hrun
      · rename_i hwoken
        exact Option.some.inj hrun ▸ h.wake ht hpc hneg hwoken.1 hwoken.2
      · cases hrun
    · rename_i hnonneg
      have hnot : l.holds t = false := by simp [holds, hpc]
      have hdepth : l.depth t = 0 := hplaced
      cases hrun
      refine h.move ht (others_goto _) ?_ ?_ ?_ (Or.inl ⟨rfl, rfl⟩)
        fun _ => Or.inl ⟨rfl, rfl, hnot⟩
      · show max (l.sem + 1) 0 + _ + _ = _
        simp [holds, releases, hpc, goto, hdepth]
        omega
      · show max (-(l.sem + 1)) 0 + _ = _
        simp [sleeps, hpc, goto]
        omega
      · rw [goto_self]
        exact Or.inl hdepth

end

theorem Sound.step {a : RecursiveAction} (h : l.Sound) (hstep : Step l a l') : l'.Sound := by
  cases a with
  | recursive_lock_lock t =>
    simp only [Step, RecursiveLock.step] at hstep
    split at hstep
    · rename_i ht
      exact Option.some.inj hstep ▸ h.recursive_lock_lock ht.1 ht.2
    · cases hstep
  | recursive_lock_unlock t =>
    simp only [Step, RecursiveLock.step] at hstep
    split at hstep
    · rename_i ht
      obtain ⟨hunlock, hsound⟩ := h.recursive_lock_unlock ht.1 ht.2.1 ht.2.2
      exact Option.some.inj (hunlock.symm.trans hstep) ▸ hsound
    · cases hstep
  | run t woken =>
    simp only [Step, RecursiveLock.step] at hstep
    split at hstep
    · rename_i ht
      exact h.run ht hstep
    · cases hstep

/-! ## What the recursive lock promises -/

structure Excludes (l : RecursiveLock) : Prop where
  exclusive : ∀ t < l.threads, ∀ k < l.threads, l.holds t = true → l.holds k = true → t = k
  depth : ∀ t < l.threads, l.holds t = true → l.recursion = l.depth t
  free : (∀ t < l.threads, l.holds t = false) → l.holder = -1 ∧ l.recursion = 0

theorem excludes_of_run (h : By Init (fun _ _ => True) Step l) : l.Excludes := by
  have hsound := h.invariant Sound (fun _ => .init) fun _ _ _ hl _ hstep => hl.step hstep
  exact ⟨fun t ht k hk => hsound.unique ht hk,
    fun t ht hholds => ((hsound.placed t ht).holder hholds).2, hsound.free⟩

end RecursiveLock

/-! ## Both locks -/

/-- In every run of the locks, with any number of threads. -/
theorem locks_exclude {m : Mutex} {l : RecursiveLock}
    (hm : By Mutex.Init (fun _ _ => True) Mutex.Step m)
    (hl : By RecursiveLock.Init (fun _ _ => True) RecursiveLock.Step l) :
    m.Excludes ∧ l.Excludes :=
  ⟨Mutex.excludes_of_run hm, RecursiveLock.excludes_of_run hl⟩

/-- One thread sleeps while the other one has the lock, with the recursive lock taken twice. -/
theorem locks_exclude_two : ∃ (m : Mutex) (l : RecursiveLock), m.Excludes ∧ l.Excludes ∧
    m.count = 2 ∧ m.sem = -1 ∧ l.recursion = 2 ∧ l.sem = -1 := by
  have hm : (exec Mutex.step [.mutex_lock 0, .mutex_lock 1, .acquire_sem 1]
      ⟨0, 0, 2, fun _ => .out⟩).map (fun m => (m.count, m.sem)) = some (2, -1) := by decide
  have hl : (exec RecursiveLock.step [.recursive_lock_lock 0, .run 0 0, .run 0 0, .run 0 0, .run 0 0,
      .recursive_lock_lock 1, .run 1 0, .recursive_lock_lock 0, .run 0 0, .run 0 0]
      ⟨-1, 0, 1, 2, fun _ => .out, fun _ => 0⟩).map (fun l => (l.recursion, l.sem)) =
      some (2, -1) := by decide
  obtain ⟨m, hm, hcount⟩ := Option.map_eq_some_iff.mp hm
  obtain ⟨l, hl, hrecursion⟩ := Option.map_eq_some_iff.mp hl
  obtain ⟨hcount, hsem⟩ := Prod.mk.inj hcount
  obtain ⟨hrecursion, hsem'⟩ := Prod.mk.inj hrecursion
  have hexclude := locks_exclude
    (By.exec (fun _ _ _ h => ⟨trivial, h⟩) _ (.init ⟨rfl, rfl, fun _ => rfl⟩) hm)
    (By.exec (fun _ _ _ h => ⟨trivial, h⟩) _ (.init ⟨rfl, rfl, rfl, fun _ => ⟨rfl, rfl⟩⟩) hl)
  exact ⟨m, l, hexclude.1, hexclude.2, hcount, hsem, hrecursion, hsem'⟩

end Kernel

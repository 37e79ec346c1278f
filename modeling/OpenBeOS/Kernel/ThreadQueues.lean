import OpenBeOS.Kernel.ThreadQueue

/-! # Several queues of threads

All queues use the same field `q_next` of the threads. As long as no thread is in two of them, an
operation on one queue leaves the others as they are.
-/

namespace Kernel

open Chain Function

variable {κ : Type} {q_next q_next' : Nat → Option Nat} {q : κ → thread_queue}
  {lists : κ → List Nat} {k : κ} {t : Nat} {ts : List Nat}

/-- Each queue holds its list of threads, and no thread is in two queues. -/
structure Queues (q_next : Nat → Option Nat) (q : κ → thread_queue) (lists : κ → List Nat) :
    Prop where
  holds : ∀ k, Holds q_next (q k) (lists k)
  apart : ∀ k k', k ≠ k' → ∀ t ∈ lists k, t ∉ lists k'

theorem Queues.free (h : Queues q_next q lists) (ht : ∀ k, t ∉ lists k) (r : Option Nat) :
    Queues (update q_next t r) q lists := by
  refine ⟨fun k => (h.holds k).congr fun t' ht' => ?_, h.apart⟩
  refine update_of_ne ?_ ..
  rintro rfl
  exact ht k ht'

variable [DecidableEq κ]

theorem Queues.change (h : Queues q_next q lists) {q' : thread_queue}
    (hholds : Holds q_next' q' ts) (hsame : ∀ k', k' ≠ k → ∀ t ∈ lists k', q_next' t = q_next t)
    (hapart : ∀ t ∈ ts, ∀ k', k' ≠ k → t ∉ lists k') :
    Queues q_next' (update q k q') (update lists k ts) := by
  refine ⟨fun k' => ?_, apart_update h.apart fun t ht k' hk => hapart t ht k' (Ne.symm hk)⟩
  by_cases hk : k' = k
  · subst hk
    rw [update_self, update_self]
    exact hholds
  · rw [update_of_ne hk, update_of_ne hk]
    exact (h.holds k').congr (hsame k' hk)

theorem Queues.enqueue (h : Queues q_next q lists) (ht : ∀ k', t ∉ lists k') :
    Queues (thread_enqueue q_next t (q k)).2
      (update q k (thread_enqueue q_next t (q k)).1)
      (update lists k (lists k ++ [t])) := by
  refine h.change ((h.holds k).enqueue (ht k)) (fun k' hk t' ht' => ?_) fun t' ht' k' hk => ?_
  · refine thread_enqueue_q_next (h.holds k) ?_ (h.apart k' k hk t' ht')
    rintro rfl
    exact ht k' ht'
  · rcases List.mem_append.mp ht' with ht' | ht'
    · exact h.apart k k' (Ne.symm hk) t' ht'
    · rw [List.mem_singleton.mp ht']
      exact ht k'

theorem Queues.dequeue (h : Queues q_next q lists) (hlist : lists k = t :: ts) :
    (thread_dequeue q_next (q k)).1 = some t ∧
      Queues q_next (update q k (thread_dequeue q_next (q k)).2)
        (update lists k ts) := by
  have hholds := h.holds k
  rw [hlist] at hholds
  refine ⟨hholds.dequeue.1, h.change hholds.dequeue.2 (fun _ _ _ _ => rfl) fun t' ht' k' hk => ?_⟩
  refine h.apart k k' (Ne.symm hk) t' ?_
  rw [hlist]
  exact List.mem_cons_of_mem _ ht'

omit [DecidableEq κ] in
theorem Queues.dequeue_nil (h : Queues q_next q lists) (hlist : lists k = []) :
    thread_dequeue q_next (q k) = (none, q k) := by
  have hhead := (h.holds k).lookat
  rw [hlist] at hhead
  unfold thread_dequeue
  rw [show (q k).head = none from hhead]

omit [DecidableEq κ] in
theorem Queues.dequeue_some (h : Queues q_next q lists)
    (ht : (thread_dequeue q_next (q k)).1 = some t) : ∃ ts, lists k = t :: ts := by
  cases hlist : lists k with
  | nil =>
    rw [h.dequeue_nil hlist] at ht
    cases ht
  | cons t' ts =>
    have hholds := h.holds k
    rw [hlist] at hholds
    cases hholds.dequeue.1.symm.trans ht
    exact ⟨ts, rfl⟩

theorem Queues.dequeue_id {pre post : List Nat} (h : Queues q_next q lists)
    (hlist : lists k = pre ++ t :: post) {fuel : Nat} {found : Option Nat} {q' : thread_queue}
    (hdequeue : thread_dequeue_id fuel q_next (q k) t = some (found, q', q_next')) :
    found = some t ∧ Queues q_next' (update q k q') (update lists k (pre ++ post)) := by
  have hholds := h.holds k
  rw [hlist] at hholds
  obtain ⟨hfound, hholds', hsame⟩ := hholds.dequeue_id hdequeue
  have hmem : ∀ t' ∈ pre ++ post, t' ∈ lists k := fun t' ht' => by
    rw [hlist]
    exact (List.Sublist.append_left (List.sublist_cons_self _ _) _).subset ht'
  refine ⟨hfound, h.change hholds' (fun k' hk t' ht' => ?_) fun t' ht' k' hk => ?_⟩
  · exact hsame t' fun hin => h.apart k' k hk t' ht' (hmem t' hin)
  · exact h.apart k k' (Ne.symm hk) t' (hmem t' ht')

end Kernel

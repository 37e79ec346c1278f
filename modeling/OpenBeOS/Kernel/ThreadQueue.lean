import OpenBeOS.Lib.Chain

/-! # Queues of threads

The queues of `thread.c`, linked through the field `q_next` of the threads, a thread being given by
its id. `Holds` says which threads are in a queue.
-/

namespace Kernel

open Chain Function List

structure thread_queue where
  head : Option Nat
  tail : Option Nat
  deriving DecidableEq

/-- The queue, and the `q_next` of the threads behind an operation. -/
def thread_enqueue (q_next : Nat → Option Nat) (t : Nat) (q : thread_queue) :
    thread_queue × (Nat → Option Nat) :=
  match q.head, q.tail with
  | none, _ => (⟨some t, some t⟩, update q_next t none)
  | some head, some tail => (⟨some head, some t⟩, update (update q_next t none) tail (some t))
  | some head, none => (⟨some head, some t⟩, update q_next t none)

def thread_lookat_queue (q : thread_queue) : Option Nat := q.head

def thread_dequeue (q_next : Nat → Option Nat) (q : thread_queue) : Option Nat × thread_queue :=
  match q.head with
  | none => (none, q)
  | some t => (some t, ⟨q_next t, if q.tail = some t then none else q.tail⟩)

/-- The loop does not end without fuel. -/
def thread_dequeue_id (fuel : Nat) (q_next : Nat → Option Nat) (q : thread_queue) (thr_id : Nat) :
    Option (Option Nat × thread_queue × (Nat → Option Nat)) :=
  match walk q_next (fun t => t = thr_id) fuel none q.head with
  | none => none
  | some (_, none) => some (none, q, q_next)
  | some (last, some t) =>
    some (some t,
      ⟨if last = none then q_next t else q.head, if q.tail = some t then last else q.tail⟩,
      last.elim q_next fun last => update q_next last (q_next t))

/-- The queue holds the threads `ts`, the first one at its head. -/
structure Holds (q_next : Nat → Option Nat) (q : thread_queue) (ts : List Nat) : Prop where
  leads : Leads q_next q.head ts none
  tail : q.tail = ts.getLast?
  nodup : ts.Nodup

variable {q_next q_next' : Nat → Option Nat} {q q' : thread_queue} {ts : List Nat} {t : Nat}

theorem holds_nil : Holds q_next ⟨none, none⟩ [] := ⟨rfl, rfl, nodup_nil⟩

theorem Holds.unique {ts' : List Nat} (h : Holds q_next q ts) (h' : Holds q_next q ts') : ts = ts' :=
  h.leads.unique h'.leads

theorem Holds.congr (h : Holds q_next q ts) (hsame : ∀ t ∈ ts, q_next' t = q_next t) :
    Holds q_next' q ts :=
  ⟨h.leads.congr hsame, h.tail, h.nodup⟩

theorem Holds.enqueue (h : Holds q_next q ts) (ht : t ∉ ts) :
    Holds (thread_enqueue q_next t q).2 (thread_enqueue q_next t q).1 (ts ++ [t]) := by
  have hhead := h.leads.head
  have htail := h.tail
  have hleads := h.leads
  unfold thread_enqueue
  rcases eq_nil_or_concat ts with rfl | ⟨init, last, rfl⟩
  · rw [List.head?_nil] at hhead
    simp only [hhead]
    exact ⟨⟨rfl, update_self ..⟩, rfl, nodup_singleton t⟩
  · rw [concat_eq_append] at *
    rw [List.getLast?_concat] at htail
    have hnodup := nodup_append.mp h.nodup
    have hlast : last ∉ init := fun hmem => hnodup.2.2 last hmem last (mem_singleton_self _) rfl
    have hne : last ≠ t := by
      rintro rfl
      exact ht (mem_append_right _ (mem_singleton_self _))
    obtain ⟨first, hfirst⟩ : ∃ first, q.head = some first := by
      cases init with
      | nil => exact ⟨last, hleads.1⟩
      | cons x init => exact ⟨x, hleads.1⟩
    simp only [hfirst, htail]
    rw [hfirst] at hleads
    refine ⟨?_, ?_, ?_⟩
    · rw [append_assoc]
      exact (hleads.update ht).extend hlast (update_self ..) hne
    · rw [List.getLast?_concat]
    · rw [nodup_append_comm]
      exact nodup_cons.mpr ⟨ht, h.nodup⟩

theorem thread_enqueue_q_next (h : Holds q_next q ts) {t' : Nat} (hne : t' ≠ t) (ht' : t' ∉ ts) :
    (thread_enqueue q_next t q).2 t' = q_next t' := by
  have htail := h.tail
  unfold thread_enqueue
  split
  · exact update_of_ne hne ..
  · rename_i tail _ hlast
    rw [hlast] at htail
    have hne' : t' ≠ tail := by
      rintro rfl
      exact ht' (mem_of_getLast? htail.symm)
    simp only
    rw [update_of_ne hne', update_of_ne hne]
  · exact update_of_ne hne ..

theorem Holds.lookat (h : Holds q_next q ts) : thread_lookat_queue q = ts.head? := h.leads.head

theorem Holds.dequeue (h : Holds q_next q (t :: ts)) :
    (thread_dequeue q_next q).1 = some t ∧ Holds q_next (thread_dequeue q_next q).2 ts := by
  obtain ⟨hhead, hrest⟩ := h.leads
  have htail := h.tail
  unfold thread_dequeue
  rw [hhead]
  refine ⟨rfl, hrest, ?_, (nodup_cons.mp h.nodup).2⟩
  cases ts with
  | nil =>
    rw [List.getLast?_singleton] at htail
    exact if_pos htail
  | cons x ts =>
    rw [List.getLast?_cons_cons] at htail
    refine (if_neg ?_).trans htail
    rw [htail]
    exact fun hlast => (nodup_cons.mp h.nodup).1 (mem_of_getLast? hlast)

theorem Holds.dequeue_id_none (h : Holds q_next q ts) (ht : t ∉ ts) {fuel : Nat}
    {found : Option Nat} (hdequeue : thread_dequeue_id fuel q_next q t = some (found, q', q_next')) :
    found = none ∧ q' = q ∧ q_next' = q_next := by
  unfold thread_dequeue_id at hdequeue
  cases hwalk : walk q_next (fun t' => t' = t) fuel none q.head with
  | none =>
    rw [hwalk] at hdequeue
    cases hdequeue
  | some result =>
    obtain rfl := walk_find_none h.leads ht hwalk
    rw [hwalk] at hdequeue
    simp only [Option.some.injEq, Prod.mk.injEq] at hdequeue
    exact ⟨hdequeue.1.symm, hdequeue.2.1.symm, hdequeue.2.2.symm⟩

/-- A thread of the queue is taken out; the `q_next` of no other thread changes. -/
theorem Holds.dequeue_id {pre post : List Nat} (h : Holds q_next q (pre ++ t :: post)) {fuel : Nat}
    {found : Option Nat} (hdequeue : thread_dequeue_id fuel q_next q t = some (found, q', q_next')) :
    found = some t ∧ Holds q_next' q' (pre ++ post) ∧
      ∀ t', t' ∉ pre ++ post → q_next' t' = q_next t' := by
  have hnodup := h.nodup
  obtain ⟨-, hcons, hdisj⟩ := nodup_append.mp hnodup
  have hpre : t ∉ pre := fun hmem => hdisj t hmem t (mem_cons_self ..) rfl
  have hsub : (pre ++ post).Nodup :=
    hnodup.sublist (List.Sublist.append_left (sublist_cons_self _ _) _)
  unfold thread_dequeue_id at hdequeue
  cases hwalk : walk q_next (fun t' => t' = t) fuel none q.head with
  | none =>
    rw [hwalk] at hdequeue
    cases hdequeue
  | some result =>
    obtain rfl := walk_find h.leads hpre hwalk
    rw [hwalk] at hdequeue
    simp only [Option.some.injEq, Prod.mk.injEq] at hdequeue
    obtain ⟨rfl, rfl, rfl⟩ := hdequeue
    have htail : (if q.tail = some t then pre.getLast? else q.tail) = (pre ++ post).getLast? := by
      rw [h.tail]
      cases post with
      | nil => rw [List.getLast?_concat, if_pos rfl, append_nil]
      | cons x post =>
        have hmem : t ∉ x :: post := (nodup_cons.mp hcons).1
        obtain ⟨z, hz⟩ : ∃ z, (x :: post).getLast? = some z := ⟨_, List.getLast?_cons⟩
        have hzt : z ≠ t := by
          rintro rfl
          exact hmem (mem_of_getLast? hz)
        rw [List.getLast?_append, List.getLast?_append, List.getLast?_cons_cons, hz,
          Option.some_or, if_neg fun heq => hzt (Option.some.inj heq)]
    have hremove := h.leads.remove hnodup
    cases hlast : pre.getLast? with
    | none =>
      rw [hlast] at hremove htail
      rw [List.getLast?_eq_none_iff.mp hlast] at hremove htail hsub ⊢
      exact ⟨rfl, ⟨hremove, htail, hsub⟩, fun _ _ => rfl⟩
    | some w =>
      rw [hlast] at hremove htail
      refine ⟨rfl, ⟨?_, htail, hsub⟩, fun t' ht' => update_of_ne ?_ ..⟩
      · simpa using hremove
      · rintro rfl
        exact ht' (mem_append_left _ (mem_of_getLast? hlast))

end Kernel

import OpenBeOS.Kernel.Types
import OpenBeOS.Lib.Chain

/-! # The queues of physical pages

The page table of `vm_page.c` and the functions that move pages between its queues. A page is given
by its index in `all_pages`. `Linked` says which pages the pointers of the four queues link.
-/

namespace Kernel

open Chain Function List

/-! ## The page table -/

inductive PageState where
  | PAGE_STATE_ACTIVE
  | PAGE_STATE_INACTIVE
  | PAGE_STATE_BUSY
  | PAGE_STATE_MODIFIED
  | PAGE_STATE_FREE
  | PAGE_STATE_CLEAR
  | PAGE_STATE_WIRED
  | PAGE_STATE_UNUSED
  deriving DecidableEq

inductive QueueName where
  | page_free_queue
  | page_clear_queue
  | page_modified_queue
  | page_active_queue
  deriving DecidableEq

open PageState QueueName

structure page_queue where
  head : Option Nat
  tail : Option Nat
  count : Int
  deriving DecidableEq

/-- The static variables, and of each page what the queues need. `modified_pages_available` counts
the releases of the semaphore of that name. -/
structure PageTable where
  queue_prev : Nat → Option Nat
  queue_next : Nat → Option Nat
  state : Nat → PageState
  queues : QueueName → page_queue
  physical_page_offset : addr
  num_pages : addr
  modified_pages_available : Nat

namespace PageTable

/-- The last page of a queue is taken out. -/
def dequeue_page (t : PageTable) (q : QueueName) : Option Nat × PageTable :=
  match (t.queues q).tail with
  | none => (none, t)
  | some page =>
    (some page, { t with
        queue_next := match t.queue_prev page with
          | none => t.queue_next
          | some prev => update t.queue_next prev none
        queues := update t.queues q
          ⟨if (t.queues q).head = some page then none else (t.queues q).head,
            t.queue_prev page, (t.queues q).count - 1⟩ })

/-- A page becomes the first of a queue. -/
def enqueue_page (t : PageTable) (q : QueueName) (page : Nat) : PageTable :=
  { t with
    queue_prev := match (t.queues q).head with
      | none => update t.queue_prev page none
      | some head => update (update t.queue_prev head (some page)) page none
    queue_next := update t.queue_next page (t.queues q).head
    queues := update t.queues q
      ⟨some page, if (t.queues q).tail = none then some page else (t.queues q).tail,
        (t.queues q).count + 1⟩
    modified_pages_available :=
      if q = page_modified_queue ∧ (t.queues q).count + 1 = 1 then t.modified_pages_available + 1
      else t.modified_pages_available }

def remove_page_from_queue (t : PageTable) (q : QueueName) (page : Nat) : PageTable :=
  { t with
    queue_next := match t.queue_prev page with
      | none => t.queue_next
      | some prev => update t.queue_next prev (t.queue_next page)
    queue_prev := match t.queue_next page with
      | none => t.queue_prev
      | some next => update t.queue_prev next (t.queue_prev page)
    queues := update t.queues q
      ⟨match t.queue_prev page with
        | none => t.queue_next page
        | some _ => (t.queues q).head,
       match t.queue_next page with
        | none => t.queue_prev page
        | some _ => (t.queues q).tail,
       (t.queues q).count - 1⟩ }

def move_page_to_queue (t : PageTable) (from_q to_q : QueueName) (page : Nat) : PageTable :=
  if from_q ≠ to_q then (t.remove_page_from_queue from_q page).enqueue_page to_q page else t

def setState (t : PageTable) (page : Nat) (page_state : PageState) : PageTable :=
  { t with state := update t.state page page_state }

end PageTable

/-- The queue that `vm_page_set_state_nolock` assigns to a state. -/
def PageState.queue : PageState → QueueName
  | PAGE_STATE_BUSY => page_active_queue
  | PAGE_STATE_ACTIVE => page_active_queue
  | PAGE_STATE_INACTIVE => page_active_queue
  | PAGE_STATE_WIRED => page_active_queue
  | PAGE_STATE_UNUSED => page_active_queue
  | PAGE_STATE_MODIFIED => page_modified_queue
  | PAGE_STATE_FREE => page_free_queue
  | PAGE_STATE_CLEAR => page_clear_queue

def PageTable.vm_page_set_state_nolock (t : PageTable) (page : Nat) (page_state : PageState) :
    PageTable :=
  (t.move_page_to_queue (t.state page).queue page_state.queue page).setState page page_state

/-! ## What the queues hold -/

/-- The queues are doubly linked lists of the given pages, and no page is in two of them. -/
structure PageTable.Linked (t : PageTable) (pages : QueueName → List Nat) : Prop where
  next : ∀ q, Leads t.queue_next (t.queues q).head (pages q) none
  prev : ∀ q, Leads t.queue_prev (t.queues q).tail (pages q).reverse none
  nodup : ∀ q, (pages q).Nodup
  apart : ∀ q q', q ≠ q' → ∀ p ∈ pages q, p ∉ pages q'
  count : ∀ q, (t.queues q).count = (pages q).length

namespace PageTable

variable {t : PageTable} {pages : QueueName → List Nat}

theorem Linked.setState (h : t.Linked pages) (page : Nat) (page_state : PageState) :
    (t.setState page page_state).Linked pages :=
  ⟨h.next, h.prev, h.nodup, h.apart, h.count⟩

theorem Linked.tail_eq_none (h : t.Linked pages) (q : QueueName) :
    (t.queues q).tail = none ↔ pages q = [] := by
  rw [(h.prev q).head]
  simp

variable {page : Nat} {q : QueueName}

section

variable (h : t.Linked pages)
include h

theorem Linked.enqueue (q : QueueName)
    (hpage : ∀ q', page ∉ pages q') :
    (t.enqueue_page q page).Linked (update pages q (page :: pages q)) := by
  have hhead := (h.next q).head
  refine ⟨?_, ?_, nodup_update h.nodup (nodup_cons.mpr ⟨hpage q, h.nodup q⟩), ?_, ?_⟩
  · intro q'
    by_cases hq : q' = q
    · subst hq
      simp only [enqueue_page, update_self]
      exact (h.next q').push (hpage q')
    · simp only [enqueue_page, update_of_ne hq]
      exact (h.next q').update (hpage q')
  · intro q'
    by_cases hq : q' = q
    · subst hq
      simp only [enqueue_page, update_self, reverse_cons]
      cases hpages : pages q' with
      | nil =>
        have htail := (h.tail_eq_none q').mpr hpages
        rw [hpages, List.head?_nil] at hhead
        simp [hhead, htail, Leads]
      | cons first rest =>
        have htail : (t.queues q').tail ≠ none := by
          rw [ne_eq, h.tail_eq_none q', hpages]
          simp
        have hprev := h.prev q'
        have hnodup := h.nodup q'
        have hnew := hpage q'
        rw [hpages] at hhead hprev hnodup hnew
        rw [reverse_cons] at hprev ⊢
        rw [List.head?_cons] at hhead
        have hfirst : first ≠ page := fun heq => hnew (heq ▸ mem_cons_self ..)
        simp only [hhead, if_neg htail]
        rw [update_comm hfirst, append_assoc]
        refine (hprev.update ?_).extend ?_ (update_self ..) hfirst
        · simpa [or_comm] using hnew
        · exact fun hmem => (nodup_cons.mp hnodup).1 (mem_reverse.mp hmem)
    · simp only [enqueue_page, update_of_ne hq]
      have hq' : page ∉ (pages q').reverse := fun hmem => hpage q' (mem_reverse.mp hmem)
      cases hpages : pages q with
      | nil =>
        rw [hpages, List.head?_nil] at hhead
        simp only [hhead]
        exact (h.prev q').update hq'
      | cons first rest =>
        rw [hpages, List.head?_cons] at hhead
        simp only [hhead]
        refine ((h.prev q').update ?_).update hq'
        have hfirst := h.apart q q' (Ne.symm hq) first (by rw [hpages]; exact mem_cons_self ..)
        exact fun hmem => hfirst (mem_reverse.mp hmem)
  · apply apart_update h.apart
    intro p hp q' hq
    rcases mem_cons.mp hp with rfl | hp
    · exact hpage q'
    · exact h.apart q q' hq p hp
  · intro q'
    by_cases hq : q' = q
    · subst hq
      simp only [enqueue_page, update_self, h.count q', length_cons]
      omega
    · simp only [enqueue_page, update_of_ne hq, h.count q']

theorem Linked.pointers {xs ys : List Nat}
    (hpages : pages q = xs ++ page :: ys) :
    t.queue_next page = ys.head? ∧ t.queue_prev page = xs.getLast? := by
  constructor
  · have hnext := h.next q
    rw [hpages, leads_append_cons] at hnext
    exact hnext.2.head
  · have hprev := h.prev q
    rw [hpages, reverse_append, reverse_cons, append_assoc, singleton_append,
      leads_append_cons] at hprev
    rw [hprev.2.head, List.head?_reverse]

theorem Linked.remove {xs ys : List Nat}
    (hpages : pages q = xs ++ page :: ys) :
    (t.remove_page_from_queue q page).Linked (update pages q (xs ++ ys)) := by
  obtain ⟨hnextp, hprevp⟩ := h.pointers hpages
  have hnodup := h.nodup q
  have hnext := h.next q
  have hprev := h.prev q
  rw [hpages] at hnodup hnext hprev
  have hreverse : (xs ++ page :: ys).reverse = ys.reverse ++ page :: xs.reverse := by simp
  rw [hreverse] at hprev
  have hout : ∀ q', q' ≠ q → ∀ w ∈ xs ++ ys, w ∉ pages q' := by
    intro q' hq w hw
    apply h.apart q q' (Ne.symm hq)
    rw [hpages]
    exact (List.Sublist.append_left (sublist_cons_self _ _) _).subset hw
  refine ⟨?_, ?_, nodup_update h.nodup (hnodup.sublist ?_), apart_update h.apart ?_, ?_⟩
  · intro q'
    by_cases hq : q' = q
    · subst hq
      have hremove := hnext.remove hnodup
      simp only [remove_page_from_queue, update_self, hprevp]
      cases hw : xs.getLast? with
      | none | some w =>
        rw [hw] at hremove
        exact hremove
    · simp only [remove_page_from_queue, update_of_ne hq, hprevp]
      cases hw : xs.getLast? with
      | none => exact h.next q'
      | some w =>
        have hmem := mem_of_getLast? hw
        exact (h.next q').update (hout q' hq w (mem_append_left _ hmem))
  · intro q'
    by_cases hq : q' = q
    · subst hq
      have hremove := hprev.remove (by rw [← hreverse]; exact nodup_reverse.mpr hnodup)
      rw [List.getLast?_reverse] at hremove
      simp only [remove_page_from_queue, update_self, hnextp, reverse_append]
      cases hy : ys.head? with
      | none | some y =>
        rw [hy] at hremove
        exact hremove
    · simp only [remove_page_from_queue, update_of_ne hq, hnextp]
      cases hy : ys.head? with
      | none => exact h.prev q'
      | some y =>
        have hmem := mem_of_head? hy
        refine (h.prev q').update fun hin => ?_
        exact hout q' hq y (mem_append_right _ hmem) (mem_reverse.mp hin)
  · exact List.Sublist.append_left (sublist_cons_self _ _) _
  · exact fun p hp q' hq => hout q' (Ne.symm hq) p hp
  · intro q'
    by_cases hq : q' = q
    · subst hq
      simp only [remove_page_from_queue, update_self, h.count q', hpages,
        length_append, length_cons]
      omega
    · simp only [remove_page_from_queue, update_of_ne hq, h.count q']

/-- Taking out the last page is removing it. -/
theorem Linked.dequeue_eq {xs : List Nat}
    (hpages : pages q = xs ++ [page]) :
    t.dequeue_page q = (some page, t.remove_page_from_queue q page) := by
  obtain ⟨hnextp, hprevp⟩ := h.pointers hpages
  have hhead := (h.next q).head
  have htail := (h.prev q).head
  rw [hpages] at hhead htail
  rw [reverse_append, reverse_singleton, singleton_append, List.head?_cons] at htail
  rcases eq_nil_or_concat xs with rfl | ⟨init, w, rfl⟩
  · simp only [nil_append, List.head?_cons] at hhead
    simp [dequeue_page, remove_page_from_queue, htail, hhead, hnextp, hprevp]
  · have hne : (t.queues q).head ≠ some page := by
      have hnodup := h.nodup q
      rw [hpages] at hnodup
      rw [hhead]
      cases init with
      | nil | cons x init =>
        rintro ⟨⟩
        simp at hnodup
    rw [concat_eq_append, List.getLast?_concat] at hprevp
    simp [dequeue_page, remove_page_from_queue, htail, hne, hnextp, hprevp]

theorem Linked.dequeue_none (hpages : pages q = []) :
    t.dequeue_page q = (none, t) := by
  rw [dequeue_page, (h.tail_eq_none q).mpr hpages]

end

/-! ## The queue of a page -/

/-- The queues hold each page where `place` says, and nowhere if it says `none`. -/
def Filed (t : PageTable) (place : Nat → Option QueueName) : Prop :=
  ∃ pages, t.Linked pages ∧ ∀ q p, p ∈ pages q ↔ place p = some q

variable {place : Nat → Option QueueName}

section

variable (h : t.Filed place)
include h

theorem Filed.setState (page : Nat) (page_state : PageState) :
    (t.setState page page_state).Filed place := by
  obtain ⟨pages, hlinked, hmem⟩ := h
  exact ⟨pages, hlinked.setState page page_state, hmem⟩

theorem Filed.enqueue (q : QueueName) (hpage : place page = none) :
    (t.enqueue_page q page).Filed (update place page (some q)) := by
  obtain ⟨pages, hlinked, hmem⟩ := h
  have hout : ∀ q', page ∉ pages q' := by
    intro q' hin
    rw [hmem, hpage] at hin
    cases hin
  refine ⟨_, hlinked.enqueue q hout, ?_⟩
  intro q' p
  by_cases hp : p = page
  · rw [hp, update_self]
    by_cases hq : q' = q
    · simp [hq]
    · rw [update_of_ne hq]
      exact iff_of_false (hout q') fun heq => hq (Option.some.inj heq).symm
  · rw [update_of_ne hp, ← hmem]
    by_cases hq : q' = q
    · simp [hq, hp]
    · rw [update_of_ne hq]

theorem Filed.remove (hpage : place page = some q) :
    (t.remove_page_from_queue q page).Filed (update place page none) := by
  obtain ⟨pages, hlinked, hmem⟩ := h
  obtain ⟨xs, ys, hpages⟩ := append_of_mem ((hmem q page).mpr hpage)
  refine ⟨_, hlinked.remove hpages, ?_⟩
  have hnodup := hlinked.nodup q
  rw [hpages] at hnodup
  intro q' p
  by_cases hp : p = page
  · rw [hp, update_self]
    refine iff_of_false ?_ nofun
    by_cases hq : q' = q
    · rw [hq, update_self]
      exact (nodup_middle.mp hnodup |> nodup_cons.mp).1
    · rw [update_of_ne hq]
      exact hlinked.apart q q' (Ne.symm hq) page ((hmem q page).mpr hpage)
  · rw [update_of_ne hp, ← hmem]
    by_cases hq : q' = q
    · rw [hq, update_self, hpages]
      simp [hp]
    · rw [update_of_ne hq]

theorem Filed.move {from_q to_q : QueueName}
    (hpage : place page = some from_q) :
    (t.move_page_to_queue from_q to_q page).Filed (update place page (some to_q)) := by
  unfold move_page_to_queue
  split
  · have hmoved := (h.remove hpage).enqueue to_q (update_self ..)
    rwa [update_idem] at hmoved
  · rename_i heq
    rw [ne_eq, not_not] at heq
    rwa [← heq, ← hpage, update_eq_self]

theorem Filed.dequeue (q : QueueName) :
    t.dequeue_page q = (none, t) ∧ (∀ p, place p ≠ some q) ∨
    ∃ page, t.dequeue_page q = (some page, t.remove_page_from_queue q page) ∧
      place page = some q := by
  obtain ⟨pages, hlinked, hmem⟩ := h
  rcases eq_nil_or_concat (pages q) with hnil | ⟨xs, page, hpages⟩
  · refine Or.inl ⟨hlinked.dequeue_none hnil, fun p hp => ?_⟩
    rw [← hmem, hnil] at hp
    cases hp
  · rw [concat_eq_append] at hpages
    refine Or.inr ⟨page, hlinked.dequeue_eq hpages, ?_⟩
    rw [← hmem, hpages]
    simp

end

section

variable (t : PageTable) (q : QueueName) (page : Nat)

@[simp] theorem enqueue_page_state :
    (t.enqueue_page q page).state = t.state := rfl

@[simp] theorem enqueue_page_num_pages :
    (t.enqueue_page q page).num_pages = t.num_pages := rfl

@[simp] theorem remove_page_from_queue_state :
    (t.remove_page_from_queue q page).state = t.state := rfl

@[simp] theorem remove_page_from_queue_num_pages :
    (t.remove_page_from_queue q page).num_pages = t.num_pages := rfl

end

@[simp] theorem setState_state (t : PageTable) (page : Nat) (page_state : PageState) :
    (t.setState page page_state).state = update t.state page page_state := rfl

@[simp] theorem setState_num_pages (t : PageTable) (page : Nat) (page_state : PageState) :
    (t.setState page page_state).num_pages = t.num_pages := rfl

@[simp] theorem move_page_to_queue_state (t : PageTable) (from_q to_q : QueueName) (page : Nat) :
    (t.move_page_to_queue from_q to_q page).state = t.state := by
  unfold move_page_to_queue
  split <;> rfl

@[simp] theorem move_page_to_queue_num_pages (t : PageTable) (from_q to_q : QueueName)
    (page : Nat) : (t.move_page_to_queue from_q to_q page).num_pages = t.num_pages := by
  unfold move_page_to_queue
  split <;> rfl

theorem Filed.set_state (h : t.Filed place) (page_state : PageState)
    (hpage : place page = some (t.state page).queue) :
    (t.vm_page_set_state_nolock page page_state).Filed
      (update place page (some page_state.queue)) :=
  (h.move hpage).setState page page_state

end PageTable

end Kernel
